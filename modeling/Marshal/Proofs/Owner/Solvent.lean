import Marshal.Proofs.Object.Solvent
import Marshal.Proofs.Owner.Walk

/-! # Solvent owners

Whatever is done with an open owner from outside, its table stays solvent: any function may be called with any
arguments, and a call may answer, stop, or leave borrows behind. What is not allowed is to free the blocks of objects
behind the owner's back.
-/
set_option autoImplicit false
namespace Marshal

open Step

theorem HeapUse.live_of_use {h : Heap} (hv : h.Valid) {b : Block} (hb : b ∈ h.live) {c : HeapUse}
    (hFree : ∀ addr, c = .free addr → b.addr ≠ addr) : b ∈ (exec c.perform h).2.live := by
  have hKept : c.Spares [b] → b ∈ (exec c.perform h).2.live := fun hSpares =>
    (Heap.keeps_use hv hSpares).live b List.mem_cons_self hb
  cases c with
  | alloc size align => exact hKept trivial
  | free addr => exact hKept (List.forall_mem_singleton.mpr (hFree addr rfl))
  | write offset data =>
    rw [perform, Heap.exec_change]
    cases h.memory.write offset data <;> exact hb
  | grow delta => exact hKept trivial

namespace Owner

variable {V α β : Type} {o o' : Owner V} {loose : List UInt32}

structure Solvent (loose : List UInt32) (o : Owner V) : Prop where
  isOpen : o.closed = false
  table : o.table.Solvent loose

theorem Solvent.same (hs : o.Solvent loose) (hClosed : o'.closed = o.closed) (hTable : o'.table = o.table) :
    o'.Solvent loose :=
  ⟨hClosed.trans hs.isOpen, hTable ▸ hs.table⟩

theorem solvent_onTable {x : Step (Table (Object V)) α} (hx : Keeps (Table.Solvent loose) x) :
    Keeps (Solvent loose) (onTable x) := by
  intro o hs
  rw [exec_onTable]
  exact ⟨hs.isOpen, hx o.table hs.table⟩

theorem solvent_typeId (name : Text) : Keeps (Solvent (V := V) loose) (typeId name) := by
  intro o hs
  rw [exec_typeId]
  exact hs.same rfl rfl

/-! ## Boxing -/

theorem exec_box_solvent {v : Object V} (hs : o.Solvent (v.blocks ++ loose)) (hFits : v.Fits o.table.heap)
    (name : Text) :
    (∃ r o', exec (box name v) o = (.error (.refused (.report r)), o') ∧ o'.Solvent (v.blocks ++ loose)) ∨
      ∃ addr o', exec (box name v) o = (.ok addr, o') ∧ o'.Solvent loose := by
  have hBox : exec (box name v) o = exec (typeId name >>= fun id => onTable (Table.insert id v)) o := by
    rw [box, exec_bind_ok (exec_get o), hs.isOpen]
    rfl
  rw [hBox, exec_bind_ok (exec_typeId name o), exec_onTable]
  rcases Table.exec_insert_solvent hs.table hFits (typeNumber (withType o.types name) name) with
    ⟨r, hExec⟩ | ⟨addr, t, hExec, ht⟩
  · refine .inl ⟨r, { o with types := withType o.types name }, ?_, hs.same rfl rfl⟩
    rw [hExec]
  · refine .inr ⟨addr, { o with types := withType o.types name, table := t }, ?_, hs.isOpen, ht⟩
    rw [hExec]

theorem solvent_box (name : Text) {v : Object V} (hBare : v.IsBare) : Keeps (Solvent loose) (box name v) := by
  intro o hs
  have hs' : o.Solvent (v.blocks ++ loose) := by rwa [hBare.blocks]
  rcases exec_box_solvent hs' (hBare.fits _) name with ⟨r, o', hExec, ho⟩ | ⟨addr, o', hExec, ho⟩
  · rw [hExec]
    rwa [hBare.blocks] at ho
  · rwa [hExec]

theorem Solvent.withHeap (old : List UInt32) {new : List UInt32} (hs : o.Solvent (old ++ loose)) {h : Heap}
    (hr : Heap.Replaced o.table.heap old new h) : (o.withHeap h).Solvent (new ++ loose) :=
  ⟨hs.isOpen, hs.table.withHeap old hr⟩

theorem solvent_newString (data : List UInt8) : Keeps (Solvent (V := V) loose) (newString data) := by
  intro o hs
  rcases Heap.exec_allocateBytes_cases hs.table.valid data with ⟨why, h, hAlloc, hr, -⟩ | ⟨ptr, h, hAlloc, hc⟩
  · rw [newString, exec_bind_error (exec_trapRefusal_refused (exec_onHeap hAlloc))]
    exact hs.withHeap [] hr
  · have hText := hs.withHeap [] hc.replaced
    rw [newString, exec_bind_ok (exec_trapRefusal_ok (exec_onHeap hAlloc))]
    rcases exec_box_solvent (v := .string ptr data.length.toUInt32) hText trivial stringType with
      ⟨r, o₁, hBox, hs₁⟩ | ⟨addr, o₁, hBox, hs₁⟩
    · obtain ⟨h₁, hRelease, hr₁, -⟩ := Heap.exec_release_blockAt hs₁.table.valid hs₁.table.loose_live
      rw [exec_bind_ok (exec_attempt_refused hBox)]
      simp only [exec_bind_ok (exec_onHeap hRelease)]
      exact hs₁.withHeap _ hr₁
    · rw [exec_bind_ok (exec_attempt_ok hBox)]
      exact hs₁

/-! ## Dropping and taking -/

theorem solvent_drop (addr : UInt32) : Keeps (Solvent (V := V) loose) (drop addr) := by
  apply Keeps.get_bind
  intro o hs
  exact solvent_onTable (Object.keeps_dropWith (Object.solvent_remove _ _ loose) addr) o hs

theorem solvent_unbox (addr : UInt32) : Keeps (Solvent (V := V) loose) (unbox addr) :=
  solvent_onTable (Table.solvent_take addr)

/-! ## Values under a borrow -/

variable {addr : UInt32}

theorem Solvent.turned {h : Heap} {e e' : Entry (Object V)} {rest : Entries V} (hs : o.Solvent loose)
    (hAt : o.table.store.entries.Perm (e :: rest)) (ht : o.Turned h (e' :: rest) o') (hAddr : e'.addr = e.addr)
    (hr : Heap.Replaced o.table.heap e.value.blocks e'.value.blocks h) (hFits : e'.value.Fits h) : o'.Solvent loose :=
  ⟨ht.closed_eq.trans hs.isOpen, hs.table.turned hAt ht.table hAddr hr hFits⟩

namespace VecForm

variable {form : VecForm V}

variable {e : Entry (Object V)} {buf : Buffer}

theorem Lawful.found (hl : form.Lawful) (hs : o.Solvent loose)
    (hFound : o.entry? addr = some e) (hProject : form.project e.value = some buf) :
    e.value = form.inject buf ∧ buf.Fits o.table.heap form.elem := by
  have hValue := hl.inject _ _ hProject
  refine ⟨hValue, ?_⟩
  rw [← hl.fits, ← hValue]
  exact hs.table.fits e (Store.entry?_eq_some hFound).1

theorem exec_pushTo_solvent (hl : form.Lawful) (v : Datum)
    (hs : o.Solvent loose) (hFound : o.entry? addr = some e) (hProject : form.project e.value = some buf) :
    (exec (form.pushTo addr v buf) o).2.Solvent loose := by
  obtain ⟨hValue, hFits⟩ := hl.found hs hFound hProject
  obtain ⟨rest, rfl, hAt, hNodup⟩ := hs.table.perm_of_found hFound
  rcases exec_pushTo_cases hs.table.valid hNodup hAt hFits v with
    ⟨-, -, why, hExec⟩ | ⟨buf', h', o', hExec, hPushed, ht⟩
  · rwa [hExec]
  · rw [hExec]
    refine hs.turned hAt ht rfl ?_ ((hl.fits _ _).mpr hPushed.fits)
    rw [hValue, hl.blocks, hl.blocks]
    exact hPushed.replaced

theorem exec_popFrom_solvent (hl : form.Lawful) (hs : o.Solvent loose)
    (hFound : o.entry? addr = some e) (hProject : form.project e.value = some buf) :
    (exec (form.popFrom addr buf) o).2.Solvent loose := by
  obtain ⟨hValue, hFits⟩ := hl.found hs hFound hProject
  obtain ⟨rest, rfl, hAt, hNodup⟩ := hs.table.perm_of_found hFound
  rcases exec_popFrom_cases hs.table.valid hNodup hAt hFits with
    ⟨why, hExec, -⟩ | ⟨d, buf', o', hExec, hPopped, ht⟩
  · rwa [hExec]
  · rw [hExec]
    refine hs.turned hAt ht rfl ?_ ((hl.fits _ _).mpr (hPopped.fits hFits))
    rw [hValue, hl.blocks, hl.blocks, hPopped.blocks]
    exact .same hs.table.valid _

end VecForm

theorem exec_setGuest_solvent {e : Entry (Object V)} {v g : V} (hs : o.Solvent loose) (hFound : o.entry? addr = some e)
    (hValue : e.value = .guest v) : (exec (onTable (Table.setValue addr (.guest g))) o).2.Solvent loose := by
  obtain ⟨rest, rfl, hAt, hNodup⟩ := hs.table.perm_of_found hFound
  obtain ⟨o', hExec, ht⟩ := turned_onTable (Table.exec_setValue hNodup hAt (.guest g))
  rw [hExec]
  refine hs.turned hAt ht rfl ?_ trivial
  rw [hValue]
  exact .refl hs.table.valid

theorem solvent_walk (loose : List UInt32) : Walk (Solvent (V := V) loose) (Solvent loose) where
  weaken _ hs := hs
  typeId := solvent_typeId
  box := solvent_box
  newString := solvent_newString
  borrow addr kind := solvent_onTable (Table.solvent_borrow addr kind)
  giveBack addr kind := solvent_onTable (Table.solvent_giveBack addr kind)
  push hl _ _ _ _ v := VecForm.exec_pushTo_solvent hl v
  pop hl _ _ _ _ := VecForm.exec_popFrom_solvent hl
  setGuest _ := exec_setGuest_solvent
  drop addr _ := solvent_drop addr _
  unbox addr _ := solvent_unbox addr _
  note _ := solvent_onTable (Keeps.modify fun _ hs => hs.same rfl rfl rfl)

theorem solvent_inward (loose : List UInt32) : Inward (Solvent (V := V) loose) :=
  fun hTable _ hClosed hs => hs.same hClosed hTable

/-! ## Runs -/

theorem Solvent.lodges (hs : o.Solvent loose) : o.Lodges := by
  obtain ⟨spare, ht⟩ := hs.table.accounted
  exact ⟨⟨hs.isOpen, hs.table.isOpen⟩, ht.valid, loose ++ spare, ht.cells⟩

theorem Solvent.use (hs : o.Solvent []) {c : HeapUse}
    (hFree : ∀ addr, c = .free addr → addr ∉ Entries.blocks o.table.store.entries) :
    (o.withHeap (exec c.perform o.table.heap).2).Solvent [] := by
  obtain ⟨hValid, spare, hCells⟩ := hs.lodges.lodged.use c hFree
  refine ⟨hs.isOpen, hs.table.isOpen, spare, hValid, hCells, ?_⟩
  intro e he
  refine (hs.table.fits e he).of_live fun b hb hOwn => ?_
  apply c.live_of_use hs.table.valid hb
  rintro addr hc rfl
  exact hFree b.addr hc (List.mem_flatMap.mpr ⟨e, he, List.mem_cons_of_mem _ hOwn⟩)

namespace Action

def Spares (o : Owner V) : Action V → Prop
  | useHeap (.free addr) => addr ∉ Entries.blocks o.table.store.entries
  | _ => True

theorem run_solvent (hs : o.Solvent []) {a : Action V} (hSpares : a.Spares o) : (exec a.run o).2.Solvent [] := by
  refine (solvent_walk []).act (solvent_inward []) hs ?_
  rintro c rfl
  refine hs.use ?_
  rintro addr rfl
  exact hSpares

end Action

/-- The owner has served actions that freed no block of an object directly. -/
inductive Served (o : Owner V) : Owner V → Prop
  | start : Served o o
  | act {o' : Owner V} (a : Action V) (hServed : Served o o') (hSpares : a.Spares o') : Served o (exec a.run o').2

theorem Served.solvent (hServed : o.Served o') (hs : o.Solvent []) : o'.Solvent [] := by
  induction hServed with
  | start => exact hs
  | act a _ hSpares ih => exact a.run_solvent ih hSpares

theorem solvent_create (config : Config) (hCreate : create config = .ok o)
    (hLimit : o.table.heap.memory.maxPages ≤ 65535) : o.Solvent [] := by
  obtain ⟨-, hOpen, m, hPages, hTable⟩ := create_fresh hCreate
  rw [hTable] at hLimit
  refine ⟨hOpen, ?_⟩
  rw [hTable]
  exact ⟨⟨rfl, rfl⟩, [], Heap.Valid.of_memory hPages hLimit, .refl _, List.forall_mem_nil _⟩

end Owner

end Marshal
