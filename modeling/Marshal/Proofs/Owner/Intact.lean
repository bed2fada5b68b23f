import Marshal.Proofs.Owner.Strings

/-! # Strings that stay

A boxed string is intact while its entry, its blocks and its text are there. Where every object has its blocks, nothing
that is done to other objects touches them: new objects get new blocks, vectors move within their own, and what is
dropped frees no block of an object that stays. So a string is intact until it is taken out.
-/
set_option autoImplicit false
namespace Marshal

open Step

namespace Table

variable {V : Type} {t t' : Table V}

/-- Objects have left the table and blocks have been freed; nothing else has changed. -/
structure Dwindles (t t' : Table V) : Prop where
  sheds : t.Sheds t'
  memory : t'.heap.memory = t.heap.memory
  live : t'.heap.live ⊆ t.heap.live

theorem dwindles_release (h : t.Dwindles t') (addr : UInt32) :
    t.Dwindles (exec (onHeap (Heap.release addr)) t').2 := by
  rw [exec_onHeap, Heap.exec_release]
  cases hFree : t'.heap.free? addr with
  | error r => exact ⟨h.sheds.trans (sheds_of_store rfl), h.memory, h.live⟩
  | ok h' =>
    refine ⟨h.sheds.trans (sheds_of_store rfl), (Heap.free?_memory hFree).trans h.memory, fun b hb => h.live ?_⟩
    unfold Heap.free? at hFree
    split at hFree
    · cases hFree
      exact hb
    · split at hFree <;> cases hFree
      exact (List.mem_filter.mp hb).1

theorem lasting_dwindles (t : Table V) : Lasting t.Dwindles := by
  refine ⟨fun t₁ t₂ hHeap hStore h => ⟨h.sheds.trans (sheds_of_store hStore), ?_, ?_⟩, fun addr _ h =>
    dwindles_release h addr⟩
  · rw [hHeap]
    exact h.memory
  · rw [hHeap]
    exact h.live

theorem dwindles_detach (t : Table V) (addr : UInt32) : Keeps t.Dwindles (detach addr) := by
  refine Keeps.bind (P := t.Dwindles) (fun t' h => ⟨h.sheds.trans (sheds_take addr t'), ?_, ?_⟩) fun e =>
    Keeps.bind ((lasting_dwindles t).release addr) fun _ => Keeps.pure e
  · rw [exec_onStore]
    rcases t'.store.take addr with _ | _ <;> exact h.memory
  · rw [exec_onStore]
    rcases t'.store.take addr with _ | _ <;> exact h.live

end Table

namespace Owner

variable {V : Type} {o o' : Owner V} {addr ptr : UInt32} {t : Text}

/-- The string at the address has its entry, its blocks and its text. -/
structure Intact (addr ptr : UInt32) (t : Text) (o : Owner V) : Prop where
  declared : stringType ∈ o.types
  entry : ∃ e ∈ o.table.store.entries, e.addr = addr ∧ e.typeId = typeNumber o.types stringType ∧
    e.value = .string ptr t.length.toUInt32
  heap : StringIn o.table.heap addr ptr t

theorem Intact.moved (hi : o.Intact addr ptr t) (hTypes : o.types <+: o'.types)
    (hEntry : ∀ e ∈ o.table.store.entries, e.addr = addr → e.value = .string ptr t.length.toUInt32 →
      ∃ e' ∈ o'.table.store.entries, e'.addr = e.addr ∧ e'.typeId = e.typeId ∧ e'.value = e.value)
    (hHeap : Heap.Keeps (stringBlocks addr ptr t) o.table.heap o'.table.heap) : o'.Intact addr ptr t := by
  obtain ⟨e, he, hAddr, hType, hValue⟩ := hi.entry
  obtain ⟨e', he', hAddr', hType', hValue'⟩ := hEntry e he hAddr hValue
  refine ⟨hTypes.subset hi.declared, ⟨e', he', hAddr'.trans hAddr, ?_, hValue'.trans hValue⟩, hi.heap.kept hHeap⟩
  rw [hType', hType, typeNumber_grow hTypes hi.declared]

theorem Intact.turned (hi : o.Intact addr ptr t) {h : Heap} {es : Entries V} (ht : o.Turned h es o')
    (hEntry : ∀ e ∈ o.table.store.entries, e.addr = addr → e.value = .string ptr t.length.toUInt32 → e ∈ es)
    (hHeap : Heap.Keeps (stringBlocks addr ptr t) o.table.heap h) : o'.Intact addr ptr t := by
  refine hi.moved (ht.types_eq ▸ List.prefix_rfl) (fun e he hAddr hValue => ?_) (ht.table.heap ▸ hHeap)
  exact ⟨e, ht.table.entries.mem_iff.mpr (hEntry e he hAddr hValue), rfl, rfl, rfl⟩

theorem StringIn.addr_mem {h : Heap} (hs : StringIn h addr ptr t) {b : Block} (hb : b ∈ stringBlocks addr ptr t) :
    b.addr ∈ addr :: Heap.blockAt ptr :=
  hs.addrs ▸ List.mem_map_of_mem hb

/-! ## Other objects -/

theorem exec_box_withType (hOpen : o.closed = false) (name : Text) (v : Object V) :
    exec (box name v) o = exec (box name v) { o with types := withType o.types name } := by
  have hBox : exec (box name v) o = exec (typeId name >>= fun id => onTable (Table.insert id v)) o := by
    rw [box, exec_bind_ok (exec_get o), hOpen]
    rfl
  rw [hBox, exec_bind_ok (exec_typeId name o)]
  exact (exec_box (o := { o with types := withType o.types name }) hOpen (mem_withType ..) v).symm

theorem Intact.withType (hi : o.Intact addr ptr t) (hv : o.table.heap.Valid) (name : Text) :
    Intact addr ptr t { o with types := Owner.withType o.types name } :=
  hi.moved (withType_grow ..) (fun e he _ _ => ⟨e, he, rfl, rfl, rfl⟩) (.refl hv)

theorem Intact.box (hi : o.Intact addr ptr t) (hs : o.Solvent []) (name : Text) (v : Object V) :
    (exec (box name v) o).2.Intact addr ptr t := by
  have hi₁ := hi.withType hs.table.valid name
  have hl₁ : Lodges { o with types := Owner.withType o.types name } :=
    ⟨hs.lodges.isOpen, hs.lodges.lodged⟩
  rw [exec_box_withType hs.isOpen]
  rcases exec_box_turned hl₁ (mem_withType ..) v with ⟨-, r, hExec⟩ | ⟨a, h, o', hExec, hBoxed, ht⟩
  · rwa [hExec]
  · rw [hExec]
    exact hi₁.turned ht (fun e he _ _ => List.mem_cons_of_mem _ he) (hBoxed.replaced.keeps fun _ _ => List.not_mem_nil)

theorem Intact.newString (hi : o.Intact addr ptr t) (hs : o.Solvent []) (data : List UInt8) :
    (exec (newString data) o).2.Intact addr ptr t := by
  rcases exec_newString_turned hs.lodges hi.declared data with
    ⟨why, h, hExec, hr, -⟩ | ⟨a, p, h, o', hExec, hStocked, ht⟩
  · rw [hExec]
    exact hi.turned (turned_withHeap o h) (fun e he _ _ => he) (hr.keeps fun _ _ => List.not_mem_nil)
  · rw [hExec]
    exact hi.turned ht (fun e he _ _ => List.mem_cons_of_mem _ he)
      (hStocked.replaced.keeps fun _ _ => List.not_mem_nil)

variable {a : UInt32} {e : Entry (Object V)}

theorem Intact.modify (hi : o.Intact addr ptr t) (hv : o.table.heap.Valid)
    {f : Entry (Object V) → Entry (Object V)} {table : Table (Object V)} (hHeap : table.heap = o.table.heap)
    (hStore : table.store = o.table.store.modify a f)
    (hf : ∀ e ∈ o.table.store.entries, e.addr = a →
      (f e).addr = e.addr ∧ (f e).typeId = e.typeId ∧ (f e).value = e.value) :
    Intact addr ptr t { o with table := table } := by
  have hSame : Heap.Keeps (stringBlocks addr ptr t) o.table.heap table.heap := by
    rw [hHeap]
    exact .refl hv
  refine hi.moved List.prefix_rfl (fun e he _ _ => ?_) hSame
  refine ⟨if e.addr = a then f e else e, ?_, ?_⟩
  · show _ ∈ table.store.entries
    rw [hStore]
    exact List.mem_map_of_mem (f := fun e => if e.addr = a then f e else e) he
  · split
    · exact hf e he ‹_›
    · exact ⟨rfl, rfl, rfl⟩

theorem Intact.borrow (hi : o.Intact addr ptr t) (hs : o.Solvent []) (a : UInt32) (kind : BorrowKind) :
    (exec (onTable (Table.borrow a kind)) o).2.Intact addr ptr t := by
  rw [exec_onTable]
  rcases o.table.exec_borrow_cases a kind with ⟨why, hExec, -⟩ | ⟨e, id, -, -, hExec⟩
  · rwa [hExec]
  · rw [hExec]
    refine hi.modify hs.table.valid (a := a) (f := (·.borrow kind)) rfl rfl fun e _ _ => ?_
    cases kind <;> exact ⟨rfl, rfl, rfl⟩

theorem Intact.giveBack (hi : o.Intact addr ptr t) (hs : o.Solvent []) (a : UInt32) (kind : BorrowKind) :
    (exec (onTable (Table.giveBack a kind)) o).2.Intact addr ptr t := by
  rw [exec_onTable]
  rcases o.table.exec_giveBack_cases a kind with ⟨hExec, -⟩ | ⟨e, e', id, hFound, hBack, hExec⟩
  · rwa [hExec]
  · rw [hExec]
    refine hi.modify hs.table.valid (a := a) (f := fun _ => e') rfl rfl fun x hx hAddr => ?_
    have hSame := Store.entry?_of_mem hs.table.addrs_nodup hx
    rw [hAddr, hFound] at hSame
    obtain ⟨hEq, hType⟩ := Entry.giveBack?_same hBack
    rw [← Option.some.inj hSame]
    exact ⟨hEq, hType, Entry.giveBack?_value hBack⟩

theorem Solvent.blocks_apart (hs : o.Solvent []) {e x : Entry (Object V)} {rest : Entries V}
    (hAt : o.table.store.entries.Perm (e :: rest)) (hx : x ∈ rest) (ha : a ∈ e.value.blocks) :
    a ∉ x.addr :: x.value.blocks := by
  have hNodup : (e.addr :: e.value.blocks ++ Entries.blocks rest).Nodup := (hs.lodges.lodged.perm hAt).blocks_nodup
  intro hMem
  refine List.disjoint_of_nodup_append hNodup (List.mem_cons_of_mem _ ha) ?_
  exact List.mem_flatMap.mpr ⟨x, hx, hMem⟩

theorem Intact.revalued (hi : o.Intact addr ptr t) (hs : o.Solvent []) {h : Heap} {e e' : Entry (Object V)}
    {rest : Entries V} (hAt : o.table.store.entries.Perm (e :: rest)) (hOther : string? e.value = none)
    (ht : o.Turned h (e' :: rest) o')
    (hr : Heap.Replaced o.table.heap e.value.blocks e'.value.blocks h) : o'.Intact addr ptr t := by
  have hRest : ∀ x ∈ o.table.store.entries, x.addr = addr → x.value = .string ptr t.length.toUInt32 → x ∈ rest := by
    intro x hx _ hValue
    rcases List.mem_cons.mp (hAt.mem_iff.mp hx) with rfl | hx
    · rw [hValue] at hOther
      cases hOther
    · exact hx
  refine hi.turned ht (fun x hx hAddr hValue => List.mem_cons_of_mem _ (hRest x hx hAddr hValue)) ?_
  obtain ⟨x, hx, hAddr, -, hValue⟩ := hi.entry
  refine hr.keeps fun b hb hMem => ?_
  have hApart := hs.blocks_apart hAt (hRest x hx hAddr hValue) hMem
  rw [hAddr, hValue] at hApart
  exact hApart (hi.heap.addr_mem hb)

theorem Intact.push {form : VecForm V} (hl : form.Lawful) {buf : Buffer} (v : Datum)
    (hi : o.Intact addr ptr t) (hs : o.Solvent []) (hFound : o.entry? a = some e)
    (hProject : form.project e.value = some buf) : (exec (form.pushTo a v buf) o).2.Intact addr ptr t := by
  obtain ⟨hValue, hFits⟩ := hl.found hs hFound hProject
  obtain ⟨rest, rfl, hAt, hNodup⟩ := hs.table.perm_of_found hFound
  rcases VecForm.exec_pushTo_cases hs.table.valid hNodup hAt hFits v with
    ⟨-, -, why, hExec⟩ | ⟨buf', h, o', hExec, hPushed, ht⟩
  · rwa [hExec]
  · rw [hExec]
    refine hi.revalued hs hAt (hValue ▸ hl.not_text buf) ht ?_
    rw [hValue, hl.blocks]
    show Heap.Replaced _ _ (form.inject buf').blocks h
    rw [hl.blocks]
    exact hPushed.replaced

theorem Intact.pop {form : VecForm V} (hl : form.Lawful) {buf : Buffer}
    (hi : o.Intact addr ptr t) (hs : o.Solvent []) (hFound : o.entry? a = some e)
    (hProject : form.project e.value = some buf) : (exec (form.popFrom a buf) o).2.Intact addr ptr t := by
  obtain ⟨hValue, hFits⟩ := hl.found hs hFound hProject
  obtain ⟨rest, rfl, hAt, hNodup⟩ := hs.table.perm_of_found hFound
  rcases VecForm.exec_popFrom_cases hs.table.valid hNodup hAt hFits with
    ⟨why, hExec, -⟩ | ⟨d, buf', o', hExec, hPopped, ht⟩
  · rwa [hExec]
  · rw [hExec]
    refine hi.revalued hs hAt (hValue ▸ hl.not_text buf) ht ?_
    rw [hValue, hl.blocks]
    show Heap.Replaced _ _ (form.inject buf').blocks _
    rw [hl.blocks, hPopped.blocks]
    exact .same hs.table.valid _

theorem Intact.setGuest {v : V} (g : V) (hi : o.Intact addr ptr t)
    (hs : o.Solvent []) (hFound : o.entry? a = some e) (hValue : e.value = .guest v) :
    (exec (onTable (Table.setValue a (.guest g))) o).2.Intact addr ptr t := by
  obtain ⟨rest, rfl, hAt, hNodup⟩ := hs.table.perm_of_found hFound
  obtain ⟨o', hExec, ht⟩ := turned_onTable (Table.exec_setValue hNodup hAt (.guest g))
  rw [hExec]
  refine hi.revalued hs hAt (by rw [hValue]; rfl) ht ?_
  rw [hValue]
  exact .refl hs.table.valid

/-! ## Taking out -/

theorem Intact.dwindled (hi : o.Intact addr ptr t) (hs : o.Solvent []) {table : Table (Object V)}
    (hs' : Solvent [] { o with table := table }) (hd : o.table.Dwindles table) :
    Intact addr ptr t { o with table := table } ∨ table.store.entry? addr = none := by
  obtain ⟨e, he, rfl, hType, hValue⟩ := hi.entry
  have hFound := Store.entry?_of_mem hs.table.addrs_nodup he
  rcases hd.sheds e.addr with hSame | ⟨hGone, -⟩
  · rw [hFound] at hSame
    have he' := (Store.entry?_eq_some hSame).1
    refine .inl (hi.moved List.prefix_rfl (fun x hx hAddr hText => ?_) ?_)
    · have hEq := Store.entry?_of_mem hs.table.addrs_nodup hx
      rw [hAddr, hFound] at hEq
      exact ⟨x, Option.some.inj hEq ▸ he', rfl, rfl, rfl⟩
    · -- its addresses are live, and no address has another block than before
      refine ⟨hs'.table.valid, fun b hb hBefore => ?_, fun b _ _ i _ => by rw [hd.memory]⟩
      have hMem : b.addr ∈ e.addr :: e.value.blocks := by
        rw [hValue]
        exact hi.heap.addr_mem hb
      have hLive := hs'.lodges.lodged.live (List.mem_flatMap.mpr ⟨e, he', hMem⟩)
      obtain ⟨c, hc, hEq⟩ := Heap.mem_addrs_iff.mp hLive
      exact hs.table.valid.live_ext (hd.live hc) hBefore hEq ▸ hc
  · exact .inr hGone

/-- Every object has its blocks, and the string is intact or was taken out. -/
def Watches (addr ptr : UInt32) (t : Text) (o : Owner V) : Prop :=
  o.Solvent [] ∧ (o.Intact addr ptr t ∨ o.entry? addr = none)

theorem Intact.drop (hi : o.Intact addr ptr t) (hs : o.Solvent []) (a : UInt32) :
    (exec (drop a) o).2.Watches addr ptr t := by
  have hs' := solvent_drop a o hs
  have hDrop : exec (Owner.drop a) o = exec (onTable (Object.dropWith (Table.remove o.destroyer) a)) o :=
    exec_bind_ok (exec_get o)
  rw [hDrop, exec_onTable] at hs' ⊢
  refine ⟨hs', hi.dwindled hs hs' ?_⟩
  have hRemove := Object.keeps_remove (Table.lasting_dwindles o.table) (Table.dwindles_detach o.table)
    o.closed (o.table.store.size + 1)
  exact Object.keeps_dropWith hRemove a o.table ⟨Table.sheds_of_store rfl, rfl, List.Subset.refl _⟩

theorem Intact.unbox (hi : o.Intact addr ptr t) (hs : o.Solvent []) (a : UInt32) :
    (exec (unbox a) o).2.Watches addr ptr t := by
  have hs' := solvent_unbox a o hs
  rw [Owner.unbox, exec_onTable] at hs' ⊢
  refine ⟨hs', hi.dwindled hs hs' ?_⟩
  have hl := Table.lasting_dwindles o.table
  refine Keeps.bind (Table.dwindles_detach o.table a) (fun e => ?_) o.table
    ⟨Table.sheds_of_store rfl, rfl, List.Subset.refl _⟩
  exact Keeps.bind (Keeps.modify fun t₁ h => hl.same t₁ _ rfl rfl h) fun _ => Keeps.pure _

/-! ## Runs -/

/-- Others neither free the blocks nor write into them. -/
def Action.Leaves (blocks : List Block) : Action V → Prop
  | useHeap c => c.Spares blocks
  | _ => True

/-- The owner has published functions and served actions that freed no block of an object directly, left the given
blocks alone and left an object at the address. -/
inductive Retains (addr : UInt32) (blocks : List Block) (o : Owner V) : Owner V → Prop
  | start : Retains addr blocks o o
  | act {o' : Owner V} (a : Action V) (hRun : Retains addr blocks o o') (hSpares : a.Spares o')
      (hLeaves : a.Leaves blocks) (hHeld : Owner.entry? (exec a.run o').2 addr ≠ none) :
      Retains addr blocks o (exec a.run o').2
  | publish {o' : Owner V} (name : Text) (f : Export V) (hRun : Retains addr blocks o o') :
      Retains addr blocks o (exec (exportAs name f) o').2

end Owner

end Marshal
