import Marshal.Proofs.Heap.Low
import Marshal.Proofs.Owner.Typed

/-! # Properties of heap and objects

Some properties hold of an owner whatever is done with it, even if blocks of its objects are freed behind its back: one
of the heap that survives every use of it, and one of the boxed objects that survives every use of the heap and whenever
a type is declared. An `Upkeep` is such a pair. It holds in every owner that is reached once it holds in a new one.
-/
set_option autoImplicit false
namespace Marshal

open Step

namespace Heap.Steady

variable {P : Heap → Prop}

theorem discard (hp : Steady P) (b : Buffer) : Step.Keeps P b.discard := by
  unfold Buffer.discard
  split
  · exact Step.Keeps.pure ()
  · exact hp.release b.addr

theorem carry (hp : Steady P) (s : Scalar) (b : Buffer) (addr : UInt32) : Step.Keeps P (b.carry s addr) := by
  unfold Buffer.carry
  split
  · refine Step.Keeps.tryCatch (Step.Keeps.bind ?_ fun data => hp.write addr data) (hp.giveUp addr)
    intro h hh
    rcases exec_readBytes_cases h b.addr (b.len * s.size) with ⟨r, hRead⟩ | ⟨bytes, hRead⟩ <;> rwa [hRead]
  · exact Step.Keeps.pure ()

theorem move (hp : Steady P) (s : Scalar) (b : Buffer) (cap addr : UInt32) : Step.Keeps P (b.move s cap addr) :=
  Step.Keeps.bind (hp.carry s b addr) fun _ => Step.Keeps.bind (hp.discard b) fun _ => Step.Keeps.pure _

theorem grow (hp : Steady P) (s : Scalar) (b : Buffer) : Step.Keeps P (b.grow s) := by
  intro h hh
  rcases Buffer.exec_grow h s b with ⟨-, r, hExec⟩ | ⟨-, hExec⟩
  · rwa [hExec]
  · rw [hExec]
    exact Step.Keeps.bind (hp.allocate _ _) (fun addr => hp.move s b _ addr) h hh

theorem append (hp : Steady P) (s : Scalar) (v : Datum) (b : Buffer) : Step.Keeps P (Buffer.append s v b) :=
  Step.Keeps.bind (hp.write _ _) fun _ => Step.Keeps.pure _

theorem push (hp : Steady P) (s : Scalar) (b : Buffer) (v : Datum) : Step.Keeps P (b.push s v) := by
  rw [Buffer.push_eq]
  split
  · exact Step.Keeps.bind (hp.grow s b) (hp.append s v)
  · exact Step.Keeps.bind (Step.Keeps.pure b) (hp.append s v)

end Heap.Steady

theorem Buffer.exec_pop_state (s : Scalar) (b : Buffer) (h : Heap) : (exec (b.pop s) h).2 = h := by
  unfold Buffer.pop
  split
  · rfl
  · have hState := b.exec_get?_state s (b.len - 1) h
    rw [exec_bind]
    generalize exec (b.get? s (b.len - 1)) h = out at hState ⊢
    rcases out with ⟨_ | _ | v, h'⟩ <;> exact hState

/-- A property of the heap and one of the boxed objects, given the declared types, the heap and the number of the
object's type. What is boxed has it, and a vector has it after a push or a pop, whatever its type. -/
structure Upkeep (V : Type) where
  heap : Heap → Prop
  object : List Text → Heap → UInt32 → Object V → Prop
  steady : Heap.Steady heap
  lasts : ∀ types id v, Heap.Steady fun h => heap h ∧ object types h id v
  declared : ∀ {types types' h id v}, types <+: types' → object types h id v → object types' h id v
  bare : ∀ {types h id v}, heap h → v.IsBare → object types h id v
  text : ∀ {types h h' data ptr}, Owner.stringType ∈ types → heap h →
    exec (Heap.allocateBytes data) h = (.ok ptr, h') →
    object types h' (typeNumber types Owner.stringType) (.string ptr data.length.toUInt32)
  push : ∀ {form : Owner.VecForm V}, form.Lawful → ∀ {types h h' id buf buf' v}, heap h →
    object types h id (form.inject buf) → exec (buf.push form.elem v) h = (.ok buf', h') →
    ∀ id, object types h' id (form.inject buf')
  pop : ∀ {form : Owner.VecForm V}, form.Lawful → ∀ {types h id buf buf' d}, heap h →
    object types h id (form.inject buf) → exec (buf.pop form.elem) h = (.ok (d, buf'), h) →
    ∀ id, object types h id (form.inject buf')

theorem Store.close_subset {V : Type} (s : Store V) : s.close.2.entries ⊆ s.entries := by
  unfold close
  split
  · exact List.Subset.refl _
  · exact List.nil_subset _

theorem Object.IsBare.not_text {V : Type} {v : Object V} (hBare : v.IsBare) : Owner.string? v = none := by
  cases hBare <;> rfl

namespace Upkeep

variable {V α : Type} {u : Upkeep V} {types : List Text} {t t' : Table (Object V)} {o : Owner V}

/-- The heap and every boxed object have the property. -/
structure Meets (u : Upkeep V) (types : List Text) (t : Table (Object V)) : Prop where
  heap : u.heap t.heap
  objects : ∀ e ∈ t.store.entries, u.object types t.heap e.typeId e.value

namespace Meets

theorem same (ht : u.Meets types t) (hHeap : t'.heap = t.heap) (hStore : t'.store = t.store) : u.Meets types t' := by
  refine ⟨hHeap ▸ ht.heap, ?_⟩
  rw [hHeap, hStore]
  exact ht.objects

theorem subset (ht : u.Meets types t) {s : Store (Object V)} (hs : s.entries ⊆ t.store.entries) :
    u.Meets types { t with store := s } :=
  ⟨ht.heap, fun e he => ht.objects e (hs he)⟩

theorem modify (ht : u.Meets types t) (addr : UInt32) {f : Entry (Object V) → Entry (Object V)}
    (hf : ∀ e ∈ t.store.entries, u.object types t.heap (f e).typeId (f e).value) :
    u.Meets types { t with store := t.store.modify addr f } := by
  refine ⟨ht.heap, List.forall_mem_map.mpr fun e he => ?_⟩
  split
  · exact hf e he
  · exact ht.objects e he

end Meets

/-! ## The table -/

theorem meets_onHeap {x : Step Heap α} (hx : ∀ {P : Heap → Prop}, Heap.Steady P → Step.Keeps P x) :
    Keeps (u.Meets types) (Table.onHeap x) := by
  intro t ht
  rw [Table.exec_onHeap]
  exact ⟨hx u.steady t.heap ht.heap, fun e he => (hx (u.lasts types _ _) t.heap ⟨ht.heap, ht.objects e he⟩).2⟩

theorem lasting (u : Upkeep V) (types : List Text) : Table.Lasting (u.Meets types) :=
  ⟨fun _ _ hHeap hStore ht => ht.same hHeap hStore, fun addr => meets_onHeap fun hp => hp.release addr⟩

variable {v : Object V}

theorem meets_setValue (ht : u.Meets types t) (addr : UInt32) (hv : ∀ id, u.object types t.heap id v) :
    u.Meets types (exec (Table.setValue addr v) t).2 := by
  rw [Table.setValue, exec_modify]
  exact ht.modify addr fun e _ => hv e.typeId

theorem meets_borrow (addr : UInt32) (kind : BorrowKind) : Keeps (u.Meets types) (Table.borrow addr kind) := by
  intro t ht
  rcases Table.exec_borrow_cases t addr kind with ⟨why, hExec, -⟩ | ⟨e, id, -, -, hExec⟩
  · rwa [hExec]
  · rw [hExec]
    refine (ht.modify addr (f := (·.borrow kind)) fun e he => ?_).same rfl rfl
    cases kind <;> exact ht.objects e he

theorem meets_giveBack (addr : UInt32) (kind : BorrowKind) : Keeps (u.Meets types) (Table.giveBack addr kind) := by
  intro t ht
  rcases Table.exec_giveBack_cases t addr kind with ⟨hExec, -⟩ | ⟨e, e', id, hFound, hBack, hExec⟩
  · rwa [hExec]
  · rw [hExec]
    refine (ht.modify addr (f := fun _ => e') fun _ _ => ?_).same rfl rfl
    rw [(Entry.giveBack?_same hBack).2, Entry.giveBack?_value hBack]
    exact ht.objects e (Store.entry?_eq_some hFound).1

theorem meets_detach (addr : UInt32) : Keeps (u.Meets types) (Table.detach addr) := by
  apply Keeps.bind
  · intro t ht
    rw [Table.exec_onStore, Store.take]
    cases hFound : t.store.entry? addr with
    | none => exact ht
    | some e =>
      cases hIdle : e.isBorrowed with
      | true =>
        simp only [hIdle, if_true]
        exact ht
      | false =>
        simp only [hIdle, Bool.false_eq_true, if_false]
        exact ht.subset fun e he => (List.mem_filter.mp he).1
  · intro e
    exact Keeps.bind ((u.lasting types).release addr) fun _ => Keeps.pure e

theorem meets_insert (ht : u.Meets types t) {id : UInt32} (hv : u.object types t.heap id v) :
    u.Meets types (exec (Table.insert id v) t).2 := by
  let P : Table (Object V) → Prop := fun t => u.Meets types t ∧ u.object types t.heap id v
  have hHeap : ∀ {α : Type} {x : Step Heap α}, (∀ {Q : Heap → Prop}, Heap.Steady Q → Step.Keeps Q x) →
      Keeps P (Table.onHeap x) := by
    intro α x hx t ht
    refine ⟨meets_onHeap hx t ht.1, ?_⟩
    rw [Table.exec_onHeap]
    exact (hx (u.lasts types id v) t.heap ⟨ht.1.heap, ht.2⟩).2
  have hFill : ∀ addr, Keeps P (Table.fill addr id v) := by
    intro addr
    refine Keeps.bind (hHeap fun hp => hp.write addr (Word.toBytes 4 id.toNat)) fun _ t ht => ?_
    rw [Table.exec_onStore]
    cases hPut : t.store.put addr id v with
    | error r => exact ht
    | ok s =>
      obtain ⟨-, -, rfl⟩ := Store.put_eq_ok hPut
      exact ⟨⟨ht.1.heap, List.forall_mem_cons.mpr ⟨ht.2, ht.1.objects⟩⟩, ht.2⟩
  have hGiveUp : ∀ addr (stop : Stop), Keeps P (do Table.onHeap (Heap.release addr); throw stop : Step _ Unit) :=
    fun addr stop => Keeps.bind (hHeap fun hp => hp.release addr) fun _ => Keeps.throw stop
  have hTell : ∀ event, Keeps P (Table.notify event) :=
    fun event => Keeps.modify fun _ ht => ⟨ht.1.same rfl rfl, ht.2⟩
  have hInsert : P (exec (Table.insert id v) t).2 := by
    cases hOpen : t.closed with
    | true =>
      rw [Table.insert, exec_bind_ok (exec_get t), hOpen]
      exact ⟨ht, hv⟩
    | false =>
      rw [Table.exec_insert hOpen]
      refine Keeps.bind (hHeap fun hp => hp.allocate _ _) (fun addr => ?_) t ⟨ht, hv⟩
      apply Keeps.bind (Keeps.tryCatch (hFill addr) (hGiveUp addr))
      intro _
      exact Keeps.bind (hTell _) fun _ => Keeps.pure addr
  exact hInsert.1

theorem meets_removeAll (closing : Bool) (depth : Nat) (addrs : List UInt32) :
    Keeps (u.Meets types) (Table.removeAll (Object.destroy closing depth) addrs) := by
  induction addrs with
  | nil => exact Keeps.pure ()
  | cons addr rest ih =>
    have hRemove := Object.keeps_remove (u.lasting types) meets_detach closing depth addr
    exact Keeps.bind hRemove.attempt fun _ => ih

theorem meets_destroy (closing : Bool) (depth : Nat) (v : Object V) :
    Keeps (u.Meets types) (Object.destroy closing depth v) :=
  Object.keeps_destroy (u.lasting types) (fun d _ => Object.keeps_remove (u.lasting types) meets_detach closing d) v

theorem meets_close (closing : Bool) (depth : Nat) :
    Keeps (u.Meets types) (Table.close (Object.destroy closing depth)) := by
  have hDestroyAll : ∀ vs, Keeps (u.Meets types) (Table.destroyAll (Object.destroy closing depth) vs) := by
    intro vs
    induction vs with
    | nil => exact Keeps.pure ()
    | cons v rest ih => exact Keeps.bind (meets_destroy closing depth v) fun _ => ih
  refine Keeps.bind (P := u.Meets types) (Keeps.modify fun t ht => ht.same rfl rfl) fun _ => ?_
  refine Keeps.bind (P := u.Meets types) (Keeps.get_bind fun t ht => meets_removeAll closing depth _ t ht) fun _ => ?_
  refine Keeps.get_bind fun t ht => bind_holds (P := u.Meets types) ?_ fun _ => hDestroyAll _
  exact ht.subset t.store.close_subset

/-! ## The owner -/

def Holds (u : Upkeep V) (o : Owner V) : Prop := u.Meets o.types o.table

theorem holds_onTable {x : Step (Table (Object V)) α} (hx : ∀ types, Keeps (u.Meets types) x) :
    Keeps u.Holds (Owner.onTable x) := by
  intro o ho
  rw [Owner.exec_onTable]
  exact hx o.types o.table ho

theorem holds_withType (ho : u.Holds o) (name : Text) : u.Holds { o with types := Owner.withType o.types name } :=
  ⟨ho.heap, fun e he => u.declared (Owner.withType_grow o.types name) (ho.objects e he)⟩

theorem holds_typeId (name : Text) : Keeps u.Holds (Owner.typeId name) := by
  intro o ho
  rw [Owner.exec_typeId]
  exact holds_withType ho name

theorem holds_box (ho : u.Holds o) {name : Text}
    (hv : u.object (Owner.withType o.types name) o.table.heap (typeNumber (Owner.withType o.types name) name) v) :
    u.Holds (exec (Owner.box name v) o).2 := by
  rw [Owner.box, exec_bind_ok (exec_get o)]
  cases hOpen : o.closed with
  | true => exact ho
  | false =>
    change u.Holds (exec (Owner.typeId name >>= fun id => Owner.onTable (Table.insert id v)) o).2
    rw [exec_bind_ok (Owner.exec_typeId name o), Owner.exec_onTable]
    exact meets_insert (holds_withType ho name) hv

theorem holds_newString (data : List UInt8) : Keeps u.Holds (Owner.newString data) := by
  intro o ho
  refine bind_holds_of (P := u.Holds) ?_ fun ptr o₁ hAlloc ho₁ => ?_
  · rw [state_trapRefusal]
    exact holds_onTable (fun _ => meets_onHeap fun hp => hp.allocateBytes data) o ho
  · have hCopied := ok_of_trapRefusal hAlloc
    rw [Owner.onHeap, Owner.exec_onTable, Table.exec_onHeap] at hCopied
    obtain ⟨hOk, rfl⟩ := Prod.mk.inj hCopied
    have hString := u.text (Owner.mem_withType o.types Owner.stringType) ho.heap (Prod.ext hOk rfl)
    refine bind_holds (P := u.Holds) ?_ ?_
    · rw [state_attempt]
      exact holds_box ho₁ hString
    · rintro (why | addr)
      · exact Keeps.bind (holds_onTable fun _ => (u.lasting _).release ptr) fun _ => Keeps.throw _
      · exact Keeps.pure addr

theorem holds_drop (addr : UInt32) : Keeps u.Holds (Owner.drop addr) := by
  apply Keeps.get_bind
  intro o ho
  refine holds_onTable (fun types => Object.keeps_dropWith (fun addr => ?_) addr) o ho
  exact Object.keeps_remove (u.lasting types) meets_detach _ _ addr

theorem holds_unbox (addr : UInt32) : Keeps u.Holds (Owner.unbox addr) := by
  refine holds_onTable fun types => ?_
  apply Keeps.bind (meets_detach addr)
  intro e
  exact Keeps.bind (Keeps.modify fun _ ht => ht.same rfl rfl) fun _ => Keeps.pure _

theorem holds_setValue (ho : u.Holds o) (addr : UInt32)
    (hv : ∀ id, u.object o.types o.table.heap id v) : u.Holds (exec (Owner.onTable (Table.setValue addr v)) o).2 := by
  rw [Owner.exec_onTable]
  exact meets_setValue ho addr hv

variable {form : Owner.VecForm V} {addr : UInt32} {e : Entry (Object V)} {buf : Buffer}

theorem Holds.found (ho : u.Holds o) (hl : form.Lawful) (hFound : o.entry? addr = some e)
    (hProject : form.project e.value = some buf) : u.object o.types o.table.heap e.typeId (form.inject buf) :=
  hl.inject e.value buf hProject ▸ ho.objects e (Store.entry?_eq_some hFound).1

theorem holds_pushTo (hl : form.Lawful) (v : Datum) (ho : u.Holds o) (hFound : o.entry? addr = some e)
    (hProject : form.project e.value = some buf) : u.Holds (exec (form.pushTo addr v buf) o).2 := by
  refine bind_holds_of (P := u.Holds) ?_ fun buf' o₁ hPush ho₁ => ?_
  · rw [state_trapRefusal]
    exact holds_onTable (fun _ => meets_onHeap fun hp => hp.push _ buf v) o ho
  · have hPushed := ok_of_trapRefusal hPush
    rw [Owner.onHeap, Owner.exec_onTable, Table.exec_onHeap] at hPushed
    obtain ⟨hOk, rfl⟩ := Prod.mk.inj hPushed
    have hVector := u.push hl ho.heap (ho.found hl hFound hProject) (Prod.ext hOk rfl)
    exact bind_holds (P := u.Holds) (holds_setValue ho₁ addr hVector) fun _ => Keeps.pure _

theorem holds_popFrom (hl : form.Lawful) (ho : u.Holds o) (hFound : o.entry? addr = some e)
    (hProject : form.project e.value = some buf) : u.Holds (exec (form.popFrom addr buf) o).2 := by
  have hState := buf.exec_pop_state form.elem o.table.heap
  refine bind_holds_of (P := u.Holds) (Owner.keeps_onHeap (fun h => buf.exec_pop_state _ h) o ho) ?_
  rintro ⟨d, buf'⟩ o₁ hPop ho₁
  rw [Owner.onHeap, Owner.exec_onTable, Table.exec_onHeap, hState] at hPop
  obtain ⟨hOk, rfl⟩ := Prod.mk.inj hPop
  have hVector := u.pop hl ho.heap (ho.found hl hFound hProject) (Prod.ext hOk hState)
  exact bind_holds (P := u.Holds) (holds_setValue ho₁ addr hVector) fun _ => Keeps.pure _

theorem walk (u : Upkeep V) : Owner.Walk u.Holds u.Holds where
  weaken _ ho := ho
  typeId := holds_typeId
  box _ _ hBare _ ho := holds_box ho (u.bare ho.heap hBare)
  newString := holds_newString
  borrow addr kind := holds_onTable fun _ => meets_borrow addr kind
  giveBack addr kind := holds_onTable fun _ => meets_giveBack addr kind
  push hl _ _ _ _ v ho hFound hProject := holds_pushTo hl v ho hFound hProject
  pop hl _ _ _ _ ho hFound hProject := holds_popFrom hl ho hFound hProject
  setGuest _ ho _ _ := holds_setValue ho _ fun _ => u.bare ho.heap (.guest _)
  drop addr o := holds_drop addr o
  unbox addr o := holds_unbox addr o
  note _ := holds_onTable fun _ => Keeps.modify fun _ ht => ht.same rfl rfl

theorem inward (u : Upkeep V) : Owner.Inward u.Holds := by
  intro o o' hTable hTypes _ ho
  rw [Holds, hTable, hTypes]
  exact ho

theorem holds_act (a : Owner.Action V) : Keeps u.Holds a.run := by
  intro o ho
  refine u.walk.act u.inward ho fun c _ => ?_
  have hUse := holds_onTable (fun _ => meets_onHeap fun hp => hp c) o ho
  rwa [Owner.exec_onTable, Table.exec_onHeap] at hUse

theorem holds_close : Keeps u.Holds Owner.close := by
  apply Keeps.get_bind
  intro o ho
  split
  · exact ho
  · refine bind_holds (P := u.Holds) ?_ fun _ => Keeps.get_bind fun o ho => ?_
    · rw [exec_modify]
      exact ho
    · exact holds_onTable (fun _ => meets_close _ _) o ho

theorem holds_of_reached (hStart : ∀ m : Memory, m.pages ≤ m.maxPages → u.heap { memory := m }) (hRun : o.Reached) :
    u.Holds o := by
  induction hRun with
  | create config hCreate =>
    obtain ⟨-, -, m, hPages, hTable⟩ := Owner.create_fresh hCreate
    rw [Holds, hTable]
    exact ⟨hStart m hPages, List.forall_mem_nil _⟩
  | act a _ ih => exact holds_act a _ ih
  | method type op m _ _ ih => exact Owner.Inward.exportAs u.inward _ _ _ ih
  | function name type run _ ih => exact Owner.Inward.exportAs u.inward _ _ _ ih
  | async name body _ ih => exact Owner.Inward.exportAs u.inward _ _ _ ih
  | close _ ih => exact holds_close _ ih

end Upkeep

namespace Owner

variable {V : Type} {o : Owner V}

/-- The owners that a new owner with at most 65535 pages leads to when functions are published and called in any order,
and others use its objects and its heap but free no block of an object. -/
inductive Tended : Owner V → Prop
  | create (config : Config) {o : Owner V} (hCreate : create config = .ok o)
      (hLimit : o.table.heap.memory.maxPages ≤ 65535) : Tended o
  | act {o : Owner V} (a : Action V) (hSpares : a.Spares o) (hRun : Tended o) : Tended (exec a.run o).2
  | publish {o : Owner V} (name : Text) (f : Export V) (hRun : Tended o) : Tended (exec (exportAs name f) o).2
  | close {o : Owner V} (hRun : Tended o) : Tended (exec close o).2

def validity : Upkeep V where
  heap := Heap.Valid
  object _ _ _ _ := True
  steady := Heap.steady_valid
  lasts _ _ _ c h hh := ⟨Heap.steady_valid c h hh.1, trivial⟩
  declared _ hv := hv
  bare _ _ := trivial
  text _ _ _ := trivial
  push _ _ _ _ _ _ _ _ _ _ _ _ := trivial
  pop _ _ _ _ _ _ _ _ _ _ _ := trivial

theorem Tended.valid (hRun : o.Tended) : o.table.heap.Valid := by
  have hHolds : (validity (V := V)).Holds o := by
    induction hRun with
    | create config hCreate hLimit => exact ⟨(solvent_create config hCreate hLimit).table.valid, fun _ _ => trivial⟩
    | act a _ _ ih => exact Upkeep.holds_act a _ ih
    | publish name f _ ih => exact Inward.exportAs validity.inward _ _ _ ih
    | close _ ih => exact Upkeep.holds_close _ ih
  exact hHolds.heap

end Owner

end Marshal
