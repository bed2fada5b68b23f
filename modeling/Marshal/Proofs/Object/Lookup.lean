import Marshal.Proofs.Object.Table

/-! # Address by address

What the operations of a table do to the object at each address, in any table whatever: a borrow, and giving one back,
change the counts of one object, and a drop, whatever it does on its way and however it ends, takes out objects that
nobody borrows and leaves the others as they are.
-/
set_option autoImplicit false
namespace Marshal

open Step

namespace Store

variable {V : Type}

theorem entry?_erase (s : Store V) (addr a : UInt32) :
    entry? (s.erase addr) a = if a = addr then none else s.entry? a := by
  rw [Store.entry?, erase, List.find?_filter]
  split
  · rename_i hEq
    simp [hEq]
  · rename_i hNe
    refine congrArg (List.find? · s.entries) (funext fun e => ?_)
    by_cases hAddr : e.addr = a <;> simp [hAddr, hNe]

theorem entry?_modify {addr : UInt32} {f : Entry V → Entry V} (hf : ∀ e, e.addr = addr → (f e).addr = addr)
    (s : Store V) (a : UInt32) :
    entry? (s.modify addr f) a = (s.entry? a).map fun e => if e.addr = addr then f e else e := by
  rw [Store.entry?, modify, List.find?_map]
  have hSame : ((fun e : Entry V => decide (e.addr = a)) ∘ fun e => if e.addr = addr then f e else e) =
      fun e => decide (e.addr = a) := by
    funext e
    by_cases hAddr : e.addr = addr
    · simp [hAddr, hf e hAddr]
    · simp [hAddr]
  rw [hSame]
  rfl

theorem put_eq_ok {s s' : Store V} {addr id : UInt32} {value : V} (h : s.put addr id value = .ok s') :
    addr ≠ 0 ∧ s.entry? addr = none ∧ s' = { s with entries := { addr, typeId := id, value } :: s.entries } := by
  unfold put at h
  split at h
  · cases h
  · split at h
    · cases h
    · split at h
      · cases h
      · rename_i hNull _ hFree
        cases h
        exact ⟨hNull, by simpa using hFree, rfl⟩

end Store

theorem Entry.addr_borrow {V : Type} (e : Entry V) (kind : BorrowKind) : (e.borrow kind).addr = e.addr := by
  cases kind <;> rfl

namespace Table

variable {V : Type}

/-! ## Borrowing -/

theorem exec_borrow_cases (t : Table V) (addr : UInt32) (kind : BorrowKind) :
    (∃ why, exec (borrow addr kind) t = (.error (.refused why), t) ∧
        ∀ e, t.store.entry? addr = some e → e.admits kind = false) ∨
      ∃ e id, t.store.entry? addr = some e ∧ e.admits kind = true ∧ exec (borrow addr kind) t =
        (.ok (), told { kind := .borrowed, addr, typeId := id, borrow := kind }
          { t with store := t.store.modify addr (·.borrow kind) }) := by
  cases hFound : t.store.entry? addr with
  | none =>
    refine .inl ⟨.report (Store.absentReport .ownership addr), exec_bind_error ?_, ?_⟩
    · rw [exec_onStore, Store.borrow, hFound]
      rfl
    · rintro e ⟨⟩
  | some e =>
    cases hAdmits : e.admits kind with
    | false =>
      have hStore : ∃ r, t.store.borrow addr kind = .error r := by
        rw [Store.borrow, hFound]
        simp only [hAdmits]
        exact ⟨_, rfl⟩
      obtain ⟨r, hStore⟩ := hStore
      refine .inl ⟨.report r, exec_bind_error ?_, ?_⟩
      · rw [exec_onStore, hStore]
        rfl
      · intro e' he'
        rw [← Option.some.inj he']
        exact hAdmits
    | true =>
      have hStore : exec (onStore fun s => (s.borrow addr kind).map fun s => ((), s)) t =
          (.ok (), { t with store := t.store.modify addr (·.borrow kind) }) := by
        rw [exec_onStore, Store.borrow, hFound]
        simp only [hAdmits]
        rfl
      exact .inr ⟨e, _, rfl, hAdmits, (exec_bind_ok hStore).trans (exec_bind_ok (exec_get _))⟩

theorem exec_giveBack_cases (t : Table V) (addr : UInt32) (kind : BorrowKind) :
    (exec (giveBack addr kind) t = (.ok false, t) ∧
        ∀ e, t.store.entry? addr = some e → e.giveBack? kind = none) ∨
      ∃ e e' id, t.store.entry? addr = some e ∧ e.giveBack? kind = some e' ∧ exec (giveBack addr kind) t =
        (.ok true, told { kind := .borrowReturned, addr, typeId := id, borrow := kind }
          { t with store := t.store.modify addr fun _ => e' }) := by
  rw [giveBack, exec_bind_ok (exec_get t)]
  cases hFound : t.store.entry? addr with
  | none =>
    have hBack : t.store.giveBack? addr kind = none := by simp [Store.giveBack?, hFound]
    rw [hBack]
    refine .inl ⟨rfl, ?_⟩
    rintro e ⟨⟩
  | some e =>
    cases hEntry : e.giveBack? kind with
    | none =>
      have hBack : t.store.giveBack? addr kind = none := by simp [Store.giveBack?, hFound, hEntry]
      rw [hBack]
      refine .inl ⟨rfl, ?_⟩
      intro e' he'
      rw [← Option.some.inj he']
      exact hEntry
    | some e' =>
      have hBack : t.store.giveBack? addr kind = some (t.store.modify addr fun _ => e') := by
        simp [Store.giveBack?, hFound, hEntry]
      rw [hBack]
      exact .inr ⟨e, e', _, rfl, hEntry, rfl⟩

/-! ## Leaving the table -/

def Sheds (t t' : Table V) : Prop :=
  ∀ addr, t'.store.entry? addr = t.store.entry? addr ∨
    t'.store.entry? addr = none ∧ ∃ e, t.store.entry? addr = some e ∧ e.isBorrowed = false

theorem Sheds.trans {t t₁ t₂ : Table V} (h : t.Sheds t₁) (h' : t₁.Sheds t₂) : t.Sheds t₂ := by
  intro addr
  rcases h' addr with hSame | ⟨hGone, e, hFound, hIdle⟩
  · rw [hSame]
    exact h addr
  · rcases h addr with hSame | ⟨hNone, -⟩
    · exact .inr ⟨hGone, e, hSame ▸ hFound, hIdle⟩
    · cases hNone.symm.trans hFound

theorem sheds_of_store {t t' : Table V} (h : t'.store = t.store) : t.Sheds t' := fun _ => .inl (by rw [h])

theorem sheds_take (addr : UInt32) (t : Table V) : t.Sheds (exec (onStore fun s => s.take addr) t).2 := by
  rw [exec_onStore, Store.take]
  cases hFound : t.store.entry? addr with
  | none => exact sheds_of_store rfl
  | some e =>
    cases hIdle : e.isBorrowed with
    | true =>
      simp only [hIdle, if_true]
      exact sheds_of_store rfl
    | false =>
      intro a
      simp only [hIdle, Bool.false_eq_true, if_false, Store.entry?_erase]
      split
      · rename_i hEq
        exact .inr ⟨rfl, e, hEq ▸ hFound, hIdle⟩
      · exact .inl rfl

variable {P : Table V → Prop}

theorem keeps_onHeap (hStore : ∀ t t', t'.store = t.store → P t → P t') {α : Type}
    (x : Step Heap α) : Keeps P (onHeap x) := by
  intro t ht
  rw [exec_onHeap]
  exact hStore t _ rfl ht

/-- What does not depend on observers and journal, and survives the release of any block. -/
structure Lasting (P : Table V → Prop) : Prop where
  same : ∀ t t', t'.heap = t.heap → t'.store = t.store → P t → P t'
  release : ∀ addr, Keeps P (onHeap (Heap.release addr))

theorem Lasting.of_store (hStore : ∀ t t', t'.store = t.store → P t → P t') : Lasting P :=
  ⟨fun t t' _ => hStore t t', fun _ => keeps_onHeap hStore _⟩

theorem keeps_remove_of (hl : Lasting P) (hDetach : ∀ addr, Keeps P (detach addr))
    {destroy : V → Step (Table V) Unit} (hDestroy : ∀ v, Keeps P (destroy v)) (addr : UInt32) :
    Keeps P (remove destroy addr) := by
  apply Keeps.bind (hDetach addr)
  intro e
  apply Keeps.bind (hDestroy e.value)
  intro _
  exact Keeps.bind (Keeps.modify fun t ht => hl.same t _ rfl rfl ht) fun _ => Keeps.pure _

theorem lasting_sheds (t₀ : Table V) : Lasting t₀.Sheds := .of_store fun _ _ h ht => ht.trans (sheds_of_store h)

theorem sheds_detach (t₀ : Table V) (addr : UInt32) : Keeps t₀.Sheds (detach addr) := by
  apply Keeps.bind
  · intro t ht
    exact ht.trans (sheds_take addr t)
  · intro e
    apply Keeps.bind
    · exact keeps_onHeap (fun _ _ h ht => ht.trans (sheds_of_store h)) _
    · intro _
      exact Keeps.pure e

end Table

theorem Buffer.exec_get?_state (s : Scalar) (b : Buffer) (i : UInt32) (h : Heap) : (exec (b.get? s i) h).2 = h := by
  unfold Buffer.get?
  split
  · rfl
  · rw [exec_bind, exec_trapRefusal, Heap.exec_inspect]
    cases h.memory.load s (b.slot s i) <;> rfl

namespace Object

variable {V : Type} {P : Table (Object V) → Prop} {remove : UInt32 → Step (Table (Object V)) (Object V)}

theorem keeps_dropWith (hRemove : ∀ addr, Keeps P (remove addr)) (addr : UInt32) : Keeps P (dropWith remove addr) := by
  unfold dropWith
  split
  · exact Keeps.pure ()
  · apply Keeps.bind (hRemove addr).attempt
    rintro (why | v)
    · apply Keeps.get_bind
      intro t ht
      split <;> exact ht
    · exact Keeps.pure ()

theorem keeps_dropOwned (hRemove : ∀ addr, Keeps P (remove addr)) (closing : Bool) (addr : UInt32) :
    Keeps P (dropOwned closing remove addr) := by
  unfold dropOwned
  split
  · exact Keeps.bind (hRemove addr).attempt fun _ => Keeps.pure ()
  · exact keeps_dropWith hRemove addr

theorem keeps_dropElements {drop : UInt32 → Step (Table (Object V)) Unit} (hDrop : ∀ addr, Keeps P (drop addr))
    {buf : Buffer} (hRead : ∀ i, Keeps P (Table.onHeap (buf.get? .u32 i))) (positions : List Nat) :
    Keeps P (dropElements drop buf positions) := by
  induction positions with
  | nil => exact Keeps.pure ()
  | cons i rest ih =>
    rw [dropElements]
    apply Keeps.bind (hRead _)
    intro v
    split
    · exact Keeps.bind (hDrop _) fun _ => ih
    · exact ih

theorem keeps_discard (hl : Table.Lasting P) (buf : Buffer) : Keeps P (Table.onHeap buf.discard) := by
  unfold Buffer.discard
  split
  · exact fun t ht => hl.same t _ rfl rfl ht
  · exact hl.release buf.addr

theorem keeps_destroy (hl : Table.Lasting P) {closing : Bool} {depth : Nat}
    (hRemove : ∀ d, depth = d + 1 → ∀ addr, Keeps P (Table.remove (destroy closing d) addr)) (v : Object V) :
    Keeps P (destroy closing depth v) := by
  cases v with
  | guest value =>
    rw [destroy]
    exact Keeps.modify fun t ht => hl.same t _ rfl rfl ht
  | string ptr len =>
    rw [destroy]
    split
    · exact Keeps.pure ()
    · exact hl.release ptr
  | vector elem buf =>
    rw [destroy]
    exact keeps_discard hl buf
  | refVector buf =>
    cases depth with
    | zero =>
      rw [destroy]
      exact keeps_discard hl buf
    | succ depth =>
      rw [destroy]
      apply Keeps.bind
      · refine keeps_dropElements (keeps_dropOwned (hRemove depth rfl) closing) (fun i t ht => ?_) _
        rw [Table.exec_onHeap, Buffer.exec_get?_state]
        exact ht
      · intro _
        exact keeps_discard hl buf
  | callback label =>
    rw [destroy]
    exact Keeps.pure ()

theorem keeps_remove (hl : Table.Lasting P) (hDetach : ∀ addr, Keeps P (Table.detach addr)) (closing : Bool)
    (depth : Nat) (addr : UInt32) : Keeps P (Table.remove (destroy closing depth) addr) := by
  induction depth generalizing addr with
  | zero =>
    apply Table.keeps_remove_of hl hDetach
    apply keeps_destroy hl
    intro d hd
    cases hd
  | succ depth ih =>
    apply Table.keeps_remove_of hl hDetach
    apply keeps_destroy hl
    intro d hd
    rw [← Nat.succ.inj hd]
    exact ih

end Object

end Marshal
