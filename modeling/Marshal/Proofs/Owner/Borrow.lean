import Marshal.Proofs.Object.Cells
import Marshal.Proofs.Object.Lookup
import Marshal.Proofs.Owner.Access

/-! # One borrow

A callback runs under a borrow of its object if the owner admits it, and otherwise not at all. The borrow changes the
counts of that object only, and however the callback ends they are changed back.
-/
set_option autoImplicit false
namespace Marshal

open Step

theorem Step.state_andFinally {σ α : Type} (x : Step σ α) (y : Step σ Unit) (s : σ) :
    (exec (andFinally x y) s).2 = (exec y (exec x s).2).2 := by
  rw [exec_andFinally]
  rcases exec x s with ⟨e | a, s'⟩
  all_goals
    simp only [exec_bind]
    rcases exec y s' with ⟨_ | _, s''⟩ <;> rfl

/-- The entry after a shared borrow that was given back. It is as it was, unless the count has wrapped. -/
def Entry.reread {V : Type} (e : Entry V) : Entry V := { e with shared := if e.shared + 1 = 0 then 0 else e.shared }

namespace Owner

variable {V α β : Type}

def entry? (o : Owner V) (addr : UInt32) : Option (Entry (Object V)) := o.table.store.entry? addr

/-- There is an object of the type at the address that can be seen as the callback wants it, and nobody borrows it in a
way that is in conflict. -/
def Admits (o : Owner V) (type : OpaqueType) (addr : UInt32) (kind : BorrowKind) (project : Object V → Option β) :
    Prop :=
  ∃ e b, o.entry? addr = some e ∧ e.typeId = type.typeId ∧ project e.value = some b ∧ e.admits kind = true

def accessAs (strict : Bool) (type : OpaqueType) (addr : UInt32) (kind : BorrowKind) (project : Object V → Option β)
    (body : β → Step (Owner V) α) : Step (Owner V) α :=
  if strict then mustAccess type addr kind project body else access type addr kind project body

/-! ## Entering and leaving -/

variable {o : Owner V} {type : OpaqueType} {addr : UInt32} {kind : BorrowKind}
  {project : Object V → Option β}

theorem addr_of_entry? {e : Entry (Object V)} (h : o.entry? addr = some e) : e.addr = addr :=
  (Store.entry?_eq_some h).2

/-- The object at the address, and no other, is changed by `f`. -/
def Edits (o : Owner V) (addr : UInt32) (f : Entry (Object V) → Entry (Object V)) (o' : Owner V) : Prop :=
  ∀ a, o'.entry? a = if a = addr then (o.entry? a).map f else o.entry? a

theorem edits_modify {t : Table (Object V)} {f : Entry (Object V) → Entry (Object V)}
    (hf : ∀ e, e.addr = addr → (f e).addr = addr) (ht : t.store = o.table.store.modify addr f) :
    o.Edits addr f { o with table := t } := by
  intro a
  show t.store.entry? a = if a = addr then (o.table.store.entry? a).map f else o.table.store.entry? a
  rw [ht, Store.entry?_modify hf]
  cases hFound : o.table.store.entry? a with
  | none => simp
  | some e =>
    obtain rfl : e.addr = a := addr_of_entry? hFound
    split <;> simp [*]

theorem getTyped?_eq_some_iff {id : UInt32} {v : Object V} :
    o.table.getTyped? addr id = some v ↔ ∃ e, o.entry? addr = some e ∧ e.typeId = id ∧ e.value = v := by
  rw [Table.getTyped?, Store.typeId?, Store.get?, entry?]
  cases o.table.store.entry? addr <;> simp

theorem exec_enter_cases (o : Owner V) (type : OpaqueType) (addr : UInt32) (kind : BorrowKind)
    (project : Object V → Option β) :
    (∃ e b o₁, exec (enter type addr kind project) o = (.ok b, o₁) ∧
      (o.entry? addr = some e ∧ e.typeId = type.typeId ∧ project e.value = some b ∧ e.admits kind = true) ∧
      o.Edits addr (·.borrow kind) o₁) ∨
    ∃ stop, exec (enter type addr kind project) o = (.error stop, o) ∧ ¬ o.Admits type addr kind project := by
  cases hTyped : o.table.getTyped? addr type.typeId with
  | none =>
    refine .inr ⟨.refused (.report (noLive type.name addr)), ?_, ?_⟩
    · rw [enter, exec_bind_ok (exec_get o)]
      simp only [hTyped]
      rfl
    · rintro ⟨e, b, hFound, hType, -⟩
      cases hTyped.symm.trans (getTyped?_eq_some_iff.mpr ⟨e, hFound, hType, rfl⟩)
  | some value =>
    obtain ⟨e, hFound, hType, rfl⟩ := getTyped?_eq_some_iff.mp hTyped
    cases hProject : project e.value with
    | none =>
      refine .inr ⟨.crashed, ?_, ?_⟩
      · rw [enter, exec_bind_ok (exec_get o)]
        simp only [hTyped, hProject]
        rfl
      · rintro ⟨e', b, hFound', -, hProject', -⟩
        cases hFound.symm.trans hFound'
        cases hProject.symm.trans hProject'
    | some b =>
      have hEnter : exec (enter type addr kind project) o =
          exec (onTable (Table.borrow addr kind) >>= fun _ => pure b) o := by
        rw [enter, exec_bind_ok (exec_get o)]
        simp only [hTyped, hProject]
      rw [hEnter, exec_bind, exec_onTable]
      obtain ⟨why, hBorrow, hRefuses⟩ | ⟨e', id, hFound', hAdmits, hBorrow⟩ := o.table.exec_borrow_cases addr kind
      · rw [hBorrow]
        refine .inr ⟨.refused why, rfl, ?_⟩
        rintro ⟨e', b', hFound', -, -, hAdmits⟩
        cases (hRefuses e' hFound').symm.trans hAdmits
      · cases hFound.symm.trans hFound'
        rw [hBorrow]
        refine .inl ⟨e, b, _, rfl, ⟨hFound, hType, hProject, hAdmits⟩, edits_modify ?_ rfl⟩
        intro e' he'
        rw [Entry.addr_borrow, he']

theorem exec_leave_shared {e : Entry (Object V)} (hFound : o.entry? addr = some e) :
    ∃ o', exec (leave addr .shared) o = (.ok (), o') ∧
      o.Edits addr (fun _ => { e with shared := if e.shared = 0 then 0 else e.shared - 1 }) o' := by
  rw [leave, exec_bind_pure, exec_onTable]
  obtain ⟨hBack, hNone⟩ | ⟨x, x', id, hFound', hSome, hBack⟩ := o.table.exec_giveBack_cases addr .shared
  · have hZero : e.shared = 0 := by simpa [Entry.giveBack?] using hNone e hFound
    rw [hBack, if_pos hZero, ← hZero]
    refine ⟨o, rfl, fun a => ?_⟩
    by_cases hEq : a = addr
    · rw [if_pos hEq, hEq, hFound]
      rfl
    · rw [if_neg hEq]
  · cases hFound.symm.trans hFound'
    have hPos : e.shared ≠ 0 := by
      intro hZero
      simp [Entry.giveBack?, hZero] at hSome
    obtain rfl : { e with shared := e.shared - 1 } = x' := by simpa [Entry.giveBack?, hPos] using hSome
    rw [hBack, if_neg hPos]
    have hAddr : e.addr = addr := addr_of_entry? hFound
    exact ⟨_, rfl, edits_modify (fun _ _ => hAddr) rfl⟩

theorem exec_enter_ok {e : Entry (Object V)} {b : β} (hFound : o.entry? addr = some e) (hType : e.typeId = type.typeId)
    (project : Object V → Option β) (hProject : project e.value = some b) (hAdmits : e.admits kind = true) :
    ∃ o₁, exec (enter type addr kind project) o = (.ok b, o₁) ∧ o.Edits addr (·.borrow kind) o₁ ∧
      o₁.entry? addr = some (e.borrow kind) := by
  obtain ⟨e', b', o₁, hEnter, ⟨hFound', -, hProject', -⟩, hEdits⟩ | ⟨stop, -, hNot⟩ :=
    exec_enter_cases o type addr kind project
  · cases hFound.symm.trans hFound'
    cases hProject.symm.trans hProject'
    refine ⟨o₁, hEnter, hEdits, ?_⟩
    rw [hEdits addr, if_pos rfl, hFound]
    rfl
  · exact absurd ⟨e, b, hFound, hType, hProject, hAdmits⟩ hNot

theorem exec_access_read {e : Entry (Object V)} {b : β} (hFound : o.entry? addr = some e)
    (hType : e.typeId = type.typeId) (project : Object V → Option β) (hProject : project e.value = some b)
    (hFree : e.exclusive = false) (f : β → α) :
    ∃ o', exec (access type addr .shared project fun b => pure (f b)) o = (.ok (f b), o') ∧
      o.Edits addr Entry.reread o' := by
  obtain ⟨o₁, hEnter, hEdits, hFound₁⟩ := exec_enter_ok hFound hType project hProject
    (show e.admits .shared = true by simp [Entry.admits, hFree])
  obtain ⟨o₂, hLeave, hEdits₂⟩ := exec_leave_shared hFound₁
  refine ⟨o₂, ?_, fun a => ?_⟩
  · rw [access, exec_bind_ok hEnter, exec_andFinally]
    exact exec_bind_ok hLeave
  · rw [hEdits₂ a, hEdits a]
    by_cases hEq : a = addr
    · simp [hEq, hFound, Entry.borrow, Entry.reread]
    · simp [hEq]

theorem exec_leave_ok (o : Owner V) (addr : UInt32) (kind : BorrowKind) :
    ∃ o', exec (leave addr kind) o = (.ok (), o') := by
  rw [leave, exec_bind_pure, exec_onTable]
  obtain ⟨hBack, -⟩ | ⟨e, e', id, -, -, hBack⟩ := o.table.exec_giveBack_cases addr kind <;>
    rw [hBack] <;> exact ⟨_, rfl⟩

theorem exec_leave_edits {e e' : Entry (Object V)} (hFound : o.entry? addr = some e)
    (hBack : e.giveBack? kind = some e') : o.Edits addr (fun _ => e') (exec (leave addr kind) o).2 := by
  rw [leave, exec_bind_pure, exec_onTable]
  obtain ⟨-, hNone⟩ | ⟨x, x', id, hFound', hBack', hExec⟩ := o.table.exec_giveBack_cases addr kind
  · cases (hNone e hFound).symm.trans hBack
  · cases hFound.symm.trans hFound'
    cases hBack.symm.trans hBack'
    rw [hExec]
    refine edits_modify ?_ rfl
    intro _ _
    rw [(Entry.giveBack?_same hBack).1, addr_of_entry? hFound]

/-! ## Dropping and taking -/

theorem sheds_drop (o : Owner V) (addr : UInt32) : o.table.Sheds (exec (drop addr) o).2.table := by
  rw [drop, exec_bind_ok (exec_get o), exec_onTable]
  apply Object.keeps_dropWith
  · intro addr
    exact Object.keeps_remove (Table.lasting_sheds o.table) (Table.sheds_detach o.table) _ _ addr
  · exact Table.sheds_of_store rfl

theorem sheds_unbox (o : Owner V) (addr : UInt32) : o.table.Sheds (exec (unbox addr) o).2.table := by
  rw [unbox, exec_onTable]
  have hTake : Keeps o.table.Sheds (Table.take addr) := by
    apply Keeps.bind (Table.sheds_detach o.table addr)
    intro e
    exact Keeps.bind (Keeps.modify fun t ht => ht.trans (Table.sheds_of_store rfl)) fun _ => Keeps.pure _
  exact hTake _ (Table.sheds_of_store rfl)

theorem exec_find_cases (o : Owner V) (type : OpaqueType) (addr : UInt32) :
    (∃ r, exec (find type addr) o = (.ok r, o)) ∨ exec (find type addr) o = (.error .crashed, o) := by
  rw [find, exec_bind_ok (exec_get o)]
  cases o.table.getTyped? addr type.typeId with
  | none => exact .inl ⟨none, rfl⟩
  | some v =>
    cases v with
    | guest g => exact .inl ⟨some g, rfl⟩
    | _ => exact .inr rfl

theorem state_take (o : Owner V) (type : OpaqueType) (addr : UInt32) :
    (exec (take type addr) o).2 = o ∨ (exec (take type addr) o).2 = (exec (unbox addr) o).2 := by
  rw [take]
  rcases exec_find_cases o type addr with ⟨_ | v, hFind⟩ | hFind
  · rw [exec_bind_ok hFind]
    exact .inl rfl
  · rw [exec_bind_ok hFind]
    refine .inr ?_
    simp only [exec_bind_pure]
    rfl
  · rw [exec_bind_error hFind]
    exact .inl rfl

theorem sheds_takeOf (o : Owner V) (type : OpaqueType) (addr : UInt32) :
    o.table.Sheds (exec (take type addr) o).2.table := by
  rcases state_take o type addr with hSame | hTaken
  · rw [hSame]
    exact Table.sheds_of_store rfl
  · rw [hTaken]
    exact sheds_unbox o addr

theorem state_accessAs (strict : Bool) (type : OpaqueType) (addr : UInt32) (kind : BorrowKind)
    (project : Object V → Option β) (body : β → Step (Owner V) α) (o : Owner V) :
    (exec (accessAs strict type addr kind project body) o).2 = match exec (enter type addr kind project) o with
      | (.ok b, o₁) => (exec (leave addr kind) (exec (body b) o₁).2).2
      | (.error _, o₁) => o₁ := by
  have hStrict : (exec (accessAs strict type addr kind project body) o).2 =
      (exec (access type addr kind project body) o).2 := by
    cases strict with
    | false => rfl
    | true =>
      rw [accessAs, if_pos rfl, mustAccess, exec_trapRefusal]
      rcases exec (access type addr kind project body) o with ⟨(_ | _ | _) | a, o'⟩ <;> rfl
  rw [hStrict, access, exec_bind]
  rcases exec (enter type addr kind project) o with ⟨stop | b, o₁⟩
  · rfl
  · exact state_andFinally ..

theorem refused_accessAs_iff (o : Owner V) (strict : Bool) (type : OpaqueType) (addr : UInt32) (kind : BorrowKind)
    (project : Object V → Option β) :
    (∃ stop, ∀ (α : Type) (body : β → Step (Owner V) α),
      exec (accessAs strict type addr kind project body) o = (.error stop, o)) ↔ ¬ o.Admits type addr kind project := by
  obtain ⟨e, b, o₁, hEnter, hAdmits, -⟩ | ⟨stop, hEnter, hNot⟩ := exec_enter_cases o type addr kind project
  · refine iff_of_false ?_ (not_not_intro ⟨e, b, hAdmits⟩)
    rintro ⟨stop, hStop⟩
    -- a callback that does nothing would return
    obtain ⟨o₂, hLeave⟩ := exec_leave_ok o₁ addr kind
    have hAccess : exec (access type addr kind project fun _ => pure ()) o = (.ok (), o₂) := by
      rw [access, exec_bind_ok hEnter, exec_andFinally]
      exact exec_bind_ok hLeave
    have hOk : exec (accessAs strict type addr kind project fun _ => pure ()) o = (.ok (), o₂) := by
      cases strict with
      | false => exact hAccess
      | true => exact exec_trapRefusal_ok hAccess
    cases hOk.symm.trans (hStop Unit fun _ => pure ())
  · refine iff_of_true ?_ hNot
    cases strict with
    | false => exact ⟨stop, fun α body => exec_bind_error hEnter⟩
    | true =>
      cases stop with
      | refused why => exact ⟨.trapped why, fun α body => exec_trapRefusal_refused (exec_bind_error hEnter)⟩
      | trapped why =>
        refine ⟨.trapped why, fun α body => ?_⟩
        rw [accessAs, if_pos rfl, mustAccess, exec_trapRefusal, access, exec_bind_error hEnter]
      | crashed =>
        refine ⟨.crashed, fun α body => ?_⟩
        rw [accessAs, if_pos rfl, mustAccess, exec_trapRefusal, access, exec_bind_error hEnter]

end Owner

end Marshal
