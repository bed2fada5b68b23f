import Marshal.Proofs.Managed.Lists
import Marshal.Proofs.Owner.Dropping
import Marshal.Proofs.Owner.Storage
import Marshal.Proofs.Owner.TypeChecks

/-! # Pushes that fail

Pushing a reference gives up its ownership before the vector is asked to take it. A push that fails leaves every object,
its borrows and the contents of the vector as they were, but unless the vector is held through a shared borrow, which is
found out first, the element belongs to nobody any more: its handle can neither free it nor push it again.
-/
set_option autoImplicit false
namespace Marshal

open Step

namespace Owner

variable {V α β : Type} {o o' : Owner V} {addr : UInt32} {d : Datum} {stop : Stop} {form : VecForm V}

theorem giveBack?_borrow_exclusive {e : Entry (Object V)} (hAdmits : e.admits .exclusive = true) :
    (e.borrow .exclusive).giveBack? .exclusive = some e := by
  have hFree : e.exclusive = false ∧ e.shared = 0 := by simpa [Entry.admits] using hAdmits
  exact Table.giveBack?_borrow hFree.symm .exclusive e.value

theorem exec_mustAccess_error {type : OpaqueType} {project : Object V → Option β} {body : β → Step (Owner V) α}
    {Q : β → Heap → Heap → Prop}
    (hBody : ∀ b o₁ why o₂, exec (body b) o₁ = (.error why, o₂) →
      ∃ h, o₂ = o₁.withHeap h ∧ Q b o₁.table.heap h)
    (hFail : exec (mustAccess type addr .exclusive project body) o = (.error stop, o')) :
    (∀ a, o'.entry? a = o.entry? a) ∧ (o'.table.heap = o.table.heap ∨
      ∃ e b, o.entry? addr = some e ∧ project e.value = some b ∧ Q b o.table.heap o'.table.heap) := by
  obtain ⟨e, b, o₁, hEnter, ⟨hFound, -, hProject, hAdmits⟩, hEdits⟩ | ⟨why, hEnter, -⟩ :=
    exec_enter_cases o type addr .exclusive project
  · rcases hExec : exec (body b) o₁ with ⟨r, o₂⟩
    obtain ⟨o₃, hLeave⟩ := exec_leave_ok o₂ addr .exclusive
    obtain ⟨hStop, rfl⟩ := Prod.mk.inj ((exec_mustAccess_entered hEnter hExec hLeave).symm.trans hFail)
    cases r with
    | ok a => cases hStop
    | error why =>
      obtain ⟨h, rfl, hQ⟩ := hBody b o₁ why o₂ hExec
      have hEntered : (exec (enter type addr .exclusive project) o).2.table.heap = o.table.heap :=
        (keeps_enter o.table.heap o.types o ⟨rfl, rfl⟩).1
      have hLeft := (keeps_leave addr .exclusive h o₁.types (o₁.withHeap h) ⟨rfl, rfl⟩).1
      have hBorrowed : Owner.entry? (o₁.withHeap h) addr = some (e.borrow .exclusive) := by
        show o₁.entry? addr = _
        rw [hEdits addr, if_pos rfl, hFound]
        rfl
      have hBack := exec_leave_edits hBorrowed (giveBack?_borrow_exclusive hAdmits)
      rw [hEnter] at hEntered
      rw [hLeave] at hLeft hBack
      refine ⟨fun a => ?_, .inr ⟨e, b, hFound, hProject, by rwa [hLeft, ← hEntered]⟩⟩
      -- the borrow that was taken has been given back
      rw [hBack a]
      split
      · rename_i hAt
        rw [hAt, hBorrowed, hFound]
        rfl
      · rename_i hAway
        exact (hEdits a).trans (if_neg hAway)
  · have hSame := state_accessAs true type addr .exclusive project body o
    rw [accessAs, if_pos rfl, hFail, hEnter] at hSame
    obtain rfl : o' = o := hSame
    exact ⟨fun _ => rfl, .inl rfl⟩

namespace VecForm

theorem exec_pushTo_error {buf : Buffer} (hExec : exec (form.pushTo addr d buf) o = (.error stop, o')) :
    ∃ h, o' = o.withHeap h ∧ ∃ why, exec (buf.push form.elem d) o.table.heap = (.error why, h) := by
  rw [pushTo, exec_bind, exec_trapRefusal] at hExec
  rcases hPush : exec (buf.push form.elem d) o.table.heap with ⟨why | buf', h⟩
  · refine ⟨h, ?_, why, rfl⟩
    rw [exec_onHeap hPush] at hExec
    cases why <;> exact (Prod.mk.inj hExec).2.symm
  · rw [exec_onHeap hPush] at hExec
    cases hExec

theorem exec_push_error (hAccept : ∀ P : Owner V → Prop, Keeps P (form.accept d))
    (hFail : exec (form.call .push [.u32 addr, d]) o = (.error stop, o')) :
    (∀ a, o'.entry? a = o.entry? a) ∧ (o'.table.heap = o.table.heap ∨
      ∃ e buf, o.entry? addr = some e ∧ form.project e.value = some buf ∧
        ∃ why, exec (buf.push form.elem d) o.table.heap = (.error why, o'.table.heap)) := by
  have hState : (exec (form.accept d) o).2 = o := hAccept (· = o) o rfl
  rw [call_push, exec_bind] at hFail
  generalize exec (form.accept d) o = out at hFail hState
  rcases out with ⟨why | _, o₁⟩
  · obtain rfl : o₁ = o := hState
    obtain rfl := (Prod.mk.inj hFail).2
    exact ⟨fun _ => rfl, .inl rfl⟩
  · obtain rfl : o₁ = o := hState
    exact exec_mustAccess_error (Q := fun buf h h' => ∃ why, exec (buf.push form.elem d) h = (.error why, h'))
      (fun _ _ _ _ => exec_pushTo_error) hFail

end VecForm

/-- Whatever was done with an owner of at most 65535 pages, a push that fails leaves what the vector holds. -/
theorem Reached.slots_of_push_error {type elem : OpaqueType} (hRun : o.Reached)
    (hLimit : o.table.heap.memory.maxPages ≤ 65535)
    (hFail : exec ((VecForm.reference type elem).call .push [.u32 addr, d]) o = (.error stop, o'))
    {e : Entry (Object V)} (hFound : o.entry? addr = some e) :
    e.value.slots o'.table.heap.memory = e.value.slots o.table.heap.memory := by
  rcases (VecForm.exec_push_error (fun P => keeps_acceptLive elem d) hFail).2 with
    hSame | ⟨e', buf, hFound', hProject, why, hPush⟩
  · rw [hSame]
  · obtain rfl := Option.some.inj (hFound'.symm.trans hFound)
    have hRooted := hRun.rooted.objects e' (Store.entry?_eq_some hFound').1 hLimit
    have hValue : e'.value = .refVector buf := (VecForm.reference_lawful type elem).inject e'.value buf hProject
    rw [hValue] at hRooted ⊢
    have hBuf : buf.Rooted o.table.heap .u32 := hRooted
    exact congrArg (List.map Nat.toUInt32) (hBuf.words_of_push_error (hRun.rooted.heap hLimit) (by decide) hPush)

end Owner

/-- The handle that gives up its object when the element is pushed. -/
def Element.moved? {V : Type} : Element V → Option (Handle (Export V))
  | datum _ => none
  | string s => some s.handle
  | handle h => some h

namespace Session

variable {V : Type} {s s' : Session V} {x : Element V} {h : Handle (Export V)} {v : OwnedVec V} {t : Tokens}

/-! ## Giving up the element -/

theorem exec_lower_owned (hMoved : x.moved? = some h) (hSpend : h.spend? s.tokens = some t) :
    exec x.lower s = (.ok (.u32 h.addr), { s with tokens := t }) := by
  have hMove : exec (mustTransfer h) s = (.ok h.addr, { s with tokens := t }) := by
    rw [mustTransfer, exec_bind_ok (exec_get s), Handle.mustTransfer, hSpend]
    rfl
  cases x with
  | datum _ => cases hMoved
  | string _ | handle _ =>
    cases hMoved
    exact exec_bind_ok hMove

theorem exec_lower_spent (hMoved : x.moved? = some h) (hSpent : h.owns s.tokens = false) :
    ∃ why, exec x.lower s = (.error (.trapped why), s) := by
  have hTrap : ∃ why, exec (mustTransfer h) s = (.error (.trapped why), s) := by
    rw [mustTransfer, exec_bind_ok (exec_get s), Handle.mustTransfer, Handle.spend?_of_not_owns hSpent]
    exact ⟨_, rfl⟩
  obtain ⟨why, hTrap⟩ := hTrap
  cases x with
  | datum _ => cases hMoved
  | string _ | handle _ =>
    cases hMoved
    exact ⟨why, exec_bind_error hTrap⟩

theorem exec_push_borrowed (hMode : v.handle.mode = .borrowed) (x : Element V) (s : Session V) :
    ∃ why, exec (v.push x) s = (.error (.trapped why), s) := by
  have hTrap : ∃ why, exec (v.requireMutable "push") s = (.error (.trapped why), s) := by
    rw [OwnedVec.requireMutable, if_pos hMode]
    exact ⟨_, rfl⟩
  obtain ⟨why, hTrap⟩ := hTrap
  exact ⟨why, exec_bind_error hTrap⟩

theorem exec_push_spent (hMoved : x.moved? = some h) (hSpent : h.owns s.tokens = false) (v : OwnedVec V) :
    ∃ why, exec (v.push x) s = (.error (.trapped why), s) := by
  by_cases hMode : v.handle.mode = .borrowed
  · exact exec_push_borrowed hMode x s
  · obtain ⟨why, hLower⟩ := exec_lower_spent hMoved hSpent
    exact ⟨why, (exec_bind_ok (exec_requireMutable hMode "push")).trans (exec_bind_error hLower)⟩

theorem exec_free_spent (hSpent : h.owns s.tokens = false) : exec (free h) s = (.ok (), s) := by
  rw [free, exec_bind_ok (exec_get s), Handle.free, Handle.spend?_of_not_owns hSpent]
  rfl

theorem push_error_of_owned {stop : Stop} (hMoved : x.moved? = some h) (hMode : v.handle.mode ≠ .borrowed)
    (hSpend : h.spend? s.tokens = some t) (hFail : exec (v.push x) s = (.error stop, s')) :
    ∃ o, exec (Owner.call v.witness.push [.u32 v.addr, .u32 h.addr]) s.owner = (.error stop, o) ∧
      s' = { s with tokens := t, owner := o } := by
  rw [OwnedVec.push, exec_bind_ok (exec_requireMutable hMode "push"),
    exec_bind_ok (exec_lower_owned hMoved hSpend), exec_bind] at hFail
  rcases hCall : exec (Owner.call v.witness.push [.u32 v.addr, .u32 h.addr]) s.owner with ⟨why | reply, o⟩
  all_goals
    have hAsked := exec_onOwner (s := { s with tokens := t }) hCall
    rw [call, hAsked] at hFail
    cases hFail
  exact ⟨o, rfl, rfl⟩

end Session

namespace OwnedVec

variable {V : Type} {s s' : Session V} {v : OwnedVec V} {x : Element V} {h : Handle (Export V)}
  {type elem : OpaqueType} {stop : Stop}

/-- What a push that failed leaves of the objects, the vector and the right to the element. -/
structure PushFailed (v : OwnedVec V) (x : Element V) (h : Handle (Export V)) (s s' : Session V) : Prop where
  /-- The objects with their borrows are those that there were. -/
  objects : ∀ a, s'.owner.entry? a = s.owner.entry? a
  /-- What is at the vector's address holds what it held. -/
  contents : s.owner.table.heap.memory.maxPages ≤ 65535 → ∀ e, s.owner.entry? v.addr = some e →
    e.value.slots s'.owner.table.heap.memory = e.value.slots s.owner.table.heap.memory
  owns_iff : h.owns s'.tokens = true ↔ v.handle.mode = .borrowed
  others : ∀ h' : Handle (Export V), h'.token ≠ h.token → h'.owns s'.tokens = h'.owns s.tokens
  refused : v.handle.mode = .borrowed → s' = s
  /-- Freeing the element does nothing, and no vector takes it. -/
  lost : v.handle.mode ≠ .borrowed → exec (Session.free h) s' = (.ok (), s') ∧
    ∀ w : OwnedVec V, ∃ why, exec (w.push x) s' = (.error (.trapped why), s')

/-- However a push on a vector of objects fails, the objects, their borrows and the vector's contents are as before, and
the handle still owns the element exactly if the vector is held through a shared borrow. -/
theorem failed_push (hRun : s.owner.Reached) (hPush : v.witness.push = .refVec type elem .push)
    (hMoved : x.moved? = some h) (hOwns : h.owns s.tokens = true) (hFail : exec (v.push x) s = (.error stop, s')) :
    v.PushFailed x h s s' := by
  by_cases hMode : v.handle.mode = .borrowed
  · obtain ⟨why, hRefused⟩ := Session.exec_push_borrowed hMode x s
    obtain rfl : s' = s := (Prod.mk.inj (hFail.symm.trans hRefused)).2
    exact ⟨fun _ => rfl, fun _ _ _ => rfl, iff_of_true hOwns hMode, fun _ _ => rfl, fun _ => rfl, absurd hMode⟩
  · obtain ⟨t, hSpend, hSpent, hOthers⟩ := Handle.spend?_of_owns hOwns
    obtain ⟨o, hCall, rfl⟩ := Session.push_error_of_owned hMoved hMode hSpend hFail
    rw [hPush] at hCall
    refine ⟨(Owner.VecForm.exec_push_error (fun P => Owner.keeps_acceptLive elem _) hCall).1, ?_, ?_, hOthers,
      fun hBorrowed => absurd hBorrowed hMode, fun _ => ⟨Session.exec_free_spent hSpent, ?_⟩⟩
    · intro hLimit e hFound
      exact hRun.slots_of_push_error hLimit hCall hFound
    · exact iff_of_false (by rw [hSpent]; exact Bool.false_ne_true) hMode
    · exact Session.exec_push_spent hMoved hSpent

end OwnedVec

/-! ## A vector whose storage was freed, and one that was freed itself -/

theorem Owner.Reached.serve {V : Type} {o : Owner V} (hRun : o.Reached) (actions : List (Owner.Action V)) :
    (o.serve actions).Reached := by
  induction actions generalizing o with
  | nil => exact hRun
  | cons a rest ih => exact ih (hRun.act a)

def Witness.ofTypes {V : Type} (type elem : OpaqueType) : Witness V where
  elem := elem.name
  form := .handle ⟨elem.name, .destructor⟩
  new := .refVec type elem .new
  free := .destructor
  len := .refVec type elem .len
  push := .refVec type elem .push
  pop := .refVec type elem .pop
  get := .refVec type elem .get
  getMut := .refVec type elem .getMut
  asPtr := .refVec type elem .asPtr

namespace OwnedVec

def pointType : OpaqueType := ⟨"P", 1⟩
def pointsType : OpaqueType := ⟨vecTypeName "P", 2⟩

def point (addr : UInt32) : Handle (Export Nat) :=
  { typeName := "P", addr, mode := .owned, token := 0, destructor := some .destructor }

def points (addr : UInt32) : OwnedVec Nat :=
  ⟨.ofTypes pointsType pointType,
    { typeName := vecTypeName "P", addr, mode := .owned, token := 1, destructor := some .destructor }⟩

def started : Owner Nat := (Owner.create {} : Except Report (Owner Nat)).toOption.get rfl

def holding (actions : List (Owner.Action Nat)) (addr vec : UInt32) : Session Nat :=
  { owner := started.serve actions, tokens := ⟨2, [⟨1, vecTypeName "P", vec⟩, ⟨0, "P", addr⟩]⟩ }

theorem reached_holding (actions : List (Owner.Action Nat)) (addr vec : UInt32) :
    (holding actions addr vec).owner.Reached :=
  Owner.Reached.serve (.create {} rfl) actions

/-- The vector at 56 holds four objects and is full. Its storage at 64 has been freed. -/
def freedStorage : List (Owner.Action Nat) :=
  let push := fun addr => Owner.Action.call (.refVec pointsType pointType .push) [.u32 56, .u32 addr]
  [.register (.guests "P"), .register (.objects "P"), .box "P" 1, .box "P" 2, .box "P" 3, .box "P" 4, .box "P" 5,
    .call (.refVec pointsType pointType .new) [], push 16, push 24, push 32, push 40, .useHeap (.free 64)]

/-- The push fails after the elements have been copied to a new block. -/
theorem failed_push_freedStorage :
    ∃ (s s' : Session Nat) (stop : Stop) (e : Entry (Object Nat)),
      s.owner.Reached ∧ (point 48).owns s.tokens = true ∧
      exec ((points 56).push (.handle (point 48))) s = (.error stop, s') ∧
      s'.owner.table.heap.allocs = s.owner.table.heap.allocs + 1 ∧
      s.owner.entry? 56 = some e ∧ e.value.slots s.owner.table.heap.memory = [16, 24, 32, 40] ∧
      e.value.slots s'.owner.table.heap.memory = [16, 24, 32, 40] ∧
      (points 56).PushFailed (.handle (point 48)) (point 48) s s' := by
  let s := holding freedStorage 48 56
  have hRun : s.owner.Reached := reached_holding freedStorage 48 56
  have hStops : (exec ((points 56).push (.handle (point 48))) s).1.toBool = false ∧
      (exec ((points 56).push (.handle (point 48))) s).2.owner.table.heap.allocs = s.owner.table.heap.allocs + 1 := by
    decide +kernel
  have hSlots : (s.owner.entry? 56).map (fun e => e.value.slots s.owner.table.heap.memory) =
      some [16, 24, 32, 40] := by
    decide +kernel
  obtain ⟨e, hFound, hBefore⟩ := Option.map_eq_some_iff.mp hSlots
  rcases hFail : exec ((points 56).push (.handle (point 48))) s with ⟨stop | _, s'⟩
  · rw [hFail] at hStops
    have hFailed := failed_push hRun rfl rfl (by decide) hFail
    refine ⟨s, s', stop, e, hRun, by decide, hFail, hStops.2, hFound, hBefore, ?_, hFailed⟩
    rw [hFailed.contents (by decide +kernel) e hFound, hBefore]
  · rw [hFail] at hStops
    cases hStops.1

/-- The vector at 24 has been freed, and the object at 16 was not in it. -/
def freedVector : List (Owner.Action Nat) :=
  [.register (.guests "P"), .register (.objects "P"), .box "P" 1, .call (.refVec pointsType pointType .new) [],
    .drop 24]

theorem failed_push_loses_element :
    ∃ (s s' : Session Nat) (stop : Stop), s.owner.Reached ∧ (points 24).handle.mode = .owned ∧
      (point 16).owns s.tokens = true ∧ exec ((points 24).push (.handle (point 16))) s = (.error stop, s') ∧
      (s'.owner.entry? 16).isSome = true ∧ (point 16).owns s'.tokens = false := by
  let s := holding freedVector 16 24
  have hStops : (exec ((points 24).push (.handle (point 16))) s).1.toBool = false ∧
      (Owner.entry? (exec ((points 24).push (.handle (point 16))) s).2.owner 16).isSome = true ∧
      (point 16).owns (exec ((points 24).push (.handle (point 16))) s).2.tokens = false := by
    decide +kernel
  rcases hFail : exec ((points 24).push (.handle (point 16))) s with ⟨stop | _, s'⟩
  · rw [hFail] at hStops
    exact ⟨s, s', stop, reached_holding freedVector 16 24, rfl, by decide, hFail, hStops.2⟩
  · rw [hFail] at hStops
    cases hStops.1

end OwnedVec

end Marshal
