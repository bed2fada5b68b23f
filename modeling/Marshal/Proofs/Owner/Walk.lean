import Marshal.Proofs.Owner.Borrow
import Marshal.Proofs.Owner.Calls

/-! # What every call preserves

An exported function reaches the objects and the heap in a few ways only: it declares a type, boxes an object or a
string, borrows an object and gives it back, replaces the value of a vector or a guest under a borrow, or takes an
object out. `Walk` lists them. What survives each of them survives every call, whatever its arguments and however it
ends. Objects are taken out at the end of a call, so there a property may become a weaker one.
-/
set_option autoImplicit false
namespace Marshal

open Step

namespace Step

variable {σ α β : Type} {P P' : σ → Prop}

theorem Keeps.andFinally {x : Step σ α} {y : Step σ Unit} (hx : Keeps P x) (hy : Keeps P y) :
    Keeps P (andFinally x y) := by
  intro s hs
  rw [state_andFinally]
  exact hy _ (hx s hs)

theorem bind_holds_of {x : Step σ α} {f : α → Step σ β} {s : σ} (hx : P (exec x s).2)
    (hf : ∀ a s', exec x s = (.ok a, s') → P s' → P (exec (f a) s').2) : P (exec (x >>= f) s).2 := by
  rw [exec_bind]
  rcases hExec : exec x s with ⟨stop | a, s'⟩ <;> rw [hExec] at hx
  · exact hx
  · exact hf a s' hExec hx

theorem bind_holds {x : Step σ α} {f : α → Step σ β} {s : σ} (hx : P (exec x s).2) (hf : ∀ a, Keeps P (f a)) :
    P (exec (x >>= f) s).2 :=
  bind_holds_of hx fun a s' _ => hf a s'

theorem ok_of_trapRefusal {f : Failure → Failure} {x : Step σ α} {s s' : σ} {a : α}
    (h : exec (trapRefusal f x) s = (.ok a, s')) : exec x s = (.ok a, s') := by
  rw [exec_trapRefusal] at h
  generalize exec x s = out at h ⊢
  rcases out with ⟨(_ | _ | _) | _, _⟩ <;> cases h
  rfl

theorem state_attempt (x : Step σ α) (s : σ) : (exec (attempt x) s).2 = (exec x s).2 := by
  rw [exec_attempt]
  rcases exec x s with ⟨(_ | _ | _) | _, s'⟩ <;> rfl

theorem state_trapRefusal (f : Failure → Failure) (x : Step σ α) (s : σ) :
    (exec (trapRefusal f x) s).2 = (exec x s).2 := by
  rw [exec_trapRefusal]
  rcases exec x s with ⟨(_ | _ | _) | _, s'⟩ <;> rfl

theorem Keeps.discard {x : Step σ α} (hx : Keeps P x) : Keeps P (discard x : Step σ Unit) := by
  intro s hs
  show P (exec (_ <$> x) s).2
  rw [exec_map]
  exact hx s hs

end Step

namespace Object

variable {V : Type}

/-- Objects without blocks of their own, as they are when they are boxed. -/
inductive IsBare : Object V → Prop
  | guest (value : V) : IsBare (.guest value)
  | callback (label : Text) : IsBare (.callback label)
  | vector (elem : Scalar) : IsBare (.vector elem {})
  | refVector : IsBare (.refVector {})

theorem IsBare.blocks {v : Object V} (hBare : v.IsBare) : v.blocks = [] := by
  cases hBare <;> rfl

theorem IsBare.fits {v : Object V} (hBare : v.IsBare) (h : Heap) : v.Fits h := by
  cases hBare with
  | guest value => trivial
  | callback label => trivial
  | vector elem => exact Buffer.fits_empty h elem
  | refVector => exact Buffer.fits_empty h .u32

end Object

namespace Owner

variable {V α β : Type} {P P' : Owner V → Prop} {o : Owner V} {type : OpaqueType} {addr : UInt32} {kind : BorrowKind}
  {project : Object V → Option β} {form : VecForm V}

theorem guest?_eq_some {v : Object V} {g : V} (h : guest? v = some g) : v = .guest g := by
  cases v with
  | guest value => rw [Option.some.inj h]
  | _ => cases h

theorem keeps_onHeap {x : Step Heap α} (hx : ∀ h, (exec x h).2 = h) : Keeps P (onHeap x) := by
  intro o ho
  have hSame : (exec (onHeap x) o).2 = o := by
    rw [onHeap, exec_onTable, Table.exec_onHeap, hx]
  rwa [hSame]

theorem keeps_readBytes (addr length : UInt32) : Keeps P (onHeap (Heap.readBytes addr length)) := by
  apply keeps_onHeap
  intro h
  rcases Heap.exec_readBytes_cases h addr length with ⟨r, hRead⟩ | ⟨bytes, hRead⟩ <;> rw [hRead]

theorem keeps_viewBytes (v : View) : Keeps P (viewBytes v) := (keeps_readBytes _ _).trapRefusal _

theorem keeps_viewText (v : View) : Keeps P (viewText v) := by
  apply Keeps.bind (P := P) (keeps_viewBytes v)
  intro bytes
  split
  · exact Keeps.pure _
  · exact Keeps.throw _

theorem keeps_acceptLive (elem : OpaqueType) (v : Datum) : Keeps P (VecForm.acceptLive elem v) := by
  unfold VecForm.acceptLive
  split
  · apply Keeps.get_bind
    intro o ho
    split <;> exact ho
  · exact Keeps.throw _

/-- The ways in which exported functions change an owner preserve the property; taking an object out may weaken it. -/
structure Walk (P P' : Owner V → Prop) : Prop where
  weaken : ∀ o, P o → P' o
  typeId : ∀ name, Keeps P (typeId name)
  box : ∀ name {v : Object V}, v.IsBare → Keeps P (box name v)
  newString : ∀ data, Keeps P (newString data)
  borrow : ∀ addr kind, Keeps P (onTable (Table.borrow addr kind))
  giveBack : ∀ addr kind, Keeps P (onTable (Table.giveBack addr kind))
  push : ∀ {form : VecForm V}, form.Lawful → ∀ {o : Owner V} {addr e buf} v, P o → o.entry? addr = some e →
    form.project e.value = some buf → P (exec (form.pushTo addr v buf) o).2
  pop : ∀ {form : VecForm V}, form.Lawful → ∀ {o : Owner V} {addr e buf}, P o → o.entry? addr = some e →
    form.project e.value = some buf → P (exec (form.popFrom addr buf) o).2
  setGuest : ∀ {o : Owner V} {addr e v} g, P o → o.entry? addr = some e → e.value = .guest v →
    P (exec (onTable (Table.setValue addr (.guest g))) o).2
  drop : ∀ addr {o}, P o → P' (exec (drop addr) o).2
  unbox : ∀ addr {o}, P o → P' (exec (unbox addr) o).2
  note : ∀ deed, Keeps P' (onTable (Table.note deed))

namespace Walk

variable (hw : Walk P P')
include hw

theorem leave (addr : UInt32) (kind : BorrowKind) : Keeps P (leave addr kind) :=
  Keeps.bind (hw.giveBack addr kind) fun _ => Keeps.pure ()

theorem enter (type : OpaqueType) (addr : UInt32) (kind : BorrowKind) (project : Object V → Option β) :
    Keeps P (enter type addr kind project) := by
  apply Keeps.get_bind
  intro o ho
  split
  · exact ho
  · split
    · exact ho
    · exact Keeps.bind (hw.borrow addr kind) (fun _ => Keeps.pure _) o ho

theorem mustAccess {body : β → Step (Owner V) α}
    (hBody : ∀ (o : Owner V) e b, P o → o.entry? addr = some e → project e.value = some b → P (exec (body b) o).2) :
    Keeps P (mustAccess type addr kind project body) := by
  intro o ho
  have hEntered := hw.enter type addr kind project o ho
  have hState := state_accessAs true type addr kind project body o
  rw [accessAs, if_pos rfl] at hState
  rw [hState]
  obtain ⟨e, b, o₁, hEnter, ⟨hFound, -, hProject, -⟩, hEdits⟩ | ⟨stop, hEnter, -⟩ :=
    exec_enter_cases o type addr kind project
  · rw [hEnter] at hEntered ⊢
    refine hw.leave addr kind _ (hBody o₁ (e.borrow kind) b hEntered ?_ ?_)
    · rw [hEdits addr, if_pos rfl, hFound]
      rfl
    · cases kind <;> exact hProject
  · rw [hEnter] at hEntered ⊢
    exact hEntered

theorem mustAccess_of {body : β → Step (Owner V) α} (hBody : ∀ b, Keeps P (body b)) :
    Keeps P (Owner.mustAccess type addr kind project body) :=
  hw.mustAccess fun o _ b ho _ _ => hBody b o ho

theorem mustGet (name : Text) : Keeps P (mustGet name addr project) := by
  apply Keeps.bind (hw.typeId name)
  intro id
  apply Keeps.get_bind
  intro o ho
  split
  · exact ho
  · split <;> exact ho

theorem mustBox (name : Text) {v : Object V} (hBare : v.IsBare) : Keeps P (mustBox name v) :=
  (hw.box name hBare).trapRefusal _

/-! ## Strings and vectors -/

theorem callString (op : StringOp) (args : List Datum) : Keeps P (callString op args) := by
  unfold Owner.callString
  split
  · exact Keeps.bind (hw.newString _) fun _ => Keeps.pure _
  · apply Keeps.bind (P := P) (keeps_viewText _)
    intro text
    exact Keeps.bind (hw.newString text) fun _ => Keeps.pure _
  · exact Keeps.bind (hw.mustGet _) fun _ => Keeps.pure _
  · exact Keeps.bind (hw.mustGet _) fun _ => Keeps.pure _
  · exact Keeps.bind (hw.mustGet _) fun _ => Keeps.pure _
  · apply Keeps.bind (hw.mustGet _)
    intro _
    exact Keeps.bind ((keeps_readBytes _ _).trapRefusal _) fun _ => Keeps.pure _
  · apply Keeps.bind (P := P) (keeps_viewBytes _)
    intro _
    exact Keeps.bind (keeps_viewBytes _) fun _ => Keeps.pure _
  · exact Keeps.throw _

theorem elementAt (i : UInt64) (kind : BorrowKind) : Keeps P (form.elementAt addr i kind) := by
  apply hw.mustAccess_of
  intro buf
  split
  · exact Keeps.pure _
  · exact Keeps.bind (keeps_onHeap (Buffer.exec_get?_state _ _ _)) fun _ => Keeps.pure _

theorem callVec (hl : form.Lawful) (hEmpty : (form.inject {}).IsBare) (hAccept : ∀ v, Keeps P (form.accept v))
    (op : VecOp) (args : List Datum) : Keeps P (form.call op args) := by
  unfold VecForm.call
  split
  · exact Keeps.bind (hw.mustBox _ hEmpty) fun _ => Keeps.pure _
  · exact hw.mustAccess_of fun _ => Keeps.pure _
  · exact Keeps.bind (hAccept _) fun _ => hw.mustAccess fun _ _ _ => hw.push hl _
  · exact hw.mustAccess fun _ _ _ => hw.pop hl
  · exact hw.elementAt _ _
  · exact hw.elementAt _ _
  · exact hw.mustAccess_of fun _ => Keeps.pure _
  · exact Keeps.throw _

/-! ## Exported functions -/

theorem keyOf (type : OpaqueType) (addr : UInt32) (key : V → Option (List Datum)) : Keeps P (keyOf type addr key) :=
  hw.mustAccess_of fun _ => Keeps.pure _

theorem take (ho : P o) (type : OpaqueType) (addr : UInt32) : P' (exec (take type addr) o).2 := by
  rcases state_take o type addr with hSame | hTaken
  · rw [hSame]
    exact hw.weaken o ho
  · rw [hTaken]
    exact hw.unbox addr ho

theorem callBoxed (ho : P o) (addr : UInt32) : P' (exec (callBoxed addr) o).2 := by
  refine bind_holds (by rw [state_attempt]; exact hw.unbox addr ho) fun r => ?_
  split
  · exact Keeps.throw _
  · exact hw.note _
  · exact Keeps.throw _

theorem call (ho : P o) (f : Export V) (args : List Datum) : P' (exec (call f args) o).2 := by
  have hKept : ∀ {x : Step (Owner V) Reply}, Keeps P x → P' (exec x o).2 := fun hx => hw.weaken _ (hx o ho)
  unfold Owner.call
  split
  · exact bind_holds (hw.drop _ ho) fun _ => Keeps.pure _
  · exact bind_holds (hw.callBoxed ho _) fun _ => Keeps.pure _
  · exact hKept (hw.callString _ _)
  · exact hKept (hw.callVec (VecForm.scalar_lawful _ _) (.vector _) (fun _ => Keeps.pure ()) _ _)
  · exact hKept (hw.callVec (VecForm.reference_lawful _ _) .refVector (keeps_acceptLive _) _ _)
  · exact hKept (Keeps.bind (hw.mustBox _ (.guest _)) fun _ => Keeps.pure _)
  · exact hKept (hw.mustAccess_of fun _ => Keeps.pure _)
  · apply hKept
    apply hw.mustAccess
    rintro o e ⟨g, answer⟩ ho hFound hProject
    obtain ⟨v, hGuest, -⟩ := Option.bind_eq_some_iff.mp hProject
    simp only [exec_bind_pure]
    exact hw.setGuest g ho hFound (guest?_eq_some hGuest)
  · refine bind_holds (by rw [state_trapRefusal]; exact hw.take ho _ _) fun g => ?_
    split
    · exact Keeps.pure _
    · exact Keeps.throw _
  · apply hKept
    split
    · exact Keeps.pure _
    · apply Keeps.bind (hw.keyOf _ _ _)
      intro ka
      exact Keeps.bind (hw.keyOf _ _ _) fun kb => Keeps.pure _
  · exact hKept (Keeps.bind (hw.keyOf _ _ _) fun _ => Keeps.pure _)
  · apply hKept
    split
    · exact Keeps.pure _
    · exact Keeps.pure _
  · exact hKept (Keeps.throw _)

end Walk

/-- What does not depend on the table survives every call, if declaring a type preserves it. -/
theorem walk_of_outer (hTable : ∀ (o : Owner V) t, P o → P { o with table := t })
    (hTypeId : ∀ name, Keeps P (typeId name)) : Walk P P := by
  have hOn : ∀ {α : Type} (x : Step (Table (Object V)) α), Keeps P (onTable x) := by
    intro α x o ho
    rw [exec_onTable]
    exact hTable o _ ho
  have hBox : ∀ name (v : Object V), Keeps P (box name v) := by
    intro name v
    apply Keeps.get_bind
    intro o ho
    split
    · exact ho
    · exact Keeps.bind (hTypeId name) (fun id => hOn _) o ho
  refine ⟨fun _ ho => ho, hTypeId, fun name _ _ => hBox name _, fun data => ?_, fun _ _ => hOn _, fun _ _ => hOn _,
    ?_, ?_, fun _ ho _ _ => hOn _ _ ho, fun addr => ?_, fun _ _ ho => hOn _ _ ho, fun _ => hOn _⟩
  · apply Keeps.bind ((hOn _).trapRefusal _)
    intro ptr
    apply Keeps.bind (hBox _ _).attempt
    rintro (why | addr)
    · exact Keeps.bind (hOn _) fun _ => Keeps.throw _
    · exact Keeps.pure addr
  · intro form _ o addr e buf v ho _ _
    exact Keeps.bind ((hOn _).trapRefusal _) (fun _ => Keeps.bind (hOn _) fun _ => Keeps.pure _) o ho
  · intro form _ o addr e buf ho _ _
    exact Keeps.bind (hOn _) (fun _ => Keeps.bind (hOn _) fun _ => Keeps.pure _) o ho
  · exact fun ho => Keeps.get_bind (P := P) (fun o ho => hOn _ o ho) _ ho

/-! ## Actions -/

/-- What can be done with an owner from outside, closing it apart. -/
inductive Action (V : Type) where
  | register (r : Registration)
  | call (f : Export V) (args : List Datum)
  | spawn (symbol : Text) (task : Task)
  | box (name : Text) (value : V)
  | boxCallback (label : Text)
  | drop (addr : UInt32)
  | unbox (addr : UInt32)
  | borrow (addr : UInt32) (kind : BorrowKind)
  | giveBack (addr : UInt32) (kind : BorrowKind)
  | useHeap (c : HeapUse)

def Action.run : Action V → Step (Owner V) Unit
  | register r => r.run
  | call f args => discard (Owner.call f args)
  | spawn symbol task => Owner.spawn symbol task
  | box name value => discard (Owner.box name (.guest value))
  | boxCallback label => discard (Owner.box callbackType (.callback label))
  | drop addr => Owner.drop addr
  | unbox addr => discard (Owner.unbox addr)
  | borrow addr kind => onTable (Table.borrow addr kind)
  | giveBack addr kind => leave addr kind
  | useHeap c => onHeap c.perform

/-- What is published and which tasks are accepted does not matter to the property. -/
def Inward (P : Owner V → Prop) : Prop :=
  ∀ {o o' : Owner V}, o'.table = o.table → o'.types = o.types → o'.closed = o.closed → P o → P o'

namespace Inward

theorem exportAs (hi : Inward P) (name : Text) (f : Export V) : Keeps P (exportAs name f) := by
  intro o ho
  rcases exec_exportAs_cases name f o with ⟨why, hTaken⟩ | ⟨hNew, -⟩
  · rwa [hTaken]
  · rw [hNew]
    exact hi (o := o) rfl rfl rfl ho

theorem exportAll (hi : Inward P) (fs : List (Text × Export V)) : Keeps P (exportAll fs) := by
  induction fs with
  | nil => exact Keeps.pure ()
  | cons f rest ih => exact Keeps.bind (hi.exportAs f.1 f.2) fun _ => ih

theorem spawn (hi : Inward P) (symbol : Text) (task : Task) : Keeps P (spawn symbol task) := by
  apply Keeps.get_bind
  intro o ho
  split
  · exact hi (o := o) rfl rfl rfl ho
  · exact ho

variable (hi : Inward P) (hTypeId : ∀ name, Keeps P (typeId name))
include hi hTypeId

theorem declare (name : Text) : Keeps P (declare name) := by
  apply Keeps.bind (hTypeId name)
  intro id
  exact Keeps.bind (hi.exportAs _ _) fun _ => Keeps.pure _

theorem exportRefVec (elem : Text) : Keeps P (exportRefVec elem) := by
  apply Keeps.bind (hi.declare hTypeId _)
  intro type
  exact Keeps.bind (hTypeId elem) fun id => hi.exportAll _

theorem register (r : Registration) : Keeps P r.run := by
  cases r with
  | strings =>
    apply Keeps.bind (hi.declare hTypeId _)
    intro type
    exact Keeps.bind (hi.exportAll _) fun _ => hi.exportRefVec hTypeId _
  | scalars elem => exact Keeps.bind (hi.declare hTypeId _) fun type => hi.exportAll _
  | objects elem => exact hi.exportRefVec hTypeId elem
  | guests name => exact Keeps.bind (hi.declare hTypeId name) fun _ => Keeps.pure ()

end Inward

/-- Whatever is done, if the property survives what others do to the heap. -/
theorem Walk.act (hw : Walk P P') (hi : Inward P) (ho : P o) {a : Action V}
    (hUse : ∀ c, a = .useHeap c → P' (o.withHeap (exec c.perform o.table.heap).2)) : P' (exec a.run o).2 := by
  have hKept : ∀ {x : Step (Owner V) Unit}, Keeps P x → P' (exec x o).2 := fun hx => hw.weaken _ (hx o ho)
  cases a with
  | register r => exact hKept (hi.register hw.typeId r)
  | call f args =>
    show P' (exec (_ <$> Owner.call f args) o).2
    rw [exec_map]
    exact hw.call ho f args
  | spawn symbol task => exact hKept (hi.spawn symbol task)
  | box name value => exact hKept (hw.box name (.guest value)).discard
  | boxCallback label => exact hKept (hw.box callbackType (.callback label)).discard
  | drop addr => exact hw.drop addr ho
  | unbox addr =>
    show P' (exec (_ <$> Owner.unbox addr) o).2
    rw [exec_map]
    exact hw.unbox addr ho
  | borrow addr kind => exact hKept (hw.borrow addr kind)
  | giveBack addr kind => exact hKept (hw.leave addr kind)
  | useHeap c =>
    rw [Action.run, exec_onHeap (x := c.perform) rfl]
    exact hUse c rfl

end Owner

end Marshal
