import Marshal.Proofs.Owner.Solvent

/-! # The types of published functions

A function that works on objects of a type carries the number of that type. Types are numbered in the order in which
they are first used and keep their numbers, so whatever is done with an owner, the number in a published function is
that of the type it was published for.
-/
set_option autoImplicit false
namespace Marshal

open Step

def OpaqueType.DeclaredIn (types : List Text) (t : OpaqueType) : Prop :=
  t.name ∈ types ∧ t.typeId = typeNumber types t.name

def Export.DeclaredIn {V : Type} (types : List Text) : Export V → Prop
  | string _ _ => Owner.stringType ∈ types
  | vec type _ _ => type.DeclaredIn types
  | refVec type elem _ => type.DeclaredIn types ∧ elem.DeclaredIn types
  | construct type _ _ => type.DeclaredIn types
  | inspect type _ _ => type.DeclaredIn types
  | amend type _ _ _ => type.DeclaredIn types
  | consume type _ _ => type.DeclaredIn types
  | equal type _ => type.DeclaredIn types
  | hash type _ => type.DeclaredIn types
  | _ => True

theorem OpaqueType.DeclaredIn.grow {types types' : List Text} (hGrow : types <+: types') {t : OpaqueType}
    (h : t.DeclaredIn types) : t.DeclaredIn types' :=
  ⟨hGrow.subset h.1, h.2.trans (typeNumber_grow hGrow h.1).symm⟩

theorem Export.DeclaredIn.grow {V : Type} {types types' : List Text} (hGrow : types <+: types') {f : Export V}
    (h : f.DeclaredIn types) : f.DeclaredIn types' := by
  cases f with
  | string _ _ => exact hGrow.subset h
  | refVec _ _ _ => exact ⟨h.1.grow hGrow, h.2.grow hGrow⟩
  | vec _ _ _ => exact OpaqueType.DeclaredIn.grow hGrow h
  | construct _ _ _ => exact OpaqueType.DeclaredIn.grow hGrow h
  | inspect _ _ _ => exact OpaqueType.DeclaredIn.grow hGrow h
  | amend _ _ _ _ => exact OpaqueType.DeclaredIn.grow hGrow h
  | consume _ _ _ => exact OpaqueType.DeclaredIn.grow hGrow h
  | equal _ _ => exact OpaqueType.DeclaredIn.grow hGrow h
  | hash _ _ => exact OpaqueType.DeclaredIn.grow hGrow h
  | _ => trivial

theorem declaredType_declaredIn {types : List Text} {name : Text} (hName : name ∈ types) :
    (declaredType types name).DeclaredIn types :=
  ⟨hName, rfl⟩

theorem Known.declaredIn {V : Type} {types : List Text} {symbol : Text} {f : Export V} (h : Known types symbol f) :
    f.DeclaredIn types := by
  cases h with
  | string type part hPart hString => exact hString
  | vec s op hVec => exact declaredType_declaredIn hVec
  | refVec elem op hElem hVec => exact ⟨declaredType_declaredIn hVec, declaredType_declaredIn hElem⟩
  | _ => trivial

namespace Owner

variable {V α β : Type} {o o' : Owner V}

def Typed (o : Owner V) : Prop := ∀ x ∈ o.exports, x.2.DeclaredIn o.types

theorem Typed.same (ht : o.Typed) (hTypes : o'.types = o.types) (hExports : o'.exports = o.exports) : o'.Typed := by
  intro x hx
  rw [hTypes]
  exact ht x (hExports ▸ hx)

theorem Typed.withType (ht : o.Typed) (name : Text) : Typed { o with types := withType o.types name } :=
  fun x hx => (ht x hx).grow (withType_grow o.types name)

theorem Typed.add (ht : o.Typed) (name : Text) {f : Export V} (hf : f.DeclaredIn o.types) :
    Typed { o with exports := o.exports ++ [(name, f)] } :=
  List.forall_mem_append.mpr ⟨ht, List.forall_mem_singleton.mpr hf⟩

theorem typed_onTable (x : Step (Table (Object V)) α) : Keeps Typed (onTable x) := by
  intro o ht
  rw [exec_onTable]
  exact ht.same rfl rfl

theorem typed_typeId (name : Text) : Keeps (Typed (V := V)) (typeId name) := by
  intro o ht
  rw [exec_typeId]
  exact ht.withType name

/-! ## Registering -/

theorem Typed.exportAs (ht : o.Typed) (name : Text) {f : Export V} (hf : f.DeclaredIn o.types) :
    (exec (exportAs name f) o).2.Typed ∧ (exec (exportAs name f) o).2.types = o.types := by
  rcases exec_exportAs_cases name f o with ⟨why, hTaken⟩ | ⟨hNew, -⟩
  · rw [hTaken]
    exact ⟨ht, rfl⟩
  · rw [hNew]
    exact ⟨ht.add name hf, rfl⟩

theorem Typed.exportAll (ht : o.Typed) {fs : List (Text × Export V)} (hfs : ∀ x ∈ fs, x.2.DeclaredIn o.types) :
    (exec (exportAll fs) o).2.Typed ∧ (exec (exportAll fs) o).2.types = o.types := by
  induction fs generalizing o with
  | nil => exact ⟨ht, rfl⟩
  | cons x fs ih =>
    obtain ⟨hx, hRest⟩ := List.forall_mem_cons.mp hfs
    obtain ⟨ht₁, hTypes⟩ := ht.exportAs x.1 hx
    rw [Owner.exportAll, exec_bind]
    rcases hExec : exec (Owner.exportAs x.1 x.2) o with ⟨stop | _, o₁⟩
    · rw [hExec] at ht₁ hTypes
      exact ⟨ht₁, hTypes⟩
    · rw [hExec] at ht₁ hTypes
      obtain ⟨ht₂, hTypes₂⟩ := ih ht₁ fun y hy => hTypes ▸ hRest y hy
      exact ⟨ht₂, hTypes₂.trans hTypes⟩

theorem Typed.exec_declare (ht : o.Typed) (name : Text) :
    ∃ o', o'.Typed ∧ o'.types = Owner.withType o.types name ∧
      ((∃ why, exec (declare name) o = (.error (.refused why), o')) ∨
        exec (declare name) o = (.ok (declaredType o'.types name), o')) := by
  rw [declare, exec_bind_ok (exec_typeId name o)]
  rcases exec_exportAs_cases (Symbol.ofType name Symbol.free) .destructor
    { o with types := Owner.withType o.types name } with ⟨why, hTaken⟩ | ⟨hNew, -⟩
  · exact ⟨_, ht.withType name, rfl, .inl ⟨why, exec_bind_error hTaken⟩⟩
  · have ht' := (ht.withType name).add (Symbol.ofType name Symbol.free) (f := .destructor) trivial
    exact ⟨_, ht', rfl, .inr (exec_bind_ok hNew)⟩

theorem typed_exportVec (elem : Scalar) : Keeps (Typed (V := V)) (exportVec elem) := by
  intro o ht
  obtain ⟨o₁, ht₁, hTypes, ⟨why, hExec⟩ | hExec⟩ := ht.exec_declare (vecTypeName elem.name)
  · rw [exportVec, exec_bind_error hExec]
    exact ht₁
  · rw [exportVec, exec_bind_ok hExec]
    refine (ht₁.exportAll ?_).1
    intro x hx
    obtain ⟨op, -, rfl⟩ := List.mem_map.mp hx
    exact declaredType_declaredIn (hTypes ▸ mem_withType ..)

theorem typed_exportRefVec (elem : Text) : Keeps (Typed (V := V)) (exportRefVec elem) := by
  intro o ht
  obtain ⟨o₁, ht₁, hTypes, ⟨why, hExec⟩ | hExec⟩ := ht.exec_declare (vecTypeName elem)
  · rw [exportRefVec, exec_bind_error hExec]
    exact ht₁
  · rw [exportRefVec, exec_bind_ok hExec, exec_bind_ok (exec_typeId elem o₁)]
    refine ((ht₁.withType elem).exportAll ?_).1
    intro x hx
    obtain ⟨op, -, rfl⟩ := List.mem_map.mp hx
    have hVec : (declaredType o₁.types (vecTypeName elem)).DeclaredIn o₁.types :=
      declaredType_declaredIn (hTypes ▸ mem_withType ..)
    exact ⟨hVec.grow (withType_grow ..), declaredType_declaredIn (mem_withType ..)⟩

theorem typed_exportStrings : Keeps (Typed (V := V)) exportStrings := by
  intro o ht
  obtain ⟨o₁, ht₁, hTypes, ⟨why, hExec⟩ | hExec⟩ := ht.exec_declare stringType
  · rw [exportStrings, exec_bind_error hExec]
    exact ht₁
  · rw [exportStrings, exec_bind_ok hExec]
    have hString : stringType ∈ o₁.types := hTypes ▸ mem_withType ..
    refine bind_holds (ht₁.exportAll ?_).1 fun _ => typed_exportRefVec stringType
    intro x hx
    obtain ⟨⟨name, op⟩, -, rfl⟩ := List.mem_map.mp hx
    exact hString

theorem typed_register (r : Registration) : Keeps (Typed (V := V)) r.run := by
  cases r with
  | strings => exact typed_exportStrings
  | scalars elem => exact typed_exportVec elem
  | objects elem => exact typed_exportRefVec elem
  | guests name =>
    intro o ht
    obtain ⟨o₁, ht₁, -, ⟨why, hExec⟩ | hExec⟩ := ht.exec_declare name
    · rw [Registration.run, exec_bind_error hExec]
      exact ht₁
    · rw [Registration.run, exec_bind_ok hExec]
      exact ht₁

/-! ## Calls -/

theorem typed_walk : Walk (Typed (V := V)) Typed := walk_of_outer (fun _ _ ht => ht.same rfl rfl) typed_typeId

/-! ## Runs -/

/-- The functions that can be published for an opaque type besides its destructor. -/
inductive Method (V : Type) where
  | construct (arg : WireType) (make : Datum → V)
  | inspect (result : WireType) (f : V → Option Datum)
  | amend (arg result : WireType) (f : V → Datum → Option (V × Datum))
  | consume (result : WireType) (f : V → Option Datum)
  | equal (key : V → Option (List Datum))
  | hash (key : V → Option (List Datum))

def Method.function (type : OpaqueType) : Method V → Export V
  | construct arg make => .construct type arg make
  | inspect result f => .inspect type result f
  | amend arg result f => .amend type arg result f
  | consume result f => .consume type result f
  | equal key => .equal type key
  | hash key => .hash type key

theorem Method.declaredIn {types : List Text} {type : OpaqueType} (hType : type.DeclaredIn types) (m : Method V) :
    (m.function type).DeclaredIn types := by
  cases m <;> exact hType

/-- The owners that a new owner leads to when functions are published and called in any order, and others use its
objects and its heap as they want. -/
inductive Reached : Owner V → Prop
  | create (config : Config) {o : Owner V} (hCreate : create config = .ok o) : Reached o
  | act {o : Owner V} (a : Action V) (hRun : Reached o) : Reached (exec a.run o).2
  | method {o : Owner V} (type op : Text) (m : Method V) (hType : type ∈ o.types) (hRun : Reached o) :
      Reached (exec (exportAs (Symbol.ofType type op) (m.function (declaredType o.types type))) o).2
  | function {o : Owner V} (name : Text) (type : FunctionType) (run : List Datum → Option Datum) (hRun : Reached o) :
      Reached (exec (exportAs name (.function type run)) o).2
  | async {o : Owner V} (name : Text) (body : AsyncBody) (hRun : Reached o) : Reached (exec (exportAsync name body) o).2
  | close {o : Owner V} (hRun : Reached o) : Reached (exec close o).2

theorem Action.typed_run (a : Action V) : Keeps Typed a.run := by
  cases a with
  | register r => exact typed_register r
  | call f args => exact Keeps.discard fun _ ht => typed_walk.call ht f args
  | spawn symbol task =>
    apply Keeps.get_bind
    intro o ht
    split
    · exact ht.same rfl rfl
    · exact ht
  | box name value => exact (typed_walk.box name (.guest value)).discard
  | boxCallback label => exact (typed_walk.box callbackType (.callback label)).discard
  | drop addr => exact fun _ ht => typed_walk.drop addr ht
  | unbox addr => exact (typed_onTable _).discard
  | borrow addr kind => exact typed_onTable (Table.borrow addr kind)
  | giveBack addr kind => exact typed_walk.leave addr kind
  | useHeap c => exact typed_onTable (Table.onHeap c.perform)

theorem typed_close : Keeps (Typed (V := V)) close := by
  apply Keeps.get_bind
  intro o ht
  split
  · exact ht
  · refine bind_holds ?_ fun _ => Keeps.get_bind fun o ht => typed_onTable _ o ht
    rw [exec_modify]
    exact ht.same rfl rfl

theorem Reached.typed (hRun : o.Reached) : o.Typed := by
  induction hRun with
  | create config hCreate => exact fun x hx => ((create_fresh hCreate).1.known x hx).declaredIn
  | act a _ ih => exact a.typed_run _ ih
  | method type op m hType _ ih => exact (ih.exportAs _ (m.declaredIn (declaredType_declaredIn hType))).1
  | function name type run _ ih => exact (ih.exportAs name (f := .function type run) trivial).1
  | async name body _ ih => exact (ih.exportAs _ (f := .async _ body) trivial).1
  | close _ ih => exact typed_close _ ih

end Owner

end Marshal
