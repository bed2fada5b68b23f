import Mathlib.Data.List.Forall2
import Marshal.Managed.Vectors
import Marshal.Proofs.Managed.Tokens

/-! # Bound functions

What the managed side gets when it resolves names: a group of names that resolves gives for each the published
function of the wanted type. So a bound type holds the destructor, and the functions of a witness all belong to
one vector type, whose elements are what the witness takes them for.
-/
set_option autoImplicit false
namespace Marshal

open Step

namespace Binder

variable {α : Type} {b : Binder α} {syms : Symbols α} {name : Text} {want : FunctionType}

def IsClean (b : Binder α) : Prop := b.missing = [] ∧ b.firstError = none

theorem isClean_of_failure? (h : b.failure? = none) : b.IsClean := by
  unfold failure? at h
  split at h
  · rename_i hMissing
    exact ⟨List.isEmpty_iff.mp hMissing, Option.map_eq_none_iff.mp h⟩
  · cases h

theorem bind_clean (hSyms : b.syms = some syms) (hClean : (b.bind name want).2.IsClean) :
    ∃ f, b.bind name want = (some f, b) ∧ b.IsClean ∧ syms.lookup name = some f ∧ syms.typeOf f = want := by
  unfold bind Symbols.resolve at hClean ⊢
  simp only [hSyms] at hClean ⊢
  cases hFound : syms.lookup name with
  | none =>
    simp [hFound, IsClean] at hClean
  | some f =>
    simp only [hFound] at hClean ⊢
    by_cases hType : syms.typeOf f = want
    · simp only [hType] at hClean ⊢
      exact ⟨f, rfl, hClean, rfl, hType⟩
    · simp [hType, IsClean] at hClean

theorem bind_syms (b : Binder α) (name : Text) (want : FunctionType) : (b.bind name want).2.syms = b.syms := by
  unfold bind
  cases Symbols.resolve b.syms name want <;> dsimp only <;> repeat' split
  all_goals rfl

variable {wants : List (Text × FunctionType)}

theorem bindAll_clean (hSyms : b.syms = some syms) (hClean : (b.bindAll wants).2.IsClean) :
    b.IsClean ∧ ∃ fs : List α, (b.bindAll wants).1 = fs.map some ∧
      List.Forall₂ (fun want f => syms.lookup want.1 = some f ∧ syms.typeOf f = want.2) wants fs := by
  induction wants generalizing b with
  | nil => exact ⟨hClean, [], rfl, .nil⟩
  | cons want rest ih =>
    have hSyms' := (b.bind_syms want.1 want.2).trans hSyms
    obtain ⟨hFirst, fs, hRest, hAll⟩ := ih hSyms' hClean
    obtain ⟨f, hBind, hClean', hFound, hType⟩ := bind_clean hSyms hFirst
    refine ⟨hClean', f :: fs, ?_, .cons ⟨hFound, hType⟩ hAll⟩
    rw [hBind] at hRest
    simp only [bindAll, hBind, hRest, List.map_cons]

theorem bind_of_lookup {f : α} (hSyms : b.syms = some syms) (hFound : syms.lookup name = some f)
    (hType : syms.typeOf f = want) : b.bind name want = (some f, b) := by
  simp [bind, Symbols.resolve, hSyms, hFound, hType]

theorem bindAll_of_lookup {fs : List α} (hSyms : b.syms = some syms)
    (hAll : List.Forall₂ (fun want f => syms.lookup want.1 = some f ∧ syms.typeOf f = want.2) wants fs) :
    b.bindAll wants = (fs.map some, b) := by
  induction hAll with
  | nil => rfl
  | cons hFirst _ ih => simp only [bindAll, bind_of_lookup hSyms hFirst.1 hFirst.2, ih, List.map_cons]

end Binder

def Resolves {α : Type} (syms : Symbols α) (wants : List (Text × FunctionType)) (fs : List α) : Prop :=
  List.Forall₂ (fun want f => syms.lookup want.1 = some f ∧ syms.typeOf f = want.2) wants fs

variable {wants : List (Text × FunctionType)}

theorem Symbols.resolves_of_resolveAll {α : Type} {syms : Symbols α}
    {fs : List α} (h : resolveAll (some syms) wants = .ok fs) : Resolves syms wants fs := by
  unfold resolveAll at h
  cases hFailure : (({ syms := some syms } : Binder α).bindAll wants).2.failure? with
  | some why =>
    simp only [hFailure] at h
    cases h
  | none =>
    simp only [hFailure] at h
    obtain ⟨-, gs, hGs, hAll⟩ := Binder.bindAll_clean rfl (Binder.isClean_of_failure? hFailure)
    rw [hGs] at h
    obtain rfl : gs = fs := by simpa using Except.ok.inj h
    exact hAll

theorem Symbols.resolveAll_of_resolves {α : Type} {syms : Symbols α}
    {fs : List α} (h : Resolves syms wants fs) : resolveAll (some syms) wants = .ok fs := by
  rw [resolveAll, Binder.bindAll_of_lookup rfl h]
  simp [Binder.failure?]

namespace Session

variable {V : Type} {types : List Text} {exports : List (Text × Export V)} {extra : List Title}
  {leaks spare : List UInt32} {s : Session V}

theorem exec_resolveAll_cases (s : Session V) (wants : List (Text × FunctionType)) :
    (∃ why, exec (resolveAll wants) s = (.error (.refused why), s)) ∨
      ∃ fs, exec (resolveAll wants) s = (.ok fs, s) ∧ Resolves s.symbols wants fs := by
  unfold resolveAll
  rw [exec_bind_ok (exec_get s)]
  cases hResolve : Symbols.resolveAll (some s.symbols) wants with
  | error why => exact .inl ⟨why, rfl⟩
  | ok fs => exact .inr ⟨fs, rfl, Symbols.resolves_of_resolveAll hResolve⟩

theorem exec_resolveAll {wants : List (Text × FunctionType)} {fs : List (Export V)} (h : Resolves s.symbols wants fs) :
    exec (resolveAll wants) s = (.ok fs, s) := by
  rw [resolveAll, exec_bind_ok (exec_get s), Symbols.resolveAll_of_resolves h]
  rfl

theorem exec_resolve {name : Text} {want : FunctionType} {f : Export V} (hFound : s.symbols.lookup name = some f)
    (hType : f.type = want) : exec (resolve name want) s = (.ok f, s) := by
  have hWant : s.symbols.typeOf f = want := hType
  rw [resolve, exec_bind_ok (exec_get s), exec_ofExcept, Symbols.resolve, hFound]
  simp only [hWant]
  rfl

theorem exec_resolve_cases (s : Session V) (name : Text) (want : FunctionType) :
    (∃ why, exec (resolve name want) s = (.error (.refused why), s)) ∨
      ∃ f, exec (resolve name want) s = (.ok f, s) ∧ s.owner.export? name = some f ∧ f.type = want := by
  unfold resolve
  rw [exec_bind_ok (exec_get s), exec_ofExcept, Symbols.resolve]
  dsimp only [symbols, Owner.symbols]
  cases hFound : s.owner.export? name with
  | none => exact .inl ⟨_, rfl⟩
  | some f =>
    by_cases hType : f.type = want
    · exact .inr ⟨f, by simp only [hType]; rfl, rfl, hType⟩
    · exact .inl ⟨_, by simp only [hType]; rfl⟩

end Session

/-- The functions of a bound string type that make and free strings. -/
structure StringOps.Bound {V : Type} (types : List Text) (ops : StringOps V) : Prop where
  declared : Owner.stringType ∈ types
  new : ∃ type, ops.new = .string type .new
  newWithStr : ∃ type, ops.newWithStr = .string type .newWithStr
  free : ops.free = .destructor

/-- The functions that read strings belong to the string type as well. -/
structure StringOps.Serves {V : Type} (types : List Text) (ops : StringOps V) : Prop extends ops.Bound types where
  len : ∃ type, ops.len = .string type .len
  asStr : ∃ type, ops.asStr = .string type .asStr

/-- A bound type is declared, and its destructor destroys. -/
structure HandleType.Bound {V : Type} (types : List Text) (type : HandleType V) : Prop where
  declared : type.name ∈ types
  release : type.release = .destructor

/-- The elements are lifted to what the objects of the type are. -/
def ElementForm.Lifts {V : Type} (types : List Text) (elem : Text) : ElementForm V → Prop
  | .scalar _ => False
  | .string ops => elem = Owner.stringType ∧ ops.Bound types
  | .handle type => elem = type.name ∧ type.Bound types

/-- The functions of a witness are the operations given by name. -/
structure Witness.Calls {V : Type} (w : Witness V) (f : VecOp → Export V) : Prop where
  new : w.new = f .new
  free : w.free = .destructor
  push : w.push = f .push
  pop : w.pop = f .pop
  get : w.get = f .get
  getMut : w.getMut = f .getMut

/-- The functions of a witness are published under the names of the vector type. -/
structure Witness.Published {V : Type} (exports : List (Text × Export V)) (answer : FunctionType) (w : Witness V) :
    Prop where
  free : w.free = .destructor
  new : (Symbol.ofVec w.elem VecOp.new.name, w.new) ∈ exports
  push : (Symbol.ofVec w.elem VecOp.push.name, w.push) ∈ exports
  pop : (Symbol.ofVec w.elem VecOp.pop.name, w.pop) ∈ exports
  get : (Symbol.ofVec w.elem VecOp.get.name, w.get) ∈ exports
  getMut : (Symbol.ofVec w.elem VecOp.getMut.name, w.getMut) ∈ exports
  pop_type : w.pop.type = answer

theorem Witness.Published.calls {V : Type} {exports : List (Text × Export V)} {answer : FunctionType}
    {w : Witness V} (hp : w.Published exports answer) {f : VecOp → Export V}
    (hOps : ∀ (op : VecOp) (g : Export V), (Symbol.ofVec w.elem op.name, g) ∈ exports → g = f op) : w.Calls f :=
  ⟨hOps _ _ hp.new, hp.free, hOps _ _ hp.push, hOps _ _ hp.pop, hOps _ _ hp.get, hOps _ _ hp.getMut⟩

inductive Witness.Bound {V : Type} (types : List Text) (w : Witness V) : Prop
  | scalars (elem : Scalar) (hVec : vecTypeName elem.name ∈ types) (hElem : w.elem = elem.name)
      (hForm : w.form = .scalar elem)
      (hCalls : w.Calls fun op => .vec (declaredType types (vecTypeName elem.name)) elem op)
  | objects (hElem : w.elem ∈ types) (hVec : vecTypeName w.elem ∈ types) (hForm : w.form.Lifts types w.elem)
      (hCalls : w.Calls fun op =>
        .refVec (declaredType types (vecTypeName w.elem)) (declaredType types w.elem) op)

namespace Session

variable {V : Type} {types : List Text} {exports : List (Text × Export V)} {extra : List Title}
  {leaks spare : List UInt32} {s : Session V}

theorem Sound.known_of_lookup (hs : s.Sound types exports extra leaks spare) (hd : Declared types exports)
    {name : Text} {f : Export V} (h : s.symbols.lookup name = some f) :
    (name, f) ∈ exports ∧ Known types name f := by
  have hMem := Owner.mem_of_export? h
  rw [hs.owner.exports_eq] at hMem
  exact ⟨hMem, hd.known _ hMem⟩

theorem exec_handleType_cases (hd : Declared types exports) (hs : s.Sound types exports extra leaks spare)
    (name : Text) :
    (∃ why, exec (HandleType.resolve name) s = (.error (.refused why), s)) ∨
      ∃ type : HandleType V, exec (HandleType.resolve name) s = (.ok type, s) ∧ type.name = name ∧
        type.Bound types := by
  rcases exec_resolve_cases s (Symbol.ofType name Symbol.free) .destructor with
    ⟨why, hExec⟩ | ⟨f, hExec, hFound, -⟩
  · exact .inl ⟨why, exec_bind_error hExec⟩
  · obtain ⟨hRelease, hName⟩ := (hs.known_of_lookup hd hFound).2.free_inv rfl
    exact .inr ⟨⟨name, f⟩, exec_bind_ok hExec, rfl, hName, hRelease⟩

theorem exec_stringOps_cases (hd : Declared types exports) (hs : s.Sound types exports extra leaks spare) :
    (∃ why, exec StringOps.resolve s = (.error (.refused why), s)) ∨
      ∃ ops : StringOps V, exec StringOps.resolve s = (.ok ops, s) ∧ ops.Serves types := by
  rcases exec_resolveAll_cases s StringOps.wants with ⟨why, hExec⟩ | ⟨fs, hExec, hAll⟩
  · exact .inl ⟨why, exec_bind_error hExec⟩
  unfold Resolves StringOps.wants at hAll
  rcases hAll with
    _ | ⟨hNew, _ | ⟨hText, _ | ⟨hLen, _ | ⟨hStr, _ | ⟨hPtr, _ | ⟨hTrim, _ | ⟨hFree, _ | ⟨hEq, _ | _⟩⟩⟩⟩⟩⟩⟩⟩
  have hInv : ∀ part ∈ stringParts, ∀ {f : Export V}, s.symbols.lookup (Symbol.ofType part.1 part.2.1) = some f →
      Owner.stringType ∈ types ∧ ∃ type, f = .string type part.2.2 :=
    fun part hPart _ h => Known.string_inv part hPart (hs.known_of_lookup hd h).2 rfl
  obtain ⟨hString, hNew⟩ := hInv (Owner.stringType, "new", .new) (by decide) hNew.1
  obtain ⟨-, hText⟩ := hInv (Owner.stringType, "new_with_str", .newWithStr) (by decide) hText.1
  obtain ⟨-, hLen⟩ := hInv (Owner.stringType, "len", .len) (by decide) hLen.1
  obtain ⟨-, hStr⟩ := hInv (Owner.stringType, "as_str", .asStr) (by decide) hStr.1
  obtain ⟨hFree, -⟩ := (hs.known_of_lookup hd hFree.1).2.free_inv rfl
  exact .inr ⟨_, exec_bind_ok hExec, ⟨hString, hNew, hText, hFree⟩, hLen, hStr⟩

theorem exec_witness_cases (hd : Declared types exports) (hs : s.Sound types exports extra leaks spare)
    (elem : Text) (form : ElementForm V) (item answer : WireType) :
    (∃ why, exec (Witness.resolve elem form item answer) s = (.error (.refused why), s)) ∨
      ∃ w : Witness V, exec (Witness.resolve elem form item answer) s = (.ok w, s) ∧ w.elem = elem ∧
        w.form = form ∧ w.Published exports (VecOp.pop.type item answer) := by
  rcases exec_resolveAll_cases s (Witness.wants elem item answer) with ⟨why, hExec⟩ | ⟨fs, hExec, hAll⟩
  · exact .inl ⟨why, exec_bind_error hExec⟩
  unfold Resolves Witness.wants at hAll
  rcases hAll with
    _ | ⟨hNew, _ | ⟨hFree, _ | ⟨hLen, _ | ⟨hPush, _ | ⟨hPop, _ | ⟨hGet, _ | ⟨hMut, _ | ⟨hPtr, _ | _⟩⟩⟩⟩⟩⟩⟩⟩
  have hMem := fun {name : Text} {f : Export V} (h : s.symbols.lookup name = some f) => (hs.known_of_lookup hd h).1
  obtain ⟨hFree, -⟩ := (hs.known_of_lookup hd hFree.1).2.free_inv rfl
  exact .inr ⟨_, exec_bind_ok hExec, rfl, rfl, hFree, hMem hNew.1, hMem hPush.1, hMem hPop.1, hMem hGet.1,
    hMem hMut.1, hPop.2⟩

theorem exec_ofScalar_cases (hd : Declared types exports) (hs : s.Sound types exports extra leaks spare)
    (elem : Scalar) :
    (∃ why, exec (Witness.ofScalar elem) s = (.error (.refused why), s)) ∨
      ∃ w : Witness V, exec (Witness.ofScalar elem) s = (.ok w, s) ∧ w.Bound types := by
  rcases exec_witness_cases hd hs elem.name (.scalar elem) (.scalar elem) (.option elem) with
    hRefused | ⟨w, hExec, hElem, hForm, hp⟩
  · exact .inl hRefused
  · obtain ⟨hVec, hOps⟩ := hd.scalarOps (hElem ▸ hp.pop) hp.pop_type
    exact .inr ⟨w, hExec, .scalars elem hVec hElem hForm (hp.calls (hElem ▸ hOps))⟩

theorem exec_ofObjects_cases (hd : Declared types exports) (hs : s.Sound types exports extra leaks spare)
    {elem : Text} {form : ElementForm V} (hForm : form.Lifts types elem) :
    (∃ why, exec (Witness.resolve elem form .address .address) s = (.error (.refused why), s)) ∨
      ∃ w : Witness V, exec (Witness.resolve elem form .address .address) s = (.ok w, s) ∧ w.Bound types := by
  rcases exec_witness_cases hd hs elem form .address .address with hRefused | ⟨w, hExec, rfl, rfl, hp⟩
  · exact .inl hRefused
  · obtain ⟨hElem, hVec, hOps⟩ := hd.objectOps hp.pop hp.pop_type
    exact .inr ⟨w, hExec, .objects hElem hVec hForm (hp.calls hOps)⟩

end Session

end Marshal
