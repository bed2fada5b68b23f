import Marshal.Owner.Call
import Marshal.Proofs.Object.Accounts
import Marshal.Proofs.Step

/-! # What registering declares

A symbol is split at its last dollar sign into a type and an operation, so it says what it stands for: the
destructor of a declared type, or an operation on strings, on vectors of scalars or on vectors of objects.
The operations of one vector type are published together, behind its destructor, whose name can be taken
only once; hence they are all of one sort.
-/
set_option autoImplicit false
namespace Marshal

open Step

namespace Symbol

theorem split_inj {a b p q : Text} (hp : 36 ∉ p) (hq : 36 ∉ q) (h : a ++ 36 :: p = b ++ 36 :: q) :
    a = b ∧ p = q := by
  rcases List.append_eq_append_iff.mp h with ⟨c, rfl, hTail⟩ | ⟨c, rfl, hTail⟩
  · cases c with
    | nil => exact ⟨(List.append_nil a).symm, (List.cons.inj hTail).2⟩
    | cons d c => exact absurd ((List.cons.inj hTail).2 ▸ by simp) hp
  · cases c with
    | nil => exact ⟨List.append_nil b, (List.cons.inj hTail).2.symm⟩
    | cons d c => exact absurd ((List.cons.inj hTail).2 ▸ by simp) hq

theorem ofType_eq (type op : Text) : ofType type op = (lead ++ 36 :: type) ++ 36 :: op := by
  show lead ++ [36] ++ type ++ [36] ++ op = _
  simp

theorem ofType_inj {type type' op op' : Text} (hOp : 36 ∉ op) (hOp' : 36 ∉ op')
    (h : ofType type op = ofType type' op') : type = type' ∧ op = op' := by
  rw [ofType_eq, ofType_eq] at h
  obtain ⟨hType, rfl⟩ := split_inj hOp hOp' h
  exact ⟨(List.cons.inj (List.append_cancel_left hType)).2, rfl⟩

theorem ofFunction_ne_ofType {name type op : Text} (hName : 36 ∉ name) (hOp : 36 ∉ op) (hNe : name ≠ op) :
    ofFunction name ≠ ofType type op := by
  intro h
  rw [ofType_eq, show ofFunction name = lead ++ 36 :: name by show lead ++ [36] ++ name = _; simp] at h
  exact hNe (split_inj hName hOp h).2

theorem free_plain : 36 ∉ free := by decide

end Symbol

theorem VecOp.name_plain (op : VecOp) : 36 ∉ op.name := by
  cases op <;> decide

theorem VecOp.name_ne_free (op : VecOp) : op.name ≠ Symbol.free := by
  cases op <;> decide

theorem VecOp.name_inj {op op' : VecOp} (h : op.name = op'.name) : op = op' := by
  cases op <;> cases op' <;> first | rfl | exact absurd h (by decide)

theorem Scalar.name_inj {s s' : Scalar} (h : s.name = s'.name) : s = s' := by
  cases s <;> cases s' <;> first | rfl | exact absurd h (by decide)

theorem typeNumber_grow {types types' : List Text} (hGrow : types <+: types') {name : Text} (hName : name ∈ types) :
    typeNumber types' name = typeNumber types name := by
  obtain ⟨more, rfl⟩ := hGrow
  have hFound : types.findIdx (· = name) < types.length :=
    List.findIdx_lt_length_of_exists ⟨name, hName, by simp⟩
  rw [typeNumber, List.findIdx_append, if_pos hFound]
  rfl

def declaredType (types : List Text) (name : Text) : OpaqueType := ⟨name, typeNumber types name⟩

def stringParts : List (Text × Text × StringOp) :=
  [(Owner.stringType, "new", .new),
    (Owner.stringType, "new_with_str", .newWithStr),
    (Owner.stringType, "len", .len),
    (Owner.stringType, "as_str", .asStr),
    (Owner.stringType, "as_ptr", .asPtr),
    (Owner.stringType, "trim", .trim),
    (Owner.viewType, Symbol.partialEq, .viewEqual)]

theorem stringParts_plain : ∀ part ∈ stringParts, 36 ∉ part.2.1 ∧ part.2.1 ≠ Symbol.free := by
  decide

theorem stringParts_ne_vec {part : Text × Text × StringOp} (h : part ∈ stringParts) (elem : Text) :
    part.1 ≠ vecTypeName elem := by
  have hHead : ∀ part ∈ stringParts, part.1.head? ≠ some 86 := by decide
  intro hEq
  exact hHead part h (hEq ▸ rfl)

/-- What a symbol stands for when the types are declared. -/
inductive Known {V : Type} (types : List Text) : Text → Export V → Prop
  | callBoxed : Known types Symbol.callBoxed .callBoxed
  | freeBoxed : Known types Symbol.freeBoxed .destructor
  | free (name : Text) (hName : name ∈ types) : Known types (Symbol.ofType name Symbol.free) .destructor
  | string (type : OpaqueType) (part : Text × Text × StringOp) (hPart : part ∈ stringParts)
      (hString : Owner.stringType ∈ types) :
      Known types (Symbol.ofType part.1 part.2.1) (.string type part.2.2)
  | vec (s : Scalar) (op : VecOp) (hVec : vecTypeName s.name ∈ types) :
      Known types (Symbol.ofVec s.name op.name) (.vec (declaredType types (vecTypeName s.name)) s op)
  | refVec (elem : Text) (op : VecOp) (hElem : elem ∈ types) (hVec : vecTypeName elem ∈ types) :
      Known types (Symbol.ofVec elem op.name)
        (.refVec (declaredType types (vecTypeName elem)) (declaredType types elem) op)

def Export.family? {V : Type} : Export V → Option (Text × Bool)
  | vec _ s _ => some (s.name, false)
  | refVec _ elem _ => some (elem.name, true)
  | _ => none

namespace Known

variable {V : Type} {types types' : List Text} {symbol name : Text} {f : Export V}

theorem grow (h : Known types symbol f) (hGrow : types <+: types') : Known types' symbol f := by
  have hMem : ∀ {name}, name ∈ types → name ∈ types' := fun hName => hGrow.subset hName
  cases h with
  | callBoxed => exact .callBoxed
  | freeBoxed => exact .freeBoxed
  | free name hName => exact .free name (hMem hName)
  | string type part hPart hString => exact .string type part hPart (hMem hString)
  | vec s op hVec =>
    rw [declaredType, ← typeNumber_grow hGrow hVec]
    exact .vec s op (hMem hVec)
  | refVec elem op hElem hVec =>
    rw [declaredType, declaredType, ← typeNumber_grow hGrow hVec, ← typeNumber_grow hGrow hElem]
    exact .refVec elem op (hMem hElem) (hMem hVec)

theorem free_inv (h : Known types symbol f) (hSymbol : symbol = Symbol.ofType name Symbol.free) :
    f = .destructor ∧ name ∈ types := by
  cases h with
  | callBoxed => exact absurd hSymbol (Symbol.ofFunction_ne_ofType (by decide) (by decide) (by decide))
  | freeBoxed => exact absurd hSymbol (Symbol.ofFunction_ne_ofType (by decide) (by decide) (by decide))
  | free name' hName =>
    obtain ⟨rfl, -⟩ := Symbol.ofType_inj Symbol.free_plain Symbol.free_plain hSymbol
    exact ⟨rfl, hName⟩
  | string type part hPart hString =>
    obtain ⟨hPlain, hNe⟩ := stringParts_plain part hPart
    exact absurd (Symbol.ofType_inj hPlain Symbol.free_plain hSymbol).2 hNe
  | vec s op hVec =>
    exact absurd (Symbol.ofType_inj op.name_plain Symbol.free_plain hSymbol).2 op.name_ne_free
  | refVec elem op hElem hVec =>
    exact absurd (Symbol.ofType_inj op.name_plain Symbol.free_plain hSymbol).2 op.name_ne_free

theorem vec_inv {elem : Text} {op : VecOp} (h : Known types symbol f)
    (hSymbol : symbol = Symbol.ofVec elem op.name) :
    vecTypeName elem ∈ types ∧
      ((∃ s : Scalar, s.name = elem ∧ f = .vec (declaredType types (vecTypeName elem)) s op) ∨
        elem ∈ types ∧
          f = .refVec (declaredType types (vecTypeName elem)) (declaredType types elem) op) := by
  cases h with
  | callBoxed =>
    exact absurd hSymbol (Symbol.ofFunction_ne_ofType (by decide) op.name_plain (by cases op <;> decide))
  | freeBoxed =>
    exact absurd hSymbol (Symbol.ofFunction_ne_ofType (by decide) op.name_plain (by cases op <;> decide))
  | free name hName =>
    exact absurd (Symbol.ofType_inj Symbol.free_plain op.name_plain hSymbol).2.symm op.name_ne_free
  | string type part hPart hString =>
    obtain ⟨hPlain, -⟩ := stringParts_plain part hPart
    exact absurd (Symbol.ofType_inj hPlain op.name_plain hSymbol).1 (stringParts_ne_vec hPart elem)
  | vec s op' hVec =>
    obtain ⟨hElem, hOp⟩ := Symbol.ofType_inj op'.name_plain op.name_plain hSymbol
    obtain rfl := vecTypeName_inj hElem
    obtain rfl := VecOp.name_inj hOp
    exact ⟨hVec, .inl ⟨s, rfl, rfl⟩⟩
  | refVec elem' op' hElem' hVec =>
    obtain ⟨hElem, hOp⟩ := Symbol.ofType_inj op'.name_plain op.name_plain hSymbol
    obtain rfl := vecTypeName_inj hElem
    obtain rfl := VecOp.name_inj hOp
    exact ⟨hVec, .inr ⟨hElem', rfl⟩⟩

theorem string_inv (part : Text × Text × StringOp) (hPart : part ∈ stringParts) (h : Known types symbol f)
    (hSymbol : symbol = Symbol.ofType part.1 part.2.1) :
    Owner.stringType ∈ types ∧ ∃ type, f = .string type part.2.2 := by
  obtain ⟨hPlain, hNe⟩ := stringParts_plain part hPart
  have hBoxed : ∀ part ∈ stringParts, Text.ofString "call_boxed_fn_once_no_args_no_return" ≠ part.2.1 ∧
      Text.ofString "free_boxed_fn_once_no_args_no_return" ≠ part.2.1 := by decide
  cases h with
  | callBoxed => exact absurd hSymbol (Symbol.ofFunction_ne_ofType (by decide) hPlain (hBoxed part hPart).1)
  | freeBoxed => exact absurd hSymbol (Symbol.ofFunction_ne_ofType (by decide) hPlain (hBoxed part hPart).2)
  | free name hName => exact absurd (Symbol.ofType_inj Symbol.free_plain hPlain hSymbol).2.symm hNe
  | string type part' hPart' hString =>
    obtain ⟨hPlain', -⟩ := stringParts_plain part' hPart'
    have hSame : ∀ p ∈ stringParts, ∀ q ∈ stringParts, p.2.1 = q.2.1 → p.2.2 = q.2.2 := by decide
    have hOp := hSame part' hPart' part hPart (Symbol.ofType_inj hPlain' hPlain hSymbol).2
    exact ⟨hString, type, by rw [hOp]⟩
  | vec s op hVec =>
    exact absurd (Symbol.ofType_inj op.name_plain hPlain hSymbol).1.symm (stringParts_ne_vec hPart _)
  | refVec elem op hElem hVec =>
    exact absurd (Symbol.ofType_inj op.name_plain hPlain hSymbol).1.symm (stringParts_ne_vec hPart _)

end Known

def Admits {V : Type} (exports : List (Text × Export V)) (family : Text × Bool) : Prop :=
  (∃ d, (Symbol.ofVec family.1 Symbol.free, d) ∈ exports) ∧
    ∀ x ∈ exports, ∀ other, x.2.family? = some other → other.1 = family.1 → other = family

theorem Admits.add {V : Type} {exports : List (Text × Export V)} {x : Text × Export V} {family : Text × Bool}
    (ha : Admits exports family) (hx : ∀ other, x.2.family? = some other → other.1 = family.1 → other = family) :
    Admits (exports ++ [x]) family := by
  obtain ⟨⟨d, hd⟩, hSame⟩ := ha
  refine ⟨⟨d, List.mem_append_left _ hd⟩, ?_⟩
  intro y hy
  rcases List.mem_append.mp hy with hy | hy
  · exact hSame y hy
  · obtain rfl := List.mem_singleton.mp hy
    exact hx

/-- The published symbols are known, and the operations of each vector type are of one sort. -/
structure Declared {V : Type} (types : List Text) (exports : List (Text × Export V)) : Prop where
  known : ∀ x ∈ exports, Known types x.1 x.2
  uniform : ∀ x ∈ exports, ∀ family, x.2.family? = some family → Admits exports family

namespace Declared

variable {V : Type} {types types' : List Text} {exports : List (Text × Export V)} {x : Text × Export V}

theorem grow (hd : Declared types exports) (hGrow : types <+: types') : Declared types' exports :=
  ⟨fun x hx => (hd.known x hx).grow hGrow, hd.uniform⟩

theorem add (hd : Declared types exports) (hKnown : Known types x.1 x.2)
    (hFamily : ∀ family, x.2.family? = some family → Admits exports family) :
    Declared types (exports ++ [x]) := by
  constructor
  · intro y hy
    rcases List.mem_append.mp hy with hy | hy
    · exact hd.known y hy
    · obtain rfl := List.mem_singleton.mp hy
      exact hKnown
  · intro y hy family hSort
    rcases List.mem_append.mp hy with hy | hy
    · refine (hd.uniform y hy family hSort).add fun other hOther hName => ?_
      exact ((hFamily other hOther).2 y hy family hSort hName.symm).symm
    · obtain rfl := List.mem_singleton.mp hy
      refine (hFamily family hSort).add fun other hOther _ => ?_
      exact Option.some.inj (hOther.symm.trans hSort)

theorem scalarOps {elem : Scalar} {f : Export V} (hd : Declared types exports)
    (hPop : (Symbol.ofVec elem.name VecOp.pop.name, f) ∈ exports)
    (hType : f.type = VecOp.pop.type (.scalar elem) (.option elem)) :
    vecTypeName elem.name ∈ types ∧ ∀ (op : VecOp) (g : Export V), (Symbol.ofVec elem.name op.name, g) ∈ exports →
      g = .vec (declaredType types (vecTypeName elem.name)) elem op := by
  obtain ⟨hVec, hSort⟩ := (hd.known _ hPop).vec_inv rfl
  rcases hSort with ⟨s, hName, rfl⟩ | ⟨-, rfl⟩
  · refine ⟨hVec, fun op g hg => ?_⟩
    rcases ((hd.known _ hg).vec_inv rfl).2 with ⟨s', hName', rfl⟩ | ⟨-, rfl⟩
    · rw [Scalar.name_inj hName']
    · have hOther := (hd.uniform _ hPop _ rfl).2 _ hg _ rfl hName.symm
      cases congrArg Prod.snd hOther
  · cases hType

theorem objectOps {elem : Text} {f : Export V} (hd : Declared types exports)
    (hPop : (Symbol.ofVec elem VecOp.pop.name, f) ∈ exports)
    (hType : f.type = VecOp.pop.type .address .address) :
    elem ∈ types ∧ vecTypeName elem ∈ types ∧
      ∀ (op : VecOp) (g : Export V), (Symbol.ofVec elem op.name, g) ∈ exports →
        g = .refVec (declaredType types (vecTypeName elem)) (declaredType types elem) op := by
  obtain ⟨hVec, hSort⟩ := (hd.known _ hPop).vec_inv rfl
  rcases hSort with ⟨s, hName, rfl⟩ | ⟨hElem, rfl⟩
  · cases hType
  · refine ⟨hElem, hVec, fun op g hg => ?_⟩
    rcases ((hd.known _ hg).vec_inv rfl).2 with ⟨s', hName', rfl⟩ | ⟨-, rfl⟩
    · have hOther := (hd.uniform _ hPop _ rfl).2 _ hg _ rfl hName'
      cases congrArg Prod.snd hOther
    · rfl

end Declared

namespace Owner

variable {V : Type} {o o₁ o₂ : Owner V}

/-- Registering has changed nothing but what is declared, which is in order. -/
structure Registers (o o' : Owner V) : Prop where
  table : o'.table = o.table
  closed : o'.closed = o.closed
  declared : Declared o'.types o'.exports

theorem Registers.trans (h : o.Registers o₁) (h' : o₁.Registers o₂) : o.Registers o₂ :=
  ⟨h'.table.trans h.table, h'.closed.trans h.closed, h'.declared⟩

theorem Registers.bind {α β : Type} {x : Step (Owner V) α} {f : α → Step (Owner V) β}
    (hx : o.Registers (exec x o).2) (hf : ∀ a, (exec x o).2.Registers (exec (f a) (exec x o).2).2) :
    o.Registers (exec (x >>= f) o).2 := by
  rw [exec_bind]
  rcases hExec : exec x o with ⟨_ | a, o'⟩
  · rw [hExec] at hx
    exact hx
  · have hRest := hf a
    rw [hExec] at hx hRest
    exact hx.trans hRest

theorem exec_exportAs_cases (name : Text) (f : Export V) (o : Owner V) :
    (∃ why, exec (exportAs name f) o = (.error (.refused why), o)) ∨
      exec (exportAs name f) o = (.ok (), { o with exports := o.exports ++ [(name, f)] }) ∧
        o.export? name = none := by
  rw [exportAs, exec_bind_ok (exec_get o)]
  cases hTaken : o.export? name with
  | none => exact .inr ⟨rfl, rfl⟩
  | some _ => exact .inl ⟨_, rfl⟩

theorem not_mem_of_export? {name : Text} (h : o.export? name = none) (f : Export V) : (name, f) ∉ o.exports := by
  intro hMem
  have hFind := List.find?_eq_none.mp (Option.map_eq_none_iff.mp h) (name, f) hMem
  exact hFind (by simp)

theorem mem_of_export? {name : Text} {f : Export V} (h : o.export? name = some f) : (name, f) ∈ o.exports := by
  obtain ⟨x, hFound, rfl⟩ := Option.map_eq_some_iff.mp h
  have hName : x.1 = name := by simpa using List.find?_some hFound
  exact hName ▸ List.mem_of_find?_eq_some hFound

theorem exportAll_registers (sort : Option (Text × Bool)) {fs : List (Text × Export V)}
    (hd : Declared o.types o.exports)
    (hAll : ∀ x ∈ fs, Known o.types x.1 x.2 ∧ x.2.family? = sort)
    (hFamily : ∀ family, sort = some family → Admits o.exports family) :
    o.Registers (exec (exportAll fs) o).2 := by
  induction fs generalizing o with
  | nil => exact ⟨rfl, rfl, hd⟩
  | cons x fs ih =>
    obtain ⟨hKnown, hSort⟩ := hAll x List.mem_cons_self
    rw [exportAll]
    rcases exec_exportAs_cases x.1 x.2 o with ⟨why, hTaken⟩ | ⟨hNew, -⟩
    · rw [exec_bind_error hTaken]
      exact ⟨rfl, rfl, hd⟩
    · rw [exec_bind_ok hNew]
      have hMore := hd.add (x := x) hKnown fun family hSome => hFamily family (hSort.symm.trans hSome)
      have hStep : o.Registers { o with exports := o.exports ++ [x] } := ⟨rfl, rfl, hMore⟩
      refine hStep.trans (ih hMore (fun y hy => hAll y (List.mem_cons_of_mem x hy)) ?_)
      -- what was published just now is of the same sort as the rest
      intro family hSome
      refine (hFamily family hSome).add fun other hOther _ => ?_
      exact Option.some.inj (hOther.symm.trans (hSort.trans hSome))

def withType (types : List Text) (name : Text) : List Text := if name ∈ types then types else types ++ [name]

theorem mem_withType (types : List Text) (name : Text) : name ∈ withType types name := by
  unfold withType
  split
  · assumption
  · simp

theorem withType_grow (types : List Text) (name : Text) : types <+: withType types name := by
  unfold withType
  split
  · exact List.prefix_refl types
  · exact List.prefix_append types [name]

theorem exec_typeId (name : Text) (o : Owner V) :
    exec (typeId name) o =
      (.ok (typeNumber (withType o.types name) name), { o with types := withType o.types name }) := by
  rw [typeId, exec_bind_ok (exec_get o)]
  by_cases hName : name ∈ o.types
  · have hFound : o.types.findIdx? (· = name) = some (o.types.findIdx (· = name)) :=
      List.findIdx?_eq_some_of_exists ⟨name, hName, by simp⟩
    rw [withType, if_pos hName, hFound]
    rfl
  · have hAbsent : o.types.findIdx? (· = name) = none := by
      refine List.findIdx?_eq_none_iff.mpr fun x hx => ?_
      simpa using fun hEq : x = name => hName (hEq ▸ hx)
    have hEnd : (o.types ++ [name]).findIdx (· = name) = o.types.length := by
      rw [List.findIdx_append, if_neg]
      · simp
      · rw [List.findIdx_lt_length]
        rintro ⟨x, hx, hEq⟩
        exact hName (of_decide_eq_true hEq ▸ hx)
    rw [withType, if_neg hName, hAbsent, typeNumber, hEnd]
    rfl

theorem exec_declare_cases (hd : Declared o.types o.exports) (name : Text) :
    (∃ why o', exec (declare name) o = (.error (.refused why), o') ∧ o.Registers o') ∨
      ∃ o', exec (declare name) o = (.ok (declaredType o'.types name), o') ∧ o.Registers o' ∧ name ∈ o'.types ∧
        (∃ d, (Symbol.ofType name Symbol.free, d) ∈ o'.exports) ∧
        ∀ x ∈ o'.exports, ∀ family, x.2.family? = some family → vecTypeName family.1 ≠ name := by
  have hd' := hd.grow (withType_grow o.types name)
  rw [declare, exec_bind_ok (exec_typeId name o)]
  rcases exec_exportAs_cases (Symbol.ofType name Symbol.free) .destructor
    { o with types := withType o.types name } with ⟨why, hTaken⟩ | ⟨hNew, hFree⟩
  · exact .inl ⟨why, _, exec_bind_error hTaken, rfl, rfl, hd'⟩
  · refine .inr ⟨{ o with
      types := withType o.types name
      exports := o.exports ++ [(Symbol.ofType name Symbol.free, .destructor)] }, exec_bind_ok hNew, ⟨rfl, rfl, ?_⟩,
      mem_withType .., ⟨.destructor, List.mem_append_right _ List.mem_cons_self⟩, ?_⟩
    · exact hd'.add (x := (_, _)) (.free name (mem_withType ..)) fun family hSome => nomatch hSome
    · -- an operation of the type would have its destructor published before
      intro x hx family hFamily hName
      rcases List.mem_append.mp hx with hx | hx
      · obtain ⟨⟨d, hGate⟩, -⟩ := hd'.uniform x hx family hFamily
        rw [Symbol.ofVec, hName] at hGate
        exact not_mem_of_export? hFree d hGate
      · obtain rfl := List.mem_singleton.mp hx
        cases hFamily

theorem exportVec_registers (hd : Declared o.types o.exports) (elem : Scalar) :
    o.Registers (exec (exportVec elem) o).2 := by
  rw [exportVec]
  rcases exec_declare_cases hd (vecTypeName elem.name) with
    ⟨why, o', hExec, hStep⟩ | ⟨o', hExec, hStep, hVec, hGate, hNone⟩
  · rw [exec_bind_error hExec]
    exact hStep
  · rw [exec_bind_ok hExec]
    refine hStep.trans (exportAll_registers (some (elem.name, false)) hStep.declared ?_ ?_)
    · intro x hx
      obtain ⟨op, -, rfl⟩ := List.mem_map.mp hx
      exact ⟨.vec elem op hVec, rfl⟩
    · rintro family ⟨⟩
      exact ⟨hGate, fun x hx other hOther hName => absurd (congrArg vecTypeName hName) (hNone x hx other hOther)⟩

theorem exportRefVec_registers (hd : Declared o.types o.exports) (elem : Text) :
    o.Registers (exec (exportRefVec elem) o).2 := by
  rw [exportRefVec]
  rcases exec_declare_cases hd (vecTypeName elem) with
    ⟨why, o', hExec, hStep⟩ | ⟨o', hExec, hStep, hVec, hGate, hNone⟩
  · rw [exec_bind_error hExec]
    exact hStep
  · rw [exec_bind_ok hExec, exec_bind_ok (exec_typeId elem o')]
    have hGrow := withType_grow o'.types elem
    have hTyped : o'.Registers { o' with types := withType o'.types elem } :=
      ⟨rfl, rfl, hStep.declared.grow hGrow⟩
    refine (hStep.trans hTyped).trans
      (exportAll_registers (some (elem, true)) (hStep.declared.grow hGrow) ?_ ?_)
    · intro x hx
      obtain ⟨op, -, rfl⟩ := List.mem_map.mp hx
      refine ⟨?_, rfl⟩
      rw [declaredType, ← typeNumber_grow hGrow hVec]
      exact .refVec elem op (mem_withType ..) (hGrow.subset hVec)
    · rintro family ⟨⟩
      exact ⟨hGate, fun x hx other hOther hName => absurd (congrArg vecTypeName hName) (hNone x hx other hOther)⟩

theorem exportStrings_registers (hd : Declared o.types o.exports) :
    o.Registers (exec exportStrings o).2 := by
  rw [exportStrings]
  rcases exec_declare_cases hd stringType with ⟨why, o', hExec, hStep⟩ | ⟨o', hExec, hStep, hString, -⟩
  · rw [exec_bind_error hExec]
    exact hStep
  · rw [exec_bind_ok hExec]
    have hOps : o'.Registers (exec (exportAll (stringParts.map fun part =>
        (Symbol.ofType part.1 part.2.1, .string (declaredType o'.types stringType) part.2.2))) o').2 := by
      refine exportAll_registers none hStep.declared ?_ fun family hSome => nomatch hSome
      intro x hx
      obtain ⟨part, hPart, rfl⟩ := List.mem_map.mp hx
      exact ⟨.string _ part hPart hString, rfl⟩
    exact hStep.trans (Registers.bind hOps fun _ => exportRefVec_registers hOps.declared stringType)

/-- What can be registered: strings, vectors of scalars, vectors of objects, and the values of a type. -/
inductive Registration where
  | strings
  | scalars (elem : Scalar)
  | objects (elem : Text)
  | guests (name : Text)

def Registration.run : Registration → Step (Owner V) Unit
  | strings => exportStrings
  | scalars elem => exportVec elem
  | objects elem => exportRefVec elem
  | guests name => do
    let _ ← declare name

def register (o : Owner V) : List Registration → Owner V
  | [] => o
  | r :: rest => (exec r.run o).2.register rest

theorem run_registers (hd : Declared o.types o.exports) (r : Registration) : o.Registers (exec r.run o).2 := by
  cases r with
  | strings => exact exportStrings_registers hd
  | scalars elem => exact exportVec_registers hd elem
  | objects elem => exact exportRefVec_registers hd elem
  | guests name =>
    rw [Registration.run]
    rcases exec_declare_cases hd name with ⟨why, o', hExec, hStep⟩ | ⟨o', hExec, hStep, -⟩
    · rw [exec_bind_error hExec]
      exact hStep
    · rw [exec_bind_ok hExec]
      exact hStep

theorem register_registers (hd : Declared o.types o.exports) (rs : List Registration) :
    o.Registers (o.register rs) := by
  induction rs generalizing o with
  | nil => exact ⟨rfl, rfl, hd⟩
  | cons r rs ih =>
    have hStep := run_registers hd r
    exact hStep.trans (ih hStep.declared)

theorem exportAs_registers (hd : Declared o.types o.exports) {name : Text} {f : Export V}
    (hKnown : Known o.types name f) (hNone : f.family? = none) : o.Registers (exec (exportAs name f) o).2 := by
  rcases exec_exportAs_cases name f o with ⟨why, hTaken⟩ | ⟨hNew, -⟩
  · rw [hTaken]
    exact ⟨rfl, rfl, hd⟩
  · rw [hNew]
    refine ⟨rfl, rfl, hd.add (x := (name, f)) hKnown fun family hSome => ?_⟩
    cases hNone.symm.trans hSome

theorem create_fresh {config : Config} (h : create config = .ok o) :
    Declared o.types o.exports ∧ o.closed = false ∧
      ∃ m : Memory, m.pages ≤ m.maxPages ∧ o.table = { heap := { memory := m } } := by
  cases hBackend : (config.withDefaults 1).validate with
  | error r =>
    rw [create, hBackend] at h
    cases h
  | ok backend =>
    rw [create, hBackend] at h
    obtain rfl := Except.ok.inj h
    let c := config.withDefaults 1
    let o : Owner V :=
      { table := { heap := .create backend c.initialPages c.maxPages }
        executor := .create c.queueDepth
        config := c }
    have hEmpty : Declared o.types o.exports := ⟨by simp [o], by simp [o]⟩
    have hCall : o.Registers (exec (exportAs Symbol.callBoxed .callBoxed) o).2 :=
      exportAs_registers hEmpty .callBoxed rfl
    have hBoxed : o.Registers (exec exportBoxed o).2 :=
      hCall.bind fun _ => exportAs_registers hCall.declared .freeBoxed rfl
    exact ⟨hBoxed.declared, hBoxed.closed, _, Memory.create_pages_le .., hBoxed.table⟩

theorem register_fresh {config : Config} (hCreate : create config = .ok o)
    (hLimit : o.table.heap.memory.maxPages ≤ 65535) (rs : List Registration) :
    Declared (o.register rs).types (o.register rs).exports ∧ (o.register rs).closed = false ∧
      ∃ m : Memory, Heap.Valid { memory := m } ∧ (o.register rs).table = { heap := { memory := m } } := by
  obtain ⟨hd, hOpen, m, hPages, hTable⟩ := create_fresh hCreate
  have hr := register_registers hd rs
  rw [hTable] at hLimit
  exact ⟨hr.declared, hr.closed.trans hOpen, m, Heap.Valid.of_memory hPages hLimit, hr.table.trans hTable⟩

end Owner

end Marshal
