import Mathlib.Data.List.TakeWhile
import Marshal.Proofs.Owner.Declared
import Marshal.Proofs.Plan.Symbols

/-! # Names that mean two things

A symbol of a type is split at its last dollar sign into a declared name and an operation, and a function has no dollar
sign in its name. So two symbols are the same only if they belong to one declared name. Different things of a plan have
different declared names, except where an opaque type is named as something that is built in, or as a vector: the
validation of a manifest looks at the words of type expressions, which are other words than the names in symbols.
-/
set_option autoImplicit false
namespace Marshal

/-! ## What declarations are called -/

namespace Manifest

theorem checkOpaque_eq_ok {seen : List Text} {d : OpaqueDecl} (h : checkOpaque seen d = .ok ()) : d.name ∉ seen := by
  intro hSeen
  unfold checkOpaque at h
  rw [List.contains_iff_mem.mpr hSeen, if_pos rfl] at h
  split at h <;> cases h

theorem nodup_checkOpaques {seen : List Text} {ds : List OpaqueDecl} (h : checkOpaques seen ds = .ok ()) :
    (ds.map (·.name)).Nodup ∧ ∀ d ∈ ds, d.name ∉ seen := by
  induction ds generalizing seen with
  | nil => exact ⟨.nil, List.forall_mem_nil _⟩
  | cons d ds ih =>
    obtain ⟨_, hFirst, hRest⟩ := bind_eq_ok.mp h
    obtain ⟨hNodup, hNew⟩ := ih hRest
    refine ⟨List.nodup_cons.mpr ⟨?_, hNodup⟩, List.forall_mem_cons.mpr ⟨checkOpaque_eq_ok hFirst, ?_⟩⟩
    · intro hMem
      obtain ⟨d', hd', hName⟩ := List.mem_map.mp hMem
      exact hNew d' hd' (hName ▸ List.mem_cons_self)
    · intro d' hd' hSeen
      exact hNew d' hd' (List.mem_cons_of_mem _ hSeen)

theorem nodup_validate {m : Manifest} (h : m.validate = .ok ()) : (m.opaques.map (·.name)).Nodup := by
  obtain ⟨_, -, h⟩ := bind_eq_ok.mp h
  obtain ⟨_, hOpaques, -⟩ := bind_eq_ok.mp h
  exact (nodup_checkOpaques hOpaques).1

end Manifest

namespace Signature

theorem not_dollar_of_isNameByte {b : UInt8} (h : TypeExpr.isNameByte b = true) : b ≠ 36 := by
  rintro rfl
  revert h
  decide

theorem isNameByte_of_splitName? {t name rest : Text} (h : splitName? t = some (name, rest)) :
    ∀ b ∈ name, TypeExpr.isNameByte b = true := by
  unfold splitName? at h
  split at h
  · cases h
  · split at h <;> cases h
    rename_i b t hStart
    refine List.forall_mem_cons.mpr ⟨?_, fun c hc => List.mem_takeWhile_imp hc⟩
    rw [TypeExpr.isNameByte, (Bool.and_eq_true_iff.mp hStart).1, Bool.true_or]

theorem plain_splitName? {t name rest : Text} (h : splitName? t = some (name, rest)) : 36 ∉ name :=
  fun hMem => not_dollar_of_isNameByte (isNameByte_of_splitName? h 36 hMem) rfl

theorem exists_shape {names : List Text} {t : Text} {s : Signature} (h : parse names t = .ok s) :
    ∃ shape, Shape.ofText? t = some shape ∧ shape.name = s.name ∧
      readParams names shape.name [] (splitParams (Text.trim shape.params)) = .ok s.params := by
  unfold parse at h
  split at h
  · cases h
  · rename_i shape hShape
    obtain ⟨params, hParams, h⟩ := bind_eq_ok.mp h
    obtain ⟨⟨d, written⟩, -, h⟩ := bind_eq_ok.mp h
    cases h
    exact ⟨shape, hShape, rfl, hParams⟩

theorem splitName?_of_parse {names : List Text} {t : Text} {s : Signature} (h : parse names t = .ok s) :
    ∃ u rest, splitName? u = some (s.name, rest) := by
  obtain ⟨shape, hShape, hName, -⟩ := exists_shape h
  obtain ⟨⟨name, rest⟩, hSplit, hShape⟩ := Option.bind_eq_some_iff.mp hShape
  obtain ⟨_, -, hShape⟩ := Option.bind_eq_some_iff.mp hShape
  obtain ⟨_, -, hShape⟩ := Option.bind_eq_some_iff.mp hShape
  obtain ⟨_, -, hShape⟩ := Option.bind_eq_some_iff.mp hShape
  obtain ⟨_, -, hShape⟩ := Option.bind_eq_some_iff.mp hShape
  obtain ⟨_, -, hShape⟩ := Option.bind_eq_some_iff.mp hShape
  cases hShape
  rw [← hName]
  exact ⟨_, rest, hSplit⟩

theorem plain_parse {names : List Text} {t : Text} {s : Signature} (h : parse names t = .ok s) : 36 ∉ s.name := by
  obtain ⟨_, _, hSplit⟩ := splitName?_of_parse h
  exact plain_splitName? hSplit

end Signature

def FunctionPlan.Named (f : FunctionPlan) : Prop := f.symbol = Symbol.ofFunction f.name ∧ 36 ∉ f.name

theorem Signature.named_plan {signature : Signature} {d : FunctionDecl} {f : FunctionPlan}
    (h : signature.plan d = .ok f) (hPlain : 36 ∉ signature.name) : f.name = signature.name ∧ f.Named := by
  obtain ⟨params, -, h⟩ := bind_eq_ok.mp h
  obtain ⟨result, -, h⟩ := bind_eq_ok.mp h
  cases h
  exact ⟨rfl, rfl, hPlain⟩

namespace Plan

theorem nodup_functionPlans {names seen : List Text} {ds : List FunctionDecl} {fs : List FunctionPlan}
    (h : functionPlans names seen ds = .ok fs) :
    (fs.map (·.name)).Nodup ∧ ∀ f ∈ fs, f.Named ∧ f.name ∉ seen := by
  induction ds generalizing seen fs with
  | nil =>
    cases h
    exact ⟨.nil, List.forall_mem_nil _⟩
  | cons d ds ih =>
    obtain ⟨signature, f, rest, rfl, hParse, hUnseen, hPlan, hRest⟩ := functionPlans_cons_eq_ok h
    obtain ⟨hName, hNamed⟩ := Signature.named_plan hPlan (Signature.plain_parse hParse)
    obtain ⟨hNodup, hOthers⟩ := ih hRest
    refine ⟨List.nodup_cons.mpr ⟨?_, hNodup⟩, List.forall_mem_cons.mpr ⟨⟨hNamed, hName ▸ hUnseen⟩, ?_⟩⟩
    · intro hMem
      obtain ⟨f', hf', hSame⟩ := List.mem_map.mp hMem
      exact (hOthers f' hf').2 (List.mem_cons.mpr (.inl (hSame.trans hName)))
    · intro f' hf'
      exact ⟨(hOthers f' hf').1, fun hSeen => (hOthers f' hf').2 (List.mem_cons_of_mem _ hSeen)⟩

theorem nodup_build {m : Manifest} {p : Plan} (h : build m = .ok p) :
    (p.functionList.map (·.name)).Nodup ∧ ∀ f ∈ p.functionList, f.Named := by
  obtain ⟨fs, hFunctions, h⟩ := bind_eq_ok.mp h
  cases h
  rw [show (assemble m fs).functionList = fs from getD_unlessEmpty fs]
  obtain ⟨hNodup, hNamed⟩ := nodup_functionPlans hFunctions
  exact ⟨hNodup, fun f hf => (hNamed f hf).1⟩

end Plan

/-! ## The symbols of the things in a plan -/

theorem Symbol.ofFunction_eq (name : Text) : ofFunction name = lead ++ 36 :: name := by
  show lead ++ [36] ++ name = _
  simp

theorem Symbol.ofFunction_inj {name name' : Text} (h : ofFunction name = ofFunction name') : name = name' := by
  rw [ofFunction_eq, ofFunction_eq] at h
  exact (List.cons.inj (List.append_cancel_left h)).2

theorem Symbol.ofFunction_not_typed {name type op : Text} (hName : 36 ∉ name) (hOp : 36 ∉ op) :
    ofFunction name ≠ ofType type op := by
  intro h
  rw [ofFunction_eq, ofType_eq] at h
  have hLength := congrArg List.length (split_inj hName hOp h).1
  rw [List.length_append, List.length_cons] at hLength
  omega

def builtinElements : List Text := Primitive.all.map Primitive.label ++ [Decl.string.label]

def OpaqueDecl.ops (d : OpaqueDecl) : List Text :=
  [Symbol.free] ++ (if d.equatable then [Symbol.partialEq] else []) ++ (if d.hashable then [Symbol.hash] else [])

theorem OpaqueDecl.mem_ops {d : OpaqueDecl} {op : Text} :
    op ∈ d.ops ↔ op = Symbol.free ∨ d.equatable = true ∧ op = Symbol.partialEq ∨
      d.hashable = true ∧ op = Symbol.hash := by
  cases hEq : d.equatable <;> cases hHash : d.hashable <;> simp [ops, hEq, hHash]

theorem OpaqueDecl.symbols_eq (d : OpaqueDecl) : d.symbols = d.ops.map (Symbol.ofType d.name) := by
  cases hEq : d.equatable <;> cases hHash : d.hashable <;> simp [ops, symbols, hEq, hHash]

/-- What has symbols of its own in a plan. -/
inductive Entity where
  | object (d : OpaqueDecl)
  | strings
  | vec (elem : Text)
  | objectVec (d : OpaqueDecl)
  | function (f : FunctionPlan)

namespace Entity

def symbols : Entity → List Text
  | object d => d.symbols
  | strings => Symbol.stringAll
  | vec elem => Symbol.vecAll elem
  | objectVec d => Symbol.vecAll d.name
  | function f => [f.symbol]

/-- The declared names and the operations that the symbols are made of; a function has neither. -/
def parts : Entity → List (Text × Text)
  | object d => d.ops.map (d.name, ·)
  | strings => (["new", "new_with_str", "len", "as_str", "as_ptr", "trim", Symbol.free] : List Text).map
      (Owner.stringType, ·) ++ [(Owner.viewType, Symbol.partialEq)]
  | vec elem => Symbol.vecOps.map (vecTypeName elem, ·)
  | objectVec d => Symbol.vecOps.map (vecTypeName d.name, ·)
  | function _ => []

def Shares (a b : Entity) : Prop := ∃ x ∈ a.symbols, x ∈ b.symbols

def Meets (a b : Entity) : Prop := ∃ part ∈ a.parts, part ∈ b.parts

def Plain : Entity → Prop
  | function f => f.Named
  | _ => True

variable {a b : Entity}

theorem symbols_eq (h : ∀ f, a ≠ .function f) : a.symbols = a.parts.map fun part => Symbol.ofType part.1 part.2 := by
  cases a with
  | object d =>
    rw [symbols, parts, OpaqueDecl.symbols_eq, List.map_map]
    rfl
  | function f => exact absurd rfl (h f)
  | _ => rfl

theorem plain_of_mem_parts {part : Text × Text} (h : part ∈ a.parts) : 36 ∉ part.2 := by
  have hVec : ∀ op ∈ Symbol.vecOps, 36 ∉ op := by decide
  have hOps : ∀ op ∈ [Symbol.free, Symbol.partialEq, Symbol.hash], 36 ∉ op := by decide
  cases a with
  | object d =>
    obtain ⟨op, hOp, rfl⟩ := List.mem_map.mp h
    refine hOps op ?_
    rcases OpaqueDecl.mem_ops.mp hOp with rfl | ⟨-, rfl⟩ | ⟨-, rfl⟩ <;> simp
  | strings =>
    revert part
    decide
  | vec elem =>
    obtain ⟨op, hOp, rfl⟩ := List.mem_map.mp h
    exact hVec op hOp
  | objectVec d =>
    obtain ⟨op, hOp, rfl⟩ := List.mem_map.mp h
    exact hVec op hOp
  | function f => cases h

theorem shares_iff_meets (ha : ∀ f, a ≠ .function f) (hb : ∀ f, b ≠ .function f) : a.Shares b ↔ a.Meets b := by
  rw [Shares, symbols_eq ha, symbols_eq hb]
  constructor
  · rintro ⟨x, hx, hx'⟩
    obtain ⟨part, hPart, rfl⟩ := List.mem_map.mp hx
    obtain ⟨part', hPart', hSame⟩ := List.mem_map.mp hx'
    obtain ⟨hType, hOp⟩ := Symbol.ofType_inj (plain_of_mem_parts hPart') (plain_of_mem_parts hPart) hSame
    exact ⟨part, hPart, Prod.ext hType hOp ▸ hPart'⟩
  · rintro ⟨part, hPart, hPart'⟩
    exact ⟨_, List.mem_map_of_mem hPart, List.mem_map_of_mem hPart'⟩

theorem not_shares_function {f : FunctionPlan} (hf : f.Named) (ha : ∀ g, a ≠ .function g) :
    ¬ a.Shares (.function f) := by
  rw [Shares, symbols_eq ha]
  rintro ⟨x, hx, hx'⟩
  obtain ⟨part, hPart, rfl⟩ := List.mem_map.mp hx
  have hSymbol := List.mem_singleton.mp hx'
  rw [hf.1] at hSymbol
  exact Symbol.ofFunction_not_typed hf.2 (plain_of_mem_parts hPart) hSymbol.symm

/-- Where symbols mean two things: an opaque type has the name of strings, of their views or of a vector type, or it has
the name of a built-in element and there are vectors of that name. -/
inductive Clashes : Entity → Entity → Prop
  | text {d : OpaqueDecl} (hName : d.name = Owner.stringType) : Clashes (.object d) .strings
  | view {d : OpaqueDecl} (hName : d.name = Owner.viewType) (hEqual : d.equatable = true) :
      Clashes (.object d) .strings
  | vec {d : OpaqueDecl} {elem : Text} (hName : d.name = vecTypeName elem) : Clashes (.object d) (.vec elem)
  | objectVec {d d' : OpaqueDecl} (hName : d.name = vecTypeName d'.name) : Clashes (.object d) (.objectVec d')
  | elements {elem : Text} {d : OpaqueDecl} (hName : d.name = elem) : Clashes (.vec elem) (.objectVec d)

/-- The first comes before the second, and if they are of one sort their names are different. -/
inductive Precedes : Entity → Entity → Prop
  | objects {d d' : OpaqueDecl} (hNe : d.name ≠ d'.name) : Precedes (.object d) (.object d')
  | object_strings (d : OpaqueDecl) : Precedes (.object d) .strings
  | object_vec (d : OpaqueDecl) (elem : Text) : Precedes (.object d) (.vec elem)
  | object_objectVec (d d' : OpaqueDecl) : Precedes (.object d) (.objectVec d')
  | strings_vec (elem : Text) : Precedes .strings (.vec elem)
  | strings_objectVec (d : OpaqueDecl) : Precedes .strings (.objectVec d)
  | vecs {elem elem' : Text} (hNe : elem ≠ elem') : Precedes (.vec elem) (.vec elem')
  | vec_objectVec (elem : Text) (d : OpaqueDecl) : Precedes (.vec elem) (.objectVec d)
  | objectVecs {d d' : OpaqueDecl} (hNe : d.name ≠ d'.name) : Precedes (.objectVec d) (.objectVec d')
  | type_function {a : Entity} (ha : ∀ g, a ≠ .function g) (f : FunctionPlan) : Precedes a (.function f)
  | functions {f f' : FunctionPlan} (hNe : f.name ≠ f'.name) : Precedes (.function f) (.function f')

/-! ### Which parts meet -/

theorem name_eq_of_meets {name name' : Text} {ops ops' : List Text}
    (h : ∃ part ∈ ops.map (name, ·), part ∈ ops'.map (name', ·)) : name = name' := by
  obtain ⟨part, hPart, hPart'⟩ := h
  obtain ⟨op, -, rfl⟩ := List.mem_map.mp hPart
  obtain ⟨op', -, hSame⟩ := List.mem_map.mp hPart'
  exact (congrArg Prod.fst hSame).symm

theorem meets_of_name_eq {name : Text} {ops ops' : List Text} (hFree : Symbol.free ∈ ops)
    (hFree' : Symbol.free ∈ ops') : ∃ part ∈ ops.map (name, ·), part ∈ ops'.map (name, ·) :=
  ⟨(name, Symbol.free), List.mem_map_of_mem hFree, List.mem_map_of_mem hFree'⟩

theorem free_mem_ops (d : OpaqueDecl) : Symbol.free ∈ d.ops := OpaqueDecl.mem_ops.mpr (.inl rfl)

theorem free_mem_vecOps : Symbol.free ∈ Symbol.vecOps := by decide

theorem strings_not_meets (elem : Text) : ¬ ∃ part ∈ strings.parts, part ∈ Symbol.vecOps.map (vecTypeName elem, ·) := by
  rintro ⟨part, hPart, hPart'⟩
  obtain ⟨op, -, rfl⟩ := List.mem_map.mp hPart'
  -- the names begin with different letters
  have hHead : ∀ part ∈ strings.parts, part.1.head? = some 83 := by decide
  cases hHead _ hPart

theorem object_meets_strings {d : OpaqueDecl} :
    Meets (.object d) .strings ↔ d.name = Owner.stringType ∨ d.name = Owner.viewType ∧ d.equatable = true := by
  constructor
  · rintro ⟨part, hPart, hPart'⟩
    obtain ⟨op, hOp, rfl⟩ := List.mem_map.mp hPart
    rcases List.mem_append.mp hPart' with hString | hView
    · obtain ⟨op', -, hSame⟩ := List.mem_map.mp hString
      exact .inl (congrArg Prod.fst hSame).symm
    · obtain ⟨hName, rfl⟩ := Prod.mk.inj (List.mem_singleton.mp hView)
      refine .inr ⟨hName, ?_⟩
      have hFree : Symbol.partialEq ≠ Symbol.free := by decide
      have hHash : Symbol.partialEq ≠ Symbol.hash := by decide
      simpa [OpaqueDecl.mem_ops, hFree, hHash] using hOp
  · rintro (hName | ⟨hName, hEqual⟩)
    · refine ⟨(d.name, Symbol.free), List.mem_map_of_mem (free_mem_ops d), ?_⟩
      rw [hName]
      decide
    · refine ⟨(d.name, Symbol.partialEq), List.mem_map_of_mem (OpaqueDecl.mem_ops.mpr (.inr (.inl ⟨hEqual, rfl⟩))), ?_⟩
      rw [hName]
      decide

/-- Of two different things in a plan, the symbols are different, but for the clashes. -/
theorem shares_iff_clashes (ha : a.Plain) (hb : b.Plain) (h : a.Precedes b) : a.Shares b ↔ a.Clashes b := by
  cases h with
  | objects hNe =>
    rw [shares_iff_meets (by simp) (by simp)]
    exact iff_of_false (mt name_eq_of_meets hNe) (by rintro ⟨⟩)
  | object_strings d =>
    rw [shares_iff_meets (by simp) (by simp), object_meets_strings]
    constructor
    · rintro (hName | ⟨hName, hEqual⟩)
      · exact .text hName
      · exact .view hName hEqual
    · intro hClash
      cases hClash with
      | text hName => exact .inl hName
      | view hName hEqual => exact .inr ⟨hName, hEqual⟩
  | object_vec d elem =>
    rw [shares_iff_meets (by simp) (by simp)]
    constructor
    · exact fun hMeet => .vec (name_eq_of_meets hMeet)
    · intro hClash
      cases hClash with
      | vec hName =>
        rw [Meets, parts, hName]
        exact meets_of_name_eq (free_mem_ops d) free_mem_vecOps
  | object_objectVec d d' =>
    rw [shares_iff_meets (by simp) (by simp)]
    constructor
    · exact fun hMeet => .objectVec (name_eq_of_meets hMeet)
    · intro hClash
      cases hClash with
      | objectVec hName =>
        rw [Meets, parts, hName]
        exact meets_of_name_eq (free_mem_ops d) free_mem_vecOps
  | strings_vec elem =>
    rw [shares_iff_meets (by simp) (by simp)]
    exact iff_of_false (strings_not_meets elem) (by rintro ⟨⟩)
  | strings_objectVec d =>
    rw [shares_iff_meets (by simp) (by simp)]
    exact iff_of_false (strings_not_meets d.name) (by rintro ⟨⟩)
  | vecs hNe =>
    rw [shares_iff_meets (by simp) (by simp)]
    exact iff_of_false (fun hMeet => hNe (vecTypeName_inj (name_eq_of_meets hMeet))) (by rintro ⟨⟩)
  | vec_objectVec elem d =>
    rw [shares_iff_meets (by simp) (by simp)]
    constructor
    · exact fun hMeet => .elements (vecTypeName_inj (name_eq_of_meets hMeet)).symm
    · intro hClash
      cases hClash with
      | elements hName =>
        rw [← hName]
        exact meets_of_name_eq free_mem_vecOps free_mem_vecOps
  | objectVecs hNe =>
    rw [shares_iff_meets (by simp) (by simp)]
    exact iff_of_false (fun hMeet => hNe (vecTypeName_inj (name_eq_of_meets hMeet))) (by rintro ⟨⟩)
  | type_function hType f => exact iff_of_false (not_shares_function hb hType) (by rintro ⟨⟩)
  | @functions f f' hNe =>
    refine iff_of_false ?_ (by rintro ⟨⟩)
    rintro ⟨x, hx, hx'⟩
    have hSame := (List.mem_singleton.mp hx).symm.trans (List.mem_singleton.mp hx')
    rw [ha.1, hb.1] at hSame
    exact hNe (Symbol.ofFunction_inj hSame)

end Entity

/-! ## Where symbols come from -/

/-- The symbol is one of strings, of the given vectors, or the destructor of a type in scope. -/
def Symbol.ComesFrom (names vectors : List Text) (x : Text) : Prop :=
  x ∈ stringAll ∨ (∃ name ∈ names, x = ofType name free) ∨ ∃ elem ∈ vectors, x ∈ vecAll elem

theorem Symbol.ComesFrom.mono {names vectors vectors' : List Text} {x : Text} (h : ComesFrom names vectors x)
    (hVectors : vectors ⊆ vectors') : ComesFrom names vectors' x := by
  rcases h with hString | hFree | ⟨elem, hElem, hx⟩
  · exact .inl hString
  · exact .inr (.inl hFree)
  · exact .inr (.inr ⟨elem, hVectors hElem, hx⟩)

theorem Selection.vectors_subset {s c : Selection} (hc : c ∈ s.children) : c.vectors ⊆ s.vectors :=
  fun _ hElem => Selection.mem_vectors.mpr (.inr ⟨c, hc, hElem⟩)

namespace Decl

variable {names : List Text} {t : Decl} {s : Selection}

theorem Scoped.element_name (h : t.Scoped names) (hSelect : t.select = .ok s) (hKind : s.category.isElement = true) :
    s.decl ∈ builtinElements ∨ s.decl ∈ names := by
  have hLeaf := (Decl.leaf_of_isElement hSelect hKind).1
  cases h with
  | absent =>
    cases hSelect
    cases hKind
  | prim p =>
    cases hSelect
    refine .inl (List.mem_append_left _ (List.mem_map_of_mem ?_))
    cases p <;> decide
  | string =>
    cases hSelect
    exact .inl (List.mem_append_right _ List.mem_cons_self)
  | errorContext => cases hSelect
  | own hName =>
    cases hSelect
    exact .inr hName
  | borrow hName =>
    cases hSelect
    exact .inr hName
  | list => cases hLeaf
  | option => cases hLeaf
  | tuple => cases hLeaf
  | result => cases hLeaf

theorem Scoped.vector_names {t : Decl} {s : Selection} (h : t.Scoped names) (hSelect : t.select = .ok s) {elem : Text}
    (hElem : elem ∈ s.vectors) : elem ∈ builtinElements ∨ elem ∈ names := by
  rcases Selection.mem_vectors.mp hElem with ⟨hVec, rfl⟩ | ⟨c, hc, hInner⟩
  · cases Decl.encodes_of_select hSelect with
    | leaf _ _ hCategory => exact absurd hVec hCategory
    | vec hInner hKind _ _ hLabel _ =>
      rw [hLabel]
      exact (h.argument List.mem_cons_self).element_name hInner hKind
    | joint _ _ hCategory => exact absurd hVec hCategory.2
  · have hSmaller := Selection.sizeOf_child hc
    obtain ⟨t', ht', hSelect'⟩ := (Decl.encoded_arguments hSelect).exists_type hc
    exact (h.argument ht').vector_names hSelect' hInner
termination_by sizeOf s

theorem Scoped.symbols_comeFrom (h : t.Scoped names) (hSelect : t.select = .ok s) :
    ∀ x ∈ s.symbols, Symbol.ComesFrom names s.vectors x := by
  induction h generalizing s with
  | absent =>
    cases hSelect
    exact List.forall_mem_nil _
  | prim p =>
    cases hSelect
    exact List.forall_mem_nil _
  | string =>
    cases hSelect
    exact fun x hx => .inl hx
  | errorContext => cases hSelect
  | own hName =>
    cases hSelect
    exact fun x hx => .inr (.inl ⟨_, hName, List.mem_singleton.mp hx⟩)
  | borrow hName =>
    cases hSelect
    exact fun x hx => .inr (.inl ⟨_, hName, List.mem_singleton.mp hx⟩)
  | list hElem ih =>
    cases Decl.encodes_of_select hSelect with
    | leaf hType => cases hType
    | vec _ _ hCategory _ hLabel hSymbols =>
      intro x hx
      rw [hSymbols, ← hLabel] at hx
      exact .inr (.inr ⟨s.elem, Selection.mem_vectors.mpr (.inl ⟨hCategory, rfl⟩), hx⟩)
    | joint hType => cases hType
  | option hElem ih =>
    obtain ⟨e, hElem, hSelect⟩ := bind_eq_ok.mp hSelect
    have hParts : s.children = [e] ∧ s.symbols = e.symbols := by
      unfold Selection.ofOption at hSelect
      simp only at hSelect
      split at hSelect
      · cases hSelect
        exact ⟨rfl, rfl⟩
      · split at hSelect <;> cases hSelect
        exact ⟨rfl, rfl⟩
    intro x hx
    rw [hParts.2] at hx
    exact (ih hElem x hx).mono (Selection.vectors_subset (hParts.1 ▸ List.mem_cons_self))
  | tuple hElems ih =>
    obtain ⟨parts, hParts, hSelect⟩ := bind_eq_ok.mp hSelect
    cases hSelect
    intro x hx
    obtain ⟨c, hc, hx⟩ := List.mem_flatMap.mp (Text.mem_sortUnique.mp hx)
    obtain ⟨t', ht', hSelect'⟩ := (encoded_of_selectAll hParts).exists_type hc
    exact (ih t' ht' hSelect' x hx).mono (Selection.vectors_subset hc)
  | result hOk hErr ihOk ihErr =>
    obtain ⟨a, hSelectOk, hSelect⟩ := bind_eq_ok.mp hSelect
    obtain ⟨b, hSelectErr, hSelect⟩ := bind_eq_ok.mp hSelect
    cases hSelect
    intro x hx
    rcases List.mem_append.mp (Text.mem_sortUnique.mp hx) with hx | hx
    · exact (ihOk hSelectOk x hx).mono (Selection.vectors_subset List.mem_cons_self)
    · exact (ihErr hSelectErr x hx).mono (Selection.vectors_subset (List.mem_cons_of_mem _ List.mem_cons_self))

end Decl

/-! ## Plans -/

namespace Plan

variable {m : Manifest} {p : Plan}

/-- All that has symbols of its own in the plan of a manifest. -/
def entities (m : Manifest) (p : Plan) : List Entity :=
  m.opaques.map .object ++ .strings :: ((builtinElements.filter (p.vectors.contains ·)).map .vec ++
    ((m.opaques.filter (p.vectors.contains ·.name)).map .objectVec ++ p.functionList.map .function))

theorem mem_entities {e : Entity} : e ∈ entities m p ↔
    (∃ d ∈ m.opaques, .object d = e) ∨ e = .strings ∨
      (∃ elem ∈ builtinElements, elem ∈ p.vectors ∧ .vec elem = e) ∨
      (∃ d ∈ m.opaques, d.name ∈ p.vectors ∧ .objectVec d = e) ∨ ∃ f ∈ p.functionList, .function f = e := by
  simp [entities, and_assoc]

theorem pairwise_entities (hOpaques : (m.opaques.map (·.name)).Nodup)
    (hFunctions : (p.functionList.map (·.name)).Nodup) : (entities m p).Pairwise Entity.Precedes := by
  have hNames := List.pairwise_map.mp hOpaques
  have hBuiltin : builtinElements.Nodup := by decide
  rw [entities, List.pairwise_append, List.pairwise_cons, List.pairwise_append, List.pairwise_append]
  simp only [List.pairwise_map, List.mem_cons, List.mem_append, List.mem_map]
  refine ⟨hNames.imp .objects, ⟨?_, (hBuiltin.filter _).imp .vecs, ⟨(hNames.filter _).imp .objectVecs,
    (List.pairwise_map.mp hFunctions).imp .functions, ?_⟩, ?_⟩, ?_⟩
  · rintro b (⟨elem, -, rfl⟩ | ⟨d, -, rfl⟩ | ⟨f, -, rfl⟩)
    · exact .strings_vec elem
    · exact .strings_objectVec d
    · exact .type_function (by simp) f
  · rintro a ⟨d, -, rfl⟩ b ⟨f, -, rfl⟩
    exact .type_function (by simp) f
  · rintro a ⟨elem, -, rfl⟩ b (⟨d, -, rfl⟩ | ⟨f, -, rfl⟩)
    · exact .vec_objectVec elem d
    · exact .type_function (by simp) f
  · rintro a ⟨d, -, rfl⟩ b (rfl | ⟨elem, -, rfl⟩ | ⟨d', -, rfl⟩ | ⟨f, -, rfl⟩)
    · exact .object_strings d
    · exact .object_vec d elem
    · exact .object_objectVec d d'
    · exact .type_function (by simp) f

theorem plain_entities (h : build m = .ok p) {e : Entity} (he : e ∈ entities m p) : e.Plain := by
  rcases mem_entities.mp he with ⟨d, -, rfl⟩ | rfl | ⟨elem, -, -, rfl⟩ | ⟨d, -, -, rfl⟩ | ⟨f, hf, rfl⟩
  · trivial
  · trivial
  · trivial
  · trivial
  · exact (nodup_build h).2 f hf

theorem exists_vec_entity (h : build m = .ok p) {elem : Text} (hElem : elem ∈ p.vectors) :
    ∃ e ∈ entities m p, e.symbols = Symbol.vecAll elem := by
  have hObject : ∀ d ∈ m.opaques, d.name = elem → ∃ e ∈ entities m p, e.symbols = Symbol.vecAll elem := by
    rintro d hd rfl
    exact ⟨.objectVec d, mem_entities.mpr (.inr (.inr (.inr (.inl ⟨d, hd, hElem, rfl⟩)))), rfl⟩
  rcases (mem_vectors h elem).mp hElem with ⟨d, hd, -, hName⟩ | ⟨f, hf, s, hs, hInner⟩
  · exact hObject d hd hName
  · obtain ⟨t, hScoped, hSelect⟩ := exists_type h hf hs
    rcases hScoped.vector_names hSelect hInner with hBuiltin | hScope
    · exact ⟨.vec elem, mem_entities.mpr (.inr (.inr (.inl ⟨elem, hBuiltin, hElem, rfl⟩))), rfl⟩
    · obtain ⟨d, hd, hName⟩ := List.mem_map.mp hScope
      exact hObject d hd hName

theorem exists_entity (h : build m = .ok p) {x : Text} (hx : x ∈ p.symbolList) : ∃ e ∈ entities m p, x ∈ e.symbols := by
  have hVector : ∀ elem ∈ p.vectors, x ∈ Symbol.vecAll elem → ∃ e ∈ entities m p, x ∈ e.symbols := by
    intro elem hElem hx
    obtain ⟨e, he, hSymbols⟩ := exists_vec_entity h hElem
    exact ⟨e, he, hSymbols ▸ hx⟩
  have hObject : ∀ d ∈ m.opaques, .object d ∈ entities m p := fun d hd => mem_entities.mpr (.inl ⟨d, hd, rfl⟩)
  rcases (mem_symbolList h x).mp hx with ⟨d, hd, hx | ⟨hVec, hx⟩⟩ | ⟨f, hf, rfl | ⟨s, hs, hx⟩⟩
  · exact ⟨.object d, hObject d hd, hx⟩
  · exact hVector d.name ((mem_vectors h d.name).mpr (.inl ⟨d, hd, hVec, rfl⟩)) hx
  · exact ⟨.function f, mem_entities.mpr (.inr (.inr (.inr (.inr ⟨f, hf, rfl⟩)))), List.mem_cons_self⟩
  · obtain ⟨t, hScoped, hSelect⟩ := exists_type h hf hs
    rcases hScoped.symbols_comeFrom hSelect x hx with hString | ⟨name, hName, rfl⟩ | ⟨elem, hElem, hx⟩
    · exact ⟨.strings, mem_entities.mpr (.inr (.inl rfl)), hString⟩
    · obtain ⟨d, hd, rfl⟩ := List.mem_map.mp hName
      exact ⟨.object d, hObject d hd, List.mem_cons_self⟩
    · exact hVector elem ((mem_vectors h elem).mpr (.inr ⟨f, hf, s, hs, hElem⟩)) hx

/-- The name is none that symbols of built-in types or of vectors are made with. -/
def IsOwnName (name : Text) : Prop :=
  name ≠ Owner.stringType ∧ name ≠ Owner.viewType ∧ name ∉ builtinElements ∧ ∀ elem, name ≠ vecTypeName elem

/-- Which things of a plan have symbols in common. -/
structure Separates (p : Plan) (m : Manifest) : Prop where
  shared : (entities m p).Pairwise fun a b => a.Shares b ↔ a.Clashes b
  complete : ∀ x ∈ p.symbolList, ∃ e ∈ entities m p, x ∈ e.symbols
  disjoint : (∀ d ∈ m.opaques, IsOwnName d.name) → (entities m p).Pairwise fun a b => ¬ a.Shares b

theorem not_clashes {a b : Entity} (hOwn : ∀ d ∈ m.opaques, IsOwnName d.name) (ha : a ∈ entities m p)
    (hb : b ∈ entities m p) : ¬ a.Clashes b := by
  have hObject : ∀ d, .object d ∈ entities m p → IsOwnName d.name := by
    intro d hd
    exact hOwn d (by simpa [mem_entities] using hd)
  intro hClash
  cases hClash with
  | text hName => exact (hObject _ ha).1 hName
  | view hName => exact (hObject _ ha).2.1 hName
  | vec hName => exact (hObject _ ha).2.2.2 _ hName
  | objectVec hName => exact (hObject _ ha).2.2.2 _ hName
  | @elements elem d hName =>
    have hElem : elem ∈ builtinElements ∧ elem ∈ p.vectors := by simpa [mem_entities] using ha
    have hDecl : d ∈ m.opaques ∧ d.name ∈ p.vectors := by simpa [mem_entities] using hb
    exact (hOwn d hDecl.1).2.2.1 (hName ▸ hElem.1)

/-- Different things of a plan have different symbols, unless an opaque type has the name of strings, of views, of a
vector type or of a built-in element, none of which the validation of manifests refuses. -/
theorem build_separates {m : Manifest} {p : Plan} (hValid : m.validate = .ok ()) (h : build m = .ok p) :
    p.Separates m := by
  have hPairs := pairwise_entities (Manifest.nodup_validate hValid) (nodup_build h).1
  have hShared : (entities m p).Pairwise fun a b => a.Shares b ↔ a.Clashes b :=
    hPairs.imp_of_mem fun ha hb => Entity.shares_iff_clashes (plain_entities h ha) (plain_entities h hb)
  refine ⟨hShared, fun x hx => exists_entity h hx, fun hOwn => ?_⟩
  exact hShared.imp_of_mem fun ha hb hIff => mt hIff.mp (not_clashes hOwn ha hb)

/-- An opaque type whose vectors are used, strings and words. -/
def ownNames : Manifest :=
  { runtime := ({} : Config).withDefaults 1
    opaques := [{ name := "P", equatable := true, vectorizable := true }]
    functions := [{ signature := "f: func(a: string, b: list<u8>) -> P" }, { signature := "g: func()" }] }

theorem build_separates_ownNames :
    ∃ p, ownNames.validate = .ok () ∧ build ownNames = .ok p ∧ p.functionList.length = 2 ∧ p.Separates ownNames ∧
      (entities ownNames p).Pairwise fun a b => ¬ a.Shares b := by
  obtain ⟨p, hBuild, hLength⟩ := exists_build (m := ownNames) (f := fun p => p.functionList.length) (a := 2)
    (by decide +kernel)
  have hSeparates := build_separates (m := ownNames) rfl hBuild
  refine ⟨p, rfl, hBuild, hLength, hSeparates, hSeparates.disjoint ?_⟩
  refine List.forall_mem_singleton.mpr ⟨by decide, by decide, by decide, fun elem hName => ?_⟩
  cases congrArg List.head? hName

def secondString : Manifest :=
  { runtime := ({} : Config).withDefaults 1
    opaques := [{ name := "String" }]
    functions := [{ signature := "f: func(x: string)" }] }

/-- The destructor of the opaque type and that of strings are one symbol, which the plan lists. -/
theorem build_separates_not_strings :
    ∃ p d, secondString.validate = .ok () ∧ build secondString = .ok p ∧ .object d ∈ entities secondString p ∧
      .strings ∈ entities secondString p ∧ Symbol.ofType "String" Symbol.free ∈ (Entity.object d).symbols ∧
      Symbol.ofType "String" Symbol.free ∈ Entity.strings.symbols ∧
      Symbol.ofType "String" Symbol.free ∈ p.symbolList := by
  obtain ⟨p, hBuild, -⟩ := exists_build (m := secondString) (f := fun p => p.functionList.length) (a := 1)
    (by decide +kernel)
  refine ⟨p, { name := "String" }, rfl, hBuild, mem_entities.mpr (.inl ⟨_, List.mem_cons_self, rfl⟩),
    mem_entities.mpr (.inr (.inl rfl)), List.mem_cons_self, by decide, ?_⟩
  exact (mem_symbolList hBuild _).mpr (.inl ⟨_, List.mem_cons_self, .inl List.mem_cons_self⟩)

end Plan

end Marshal
