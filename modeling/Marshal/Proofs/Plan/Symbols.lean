import Mathlib.Data.List.Forall2
import Marshal.Plan.Basic
import Marshal.Proofs.Plan.Scope
import Marshal.Proofs.Text.Sorted

/-! # The symbols of a plan

Every part of an encoding, at any depth, is the encoding of the part of the type that stands at its place. The symbols
that it needs are passed on upwards, except through a vector: a vector needs the symbols of its own type in place of
those of its elements. The destructors of opaque elements are listed with the opaque types, but nothing makes up for
the symbols of strings.
-/
set_option autoImplicit false
namespace Marshal

theorem getD_unlessEmpty {α : Type} (xs : List α) : (unlessEmpty xs).getD [] = xs := by
  cases xs <;> rfl

/-! ## Encodings and their parts -/

namespace Decl

def arguments : Decl → List Decl
  | .defn _ (.list elem) => [elem]
  | .defn _ (.option elem) => [elem]
  | .defn _ (.result ok err) => [ok, err]
  | .defn _ (.tuple elems) => elems
  | _ => []

def isComposite : Decl → Bool
  | .defn _ (.list _) => true
  | .defn _ (.option _) => true
  | .defn _ (.result _ _) => true
  | .defn _ (.tuple _) => true
  | _ => false

def isList : Decl → Bool
  | .defn _ (.list _) => true
  | _ => false

end Decl

abbrev Encoded (ts : List Decl) (ss : List Selection) : Prop := List.Forall₂ (fun t s => t.select = .ok s) ts ss

/-- How an encoding is put together from those of the type's arguments. -/
inductive Decl.Encodes : Decl → Selection → Prop
  | leaf {t : Decl} {s : Selection} (hType : t.isComposite = false) (hParts : s.children = [])
      (hCategory : s.category ≠ .vec) : Encodes t s
  | vec {name : Option Text} {elem : Decl} {e s : Selection} (hElem : elem.select = .ok e)
      (hKind : e.category.isElement = true) (hCategory : s.category = .vec) (hParts : s.children = [e])
      (hLabel : s.elem = e.decl) (hSymbols : s.symbols = Symbol.vecAll e.decl) : Encodes (.defn name (.list elem)) s
  | joint {t : Decl} {s : Selection} (hType : t.isList = false) (hParts : Encoded t.arguments s.children)
      (hCategory : s.category.isElement = false ∧ s.category ≠ .vec)
      (hSymbols : ∀ c ∈ s.children, c.symbols ⊆ s.symbols) : Encodes t s

variable {ss : List Selection}

theorem encoded_of_selectAll {ts : List Decl} (h : selectAll ts = .ok ss) : Encoded ts ss := by
  induction ts generalizing ss with
  | nil =>
    cases h
    exact .nil
  | cons t ts ih =>
    obtain ⟨s, hs, h⟩ := bind_eq_ok.mp h
    obtain ⟨others, hOthers, h⟩ := bind_eq_ok.mp h
    cases h
    exact .cons hs (ih hOthers)

theorem Kind.encodes_of_select {name : Option Text} {kind : Kind} {s : Selection} (h : kind.select name = .ok s) :
    (Decl.defn name kind).Encodes s := by
  cases kind with
  | own target =>
    cases h
    exact .leaf rfl rfl nofun
  | borrow target =>
    cases h
    exact .leaf rfl rfl nofun
  | resource =>
    cases h
    exact .leaf rfl rfl nofun
  | list elem =>
    obtain ⟨e, hElem, h⟩ := bind_eq_ok.mp h
    unfold Selection.ofVec at h
    split at h
    · rename_i hKind
      cases h
      exact .vec hElem hKind rfl rfl rfl rfl
    · cases h
  | option elem =>
    obtain ⟨e, hElem, h⟩ := bind_eq_ok.mp h
    have hSymbols : ∀ c ∈ [e], c.symbols ⊆ e.symbols := List.forall_mem_singleton.mpr (List.Subset.refl _)
    unfold Selection.ofOption at h
    simp only at h
    split at h
    · cases h
      exact .joint rfl (.cons hElem .nil) ⟨rfl, nofun⟩ hSymbols
    · split at h <;> cases h
      exact .joint rfl (.cons hElem .nil) ⟨rfl, nofun⟩ hSymbols
  | result ok err =>
    obtain ⟨a, hOk, h⟩ := bind_eq_ok.mp h
    obtain ⟨b, hErr, h⟩ := bind_eq_ok.mp h
    cases h
    refine .joint rfl (.cons hOk (.cons hErr .nil)) ⟨rfl, nofun⟩ ?_
    intro c hc x hx
    refine Text.mem_sortUnique.mpr (List.mem_append.mpr ?_)
    rcases List.mem_cons.mp hc with rfl | hc
    · exact .inl hx
    · rw [List.mem_singleton.mp hc] at hx
      exact .inr hx
  | tuple elems =>
    obtain ⟨parts, hParts, h⟩ := bind_eq_ok.mp h
    cases h
    refine .joint rfl (encoded_of_selectAll hParts) ⟨rfl, nofun⟩ ?_
    intro c hc x hx
    exact Text.mem_sortUnique.mpr (List.mem_flatMap.mpr ⟨c, hc, hx⟩)
  | «alias» target =>
    rw [Kind.select] at h
    split at h <;> cases h
    exact .leaf rfl rfl nofun
  | record fields => cases h
  | variant cases' => cases h
  | enum cases' => cases h
  | flags count => cases h
  | stream elem => cases h
  | future elem => cases h
  | unspecified => cases h

theorem Decl.encodes_of_select {t : Decl} {s : Selection} (h : t.select = .ok s) : t.Encodes s := by
  cases t with
  | absent =>
    cases h
    exact .leaf rfl rfl nofun
  | prim p =>
    cases h
    exact .leaf rfl rfl nofun
  | string =>
    cases h
    exact .leaf rfl rfl nofun
  | errorContext => cases h
  | defn name kind => exact Kind.encodes_of_select h

theorem Decl.arguments_of_leaf {t : Decl} (h : t.isComposite = false) : t.arguments = [] := by
  cases t with
  | defn name kind => cases kind <;> first | rfl | cases h
  | _ => rfl

theorem Decl.encoded_arguments {t : Decl} {s : Selection} (h : t.select = .ok s) : Encoded t.arguments s.children := by
  cases Decl.encodes_of_select h with
  | leaf hType hParts =>
    rw [Decl.arguments_of_leaf hType, hParts]
    exact .nil
  | vec hElem _ _ hParts =>
    rw [hParts]
    exact .cons hElem .nil
  | joint _ hParts => exact hParts

/-- A part of a type and, at the same place, a part of an encoding; `element` says that the place is directly inside a
vector. -/
inductive PartOf (t : Decl) (s : Selection) : Bool → Decl → Selection → Prop
  | whole : PartOf t s false t s
  | argument {element : Bool} {t₁ t₂ : Decl} {s₁ s₂ : Selection} (hPart : PartOf t s element t₁ s₁) (i : Nat)
      (hType : t₁.arguments[i]? = some t₂) (hChild : s₁.children[i]? = some s₂) : PartOf t s t₁.isList t₂ s₂

variable {names : List Text} {t t' : Decl} {s s' : Selection} {element : Bool}

theorem PartOf.select_eq (h : PartOf t s element t' s') (hSelect : t.select = .ok s) : t'.select = .ok s' := by
  induction h with
  | whole => exact hSelect
  | argument _ i hType hChild ih =>
    obtain ⟨hi, rfl⟩ := List.getElem?_eq_some_iff.mp hType
    obtain ⟨hj, rfl⟩ := List.getElem?_eq_some_iff.mp hChild
    exact (Decl.encoded_arguments ih).get hi hj

theorem Decl.Scoped.argument (h : t.Scoped names) (hMem : t' ∈ t.arguments) : t'.Scoped names := by
  cases h with
  | list hElem => exact List.mem_singleton.mp hMem ▸ hElem
  | option hElem => exact List.mem_singleton.mp hMem ▸ hElem
  | tuple hElems => exact hElems t' hMem
  | result hOk hErr =>
    rcases List.mem_cons.mp hMem with rfl | hMem
    · exact hOk
    · exact List.mem_singleton.mp hMem ▸ hErr
  | _ => cases hMem

theorem PartOf.scoped (h : PartOf t s element t' s') (hScoped : t.Scoped names) : t'.Scoped names := by
  induction h with
  | whole => exact hScoped
  | argument _ i hType _ ih => exact ih.argument (List.mem_of_getElem? hType)

theorem Decl.leaf_of_isElement (hSelect : t.select = .ok s) (hKind : s.category.isElement = true) :
    t.isComposite = false ∧ s.children = [] := by
  cases Decl.encodes_of_select hSelect with
  | leaf hType hParts => exact ⟨hType, hParts⟩
  | vec _ _ hCategory =>
    rw [hCategory] at hKind
    cases hKind
  | joint _ _ hCategory => cases hCategory.1.symm.trans hKind

theorem Decl.Scoped.element_symbols (h : t.Scoped names) (hSelect : t.select = .ok s)
    (hKind : s.category.isElement = true) :
    t = .string ∨ s.symbols ⊆ names.map (Symbol.ofType · Symbol.free) := by
  have hLeaf := (Decl.leaf_of_isElement hSelect hKind).1
  cases h with
  | absent =>
    cases hSelect
    cases hKind
  | prim p =>
    cases hSelect
    exact .inr (List.nil_subset _)
  | string => exact .inl rfl
  | errorContext => cases hSelect
  | own hName =>
    cases hSelect
    exact .inr (List.cons_subset.mpr ⟨List.mem_map_of_mem hName, List.nil_subset _⟩)
  | borrow hName =>
    cases hSelect
    exact .inr (List.cons_subset.mpr ⟨List.mem_map_of_mem hName, List.nil_subset _⟩)
  | list => cases hLeaf
  | option => cases hLeaf
  | tuple => cases hLeaf
  | result => cases hLeaf

theorem PartOf.symbols_subset (h : PartOf t s element t' s') (hScoped : t.Scoped names) (hSelect : t.select = .ok s) :
    s'.symbols ⊆ s.symbols ++ names.map (Symbol.ofType · Symbol.free) ∨ element = true ∧ t' = .string := by
  induction h with
  | whole => exact .inl (List.subset_append_left _ _)
  | @argument _ t₁ t₂ s₁ s₂ hPart i hType hChild ih =>
    have hSelect₂ := (hPart.argument i hType hChild).select_eq hSelect
    have hScoped₂ := (hPart.argument i hType hChild).scoped hScoped
    have hMem := List.mem_of_getElem? hChild
    cases Decl.encodes_of_select (hPart.select_eq hSelect) with
    | leaf _ hParts =>
      rw [hParts] at hMem
      cases hMem
    | @vec _ _ e _ hElem hKind _ hParts =>
      rw [hParts] at hMem
      obtain rfl := List.mem_singleton.mp hMem
      rcases hScoped₂.element_symbols hSelect₂ hKind with hString | hFree
      · exact .inr ⟨rfl, hString⟩
      · exact .inl (List.Subset.trans hFree (List.subset_append_right _ _))
    | joint _ _ _ hSymbols =>
      rcases ih with hListed | ⟨-, hString⟩
      · exact .inl (List.Subset.trans (hSymbols s₂ hMem) hListed)
      · -- a string has no parts
        rw [hString] at hType
        cases hType

theorem Selection.sizeOf_child {s c : Selection} (h : c ∈ s.children) : sizeOf c < sizeOf s := by
  have hLess := List.sizeOf_lt_of_mem h
  cases s
  simp only [Selection.mk.sizeOf_spec]
  simp only at hLess
  omega

theorem mem_childVectors {elem : Text} : elem ∈ childVectors ss ↔ ∃ s ∈ ss, elem ∈ s.vectors := by
  induction ss with
  | nil => simp [childVectors]
  | cons s ss ih => simp [childVectors, ih]

theorem Selection.mem_vectors {elem : Text} {s : Selection} :
    elem ∈ s.vectors ↔ s.category = .vec ∧ elem = s.elem ∨ ∃ c ∈ s.children, elem ∈ c.vectors := by
  cases s with
  | mk =>
    rw [Selection.vectors, List.mem_append, mem_childVectors]
    split <;> simp_all

theorem exists_of_forall₂ {α β : Type} {R : α → β → Prop} {xs : List α} {ys : List β} (h : List.Forall₂ R xs ys)
    {y : β} (hy : y ∈ ys) : ∃ x ∈ xs, R x y := by
  obtain ⟨i, hi, rfl⟩ := List.mem_iff_getElem.mp hy
  have hLength : i < xs.length := h.length_eq ▸ hi
  exact ⟨xs[i], List.getElem_mem hLength, h.get hLength hi⟩

theorem Encoded.exists_type {ts : List Decl} (h : Encoded ts ss) {s : Selection} (hs : s ∈ ss) :
    ∃ t ∈ ts, t.select = .ok s :=
  exists_of_forall₂ h hs

theorem Decl.vecAll_subset {t : Decl} {s : Selection} (hSelect : t.select = .ok s) {elem : Text}
    (hElem : elem ∈ s.vectors) : Symbol.vecAll elem ⊆ s.symbols := by
  rcases Selection.mem_vectors.mp hElem with ⟨hVec, rfl⟩ | ⟨c, hc, hInner⟩
  · cases Decl.encodes_of_select hSelect with
    | leaf _ _ hCategory => exact absurd hVec hCategory
    | vec _ _ _ _ hLabel hSymbols =>
      rw [hLabel, hSymbols]
      exact List.Subset.refl _
    | joint _ _ hCategory => exact absurd hVec hCategory.2
  · have hSmaller := Selection.sizeOf_child hc
    obtain ⟨t', -, hSelect'⟩ := (Decl.encoded_arguments hSelect).exists_type hc
    have hNeeded := Decl.vecAll_subset hSelect' hInner
    cases Decl.encodes_of_select hSelect with
    | leaf _ hParts =>
      rw [hParts] at hc
      cases hc
    | vec hEncoded hKind _ hParts =>
      rw [hParts] at hc
      obtain rfl := List.mem_singleton.mp hc
      -- an element is no vector, and has no parts that could be
      rcases Selection.mem_vectors.mp hInner with ⟨hVec, -⟩ | ⟨c', hc', -⟩
      · rw [hVec] at hKind
        cases hKind
      · rw [(Decl.leaf_of_isElement hEncoded hKind).2] at hc'
        cases hc'
    | joint _ _ _ hSymbols => exact List.Subset.trans hNeeded (hSymbols c hc)
termination_by sizeOf s

/-! ## Plans -/

theorem selectFor_eq_ok {what : Text} (h : selectFor what t = .ok s) : t.select = .ok s := by
  unfold selectFor at h
  cases hSelect : t.select with
  | error r =>
    rw [hSelect] at h
    cases h
  | ok s' =>
    rw [hSelect] at h
    cases h
    rfl

def FunctionDecl.Planned (names : List Text) (d : FunctionDecl) (f : FunctionPlan) : Prop :=
  ∃ signature, Signature.parse names d.signature = .ok signature ∧ Encoded signature.types f.selections

theorem encoded_params {function : Text} {params : List Param} {plans : List ParamPlan}
    (h : params.mapM (Param.plan function) = .ok plans) :
    Encoded (params.map Param.type) (plans.map ParamPlan.selection) := by
  induction params generalizing plans with
  | nil =>
    cases h
    exact .nil
  | cons p params ih =>
    rw [List.mapM_cons] at h
    obtain ⟨plan, hPlan, h⟩ := bind_eq_ok.mp h
    obtain ⟨rest, hRest, h⟩ := bind_eq_ok.mp h
    cases h
    obtain ⟨s, hSelect, h⟩ := bind_eq_ok.mp hPlan
    cases h
    exact .cons (selectFor_eq_ok hSelect) (ih hRest)

theorem Signature.encoded_plan {signature : Signature} {d : FunctionDecl} {f : FunctionPlan}
    (h : signature.plan d = .ok f) : Encoded signature.types f.selections := by
  obtain ⟨params, hParams, h⟩ := bind_eq_ok.mp h
  obtain ⟨result, hResult, h⟩ := bind_eq_ok.mp h
  cases h
  rw [FunctionPlan.selections, FunctionPlan.paramList, getD_unlessEmpty]
  exact List.rel_append (encoded_params hParams) (.cons (selectFor_eq_ok hResult) .nil)

namespace Plan

theorem functionPlans_cons_eq_ok {seen : List Text} {d : FunctionDecl} {ds : List FunctionDecl} {fs : List FunctionPlan}
    (h : functionPlans names seen (d :: ds) = .ok fs) :
    ∃ signature f rest, fs = f :: rest ∧ Signature.parse names d.signature = .ok signature ∧
      signature.name ∉ seen ∧ signature.plan d = .ok f ∧
      functionPlans names (signature.name :: seen) ds = .ok rest := by
  rw [functionPlans] at h
  obtain ⟨signature, hParse, h⟩ := bind_eq_ok.mp h
  split at h
  · cases h
  · rename_i hUnseen
    obtain ⟨f, hPlan, h⟩ := bind_eq_ok.mp h
    obtain ⟨rest, hRest, h⟩ := bind_eq_ok.mp h
    cases h
    exact ⟨signature, f, rest, rfl, hParse, fun hSeen => hUnseen (List.contains_iff_mem.mpr hSeen), hPlan, hRest⟩

theorem planned_functionPlans {seen : List Text} {ds : List FunctionDecl} {fs : List FunctionPlan}
    (h : functionPlans names seen ds = .ok fs) : List.Forall₂ (FunctionDecl.Planned names) ds fs := by
  induction ds generalizing seen fs with
  | nil =>
    cases h
    exact .nil
  | cons d ds ih =>
    obtain ⟨signature, f, rest, rfl, hParse, -, hPlan, hRest⟩ := functionPlans_cons_eq_ok h
    exact .cons ⟨signature, hParse, Signature.encoded_plan hPlan⟩ (ih hRest)

def scope (m : Manifest) : List Text := m.opaques.map (·.name)

variable {m : Manifest} {p : Plan} {f : FunctionPlan}

theorem exists_functions (h : build m = .ok p) :
    p = assemble m p.functionList ∧ List.Forall₂ (FunctionDecl.Planned (scope m)) m.functions p.functionList := by
  obtain ⟨fs, hFunctions, h⟩ := bind_eq_ok.mp h
  cases h
  rw [show (assemble m fs).functionList = fs from getD_unlessEmpty fs]
  exact ⟨rfl, planned_functionPlans hFunctions⟩

theorem opaqueList_eq (h : build m = .ok p) : p.opaqueList = m.opaques.map OpaqueDecl.plan := by
  rw [(exists_functions h).1]
  exact getD_unlessEmpty _

theorem exists_type (h : build m = .ok p) (hf : f ∈ p.functionList)
    (hs : s ∈ f.selections) : ∃ t : Decl, t.Scoped (scope m) ∧ t.select = .ok s := by
  obtain ⟨-, hPlanned⟩ := exists_functions h
  obtain ⟨d, -, signature, hParse, hEncoded⟩ := exists_of_forall₂ hPlanned hf
  obtain ⟨t, ht, hSelect⟩ := hEncoded.exists_type hs
  exact ⟨t, Signature.scoped_parse hParse t ht, hSelect⟩

theorem vecAll_subset_symbols {ds : List FunctionDecl} {fs : List FunctionPlan}
    (hPlanned : List.Forall₂ (FunctionDecl.Planned names) ds fs) (hf : f ∈ fs)
    (hs : s ∈ f.selections) {elem : Text} (hElem : elem ∈ s.vectors) : Symbol.vecAll elem ⊆ s.symbols := by
  obtain ⟨d, -, signature, -, hEncoded⟩ := exists_of_forall₂ hPlanned hf
  obtain ⟨t, -, hSelect⟩ := hEncoded.exists_type hs
  exact Decl.vecAll_subset hSelect hElem

/-- The vectors inside the encodings of functions add nothing to what the encodings need themselves. -/
theorem mem_symbolList (h : build m = .ok p) (x : Text) :
    x ∈ p.symbolList ↔ (∃ d ∈ m.opaques, x ∈ d.symbols ∨ d.vectorizable = true ∧ x ∈ Symbol.vecAll d.name) ∨
      ∃ f ∈ p.functionList, x = f.symbol ∨ ∃ s ∈ f.selections, x ∈ s.symbols := by
  obtain ⟨hPlan, hPlanned⟩ := exists_functions h
  have hList : p.symbolList = Text.sortUnique (m.opaques.flatMap OpaqueDecl.symbols ++
      p.functionList.flatMap FunctionPlan.symbols ++ (assemble m p.functionList).vectors.flatMap Symbol.vecAll) := by
    conv_lhs => rw [hPlan]
    exact getD_unlessEmpty _
  rw [hList, Text.mem_sortUnique, List.mem_append, List.mem_append]
  constructor
  · rintro ((hOpaque | hFunction) | hVector)
    · obtain ⟨d, hd, hx⟩ := List.mem_flatMap.mp hOpaque
      exact .inl ⟨d, hd, .inl hx⟩
    · obtain ⟨f, hf, hx⟩ := List.mem_flatMap.mp hFunction
      refine .inr ⟨f, hf, ?_⟩
      simpa [FunctionPlan.symbols] using hx
    · obtain ⟨elem, hElem, hx⟩ := List.mem_flatMap.mp hVector
      rcases List.mem_append.mp (Text.mem_sortUnique.mp hElem) with hOpaque | hInner
      · obtain ⟨d, hd, rfl⟩ := List.mem_map.mp hOpaque
        obtain ⟨hd, hVec⟩ := List.mem_filter.mp hd
        exact .inl ⟨d, hd, .inr ⟨hVec, hx⟩⟩
      · obtain ⟨s, hs, hElem⟩ := List.mem_flatMap.mp hInner
        obtain ⟨f, hf, hs⟩ := List.mem_flatMap.mp hs
        exact .inr ⟨f, hf, .inr ⟨s, hs, vecAll_subset_symbols hPlanned hf hs hElem hx⟩⟩
  · rintro (⟨d, hd, hx | ⟨hVec, hx⟩⟩ | ⟨f, hf, hx⟩)
    · exact .inl (.inl (List.mem_flatMap.mpr ⟨d, hd, hx⟩))
    · refine .inr (List.mem_flatMap.mpr ⟨d.name, Text.mem_sortUnique.mpr (List.mem_append_left _ ?_), hx⟩)
      exact List.mem_map_of_mem (List.mem_filter.mpr ⟨hd, hVec⟩)
    · refine .inl (.inr (List.mem_flatMap.mpr ⟨f, hf, ?_⟩))
      simpa [FunctionPlan.symbols] using hx

theorem mem_vectors (h : build m = .ok p) (elem : Text) :
    elem ∈ p.vectors ↔ (∃ d ∈ m.opaques, d.vectorizable = true ∧ d.name = elem) ∨
      ∃ f ∈ p.functionList, ∃ sel ∈ f.selections, elem ∈ sel.vectors := by
  have hVectors : p.vectors = (assemble m p.functionList).vectors := congrArg Plan.vectors (exists_functions h).1
  rw [hVectors, assemble, Text.mem_sortUnique, List.mem_append, List.flatMap_assoc]
  simp [and_assoc]

theorem exists_build {α : Type} {f : Plan → α} {a : α} (h : (build m).toOption.map f = some a) :
    ∃ p, build m = .ok p ∧ f p = a := by
  cases hBuild : build m with
  | error e =>
    rw [hBuild] at h
    cases h
  | ok p =>
    rw [hBuild] at h
    exact ⟨p, rfl, Option.some.inj h⟩

/-- Every part of the encoding is the encoding of its own type, and the plan lists what that type needs where it stands
alone, unless it is a string directly inside a vector. -/
def Covers (p : Plan) (t : Decl) (s : Selection) : Prop :=
  ∀ element t' s', PartOf t s element t' s' → t'.select = .ok s' ∧ t'.arguments.length = s'.children.length ∧
    (s'.symbols ⊆ p.symbolList ∨ element = true ∧ t' = .string)

/-- What the symbols of the plan of a manifest are. -/
structure Lists (m : Manifest) (p : Plan) : Prop where
  /-- Function by function, the parameters and the result. -/
  covered : List.Forall₂ (fun d f => ∃ signature, Signature.parse (scope m) d.signature = .ok signature ∧
    List.Forall₂ p.Covers signature.types f.selections) m.functions p.functionList
  /-- Nothing is listed without a need. -/
  exactly : ∀ x, x ∈ p.symbolList ↔
    (∃ d ∈ m.opaques, x ∈ d.symbols ∨ d.vectorizable = true ∧ x ∈ Symbol.vecAll d.name) ∨
      ∃ f ∈ p.functionList, x = f.symbol ∨ ∃ s ∈ f.selections, x ∈ s.symbols

theorem covers_of_select (h : build m = .ok p) (hf : f ∈ p.functionList)
    (hs : s ∈ f.selections) (hScoped : t.Scoped (scope m)) (hSelect : t.select = .ok s) : p.Covers t s := by
  intro element t' s' hPart
  have hPartSelect := hPart.select_eq hSelect
  refine ⟨hPartSelect, (Decl.encoded_arguments hPartSelect).length_eq, ?_⟩
  refine (hPart.symbols_subset hScoped hSelect).imp_left fun hSubset x hx => (mem_symbolList h x).mpr ?_
  rcases List.mem_append.mp (hSubset hx) with hWhole | hFree
  · exact .inr ⟨f, hf, .inr ⟨s, hs, hWhole⟩⟩
  · obtain ⟨name, hName, rfl⟩ := List.mem_map.mp hFree
    obtain ⟨d, hd, rfl⟩ := List.mem_map.mp hName
    exact .inl ⟨d, hd, .inl List.mem_cons_self⟩

/-- The plan of a manifest lists what the parts of its encodings need, strings directly inside vectors apart. -/
theorem build_lists (m : Manifest) {p : Plan} (h : build m = .ok p) : p.Lists m := by
  obtain ⟨-, hPlanned⟩ := exists_functions h
  refine ⟨?_, mem_symbolList h⟩
  refine List.forall₂_iff_get.mpr ⟨hPlanned.length_eq, fun i hd hf => ?_⟩
  obtain ⟨signature, hParse, hEncoded⟩ := hPlanned.get hd hf
  refine ⟨signature, hParse, List.forall₂_iff_get.mpr ⟨hEncoded.length_eq, fun j ht hs => ?_⟩⟩
  exact covers_of_select h (List.get_mem _ _) (List.get_mem _ _)
    (Signature.scoped_parse hParse _ (List.get_mem _ _)) (hEncoded.get ht hs)

def mixed : Manifest :=
  { opaques := [{ name := "P" }]
    functions :=
      [{ signature := "f: func(a: option<list<P>>, b: list<string>) -> result<tuple<string, u8>, borrow<P>>" }] }

theorem build_lists_mixed :
    ∃ p, build mixed = .ok p ∧
      p.functionList.map (fun f => f.selections.map (·.category)) = [[.optionRef, .vec, .result]] ∧ p.Lists mixed := by
  obtain ⟨p, hBuild, hCategories⟩ := exists_build (m := mixed)
    (f := fun p => p.functionList.map fun f => f.selections.map (·.category)) (a := [[.optionRef, .vec, .result]])
    (by decide +kernel)
  exact ⟨p, hBuild, hCategories, build_lists mixed hBuild⟩

def textList : Manifest := { functions := [{ signature := "f: func(x: list<string>)" }] }

/-- Nothing that strings need is listed with a vector of strings. -/
theorem build_lists_not_text :
    ∃ p f s s', build textList = .ok p ∧ f ∈ p.functionList ∧ s ∈ f.selections ∧
      PartOf (.defn none (.list .string)) s true .string s' ∧ Decl.string.select = .ok s' ∧
      s'.symbols = Symbol.stringAll ∧ ∀ x ∈ s'.symbols, x ∉ p.symbolList := by
  refine ⟨_, _, _, _, rfl, .head _, .head _, .argument .whole 0 rfl rfl, rfl, rfl, ?_⟩
  intro x hx
  rw [mem_symbolList (m := textList) rfl]
  revert x
  decide +kernel

end Plan

end Marshal
