import Marshal.Proofs.Plan.Names

/-! # The order of declarations

A plan is the same up to the order of its functions and opaque types, in whatever order these were declared. What is
gathered over all of them is kept sorted and without repetitions, and such a list is determined by its members. So
merging step by step gives the same as merging at once, in any order of the steps.
-/
set_option autoImplicit false
namespace Marshal

/-! ## Names in any order -/

namespace TypeExpr

variable {names names' : List Text}

theorem typeAt_congr (h : ∀ n, n ∈ names ↔ n ∈ names') (source : Text) (fuel : Nat) :
    (∀ t, typeAt ⟨names, source⟩ fuel t = typeAt ⟨names', source⟩ fuel t) ∧
      ∀ t, argsAt ⟨names, source⟩ fuel t = argsAt ⟨names', source⟩ fuel t := by
  have hLookup : ∀ name, lookup ⟨names, source⟩ name = lookup ⟨names', source⟩ name := by
    intro name
    unfold lookup
    rw [show names.contains name = names'.contains name by simp [h]]
    rfl
  have hReference : ∀ former t, referenceAt ⟨names, source⟩ former t = referenceAt ⟨names', source⟩ former t := by
    intro former t
    unfold referenceAt
    simp only [hLookup]
    rfl
  induction fuel with
  | zero => exact ⟨fun _ => rfl, fun _ => rfl⟩
  | succ fuel ih =>
    obtain ⟨ihType, ihArgs⟩ := ih
    constructor
    · intro t
      rw [typeAt, typeAt]
      simp only [hLookup, hReference, ihArgs]
      rfl
    · intro t
      rw [argsAt, argsAt]
      simp only [ihType, ihArgs]
      rfl

theorem parse_congr (h : ∀ n, n ∈ names ↔ n ∈ names') (source : Text) : parse names source = parse names' source := by
  unfold parse
  simp only [(typeAt_congr h source _).1]
  rfl

end TypeExpr

namespace Signature

variable {names names' : List Text}

theorem parse_congr (h : ∀ n, n ∈ names ↔ n ∈ names') (t : Text) : parse names t = parse names' t := by
  have hType : readType names = readType names' := by
    funext what written
    rw [readType, readType, TypeExpr.parse_congr h]
  have hParams : ∀ function seen parts,
      readParams names function seen parts = readParams names' function seen parts := by
    intro function seen parts
    induction parts generalizing seen with
    | nil => rfl
    | cons part parts ih => simp only [readParams, hType, ih]
  have hResult : readResult names = readResult names' := by
    funext t
    rw [readResult, readResult, hType]
  unfold parse
  simp only [hParams, hResult]

end Signature

/-! ## The parts of an encoding -/

namespace Selection

/-- The encoding and those inside it, at any depth. -/
inductive Part (s : Selection) : Selection → Prop
  | whole : Part s s
  | child {c c' : Selection} (hPart : Part s c) (hChild : c' ∈ c.children) : Part s c'

variable {s c : Selection}

theorem Part.trans {c' : Selection} (h : s.Part c) (h' : c.Part c') : s.Part c' := by
  induction h' with
  | whole => exact h
  | child _ hChild ih => exact .child ih hChild

variable {g : Selection → List Text} {P : Selection → Text → Prop}

theorem Part.subset (hg : ∀ s x, x ∈ g s ↔ P s x ∨ ∃ c ∈ s.children, x ∈ g c) (h : s.Part c) : g c ⊆ g s := by
  induction h with
  | whole => exact List.Subset.refl _
  | child _ hChild ih => exact fun x hx => ih ((hg _ x).mpr (.inr ⟨_, hChild, hx⟩))

theorem mem_iff_exists_part (hg : ∀ s x, x ∈ g s ↔ P s x ∨ ∃ c ∈ s.children, x ∈ g c) (s : Selection) (x : Text) :
    x ∈ g s ↔ ∃ c, s.Part c ∧ P c x := by
  constructor
  · intro hx
    rcases (hg s x).mp hx with hHere | ⟨c, hc, hInner⟩
    · exact ⟨s, .whole, hHere⟩
    · have hSmaller := sizeOf_child hc
      obtain ⟨c', hPart, hP⟩ := (mem_iff_exists_part hg c x).mp hInner
      exact ⟨c', (Part.child .whole hc).trans hPart, hP⟩
  · rintro ⟨c, hPart, hP⟩
    exact hPart.subset hg ((hg c x).mpr (.inl hP))
termination_by sizeOf s

end Selection

theorem mem_childOptions {aggregate : Text} {ss : List Selection} :
    aggregate ∈ childOptions ss ↔ ∃ s ∈ ss, aggregate ∈ s.options := by
  induction ss with
  | nil => simp [childOptions]
  | cons s ss ih => simp [childOptions, ih]

theorem Selection.mem_options {aggregate : Text} {s : Selection} :
    aggregate ∈ s.options ↔
      s.category = .optionPrimitive ∧ aggregate = s.aggregate ∨ ∃ c ∈ s.children, aggregate ∈ c.options := by
  cases s with
  | mk =>
    rw [Selection.options, List.mem_append, mem_childOptions]
    split <;> simp_all

/-! ## Declarations in any order -/

def FunctionDecl.Plans (names : List Text) (d : FunctionDecl) (f : FunctionPlan) : Prop :=
  ∃ signature, Signature.parse names d.signature = .ok signature ∧ signature.plan d = .ok f

namespace Plan

variable {names names' : List Text}

theorem functionPlans_eq_ok {seen : List Text} {ds : List FunctionDecl} {fs : List FunctionPlan} :
    functionPlans names seen ds = .ok fs ↔
      List.Forall₂ (FunctionDecl.Plans names) ds fs ∧ (fs.map (·.name)).Nodup ∧ ∀ f ∈ fs, f.name ∉ seen := by
  constructor
  · intro h
    obtain ⟨hNodup, hNew⟩ := nodup_functionPlans h
    refine ⟨?_, hNodup, fun f hf => (hNew f hf).2⟩
    clear hNodup hNew
    induction ds generalizing seen fs with
    | nil =>
      cases h
      exact .nil
    | cons d ds ih =>
      obtain ⟨signature, f, rest, rfl, hParse, -, hPlan, hRest⟩ := functionPlans_cons_eq_ok h
      exact .cons ⟨signature, hParse, hPlan⟩ (ih hRest)
  · rintro ⟨hPlans, hNodup, hNew⟩
    induction hPlans generalizing seen with
    | nil => rfl
    | @cons d f ds fs hPlan _ ih =>
      obtain ⟨signature, hParse, hPlan⟩ := hPlan
      obtain ⟨hName, -⟩ := Signature.named_plan hPlan (Signature.plain_parse hParse)
      obtain ⟨hFirst, hRest⟩ := List.forall_mem_cons.mp hNew
      obtain ⟨hApart, hDistinct⟩ := List.nodup_cons.mp hNodup
      have hUnseen : ¬ seen.contains signature.name = true := by simpa [hName] using hFirst
      have hOthers : functionPlans names (signature.name :: seen) ds = .ok fs := by
        refine ih hDistinct fun g hg hSeen => ?_
        rcases List.mem_cons.mp hSeen with hSame | hSeen
        · exact hApart (List.mem_map.mpr ⟨g, hg, hSame.trans hName.symm⟩)
        · exact hRest g hg hSeen
      refine bind_eq_ok.mpr ⟨signature, hParse, ?_⟩
      rw [if_neg hUnseen]
      exact bind_eq_ok.mpr ⟨f, hPlan, bind_eq_ok.mpr ⟨fs, hOthers, rfl⟩⟩

theorem functionPlans_perm (hNames : ∀ n, n ∈ names ↔ n ∈ names') {ds ds' : List FunctionDecl} {fs : List FunctionPlan}
    (hPerm : ds'.Perm ds) (h : functionPlans names [] ds = .ok fs) :
    ∃ fs', functionPlans names' [] ds' = .ok fs' ∧ fs'.Perm fs := by
  obtain ⟨hPlans, hNodup, hNew⟩ := functionPlans_eq_ok.mp h
  have hSame : FunctionDecl.Plans names = FunctionDecl.Plans names' := by
    funext d f
    rw [FunctionDecl.Plans, FunctionDecl.Plans, Signature.parse_congr hNames]
  obtain ⟨fs', hPlans', hPerm'⟩ := List.perm_comp_forall₂ hPerm (hSame ▸ hPlans)
  refine ⟨fs', functionPlans_eq_ok.mpr ⟨hPlans', ?_, fun _ _ => List.not_mem_nil⟩, hPerm'⟩
  exact (hPerm'.map _).nodup_iff.mpr hNodup

/-- The symbols as they are merged one list after the other: those of the opaque types, of the functions and of their
encodings, and at last those of the vectors in the order in which they come. -/
def gather (ds : List OpaqueDecl) (fs : List FunctionPlan) (elems : List Text) : List Text :=
  (ds.map OpaqueDecl.symbols ++ (fs.flatMap fun f => [f.symbol] :: f.selections.map Selection.symbols) ++
    elems.map Symbol.vecAll).foldl Text.union []

/-- What a plan gathers over all that is declared. -/
structure Gathers (m : Manifest) (p : Plan) : Prop where
  increasing : Text.Increasing p.symbolList ∧ Text.Increasing p.vectors ∧ Text.Increasing p.options
  vectors : ∀ e, e ∈ p.vectors ↔ (∃ d ∈ m.opaques, d.vectorizable = true ∧ d.name = e) ∨
    ∃ f ∈ p.functionList, ∃ s ∈ f.selections, ∃ c, s.Part c ∧ c.category = .vec ∧ e = c.elem
  options : ∀ a, a ∈ p.options ↔
    ∃ f ∈ p.functionList, ∃ s ∈ f.selections, ∃ c, s.Part c ∧ c.category = .optionPrimitive ∧ a = c.aggregate
  symbols : ∀ x, x ∈ p.symbolList ↔ (∃ d ∈ m.opaques, x ∈ d.symbols) ∨
    (∃ f ∈ p.functionList, x = f.symbol ∨ ∃ s ∈ f.selections, x ∈ s.symbols) ∨
    ∃ e ∈ p.vectors, x ∈ Symbol.vecAll e
  /-- In whatever order the vectors come when their symbols are merged. -/
  stepwise : ∀ elems : List Text, elems.Nodup → (∀ e, e ∈ elems ↔ e ∈ p.vectors) →
    elems.mergeSort Text.le = p.vectors ∧ gather m.opaques p.functionList elems = p.symbolList
  aggregates : ∀ as : List Text, as.Nodup → (∀ a, a ∈ as ↔ a ∈ p.options) → as.mergeSort Text.le = p.options

variable {m m' : Manifest} {p : Plan}

theorem mem_options (h : build m = .ok p) (a : Text) :
    a ∈ p.options ↔ ∃ f ∈ p.functionList, ∃ s ∈ f.selections, a ∈ s.options := by
  have hOptions : p.options = (assemble m p.functionList).options := congrArg Plan.options (exists_functions h).1
  rw [hOptions, assemble, Text.mem_sortUnique, List.flatMap_assoc]
  simp

theorem symbolList_eq (h : build m = .ok p) :
    p.symbolList = Text.sortUnique (m.opaques.flatMap OpaqueDecl.symbols ++
      p.functionList.flatMap FunctionPlan.symbols ++ p.vectors.flatMap Symbol.vecAll) := by
  have hPlan := (exists_functions h).1
  have hVectors : p.vectors = (assemble m p.functionList).vectors := congrArg Plan.vectors hPlan
  rw [hVectors]
  conv_lhs => rw [hPlan]
  exact getD_unlessEmpty _

theorem mem_symbols (h : build m = .ok p) (x : Text) :
    x ∈ p.symbolList ↔ (∃ d ∈ m.opaques, x ∈ d.symbols) ∨
      (∃ f ∈ p.functionList, x = f.symbol ∨ ∃ s ∈ f.selections, x ∈ s.symbols) ∨
      ∃ e ∈ p.vectors, x ∈ Symbol.vecAll e := by
  rw [symbolList_eq h, Text.mem_sortUnique]
  simp [FunctionPlan.symbols]

theorem increasing_build (h : build m = .ok p) :
    Text.Increasing p.symbolList ∧ Text.Increasing p.vectors ∧ Text.Increasing p.options := by
  refine ⟨symbolList_eq h ▸ Text.increasing_sortUnique _, ?_⟩
  obtain ⟨fs, -, h⟩ := bind_eq_ok.mp h
  cases h
  exact ⟨Text.increasing_sortUnique _, Text.increasing_sortUnique _⟩

theorem gather_eq (ds : List OpaqueDecl) (fs : List FunctionPlan) (elems : List Text) :
    gather ds fs elems = Text.sortUnique
      (ds.flatMap OpaqueDecl.symbols ++ fs.flatMap FunctionPlan.symbols ++ elems.flatMap Symbol.vecAll) := by
  have hFunctions : (fs.flatMap fun f => [f.symbol] :: f.selections.map Selection.symbols).flatten =
      fs.flatMap FunctionPlan.symbols := by
    rw [← List.flatMap_id, List.flatMap_assoc]
    refine List.flatMap_congr fun f _ => ?_
    rw [List.flatMap_cons, List.flatMap_id]
    rfl
  rw [gather, Text.foldl_union _ .nil, List.nil_append, List.flatten_append, List.flatten_append, hFunctions]
  rfl

theorem gathers (h : build m = .ok p) : p.Gathers m := by
  have hIncreasing := increasing_build h
  refine ⟨hIncreasing, fun e => ?_, fun a => ?_, mem_symbols h, fun elems hNodup hElems => ⟨?_, ?_⟩, ?_⟩
  · rw [mem_vectors h]
    simp only [Selection.mem_iff_exists_part fun _ _ => Selection.mem_vectors]
  · rw [mem_options h]
    simp only [Selection.mem_iff_exists_part fun _ _ => Selection.mem_options]
  · exact Text.mergeSort_eq hNodup hIncreasing.2.1 hElems
  · rw [gather_eq, symbolList_eq h]
    refine Text.sortUnique_congr fun x => ?_
    simp only [List.mem_append, List.mem_flatMap, hElems]
  · exact fun as hNodup hAs => Text.mergeSort_eq hNodup hIncreasing.2.2 hAs

/-- The order of declarations matters only for the order of functions and opaque types. -/
theorem build_perm (h : build m = .ok p) (hOpaques : m'.opaques.Perm m.opaques)
    (hFunctions : m'.functions.Perm m.functions) :
    p.Gathers m ∧ ∃ p', build m' = .ok p' ∧ p'.functionList.Perm p.functionList ∧ p'.symbols = p.symbols ∧
      p'.vectors = p.vectors ∧ p'.options = p.options := by
  refine ⟨gathers h, ?_⟩
  obtain ⟨fs, hPlans, hPlan⟩ := bind_eq_ok.mp h
  obtain ⟨fs', hPlans', hPerm⟩ := functionPlans_perm (fun n => (hOpaques.map (·.name)).mem_iff.symm) hFunctions hPlans
  have h' : build m' = .ok (assemble m' fs') := bind_eq_ok.mpr ⟨fs', hPlans', rfl⟩
  cases hPlan
  have hFirst : (assemble m fs).functionList = fs := getD_unlessEmpty fs
  have hSecond : (assemble m' fs').functionList = fs' := getD_unlessEmpty fs'
  have hVectors : (assemble m' fs').vectors = (assemble m fs).vectors := by
    refine (increasing_build h').2.1.ext (increasing_build h).2.1 fun e => ?_
    rw [mem_vectors h', mem_vectors h, hFirst, hSecond]
    simp only [hOpaques.mem_iff, hPerm.mem_iff]
  refine ⟨_, h', ?_, ?_, hVectors, ?_⟩
  · rwa [hFirst, hSecond]
  · show unlessEmpty (Text.sortUnique (_ ++ _ ++ (assemble m' fs').vectors.flatMap _)) =
      unlessEmpty (Text.sortUnique (_ ++ _ ++ (assemble m fs).vectors.flatMap _))
    rw [hVectors]
    refine congrArg unlessEmpty (Text.sortUnique_congr fun x => ?_)
    simp only [List.mem_append, List.mem_flatMap, hOpaques.mem_iff, hPerm.mem_iff]
  · refine (increasing_build h').2.2.ext (increasing_build h).2.2 fun a => ?_
    rw [mem_options h', mem_options h, hFirst, hSecond]
    simp only [hPerm.mem_iff]

/-- Two opaque types and two functions, with a vector and options below the top. -/
def paired : Manifest :=
  { opaques := [{ name := "P", vectorizable := true }, { name := "Q", equatable := true }]
    functions := [{ signature := "f: func(a: tuple<option<u8>, list<Q>>)" },
      { signature := "g: func(x: P) -> result<option<s32>, string>" }] }

def pairedReversed : Manifest :=
  { opaques := paired.opaques.reverse, functions := paired.functions.reverse }

theorem build_perm_reversed :
    pairedReversed.opaques.Perm paired.opaques ∧ pairedReversed.functions.Perm paired.functions ∧
      ∃ p p', build paired = .ok p ∧ p.Gathers paired ∧ build pairedReversed = .ok p' ∧
        p'.functionList.map (·.name) = [[103], [102]] ∧ p'.symbols = p.symbols ∧ p'.vectors = p.vectors ∧
        p'.options = p.options := by
  have hOpaques : pairedReversed.opaques.Perm paired.opaques := List.reverse_perm _
  have hFunctions : pairedReversed.functions.Perm paired.functions := List.reverse_perm _
  obtain ⟨p, hBuild, -⟩ := exists_build (m := paired) (f := fun p => p.functionList.length) (a := 2) (by decide +kernel)
  obtain ⟨q, hReversed, hNames⟩ := exists_build (m := pairedReversed)
    (f := fun p => p.functionList.map (·.name)) (a := [[103], [102]]) (by decide +kernel)
  obtain ⟨hGathers, p', hBuild', -, hSame⟩ := build_perm hBuild hOpaques hFunctions
  obtain rfl : q = p' := Except.ok.inj (hReversed.symm.trans hBuild')
  exact ⟨hOpaques, hFunctions, p, q, hBuild, hGathers, hBuild', hNames, hSame⟩

end Plan

end Marshal
