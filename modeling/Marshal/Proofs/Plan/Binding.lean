import Marshal.Managed.Identity
import Marshal.Proofs.Managed.Bound
import Marshal.Proofs.Plan.Symbols

/-! # Binding what a plan lists

A plan lists the names that the other side has to export, and the managed side binds them in groups: the functions of a
vector type, the destructor of an opaque type, its equality and hash, the functions of strings. When nothing that the
plan lists is missing, every group that the plan calls for can be bound, with one exception. Strings are bound together
with vectors of strings, which the plan lists only where a vector of strings occurs.
-/
set_option autoImplicit false
namespace Marshal

open Step

namespace Symbols

variable {α : Type} {syms : Symbols α} {wants : List (Text × FunctionType)}

def Fits (syms : Symbols α) (wants : List (Text × FunctionType)) : Prop :=
  ∀ want ∈ wants, ∀ f, syms.lookup want.1 = some f → syms.typeOf f = want.2

def absent (syms : Symbols α) (names : List Text) : List Text := names.filter fun name => (syms.lookup name).isNone

instance (syms : Symbols α) (wants : List (Text × FunctionType)) : Decidable (syms.Fits wants) :=
  decidable_of_iff (∀ want ∈ wants, (syms.lookup want.1).all (syms.typeOf · = want.2)) <| by
    simp [Fits, Option.all_eq_true]

theorem mem_absent {name : Text} {names : List Text} :
    name ∈ syms.absent names ↔ name ∈ names ∧ syms.lookup name = none := by
  simp [absent]

theorem Fits.exists_resolves (hFits : syms.Fits wants) (hNone : syms.absent (wants.map (·.1)) = []) :
    ∃ fs, Resolves syms wants fs := by
  induction wants with
  | nil => exact ⟨[], .nil⟩
  | cons want wants ih =>
    have hFound : ∀ w ∈ want :: wants, syms.lookup w.1 ≠ none := by
      intro w hw hMissing
      have hAbsent := mem_absent.mpr ⟨List.mem_map_of_mem hw, hMissing⟩
      rw [hNone] at hAbsent
      cases hAbsent
    obtain ⟨f, hFirst⟩ := Option.ne_none_iff_exists'.mp (hFound want List.mem_cons_self)
    obtain ⟨fs, hRest⟩ := ih (fun w hw => hFits w (List.mem_cons_of_mem want hw)) <| by
      refine List.eq_nil_iff_forall_not_mem.mpr fun name hName => ?_
      obtain ⟨hMem, hMissing⟩ := mem_absent.mp hName
      obtain ⟨w, hw, rfl⟩ := List.mem_map.mp hMem
      exact hFound w (List.mem_cons_of_mem want hw) hMissing
    exact ⟨f :: fs, .cons ⟨hFirst, hFits want List.mem_cons_self f hFirst⟩ hRest⟩

end Symbols

theorem Binder.missing_bindAll {α : Type} {b : Binder α} {syms : Symbols α} (hSyms : b.syms = some syms)
    (wants : List (Text × FunctionType)) :
    (b.bindAll wants).2.missing = b.missing ++ syms.absent (wants.map (·.1)) := by
  induction wants generalizing b with
  | nil => simp [bindAll, Symbols.absent]
  | cons want wants ih =>
    have hRest := ih ((b.bind_syms want.1 want.2).trans hSyms)
    have hFirst : (b.bind want.1 want.2).2.missing = b.missing ++ syms.absent [want.1] := by
      unfold bind Symbols.resolve Symbols.absent
      cases hFound : syms.lookup want.1 with
      | none => simp [hSyms, hFound]
      | some f =>
        by_cases hType : syms.typeOf f = want.2
        · simp [hSyms, hFound, hType]
        · simp [hSyms, hFound, hType]
    show ((b.bind want.1 want.2).2.bindAll wants).2.missing = _
    rw [hRest, hFirst, List.append_assoc, Symbols.absent, Symbols.absent, ← List.filter_append]
    rfl

namespace Session

variable {V : Type} {s : Session V} {wants : List (Text × FunctionType)}

theorem exec_resolveAll_absent (hSome : s.symbols.absent (wants.map (·.1)) ≠ []) :
    exec (resolveAll wants) s = (.error (.refused (.missing (s.symbols.absent (wants.map (·.1))))), s) := by
  have hMissing := Binder.missing_bindAll (b := { syms := some s.symbols }) rfl wants
  have hFailure : (({ syms := some s.symbols } : Binder (Export V)).bindAll wants).2.failure? =
      some (.missing (s.symbols.absent (wants.map (·.1)))) := by
    rw [Binder.failure?, hMissing, List.nil_append, if_neg (by simpa using hSome)]
  rw [resolveAll, exec_bind_ok (exec_get s), Symbols.resolveAll]
  simp only [hFailure]
  rfl

theorem exec_resolve_of_fits {name : Text} {want : FunctionType} (hFits : s.symbols.Fits [(name, want)])
    (hSome : s.symbols.lookup name ≠ none) :
    ∃ f, exec (resolve name want) s = (.ok f, s) := by
  obtain ⟨f, hFound⟩ := Option.ne_none_iff_exists'.mp hSome
  exact ⟨f, exec_resolve hFound (hFits _ List.mem_cons_self f hFound)⟩

end Session

/-! ## The binders -/

section Binders

variable {V : Type} {s : Session V} {name elem : Text}

theorem StringOps.exec_resolve_of_fits (hFits : s.symbols.Fits wants) (hNone : s.symbols.absent Symbol.stringAll = []) :
    ∃ ops, exec StringOps.resolve s = (.ok ops, s) := by
  obtain ⟨fs, hAll⟩ := hFits.exists_resolves hNone
  have hExec := Session.exec_resolveAll hAll
  unfold Resolves StringOps.wants at hAll
  rcases hAll with _ | ⟨-, _ | ⟨-, _ | ⟨-, _ | ⟨-, _ | ⟨-, _ | ⟨-, _ | ⟨-, _ | ⟨-, _ | _⟩⟩⟩⟩⟩⟩⟩⟩
  exact ⟨_, exec_bind_ok hExec⟩

theorem Witness.exec_resolve_of_fits (form : ElementForm V) {item answer : WireType}
    (hFits : s.symbols.Fits (wants elem item answer)) (hNone : s.symbols.absent (Symbol.vecAll elem) = []) :
    ∃ w, exec (Witness.resolve elem form item answer) s = (.ok w, s) := by
  obtain ⟨fs, hAll⟩ := hFits.exists_resolves hNone
  have hExec := Session.exec_resolveAll hAll
  unfold Resolves Witness.wants at hAll
  rcases hAll with _ | ⟨-, _ | ⟨-, _ | ⟨-, _ | ⟨-, _ | ⟨-, _ | ⟨-, _ | ⟨-, _ | ⟨-, _ | _⟩⟩⟩⟩⟩⟩⟩⟩
  exact ⟨_, exec_bind_ok hExec⟩

def Adapter.wants (name : Text) : List (Text × FunctionType) :=
  [(Symbol.ofType name Symbol.partialEq, ⟨[.address, .address], some .bool⟩),
    (Symbol.ofType name Symbol.hash, ⟨[.address], some (.scalar .u64)⟩)]

theorem Adapter.exec_resolve_of_fits (hFits : s.symbols.Fits (wants name))
    (hEqual : s.symbols.lookup (Symbol.ofType name Symbol.partialEq) ≠ none) :
    ∃ a : Adapter V, exec (Adapter.resolve name) s = (.ok a, s) ∧
      a.isHashable = (s.symbols.lookup (Symbol.ofType name Symbol.hash)).isSome := by
  obtain ⟨eq, hEq⟩ := Session.exec_resolve_of_fits
    (List.forall_mem_singleton.mpr (hFits _ List.mem_cons_self)) hEqual
  rw [Adapter.resolve, exec_bind_ok hEq, exec_bind_ok (exec_get s)]
  cases hHash : s.symbols.lookup (Symbol.ofType name Symbol.hash) with
  | none => exact ⟨⟨name, eq, none⟩, rfl, rfl⟩
  | some f =>
    obtain ⟨hash, hExec⟩ := Session.exec_resolve_of_fits
      (List.forall_mem_singleton.mpr (hFits _ (List.mem_cons_of_mem _ List.mem_cons_self))) (by simp [hHash])
    exact ⟨⟨name, eq, some hash⟩, exec_bind_ok hExec, rfl⟩

theorem StringBridge.exec_resolve_of_fits (hFits : s.symbols.Fits StringOps.wants)
    (hVec : s.symbols.Fits (Witness.wants Owner.stringType .address .address))
    (hNone : s.symbols.absent Symbol.stringAll = []) :
    (s.symbols.absent (Symbol.vecAll Owner.stringType) = [] →
      ∃ b : StringBridge V, exec (StringBridge.resolve true) s = (.ok b, s)) ∧
    (s.symbols.absent (Symbol.vecAll Owner.stringType) ≠ [] →
      exec (StringBridge.resolve (V := V) true) s =
        (.error (.refused (.missing (s.symbols.absent (Symbol.vecAll Owner.stringType)))), s)) := by
  obtain ⟨ops, hOps⟩ := StringOps.exec_resolve_of_fits hFits hNone
  have hBridge : exec (StringBridge.resolve (V := V) true) s =
      exec (Witness.ofStrings ops >>= fun w => pure ⟨ops, w⟩) s := exec_bind_ok hOps
  rw [hBridge]
  constructor
  · intro hAll
    obtain ⟨w, hExec⟩ := Witness.exec_resolve_of_fits (.string ops) hVec hAll
    exact ⟨⟨ops, w⟩, exec_bind_ok hExec⟩
  · intro hSome
    exact exec_bind_error (exec_bind_error (Session.exec_resolveAll_absent hSome))

end Binders

/-! ## Plans -/

theorem Decl.symbols_of_string {t : Decl} {s : Selection} (hSelect : t.select = .ok s)
    (hString : s.category = .string) : s.symbols = Symbol.stringAll := by
  have hKind : s.category.isElement = true := by rw [hString]; rfl
  have hLeaf := (Decl.leaf_of_isElement hSelect hKind).1
  cases t with
  | string =>
    cases hSelect
    rfl
  | defn name kind =>
    cases kind with
    | «alias» target =>
      rw [Decl.select, Kind.select] at hSelect
      split at hSelect <;> cases hSelect
      cases hString
    | list | option | result | tuple => cases hLeaf
    | _ =>
      cases hSelect <;> cases hString
  | _ => cases hSelect <;> cases hString

namespace Plan

variable {V : Type} {m : Manifest} {p : Plan} {s : Session V}

theorem vecAll_subset_symbolList (h : build m = .ok p) {elem : Text} (hElem : elem ∈ p.vectors) :
    Symbol.vecAll elem ⊆ p.symbolList := by
  obtain ⟨hPlan, -⟩ := exists_functions h
  intro x hx
  rw [hPlan] at hElem ⊢
  have hList : (assemble m p.functionList).symbolList = Text.sortUnique _ := getD_unlessEmpty _
  rw [hList, Text.mem_sortUnique]
  exact List.mem_append_right _ (List.mem_flatMap.mpr ⟨elem, hElem, hx⟩)

theorem stringAll_subset_symbolList (h : build m = .ok p) {f : FunctionPlan} (hf : f ∈ p.functionList) {sel : Selection}
    (hs : sel ∈ f.selections) (hString : sel.category = .string) : Symbol.stringAll ⊆ p.symbolList := by
  obtain ⟨t, -, hSelect⟩ := exists_type h hf hs
  intro x hx
  rw [← Decl.symbols_of_string hSelect hString] at hx
  exact (mem_symbolList h x).mpr (.inr ⟨_, hf, .inr ⟨sel, hs, hx⟩⟩)

theorem check_eq_ok_iff {exported : Text → Bool} :
    p.check exported = .ok () ↔ ∀ name ∈ p.symbolList, exported name = true := by
  unfold check
  split
  · rename_i hNone
    simpa using hNone
  · rename_i hSome
    refine iff_of_false (by simp) fun hAll => hSome ?_
    simpa using hAll

theorem lookup_of_check (hCheck : p.check (fun name => (s.symbols.lookup name).isSome) = .ok ()) {name : Text}
    (hName : name ∈ p.symbolList) : s.symbols.lookup name ≠ none :=
  Option.isSome_iff_ne_none.mp (check_eq_ok_iff.mp hCheck name hName)

theorem absent_of_check (hCheck : p.check (fun name => (s.symbols.lookup name).isSome) = .ok ()) {names : List Text}
    (hListed : names ⊆ p.symbolList) : s.symbols.absent names = [] := by
  refine List.eq_nil_iff_forall_not_mem.mpr fun name hName => ?_
  obtain ⟨hMem, hMissing⟩ := Symbols.mem_absent.mp hName
  exact lookup_of_check hCheck (hListed hMem) hMissing

/-- What can be bound of a plan in a session, if the functions have the types that are wanted. -/
structure Binds (p : Plan) (s : Session V) : Prop where
  /-- The functions of a vector type, whatever its elements are taken for. -/
  vectors : ∀ elem ∈ p.vectors, ∀ (form : ElementForm V) (item answer : WireType),
    s.symbols.Fits (Witness.wants elem item answer) →
      ∃ w, exec (Witness.resolve elem form item answer) s = (.ok w, s)
  destructors : ∀ o ∈ p.opaqueList, s.symbols.Fits [(Symbol.ofType o.name Symbol.free, .destructor)] →
    ∃ type, exec (HandleType.resolve o.name) s = (.ok type, s)
  identities : ∀ o ∈ p.opaqueList, o.equatable = true → s.symbols.Fits (Adapter.wants o.name) →
    ∃ a, exec (Adapter.resolve o.name) s = (.ok a, s) ∧ (o.hashable = true → a.isHashable = true)
  /-- Strings alone can be bound; together with their vectors they can be bound if these are exported too. -/
  strings : ∀ f ∈ p.functionList, ∀ sel ∈ f.selections, sel.category = .string → s.symbols.Fits StringOps.wants →
    s.symbols.Fits (Witness.wants Owner.stringType .address .address) →
      (∃ ops, exec StringOps.resolve s = (.ok ops, s)) ∧
      (s.symbols.absent (Symbol.vecAll Owner.stringType) = [] → ∃ b, exec (StringBridge.resolve true) s = (.ok b, s)) ∧
      (s.symbols.absent (Symbol.vecAll Owner.stringType) ≠ [] → exec (StringBridge.resolve true) s =
        (.error (.refused (.missing (s.symbols.absent (Symbol.vecAll Owner.stringType)))), s))
  stringVectors : Owner.stringType ∈ p.vectors → s.symbols.absent (Symbol.vecAll Owner.stringType) = []

/-- If the check of a plan passes, everything that the plan calls for can be bound, vectors of strings apart: these are
bound with every string, and may be missing where the plan has no vector of strings. -/
theorem build_binds (m : Manifest) {p : Plan} (h : build m = .ok p) (s : Session V)
    (hCheck : p.check (fun name => (s.symbols.lookup name).isSome) = .ok ()) : p.Binds s := by
  have hOpaque : ∀ o ∈ p.opaqueList, ∃ d ∈ m.opaques, d.plan = o ∧ d.symbols ⊆ p.symbolList := by
    intro o ho
    rw [opaqueList_eq h] at ho
    obtain ⟨d, hd, rfl⟩ := List.mem_map.mp ho
    exact ⟨d, hd, rfl, fun x hx => (mem_symbolList h x).mpr (.inl ⟨d, hd, .inl hx⟩)⟩
  refine ⟨?_, ?_, ?_, ?_, ?_⟩
  · intro elem hElem form item answer hFits
    exact Witness.exec_resolve_of_fits form hFits (absent_of_check hCheck (vecAll_subset_symbolList h hElem))
  · intro o ho hFits
    obtain ⟨d, -, rfl, hListed⟩ := hOpaque o ho
    obtain ⟨f, hExec⟩ := Session.exec_resolve_of_fits hFits (lookup_of_check hCheck (hListed List.mem_cons_self))
    exact ⟨⟨d.name, f⟩, exec_bind_ok hExec⟩
  · intro o ho hEquatable hFits
    obtain ⟨d, -, rfl, hListed⟩ := hOpaque o ho
    have hEqual : Symbol.ofType d.name Symbol.partialEq ∈ d.symbols := by
      have hEquatable : d.equatable = true := hEquatable
      simp [OpaqueDecl.symbols, hEquatable]
    obtain ⟨a, hExec, hHash⟩ := Adapter.exec_resolve_of_fits hFits (lookup_of_check hCheck (hListed hEqual))
    refine ⟨a, hExec, fun hHashable => ?_⟩
    have hListedHash : Symbol.ofType d.name Symbol.hash ∈ d.symbols := by
      have hHashable : d.hashable = true := hHashable
      simp [OpaqueDecl.symbols, hHashable]
    rw [hHash, Option.isSome_iff_ne_none]
    exact lookup_of_check hCheck (hListed hListedHash)
  · intro f hf sel hs hString hFits hVec
    have hNone := absent_of_check hCheck (stringAll_subset_symbolList h hf hs hString)
    exact ⟨StringOps.exec_resolve_of_fits hFits hNone, StringBridge.exec_resolve_of_fits hFits hVec hNone⟩
  · exact fun hElem => absent_of_check hCheck (vecAll_subset_symbolList h hElem)

/-- A session where functions are exported that do nothing, under the names and with the types that are wanted. -/
def exporting (wants : List (Text × FunctionType)) : Session Nat :=
  { owner :=
      { table := { heap := .create .linear 1 1 }
        exports := wants.map fun want => (want.1, .function want.2 fun _ => none)
        executor := .create 1
        config := {} } }

/-- An opaque type with all that can be asked of it, strings, and three kinds of vectors. -/
def stocked : Manifest :=
  { opaques := [{ name := "P", equatable := true, hashable := true, vectorizable := true }]
    functions := [{ signature := "f: func(a: string, b: list<string>, c: list<u8>) -> P" }] }

def stockedWants : List (Text × FunctionType) :=
  StringOps.wants ++ Witness.wants "String" .address .address ++ Witness.wants "P" .address .address ++
    Witness.wants "u8" (.scalar .u8) (.option .u8) ++ Adapter.wants "P" ++
    [(Symbol.ofType "P" Symbol.free, .destructor),
      (Symbol.ofFunction "f", ⟨[.address, .address, .address], some .address⟩)]

theorem check_of_needs {exported : Text → Bool} (h : build m = .ok p)
    (hOpaques : ∀ d ∈ m.opaques, ∀ x ∈ d.symbols ++ if d.vectorizable then Symbol.vecAll d.name else [],
      exported x = true)
    (hFunctions : p.functionList.all (fun f => f.symbols.all exported) = true) : p.check exported = .ok () := by
  refine check_eq_ok_iff.mpr fun x hx => ?_
  rcases (mem_symbolList h x).mp hx with ⟨d, hd, hx⟩ | ⟨f, hf, hx⟩
  · refine hOpaques d hd x (List.mem_append.mpr ?_)
    rcases hx with hx | ⟨hVec, hx⟩
    · exact .inl hx
    · exact .inr (by rwa [if_pos hVec])
  · refine List.all_eq_true.mp (List.all_eq_true.mp hFunctions f hf) x ?_
    simpa [FunctionPlan.symbols] using hx

theorem build_binds_stocked :
    ∃ p, build stocked = .ok p ∧ (∀ elem : Text, elem ∈ (["P", "String", "u8"] : List Text) → elem ∈ p.vectors) ∧
      p.check (fun name => ((exporting stockedWants).symbols.lookup name).isSome) = .ok () ∧
      p.Binds (exporting stockedWants) := by
  obtain ⟨p, hBuild, hPlan⟩ := exists_build (m := stocked) (f := fun p =>
    (p.functionList.map fun f => f.selections.flatMap Selection.vectors,
      p.functionList.all fun f => f.symbols.all fun name => ((exporting stockedWants).symbols.lookup name).isSome))
    (a := (([["String", "u8"]] : List (List Text)), true)) (by decide +kernel)
  obtain ⟨hVectors, hAll⟩ := Prod.mk.inj hPlan
  have hCheck := check_of_needs hBuild (by decide +kernel) hAll
  refine ⟨p, hBuild, fun elem hElem => (mem_vectors hBuild elem).mpr ?_, hCheck, build_binds stocked hBuild _ hCheck⟩
  obtain ⟨f, hf, hElems⟩ := List.mem_map.mp (hVectors ▸ List.mem_cons_self)
  rcases List.mem_cons.mp hElem with rfl | hElem
  · exact .inl ⟨_, List.mem_cons_self, rfl, rfl⟩
  · rw [← hElems] at hElem
    exact .inr ⟨f, hf, List.mem_flatMap.mp hElem⟩

def textParam : Manifest := { functions := [{ signature := "f: func(s: string)" }] }

def textWants : List (Text × FunctionType) := StringOps.wants ++ [(Symbol.ofFunction "f", ⟨[.address], none⟩)]

/-- The check passes, and strings cannot be bound: none of the functions of their vectors is there. -/
theorem build_binds_not_strings :
    ∃ p f sel, build textParam = .ok p ∧ f ∈ p.functionList ∧ sel ∈ f.selections ∧ sel.category = .string ∧
      p.check (fun name => ((exporting textWants).symbols.lookup name).isSome) = .ok () ∧
      (exporting textWants).symbols.Fits StringOps.wants ∧
      (exporting textWants).symbols.Fits (Witness.wants Owner.stringType .address .address) ∧
      exec (StringBridge.resolve true) (exporting textWants) =
        (.error (.refused (.missing (Symbol.vecAll Owner.stringType))), exporting textWants) := by
  have hAbsent : (exporting textWants).symbols.absent (Symbol.vecAll Owner.stringType) =
      Symbol.vecAll Owner.stringType := by decide +kernel
  have hFits : (exporting textWants).symbols.Fits StringOps.wants := by decide +kernel
  have hVec : (exporting textWants).symbols.Fits (Witness.wants Owner.stringType .address .address) := by
    decide +kernel
  have hRefused := (StringBridge.exec_resolve_of_fits hFits hVec (by decide +kernel)).2 (by rw [hAbsent]; decide)
  rw [hAbsent] at hRefused
  obtain ⟨p, hBuild, hPlan⟩ := exists_build (m := textParam) (f := fun p =>
    (p.functionList.any fun f => f.selections.any fun sel => sel.category = .string,
      p.functionList.all fun f => f.symbols.all fun name => ((exporting textWants).symbols.lookup name).isSome))
    (a := (true, true)) (by decide +kernel)
  obtain ⟨hString, hAll⟩ := Prod.mk.inj hPlan
  obtain ⟨f, hf, hString⟩ := List.any_eq_true.mp hString
  obtain ⟨sel, hs, hString⟩ := List.any_eq_true.mp hString
  exact ⟨p, f, sel, hBuild, hf, hs, of_decide_eq_true hString, check_of_needs hBuild (by decide) hAll, hFits, hVec,
    hRefused⟩

end Plan

end Marshal
