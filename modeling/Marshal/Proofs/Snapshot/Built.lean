import Marshal.Proofs.Plan.Order
import Marshal.Proofs.Snapshot.Extent

/-! # Snapshots of built plans

A plan that is built from UTF-8 is storable. So its snapshot is read back as the plan exactly if the item is within
the limits of reading, and no two such plans have one snapshot. The limits bound the nesting of types: a plan with types
that are nested too deeply has a snapshot, but one that cannot be read.
-/
set_option autoImplicit false
namespace Marshal

open Cbor

/-! ## Widths -/

theorem Encoded.elemsWidth_le {ts : List Decl} {ss : List Selection} (h : Encoded ts ss)
    (hParts : ∀ t ∈ ts, ∀ s, t.select = .ok s → t.width ≤ s.toItem.encode.length) :
    elemsWidth ts ≤ (encodeAll (ss.map Selection.toItem)).length := by
  induction h with
  | nil => exact Nat.zero_le _
  | cons hSelect _ ih =>
    obtain ⟨hFirst, hRest⟩ := List.forall_mem_cons.mp hParts
    have hLength := hFirst _ hSelect
    have hLengths := ih hRest
    rw [elemsWidth, List.map_cons, encodeAll, List.length_append]
    omega

namespace Decl.Scoped

variable {names : List Text} {t : Decl} {s : Selection}

theorem width_le_arguments (h : t.Scoped names) : t.width ≤ elemsWidth t.arguments + 2 := by
  cases h with
  | @option elem _ =>
    change (if elem.isReference then 1 else 1 + elem.width) ≤ elem.width + 0 + 2
    split <;> omega
  | @result ok err _ _ =>
    change 1 + max ok.width err.width ≤ ok.width + (err.width + 0) + 2
    omega
  | tuple _ => exact Nat.le_add_right _ 2
  | _ => simp [Decl.width, Kind.width]

theorem width_le (h : t.Scoped names) (hSelect : t.select = .ok s) : t.width ≤ s.toItem.encode.length := by
  have hStep : ∀ {t s}, Scoped names t → t.select = .ok s →
      (∀ t' ∈ t.arguments, ∀ s', t'.select = .ok s' → t'.width ≤ s'.toItem.encode.length) →
      t.width ≤ s.toItem.encode.length := by
    intro t s h hSelect hArguments
    have hWidth := h.width_le_arguments
    have hWidths := (Decl.encoded_arguments hSelect).elemsWidth_le hArguments
    have hParts := s.length_parts
    omega
  induction h generalizing s with
  | list hElem ih => exact hStep (.list hElem) hSelect (List.forall_mem_singleton.mpr fun _ => ih)
  | option hElem ih => exact hStep (.option hElem) hSelect (List.forall_mem_singleton.mpr fun _ => ih)
  | tuple hElems ih => exact hStep (.tuple hElems) hSelect fun t ht _ => ih t ht
  | result hOk hErr ihOk ihErr =>
    refine hStep (.result hOk hErr) hSelect (List.forall_mem_cons.mpr ⟨fun _ => ihOk, ?_⟩)
    exact List.forall_mem_singleton.mpr fun _ => ihErr
  | absent => exact hStep .absent hSelect (List.forall_mem_nil _)
  | prim p => exact hStep (.prim p) hSelect (List.forall_mem_nil _)
  | string => exact hStep .string hSelect (List.forall_mem_nil _)
  | errorContext => exact hStep .errorContext hSelect (List.forall_mem_nil _)
  | own hName => exact hStep (.own hName) hSelect (List.forall_mem_nil _)
  | borrow hName => exact hStep (.borrow hName) hSelect (List.forall_mem_nil _)

end Decl.Scoped

/-! ## Texts -/

namespace Symbol

variable {name op elem x : Text}

theorem isUtf8_ofType (hName : name.isUtf8 = true) (hOp : op.isUtf8 = true) : (ofType name op).isUtf8 = true :=
  Text.isUtf8_append (Text.isUtf8_append (Text.isUtf8_append (by decide) hName) (by decide)) hOp

theorem isUtf8_ofFunction (hName : name.isUtf8 = true) : (ofFunction name).isUtf8 = true :=
  Text.isUtf8_append (by decide) hName

theorem isUtf8_vecAll (hElem : elem.isUtf8 = true) (hx : x ∈ vecAll elem) : x.isUtf8 = true := by
  have hOps : ∀ op ∈ vecOps, op.isUtf8 = true := by decide
  obtain ⟨op, hOp, rfl⟩ := List.mem_map.mp hx
  exact isUtf8_ofType (Text.isUtf8_append (by decide) hElem) (hOps op hOp)

end Symbol

theorem Primitive.isUtf8_label (p : Primitive) : p.label.isUtf8 = true := by
  cases p <;> decide

theorem Primitive.isUtf8_optionStruct (p : Primitive) : (Symbol.optionStruct p.label).isUtf8 = true := by
  cases p <;> decide

namespace Decl.Scoped

variable {names : List Text} {t : Decl} {s : Selection}

theorem isUtf8_label (hNames : ∀ n ∈ names, n.isUtf8 = true) (h : t.Scoped names) : t.label.isUtf8 = true := by
  induction h with
  | prim p => exact p.isUtf8_label
  | string => decide
  | own hName => exact hNames _ hName
  | borrow hName => exact hNames _ hName
  | list _ ih => exact Text.isUtf8_append (by decide) ih
  | _ => exact (by decide : Text.isUtf8 "unknown" = true)

theorem storable_layout (h : t.Scoped names) : t.layout.Storable := by
  have hPlain : ∀ {l : Layout}, l.fields = none → l.Storable := by
    intro l hNone fields hSome
    rw [hNone] at hSome
    cases hSome
  have hFields : ∀ {l : Layout} {a b : Text} {m n : UInt32}, l.fields = some [(a, m), (b, n)] → Precedes a b →
      a.isUtf8 = true → b.isUtf8 = true → l.Storable := by
    intro l a b m n hTwo hOrder ha hb fields hSome
    rw [hTwo] at hSome
    cases hSome
    exact ⟨by simpa using hOrder, by simp [ha, hb]⟩
  cases h with
  | @option elem _ =>
    change (if elem.isReference then Layout.address else .optional elem.layout.size elem.layout.align).Storable
    split
    · exact hPlain rfl
    · exact hFields rfl (by decide) (by decide) (by decide)
  | @result ok err _ _ =>
    change (if ok.isReference && err.isReference then Layout.pointerResult
      else .result [ok.layout, err.layout]).Storable
    split
    · exact hFields rfl (by decide) (by decide) (by decide)
    · exact hFields rfl (by decide) (by decide) (by decide)
  | _ => exact hPlain rfl

theorem exists_primitive (h : t.Scoped names) (hSelect : t.select = .ok s) (hCategory : s.category = .primitive) :
    ∃ p : Primitive, s.decl = p.label := by
  have hLeaf := (Decl.leaf_of_isElement hSelect (by rw [hCategory]; rfl)).1
  cases h with
  | prim p =>
    cases hSelect
    exact ⟨p, rfl⟩
  | list => cases hLeaf
  | option => cases hLeaf
  | tuple => cases hLeaf
  | result => cases hLeaf
  | errorContext => cases hSelect
  | absent =>
    cases hSelect
    cases hCategory
  | string =>
    cases hSelect
    cases hCategory
  | own =>
    cases hSelect
    cases hCategory
  | borrow =>
    cases hSelect
    cases hCategory

theorem isUtf8_texts (hNames : ∀ n ∈ names, n.isUtf8 = true) (h : t.Scoped names) (hSelect : t.select = .ok s)
    (hParts : ∀ c ∈ s.children, ∀ x ∈ c.texts, x.isUtf8 = true) : ∀ x ∈ s.texts, x.isUtf8 = true := by
  have hLabel := isUtf8_label hNames h
  have hAll : ∀ {s : Selection}, s.decl.isUtf8 = true → s.elem.isUtf8 = true → s.aggregate.isUtf8 = true →
      (∀ x ∈ s.symbols, x.isUtf8 = true) → ∀ x ∈ s.texts, x.isUtf8 = true :=
    fun hDecl hElem hAggregate hSymbols => List.forall_mem_cons.mpr ⟨hDecl, List.forall_mem_cons.mpr
      ⟨hElem, List.forall_mem_cons.mpr ⟨hAggregate, hSymbols⟩⟩⟩
  have hDecls : ∀ c ∈ s.children, c.decl.isUtf8 = true := fun c hc => hParts c hc _ List.mem_cons_self
  have hSymbols : ∀ c ∈ s.children, ∀ x ∈ c.symbols, x.isUtf8 = true := by
    intro c hc x hx
    exact hParts c hc x (by simp [Selection.texts, hx])
  cases h with
  | absent =>
    cases hSelect
    decide
  | prim p =>
    cases hSelect
    exact hAll hLabel rfl rfl (List.forall_mem_nil _)
  | string =>
    cases hSelect
    decide
  | errorContext => cases hSelect
  | own =>
    cases hSelect
    exact hAll hLabel rfl rfl (List.forall_mem_singleton.mpr (Symbol.isUtf8_ofType hLabel (by decide)))
  | borrow =>
    cases hSelect
    exact hAll hLabel rfl rfl (List.forall_mem_singleton.mpr (Symbol.isUtf8_ofType hLabel (by decide)))
  | list =>
    obtain ⟨e, -, hVec⟩ := bind_eq_ok.mp hSelect
    unfold Selection.ofVec at hVec
    split at hVec <;> cases hVec
    have hDecl := hDecls e List.mem_cons_self
    exact hAll hLabel hDecl rfl fun x hx => Symbol.isUtf8_vecAll hDecl hx
  | option hElem =>
    obtain ⟨e, hSelectElem, hOption⟩ := bind_eq_ok.mp hSelect
    unfold Selection.ofOption at hOption
    simp only at hOption
    split at hOption
    · rename_i hCategory
      cases hOption
      obtain ⟨p, hp⟩ := exists_primitive hElem hSelectElem hCategory
      have hDecl := hDecls e List.mem_cons_self
      exact hAll (Text.isUtf8_append (Text.isUtf8_append (by decide) hDecl) (by decide)) hDecl
        (hp ▸ p.isUtf8_optionStruct) (hSymbols e List.mem_cons_self)
    · split at hOption <;> cases hOption
      have hDecl := hDecls e List.mem_cons_self
      exact hAll (Text.isUtf8_append (Text.isUtf8_append (by decide) hDecl) (by decide)) hDecl rfl
        (hSymbols e List.mem_cons_self)
  | tuple =>
    obtain ⟨parts, -, hTuple⟩ := bind_eq_ok.mp hSelect
    cases hTuple
    have hJoin : (Text.join ", " (parts.map Selection.decl)).isUtf8 = true := by
      refine Text.isUtf8_join (by decide) fun x hx => ?_
      obtain ⟨c, hc, rfl⟩ := List.mem_map.mp hx
      exact hDecls c hc
    refine hAll (Text.isUtf8_append (Text.isUtf8_append (by decide) hJoin) (by decide)) rfl rfl fun x hx => ?_
    obtain ⟨c, hc, hx⟩ := List.mem_flatMap.mp (Text.mem_sortUnique.mp hx)
    exact hSymbols c hc x hx
  | result =>
    obtain ⟨a, -, hResult⟩ := bind_eq_ok.mp hSelect
    obtain ⟨b, -, hResult⟩ := bind_eq_ok.mp hResult
    cases hResult
    have hArgument : ∀ c ∈ [a, b], c.argument.isUtf8 = true := by
      intro c hc
      unfold Selection.argument
      split
      · decide
      · exact hDecls c hc
    have hAggregate : ∀ b : Bool, (if b then Symbol.pointerResult else []).isUtf8 = true := by decide
    refine hAll ?_ rfl (hAggregate _) fun x hx => ?_
    · refine Text.isUtf8_append (Text.isUtf8_append (Text.isUtf8_append (Text.isUtf8_append (by decide) ?_)
        (by decide)) ?_) (by decide)
      · exact hArgument a (by simp)
      · exact hArgument b (by simp)
    · rcases List.mem_append.mp (Text.mem_sortUnique.mp hx) with hx | hx
      · exact hSymbols a (by simp [Selection.ofResult]) x hx
      · exact hSymbols b (by simp [Selection.ofResult]) x hx

theorem shape_of_select (h : t.Scoped names) (hSelect : t.select = .ok s) :
    s.flat = t.width ∧ .ofCode s.category.code = s.category ∧ s.layout.Storable := by
  have hLayout := h.storable_layout
  cases h with
  | absent =>
    cases hSelect
    exact ⟨rfl, rfl, fun _ => by rintro ⟨⟩⟩
  | errorContext => cases hSelect
  | list =>
    obtain ⟨e, -, hVec⟩ := bind_eq_ok.mp hSelect
    unfold Selection.ofVec at hVec
    split at hVec <;> cases hVec
    exact ⟨rfl, rfl, hLayout⟩
  | option =>
    obtain ⟨e, -, hOption⟩ := bind_eq_ok.mp hSelect
    unfold Selection.ofOption at hOption
    simp only at hOption
    split at hOption
    · cases hOption
      exact ⟨rfl, rfl, hLayout⟩
    · split at hOption <;> cases hOption
      exact ⟨rfl, rfl, hLayout⟩
  | tuple =>
    obtain ⟨parts, -, hTuple⟩ := bind_eq_ok.mp hSelect
    cases hTuple
    exact ⟨rfl, rfl, hLayout⟩
  | result =>
    obtain ⟨a, -, hResult⟩ := bind_eq_ok.mp hSelect
    obtain ⟨b, -, hResult⟩ := bind_eq_ok.mp hResult
    cases hResult
    exact ⟨rfl, rfl, hLayout⟩
  | _ =>
    cases hSelect
    exact ⟨rfl, rfl, hLayout⟩

theorem storable {t : Decl} {s : Selection} (hNames : ∀ n ∈ names, n.isUtf8 = true) (h : t.Scoped names)
    (hSelect : t.select = .ok s) (hLength : s.toItem.encode.length < 2 ^ 63) : s.Storable := by
  have hChildren : ∀ c ∈ s.children, c.Storable := by
    intro c hc
    obtain ⟨t', ht', hPart⟩ := (Decl.encoded_arguments hSelect).exists_type hc
    exact storable hNames (h.argument ht') hPart (Nat.lt_trans (Selection.length_child hc) hLength)
  have hTexts := isUtf8_texts hNames h hSelect fun c hc => by
    obtain ⟨hTexts, -⟩ := hChildren c hc
    exact hTexts
  have hWidth := h.width_le hSelect
  obtain ⟨hFlat, hCategory, hLayout⟩ := h.shape_of_select hSelect
  exact .intro hTexts hLayout (by omega) hCategory hChildren
termination_by sizeOf s
decreasing_by exact Selection.sizeOf_child hc

end Decl.Scoped

/-! ## Signatures -/

namespace Signature

variable {names : List Text} {t : Text} {s : Signature}

theorem isUtf8_name (h : parse names t = .ok s) : s.name.isUtf8 = true := by
  obtain ⟨u, rest, hSplit⟩ := splitName?_of_parse h
  refine Text.isUtf8_of_ascii fun b hb => ?_
  have hByte := isNameByte_of_splitName? hSplit b hb
  simp only [TypeExpr.isNameByte, TypeExpr.isLetter, Bool.or_eq_true, Bool.and_eq_true, decide_eq_true_eq,
    UInt8.le_iff_toNat_le, ← UInt8.toNat_inj, UInt8.reduceToNat] at hByte
  omega

theorem isUtf8_splitParams : ∀ part ∈ splitParams t, part.isUtf8 = true := by
  intro part hPart
  obtain ⟨piece, -, rfl⟩ := List.mem_map.mp (List.mem_filter.mp hPart).1
  exact Text.isUtf8_trim (Text.isUtf8_ofChars piece)

theorem isUtf8_readParams {function : Text} {seen parts : List Text} {params : List Param}
    (hParts : ∀ part ∈ parts, part.isUtf8 = true) (h : readParams names function seen parts = .ok params) :
    ∀ p ∈ params, p.name.isUtf8 = true := by
  induction parts generalizing seen params with
  | nil =>
    cases h
    exact List.forall_mem_nil _
  | cons part parts ih =>
    obtain ⟨hPart, hRest⟩ := List.forall_mem_cons.mp hParts
    obtain ⟨p, rest, rfl, hName, -, -, hReadRest⟩ := readParams_cons_eq_ok h
    refine List.forall_mem_cons.mpr ⟨?_, ih hRest hReadRest⟩
    rw [hName]
    exact Text.isUtf8_trim (Text.isUtf8_takeWhile (by decide) hPart)

theorem isUtf8_params (h : parse names t = .ok s) : ∀ p ∈ s.params, p.name.isUtf8 = true := by
  obtain ⟨shape, -, -, hParams⟩ := exists_shape h
  exact isUtf8_readParams isUtf8_splitParams hParams

theorem names_params {function : Text} {params : List Param} {plans : List ParamPlan}
    (h : params.mapM (Param.plan function) = .ok plans) : plans.map (·.name) = params.map (·.name) := by
  induction params generalizing plans with
  | nil =>
    cases h
    rfl
  | cons p params ih =>
    rw [List.mapM_cons] at h
    obtain ⟨plan, hPlan, h⟩ := bind_eq_ok.mp h
    obtain ⟨rest, hRest, h⟩ := bind_eq_ok.mp h
    cases h
    obtain ⟨s, -, h⟩ := bind_eq_ok.mp hPlan
    cases h
    exact congrArg (p.name :: ·) (ih hRest)

theorem texts_plan {d : FunctionDecl} {f : FunctionPlan} (h : parse names d.signature = .ok s)
    (hPlan : s.plan d = .ok f) (hSignature : d.signature.isUtf8 = true) :
    (∀ x ∈ [f.name, f.symbol, f.signature, f.trampoline], x.isUtf8 = true) ∧
      ∀ p ∈ f.paramList, p.name.isUtf8 = true := by
  have hName := isUtf8_name h
  have hSymbol := Symbol.isUtf8_ofFunction hName
  obtain ⟨params, hParams, hPlan⟩ := bind_eq_ok.mp hPlan
  obtain ⟨result, -, hPlan⟩ := bind_eq_ok.mp hPlan
  cases hPlan
  constructor
  · have hTrampoline : (if d.async then Symbol.trampoline s.name else []).isUtf8 = true := by
      split
      · exact Text.isUtf8_append hSymbol (by decide)
      · rfl
    simp only [List.forall_mem_cons, List.not_mem_nil, false_imp_iff, implies_true, and_true]
    exact ⟨hName, hSymbol, hSignature, hTrampoline⟩
  · intro p hp
    rw [FunctionPlan.paramList, getD_unlessEmpty] at hp
    have hMem : p.name ∈ s.params.map (·.name) := names_params hParams ▸ List.mem_map_of_mem hp
    obtain ⟨q, hq, hSame⟩ := List.mem_map.mp hMem
    exact hSame ▸ isUtf8_params h q hq

end Signature

/-! ## Plans -/

theorem Selection.Storable.part {s c : Selection} (h : s.Storable) (hPart : s.Part c) : c.Storable := by
  induction hPart with
  | whole => exact h
  | child _ hChild ih =>
    obtain ⟨-, -, -, -, hChildren⟩ := ih
    exact hChildren _ hChild

theorem FunctionPlan.Storable.selection {f : FunctionPlan} (h : f.Storable) {s : Selection} (hs : s ∈ f.selections) :
    s.Storable := by
  rcases List.mem_append.mp hs with hParam | hResult
  · obtain ⟨p, hp, rfl⟩ := List.mem_map.mp hParam
    exact (h.params p hp).selection
  · exact List.mem_singleton.mp hResult ▸ h.result

/-- The texts of a manifest that come up in its plan are UTF-8. -/
structure Manifest.IsUtf8 (m : Manifest) : Prop where
  name : m.name.isUtf8 = true
  opaques : ∀ d ∈ m.opaques, d.name.isUtf8 = true ∧ ∀ k ∈ d.key, k.isUtf8 = true
  functions : ∀ d ∈ m.functions, d.signature.isUtf8 = true

namespace Plan

variable {m m' : Manifest} {p p' : Plan}

theorem isUtf8_scope (hm : m.IsUtf8) : ∀ n ∈ scope m, n.isUtf8 = true := by
  intro n hn
  obtain ⟨d, hd, rfl⟩ := List.mem_map.mp hn
  exact (hm.opaques d hd).1

variable {f : FunctionPlan}

theorem storable_selection (hm : m.IsUtf8) (h : build m = .ok p) (hLength : p.encode.length < 2 ^ 63)
    (hf : f ∈ p.functionList) {s : Selection} (hs : s ∈ f.selections) : s.Storable := by
  obtain ⟨t, hScoped, hSelect⟩ := exists_type h hf hs
  exact hScoped.storable (isUtf8_scope hm) hSelect (Nat.lt_trans (length_selection hf hs) hLength)

theorem exists_declared (h : build m = .ok p) (hf : f ∈ p.functionList) :
    ∃ d ∈ m.functions, FunctionDecl.Plans (scope m) d f := by
  obtain ⟨fs, hFunctions, h⟩ := bind_eq_ok.mp h
  cases h
  rw [show (assemble m fs).functionList = fs from getD_unlessEmpty fs] at hf
  exact exists_of_forall₂ (functionPlans_eq_ok.mp hFunctions).1 hf

theorem storable_function (hm : m.IsUtf8) (h : build m = .ok p) (hLength : p.encode.length < 2 ^ 63)
    (hf : f ∈ p.functionList) : f.Storable := by
  obtain ⟨d, hd, signature, hParse, hPlan⟩ := exists_declared h hf
  obtain ⟨hTexts, hNames⟩ := Signature.texts_plan hParse hPlan (hm.functions d hd)
  have hSelection : ∀ s ∈ f.selections, s.Storable := fun s => storable_selection hm h hLength hf
  refine ⟨hSelection _ (List.mem_append_right _ List.mem_cons_self), hTexts, fun q hq => ⟨hNames q hq, ?_⟩⟩
  exact hSelection _ (List.mem_append_left _ (List.mem_map_of_mem hq))

theorem isUtf8_opaqueSymbols {d : OpaqueDecl} (hName : d.name.isUtf8 = true) : ∀ x ∈ d.symbols, x.isUtf8 = true := by
  have hFree := Symbol.isUtf8_ofType hName (by decide : Symbol.free.isUtf8 = true)
  have hEqual := Symbol.isUtf8_ofType hName (by decide : Symbol.partialEq.isUtf8 = true)
  have hHash := Symbol.isUtf8_ofType hName (by decide : Symbol.hash.isUtf8 = true)
  intro x hx
  rcases List.mem_append.mp hx with hx | hx
  · rcases List.mem_append.mp hx with hx | hx
    · exact List.mem_singleton.mp hx ▸ hFree
    · split at hx
      · exact List.mem_singleton.mp hx ▸ hEqual
      · cases hx
  · split at hx
    · exact List.mem_singleton.mp hx ▸ hHash
    · cases hx

theorem storable_opaque (hm : m.IsUtf8) (h : build m = .ok p) {o : OpaquePlan} (ho : o ∈ p.opaqueList) :
    o.Storable := by
  rw [opaqueList_eq h] at ho
  obtain ⟨d, hd, rfl⟩ := List.mem_map.mp ho
  obtain ⟨hName, hKey⟩ := hm.opaques d hd
  exact ⟨hName, hKey, isUtf8_opaqueSymbols hName⟩

theorem isUtf8_gathered (hm : m.IsUtf8) (h : build m = .ok p) (hFunctions : ∀ f ∈ p.functionList, f.Storable) :
    ∀ x ∈ p.vectors ++ p.options ++ p.symbolList, x.isUtf8 = true := by
  have hGathers := gathers h
  have hTexts : ∀ f ∈ p.functionList, ∀ s ∈ f.selections, ∀ c, s.Part c → ∀ x ∈ c.texts, x.isUtf8 = true := by
    intro f hf s hs c hPart
    obtain ⟨hTexts, -⟩ := ((hFunctions f hf).selection hs).part hPart
    exact hTexts
  have hVectors : ∀ x ∈ p.vectors, x.isUtf8 = true := by
    intro x hx
    rcases (hGathers.vectors x).mp hx with ⟨d, hd, -, rfl⟩ | ⟨f, hf, s, hs, c, hPart, -, rfl⟩
    · exact (hm.opaques d hd).1
    · exact hTexts f hf s hs c hPart _ (by simp [Selection.texts])
  have hOptions : ∀ x ∈ p.options, x.isUtf8 = true := by
    intro x hx
    obtain ⟨f, hf, s, hs, c, hPart, -, rfl⟩ := (hGathers.options x).mp hx
    exact hTexts f hf s hs c hPart _ (by simp [Selection.texts])
  have hSymbols : ∀ x ∈ p.symbolList, x.isUtf8 = true := by
    intro x hx
    rcases (hGathers.symbols x).mp hx with ⟨d, hd, hx⟩ | ⟨f, hf, rfl | ⟨s, hs, hx⟩⟩ | ⟨e, he, hx⟩
    · exact isUtf8_opaqueSymbols (hm.opaques d hd).1 x hx
    · exact (hFunctions f hf).texts _ (by simp)
    · exact hTexts f hf s hs s .whole x (by simp [Selection.texts, hx])
    · exact Symbol.isUtf8_vecAll (hVectors e he) hx
  intro x hx
  rcases List.mem_append.mp hx with hx | hx
  · exact (List.mem_append.mp hx).elim (hVectors x) (hOptions x)
  · exact hSymbols x hx

theorem storable_build (hm : m.IsUtf8) (h : build m = .ok p) (hLength : p.encode.length < 2 ^ 63) : p.Storable := by
  have hFunctions : ∀ f ∈ p.functionList, f.Storable := fun f => storable_function hm h hLength
  have hName : p.name = m.name := congrArg Plan.name (exists_functions h).1
  exact ⟨hName ▸ hm.name, hFunctions, fun o => storable_opaque hm h, isUtf8_gathered hm h hFunctions⟩

theorem decode_encode_storable (h : p.Storable) (hLength : p.encode.length < 2 ^ 64) :
    decode p.encode = if p.NestedWithin 13 ∧ p.toItem.breadth ≤ 131072 then .ok p
      else .error (.parseFailed "plan" (.plain "bytes do not describe a plan")) := by
  have hFits : p.toItem.Fits .standard 0 ↔ p.NestedWithin 13 ∧ p.toItem.breadth ≤ 131072 := by
    rw [Item.Fits, Nat.zero_add]
    exact and_congr_left' (p.height_toItem_le 13)
  rw [decode, h.decodeWithin_encode hLength]
  by_cases hWithin : p.NestedWithin 13 ∧ p.toItem.breadth ≤ 131072
  · rw [if_pos (hFits.mpr hWithin), if_pos hWithin]
  · rw [if_neg fun h => hWithin (hFits.mp h), if_neg hWithin]

/-- The plan of a manifest is read back from its snapshot exactly if encodings are nested at most 13 levels deep in its
parameters and 14 in its results, and no list in it is longer than reading allows. No other plan has its snapshot. -/
theorem decode_encode_build (hm : m.IsUtf8) (h : build m = .ok p) (hLength : p.encode.length < 2 ^ 63) :
    decode p.encode = (if p.NestedWithin 13 ∧ p.toItem.breadth ≤ 131072 then .ok p
      else .error (.parseFailed "plan" (.plain "bytes do not describe a plan"))) ∧
    ∀ {m' : Manifest} {p' : Plan}, m'.IsUtf8 → build m' = .ok p' → p'.encode = p.encode → p' = p := by
  have hStorable := storable_build hm h hLength
  refine ⟨decode_encode_storable hStorable (by omega), fun hm' h' hEncode => ?_⟩
  exact hStorable.encode_inj (storable_build hm' h' (hEncode ▸ hLength)) (by omega) hEncode

def layered : Manifest :=
  { name := "b"
    functions := [{ signature := "f: func(x: tuple<option<u8>, f64>) -> result<tuple<u16, s32>>", async := true }] }

theorem decode_encode_build_layered :
    layered.IsUtf8 ∧ ∃ p, build layered = .ok p ∧ p.encode.length < 2 ^ 63 ∧
      p.functionList.map (·.selections.map Selection.levels) = [[3, 3]] ∧ decode p.encode = .ok p := by
  have hText : layered.IsUtf8 := ⟨by decide, by decide, by decide⟩
  obtain ⟨p, hBuild, hPlan⟩ := exists_build (m := layered) (f := fun p =>
    (p.functionList.map (·.selections.map Selection.levels), decide (p.toItem.span < 2 ^ 63),
      decide (p.NestedWithin 13 ∧ p.toItem.breadth ≤ 131072))) (a := ([[3, 3]], true, true)) (by decide +kernel)
  obtain ⟨hLevels, hRest⟩ := Prod.mk.inj hPlan
  obtain ⟨hSpan, hFits⟩ := Prod.mk.inj hRest
  have hLength : p.encode.length < 2 ^ 63 := p.toItem.length_encode ▸ of_decide_eq_true hSpan
  have hDecode := (decode_encode_build hText hBuild hLength).1
  rw [if_pos (of_decide_eq_true hFits)] at hDecode
  exact ⟨hText, p, hBuild, hLength, hLevels, hDecode⟩

def nestedTuples : Nat → Text
  | 0 => "u8"
  | n + 1 => "tuple<" ++ nestedTuples n ++ ">"

def deep : Manifest := { name := "b", functions := [{ signature := "f: func(x: " ++ nestedTuples 16 ++ ")" }] }

theorem decode_encode_build_not_deep :
    deep.IsUtf8 ∧ ∃ p, build deep = .ok p ∧ p.encode.length < 2 ^ 63 ∧
      p.functionList.map (·.selections.map Selection.levels) = [[17, 1]] ∧
      decode p.encode = .error (.parseFailed "plan" (.plain "bytes do not describe a plan")) := by
  have hText : deep.IsUtf8 := ⟨by decide, by decide, by decide⟩
  obtain ⟨p, hBuild, hPlan⟩ := exists_build (m := deep) (f := fun p =>
    (p.functionList.map (·.selections.map Selection.levels), decide (p.toItem.span < 2 ^ 63),
      decide (p.NestedWithin 13))) (a := ([[17, 1]], true, false)) (by decide +kernel)
  obtain ⟨hLevels, hRest⟩ := Prod.mk.inj hPlan
  obtain ⟨hSpan, hDeep⟩ := Prod.mk.inj hRest
  have hLength : p.encode.length < 2 ^ 63 := p.toItem.length_encode ▸ of_decide_eq_true hSpan
  have hDecode := decode_encode_storable (storable_build hText hBuild hLength) (by omega)
  rw [if_neg fun hFits => of_decide_eq_false hDeep hFits.1] at hDecode
  exact ⟨hText, p, hBuild, hLength, hLevels, hDecode⟩

end Plan

end Marshal
