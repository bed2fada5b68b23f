import Marshal.Proofs.Snapshot.Storable

/-! # How long and how deep snapshots are

The bytes of a record are more than those of its fields together, and an encoding is two levels deeper than its parts:
a record with the list of the parts in it. So the depth of a snapshot comes down to how deep the encodings in the plan
are nested.
-/
set_option autoImplicit false
namespace Marshal

open Cbor

/-! ## Lengths -/

namespace Cbor

mutual
/-- The number of canonical bytes, to which the order of pairs does not matter. -/
def Item.span : Item → Nat
  | .array items => (head 4 items.length).length + spanAll items
  | .map pairs => (head 5 pairs.length).length + spanPairs pairs
  | .tag n content => (head 6 n).length + content.span
  | i => i.encode.length

def spanAll : List Item → Nat
  | [] => 0
  | i :: rest => i.span + spanAll rest

def spanPairs : List (Item × Item) → Nat
  | [] => 0
  | p :: rest => spanPair p + spanPairs rest

def spanPair : Item × Item → Nat
  | (k, v) => k.span + v.span
end

variable {fields : List (Text × Option Item)}

theorem length_map (pairs : List (Item × Item)) :
    (Item.map pairs).encode.length = (head 5 pairs.length).length + (encodeAll (unpair pairs)).length := by
  have hSort : (encodeAll (unpair (sortPairs pairs))).length = (encodeAll (unpair pairs)).length := by
    rw [encodeAll_unpair, encodeAll_unpair]
    exact ((List.mergeSort_perm pairs _).flatMap_right _).length_eq
  rw [Item.encode, joinPairs_encodePairs, List.length_append, hSort]

mutual
theorem Item.length_encode : ∀ i : Item, i.encode.length = i.span
  | .array items => by rw [Item.encode, Item.span, List.length_append, length_encodeAll items]
  | .map pairs => by rw [length_map, Item.span, length_encodePairs pairs]
  | .tag n content => by rw [Item.encode, Item.span, List.length_append, Item.length_encode content]
  | .uint _ => rfl
  | .nint _ => rfl
  | .bytes _ => rfl
  | .text _ => rfl
  | .simple _ => rfl
  | .float => rfl

theorem length_encodeAll : ∀ items : List Item, (encodeAll items).length = spanAll items
  | [] => rfl
  | i :: rest => by rw [encodeAll, spanAll, List.length_append, Item.length_encode i, length_encodeAll rest]

theorem length_encodePairs : ∀ pairs : List (Item × Item), (encodeAll (unpair pairs)).length = spanPairs pairs
  | [] => rfl
  | p :: rest => by
    have hPair := length_encodePair p
    have hRest := length_encodePairs rest
    change (p.1.encode ++ (p.2.encode ++ encodeAll (unpair rest))).length = spanPair p + spanPairs rest
    rw [List.length_append, List.length_append]
    omega

theorem length_encodePair : ∀ p : Item × Item, p.1.encode.length + p.2.encode.length = spanPair p
  | (k, v) => by rw [spanPair, Item.length_encode k, Item.length_encode v]
end

theorem length_lt_recordItem (name : Text) {i : Item} (h : (name, some i) ∈ fields) :
    i.encode.length + 2 ≤ (recordItem fields).encode.length := by
  have hPair : (Item.ofText name, i) ∈ present fields := List.mem_filterMap.mpr ⟨_, h, rfl⟩
  obtain ⟨before, after, hSplit⟩ := List.append_of_mem hPair
  have hKey := length_encode_pos (.ofText name)
  have hHead := length_head_pos 5 (present fields).length
  change _ ≤ (Item.map (present fields)).encode.length
  rw [length_map, encodeAll_unpair]
  nth_rewrite 2 [hSplit]
  rw [List.flatMap_append, List.flatMap_cons]
  simp only [List.length_append]
  omega

theorem length_lt_array (items : List Item) : (encodeAll items).length < (Item.array items).encode.length := by
  have hHead := length_head_pos 4 items.length
  rw [Item.encode, List.length_append]
  omega

theorem length_lt_records {α : Type} {toItem : α → Item} {o : Option (List α)} {x : α} (name : Text)
    (h : (name, some (.orNull (o.map fun xs => .array (xs.map toItem)))) ∈ fields) (hx : x ∈ o.getD []) :
    (toItem x).encode.length < (recordItem fields).encode.length := by
  cases o with
  | none => cases hx
  | some xs =>
    have hItem := length_encode_le (List.mem_map_of_mem hx : toItem x ∈ xs.map toItem)
    have hArray := length_lt_array (xs.map toItem)
    have hRecord := length_lt_recordItem name h
    change (Item.array (xs.map toItem)).encode.length + 2 ≤ _ at hRecord
    omega

end Cbor

namespace Selection

variable {s c : Selection}

theorem length_parts (s : Selection) : (encodeAll (s.children.map toItem)).length + 3 ≤ s.toItem.encode.length := by
  cases hChildren : s.children with
  | nil =>
    have hDecl : (Item.ofText s.decl).encode.length + 2 ≤ s.toItem.encode.length := by
      rw [toItem_eq]
      exact length_lt_recordItem "decl" List.mem_cons_self
    have hPos := length_encode_pos (.ofText s.decl)
    change 0 + 3 ≤ _
    omega
  | cons c children =>
    have hArray := length_lt_array (s.children.map toItem)
    have hc : c ∈ s.children := hChildren ▸ List.mem_cons_self
    have hRecord : (Item.array (s.children.map toItem)).encode.length + 2 ≤ s.toItem.encode.length := by
      rw [toItem_eq]
      exact length_lt_recordItem "children" (by rw [childrenItem_eq hc]; simp)
    rw [← hChildren]
    omega

theorem length_child (hc : c ∈ s.children) : c.toItem.encode.length < s.toItem.encode.length := by
  have hPart := length_encode_le (List.mem_map_of_mem hc : c.toItem ∈ s.children.map toItem)
  have hParts := s.length_parts
  omega

end Selection

namespace Plan

variable {p : Plan} {f : FunctionPlan}

theorem length_function (hf : f ∈ p.functionList) : f.toItem.encode.length < p.encode.length :=
  length_lt_records "functions" (by simp) hf

theorem length_selection (hf : f ∈ p.functionList) {s : Selection} (hs : s ∈ f.selections) :
    s.toItem.encode.length < p.encode.length := by
  refine Nat.lt_trans ?_ (length_function hf)
  rcases List.mem_append.mp hs with hParam | hResult
  · obtain ⟨param, hp, rfl⟩ := List.mem_map.mp hParam
    have hRecord : param.toItem.encode.length < f.toItem.encode.length := length_lt_records "params" (by simp) hp
    have hSelection : param.selection.toItem.encode.length + 2 ≤ param.toItem.encode.length :=
      length_lt_recordItem "selection" (by simp)
    omega
  · rw [List.mem_singleton.mp hResult]
    have hRecord : f.result.toItem.encode.length + 2 ≤ f.toItem.encode.length :=
      length_lt_recordItem "result" (by simp)
    omega

end Plan

/-! ## Depths -/

namespace Cbor

variable {fields : List (Text × Option Item)} {n : Nat}

theorem height_recordItem_le :
    (recordItem fields).height ≤ n + 1 ↔ ∀ f ∈ fields, ∀ i ∈ f.2, i.height ≤ n := by
  have hPairs : (recordItem fields).height ≤ n + 1 ↔ ∀ i ∈ unpair (present fields), i.height ≤ n :=
    Nat.succ_le_succ_iff.trans measurePairs_le_iff
  rw [hPairs]
  constructor
  · intro h f hf i hi
    refine h i (List.mem_flatMap.mpr ⟨(.ofText f.1, i), List.mem_filterMap.mpr ⟨f, hf, ?_⟩, by simp⟩)
    rw [Option.mem_def.mp hi, Option.map_some]
  · intro h i hi
    obtain ⟨pair, hPair, hi⟩ := List.mem_flatMap.mp hi
    obtain ⟨f, hf, hField⟩ := List.mem_filterMap.mp hPair
    obtain ⟨value, hValue, rfl⟩ := Option.map_eq_some_iff.mp hField
    rcases List.mem_pair.mp hi with rfl | rfl
    · exact Nat.zero_le n
    · exact h f hf _ hValue

theorem height_array_le {items : List Item} : (Item.array items).height ≤ n + 1 ↔ ∀ i ∈ items, i.height ≤ n :=
  Nat.succ_le_succ_iff.trans measureAll_le_iff

theorem height_records_le {α : Type} {toItem : α → Item} {o : Option (List α)} :
    (Item.orNull (o.map fun xs => .array (xs.map toItem))).height ≤ n + 1 ↔
      ∀ x ∈ o.getD [], (toItem x).height ≤ n := by
  cases o with
  | none => exact ⟨fun _ => List.forall_mem_nil _, fun _ => Nat.zero_le _⟩
  | some xs => exact height_array_le.trans List.forall_mem_map

abbrev FieldWithin (n : Nat) (field : Option Item) : Prop := ∀ i ∈ field, i.height ≤ n

theorem fieldWithin_some {i : Item} : FieldWithin n (some i) ↔ i.height ≤ n := by
  simp [FieldWithin]

theorem fieldWithin_text (t : Text) : FieldWithin n (textUnlessEmpty t) := by
  cases t with
  | nil => rintro i ⟨⟩
  | cons b t => exact fieldWithin_some.mpr (Nat.zero_le n)

theorem height_texts_le (ts : List Text) : (Item.ofTexts ts).height ≤ n + 1 :=
  height_array_le.mpr (List.forall_mem_map.mpr fun _ _ => Nat.zero_le n)

theorem fieldWithin_texts (ts : List Text) : FieldWithin (n + 1) (textsUnlessEmpty ts) := by
  cases ts with
  | nil => rintro i ⟨⟩
  | cons t ts => exact fieldWithin_some.mpr (height_texts_le _)

theorem height_textLists_le (o : Option (List Text)) : (Item.orNull (o.map .ofTexts)).height ≤ n + 1 := by
  cases o with
  | none => exact Nat.zero_le _
  | some ts => exact height_texts_le ts

end Cbor

theorem Layout.height_toItem_le (l : Layout) : l.toItem.height ≤ 2 := by
  have hOffsets : (Item.orNull (l.fields.map fun fs => .map (offsetPairs fs))).height ≤ 1 := by
    cases l.fields with
    | none => exact Nat.zero_le 1
    | some fields =>
      refine Nat.succ_le_succ (measurePairs_le_iff.mpr fun i hi => ?_)
      obtain ⟨pair, hPair, hi⟩ := List.mem_flatMap.mp hi
      obtain ⟨f, -, rfl⟩ := List.mem_map.mp hPair
      rcases List.mem_pair.mp hi with rfl | rfl <;> exact Nat.le_refl 0
  refine height_recordItem_le.mpr ?_
  simp only [List.forall_mem_cons, List.not_mem_nil, false_imp_iff, implies_true, and_true]
  exact ⟨fieldWithin_some.mpr hOffsets, fieldWithin_some.mpr (Nat.zero_le 1), fieldWithin_some.mpr (Nat.zero_le 1)⟩

mutual
/-- How deep encodings are nested in an encoding, itself counted. -/
def Selection.levels : Selection → Nat
  | ⟨_, _, _, _, children, _, _, _, _⟩ => childLevels children + 1

def childLevels : List Selection → Nat
  | [] => 0
  | s :: rest => max s.levels (childLevels rest)
end

theorem childLevels_le {ss : List Selection} {n : Nat} : childLevels ss ≤ n ↔ ∀ s ∈ ss, s.levels ≤ n := by
  induction ss with
  | nil => simp [childLevels]
  | cons s ss ih => rw [childLevels, Nat.max_le, ih, List.forall_mem_cons]

namespace Selection

variable {s : Selection} {n : Nat}

theorem levels_le_succ : s.levels ≤ n + 1 ↔ ∀ c ∈ s.children, c.levels ≤ n := by
  cases s
  rw [levels, Nat.succ_le_succ_iff, childLevels_le]

theorem fieldWithin_children {children : List Selection} :
    FieldWithin (n + 1) (if children.isEmpty then none else some (.array (selectionItems children))) ↔
      ∀ c ∈ children, c.toItem.height ≤ n := by
  cases children with
  | nil => exact ⟨fun _ => List.forall_mem_nil _, fun _ => by rintro i ⟨⟩⟩
  | cons c children =>
    rw [childrenItem_eq List.mem_cons_self, fieldWithin_some, height_array_le, List.forall_mem_map]

theorem height_toItem_le (s : Selection) (n : Nat) : s.toItem.height ≤ 2 * n + 1 ↔ s.levels ≤ n := by
  induction n generalizing s with
  | zero =>
    have hLayout : 0 < s.layout.toItem.height := Nat.succ_pos _
    have hRecord : s.layout.toItem.height < s.toItem.height := by
      rw [toItem_eq]
      exact height_lt_recordItem "layout" (by simp)
    have hLevels : 0 < s.levels := by
      cases s
      exact Nat.succ_pos _
    omega
  | succ n ih =>
    have hParts : (∀ c ∈ s.children, c.toItem.height ≤ 2 * n + 1) ↔ ∀ c ∈ s.children, c.levels ≤ n :=
      forall₂_congr fun c _ => ih c
    have hFlat : (Item.ofInt s.flat).height = 0 := by
      cases s.flat <;> rfl
    have hBorrowed : FieldWithin (2 * n + 2) (if s.borrowed then some (.ofBool true) else none) := by
      cases s.borrowed with
      | false => rintro i ⟨⟩
      | true => exact fieldWithin_some.mpr (Nat.zero_le _)
    have hLayout := s.layout.height_toItem_le
    rw [levels_le_succ, ← hParts, ← fieldWithin_children, toItem_eq]
    change (recordItem _).height ≤ 2 * n + 2 + 1 ↔ _
    rw [height_recordItem_le]
    simp only [List.forall_mem_cons, List.not_mem_nil, false_imp_iff, implies_true, and_true]
    refine ⟨fun h => h.2.2.2.2.1, fun hChildren => ?_⟩
    exact ⟨fieldWithin_some.mpr (Nat.zero_le _), fieldWithin_text _, fieldWithin_text _, fieldWithin_texts _, hChildren,
      fieldWithin_some.mpr (by omega), fieldWithin_some.mpr (by omega), fieldWithin_some.mpr (Nat.zero_le _), hBorrowed⟩

end Selection

theorem OpaquePlan.height_toItem_le (o : OpaquePlan) : o.toItem.height ≤ 2 := by
  refine height_recordItem_le.mpr ?_
  simp only [List.forall_mem_cons, List.not_mem_nil, false_imp_iff, implies_true, and_true]
  exact ⟨fieldWithin_some.mpr (Nat.zero_le 1), fieldWithin_texts _, fieldWithin_some.mpr (height_textLists_le _),
    fieldWithin_some.mpr (Nat.zero_le 1), fieldWithin_some.mpr (Nat.zero_le 1), fieldWithin_some.mpr (Nat.zero_le 1)⟩

theorem ParamPlan.height_toItem_le (p : ParamPlan) (n : Nat) :
    p.toItem.height ≤ 2 * n + 2 ↔ p.selection.levels ≤ n := by
  rw [← Selection.height_toItem_le]
  refine height_recordItem_le.trans ?_
  simp only [List.forall_mem_cons, List.not_mem_nil, false_imp_iff, implies_true, and_true]
  exact ⟨fun h => fieldWithin_some.mp h.2, fun h => ⟨fieldWithin_some.mpr (Nat.zero_le _), fieldWithin_some.mpr h⟩⟩

theorem FunctionPlan.height_toItem_le (f : FunctionPlan) (n : Nat) :
    f.toItem.height ≤ 2 * n + 4 ↔ (∀ p ∈ f.paramList, p.selection.levels ≤ n) ∧ f.result.levels ≤ n + 1 := by
  have hParams : (Item.orNull (f.params.map fun ps => .array (ps.map ParamPlan.toItem))).height ≤ 2 * n + 3 ↔
      ∀ p ∈ f.paramList, p.selection.levels ≤ n :=
    height_records_le.trans (forall₂_congr fun p _ => p.height_toItem_le n)
  rw [← Selection.height_toItem_le, ← hParams]
  refine height_recordItem_le.trans ?_
  simp only [List.forall_mem_cons, List.not_mem_nil, false_imp_iff, implies_true, and_true]
  constructor
  · rintro ⟨hResult, -, -, -, -, hParams, -⟩
    exact ⟨fieldWithin_some.mp hParams, fieldWithin_some.mp hResult⟩
  · rintro ⟨hParams, hResult⟩
    exact ⟨fieldWithin_some.mpr hResult, fieldWithin_some.mpr (Nat.zero_le _), fieldWithin_some.mpr (Nat.zero_le _),
      fieldWithin_some.mpr (Nat.zero_le _), fieldWithin_text _, fieldWithin_some.mpr hParams,
      fieldWithin_some.mpr (Nat.zero_le _)⟩

namespace Plan

/-- Encodings are nested at most that deep in the parameters, and one level more in the results. -/
def NestedWithin (n : Nat) (p : Plan) : Prop :=
  ∀ f ∈ p.functionList, (∀ q ∈ f.paramList, q.selection.levels ≤ n) ∧ f.result.levels ≤ n + 1

instance (n : Nat) (p : Plan) : Decidable (p.NestedWithin n) :=
  inferInstanceAs (Decidable (∀ f ∈ p.functionList, _))

theorem height_toItem_le (p : Plan) (n : Nat) : p.toItem.height ≤ 2 * n + 6 ↔ p.NestedWithin n := by
  have hFunctions : (Item.orNull (p.functions.map fun fs => .array (fs.map FunctionPlan.toItem))).height ≤ 2 * n + 5 ↔
      p.NestedWithin n :=
    height_records_le.trans (forall₂_congr fun f _ => f.height_toItem_le n)
  have hOpaques : (Item.orNull (p.opaques.map fun os => .array (os.map OpaquePlan.toItem))).height ≤ 2 * n + 5 :=
    height_records_le.mpr fun o _ => Nat.le_trans o.height_toItem_le (by omega)
  rw [← hFunctions]
  refine height_recordItem_le.trans ?_
  simp only [List.forall_mem_cons, List.not_mem_nil, false_imp_iff, implies_true, and_true]
  constructor
  · rintro ⟨-, hFunctions, -⟩
    exact fieldWithin_some.mp hFunctions
  · intro hFunctions
    exact ⟨fieldWithin_some.mpr (Nat.zero_le _), fieldWithin_some.mpr hFunctions, fieldWithin_some.mpr hOpaques,
      fieldWithin_texts _, fieldWithin_texts _, fieldWithin_some.mpr (height_textLists_le _)⟩

end Plan

end Marshal
