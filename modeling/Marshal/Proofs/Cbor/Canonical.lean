import Mathlib.Algebra.Group.Nat.Defs
import Mathlib.Data.List.Basic
import Marshal.Cbor

/-! # Canonical bytes are read back

Reading the canonical bytes of an item, whatever follows them, gives the item back with the pairs of its maps in
canonical order, if the item is within the limits, and nothing otherwise.
-/
set_option autoImplicit false
namespace Marshal
namespace Cbor

/-! ## Heads -/

theorem length_bigEndian (width n : Nat) : (bigEndian width n).length = width := by
  induction width generalizing n with
  | zero => rfl
  | succ width ih => rw [bigEndian, List.length_append, ih, List.length_singleton]

theorem ofBigEndian_bigEndian {width n : Nat} (h : n < 256 ^ width) : ofBigEndian (bigEndian width n) = n := by
  induction width generalizing n with
  | zero =>
    rw [Nat.pow_zero] at h
    rw [Nat.lt_one_iff.mp h]
    rfl
  | succ width ih =>
    rw [Nat.pow_succ] at h
    have hHigh : ofBigEndian (bigEndian width (n / 256)) = n / 256 := ih (by omega)
    rw [ofBigEndian] at hHigh
    have hLow : n.toUInt8.toNat = n % 256 := by simp
    rw [ofBigEndian, bigEndian, List.foldl_append, hHigh, List.foldl_cons, List.foldl_nil, hLow]
    omega

theorem takeBytes_append (s t : Text) : takeBytes s.length (s ++ t) = some (s, t) := by
  rw [takeBytes, List.take_left, List.drop_left, if_neg (Nat.lt_irrefl _)]

theorem lead_parts {major info : UInt8} (hMajor : major.toNat < 8) (hInfo : info.toNat < 32) :
    (major * 32 + info) / 32 = major ∧ (major * 32 + info) % 32 = info := by
  constructor
  · rw [← UInt8.toNat_inj, UInt8.toNat_div, UInt8.toNat_add, UInt8.toNat_mul]
    simp only [UInt8.reduceToNat]
    omega
  · rw [← UInt8.toNat_inj, UInt8.toNat_mod, UInt8.toNat_add, UInt8.toNat_mul]
    simp only [UInt8.reduceToNat]
    omega

theorem argument_bigEndian {info : UInt8} {width n : Nat} (h : n < 256 ^ width) (t : Text)
    (hWidth : info = 24 ∧ width = 1 ∨ info = 25 ∧ width = 2 ∨ info = 26 ∧ width = 4 ∨ info = 27 ∧ width = 8) :
    argument info (bigEndian width n ++ t) = some (some n, t) := by
  have hTake := takeBytes_append (bigEndian width n) t
  rw [length_bigEndian] at hTake
  rcases hWidth with ⟨rfl, rfl⟩ | ⟨rfl, rfl⟩ | ⟨rfl, rfl⟩ | ⟨rfl, rfl⟩ <;>
    simp [argument, hTake, ofBigEndian_bigEndian h]

variable {i : Item} {n : Nat}

theorem exists_head (major : UInt8) (hMajor : major.toNat < 8) (h : n < 2 ^ 64) :
    ∃ b rest, head major n = b :: rest ∧ b / 32 = major ∧ (∀ t, argument (b % 32) (rest ++ t) = some (some n, t)) ∧
      (n < 24 → b % 32 < 24) := by
  unfold head
  split
  · rename_i hSmall
    have hInfo : n.toUInt8.toNat = n := by
      simp only [Nat.toUInt8_eq, UInt8.toNat_ofNat']
      omega
    obtain ⟨hDiv, hMod⟩ := lead_parts hMajor (show n.toUInt8.toNat < 32 by omega)
    have hLess : n.toUInt8 < 24 := UInt8.lt_iff_toNat_lt.mpr (by simp only [UInt8.reduceToNat]; omega)
    refine ⟨major * 32 + n.toUInt8, [], rfl, hDiv, fun t => ?_, fun _ => hMod.symm ▸ hLess⟩
    rw [hMod, argument, if_pos hLess, hInfo]
    rfl
  · rename_i hLarge
    have hLead : ∀ (info : UInt8) (width : Nat), info.toNat < 32 → n < 256 ^ width →
        (info = 24 ∧ width = 1 ∨ info = 25 ∧ width = 2 ∨ info = 26 ∧ width = 4 ∨ info = 27 ∧ width = 8) →
        ∃ b rest, (major * 32 + info) :: bigEndian width n = b :: rest ∧ b / 32 = major ∧
          (∀ t, argument (b % 32) (rest ++ t) = some (some n, t)) ∧ (n < 24 → b % 32 < 24) := by
      intro info width hInfo hFits hWidth
      obtain ⟨hDiv, hMod⟩ := lead_parts hMajor hInfo
      refine ⟨_, _, rfl, hDiv, fun t => ?_, fun hSmall => absurd hSmall hLarge⟩
      rw [hMod, argument_bigEndian hFits t hWidth]
    split
    · exact hLead 24 1 (by decide) (by omega) (.inl ⟨rfl, rfl⟩)
    · split
      · exact hLead 25 2 (by decide) (by omega) (.inr (.inl ⟨rfl, rfl⟩))
      · split
        · exact hLead 26 4 (by decide) (by omega) (.inr (.inr (.inl ⟨rfl, rfl⟩)))
        · exact hLead 27 8 (by decide) (by omega) (.inr (.inr (.inr ⟨rfl, rfl⟩)))

/-! ## Items -/

def sortPairs (pairs : List (Item × Item)) : List (Item × Item) :=
  pairs.mergeSort fun a b => lengthFirst a.1.encode b.1.encode

def unpair (pairs : List (Item × Item)) : List Item := pairs.flatMap fun p => [p.1, p.2]

mutual
/-- The item as it is read back: the pairs of its maps are in canonical order. -/
def Item.canonical : Item → Item
  | .array items => .array (canonicalAll items)
  | .map pairs => .map (sortPairs (canonicalPairs pairs))
  | item => item

def canonicalAll : List Item → List Item
  | [] => []
  | i :: rest => i.canonical :: canonicalAll rest

def canonicalPairs : List (Item × Item) → List (Item × Item)
  | [] => []
  | p :: rest => canonicalPair p :: canonicalPairs rest

def canonicalPair : Item × Item → Item × Item
  | (k, v) => (k, v.canonical)
end

mutual
/-- What `node` makes of the number of parts of an array or a map and of the largest value of its parts. -/
def Item.measure (node : Nat → Nat → Nat) : Item → Nat
  | .array items => node items.length (measureAll node items)
  | .map pairs => node pairs.length (measurePairs node pairs)
  | .tag _ content => content.measure node
  | _ => 0

def measureAll (node : Nat → Nat → Nat) : List Item → Nat
  | [] => 0
  | i :: rest => max (i.measure node) (measureAll node rest)

def measurePairs (node : Nat → Nat → Nat) : List (Item × Item) → Nat
  | [] => 0
  | p :: rest => max (measurePair node p) (measurePairs node rest)

def measurePair (node : Nat → Nat → Nat) : Item × Item → Nat
  | (k, v) => max (k.measure node) (v.measure node)
end

namespace Item

def height (i : Item) : Nat := i.measure fun _ inner => inner + 1

def breadth (i : Item) : Nat := i.measure max

/-- The item is within the limits where `depth` arrays and maps are open already. -/
def Fits (limits : Limits) (depth : Nat) (i : Item) : Prop :=
  depth + i.height ≤ limits.depth ∧ i.breadth ≤ limits.size

instance (limits : Limits) (depth : Nat) (i : Item) : Decidable (i.Fits limits depth) :=
  inferInstanceAs (Decidable (_ ∧ _))

/-- What snapshots are made of: numbers, whole texts, lists, maps from texts, and the simple values of one byte. -/
inductive Plain : Item → Prop
  | uint {n : Nat} (h : n < 2 ^ 64) : Plain (.uint n)
  | nint {n : Nat} (h : n < 2 ^ 64) : Plain (.nint n)
  | text (t : Text) : Plain (.ofText t)
  | array {items : List Item} (hItems : ∀ i ∈ items, Plain i) : Plain (.array items)
  | map {pairs : List (Item × Item)} (hKeys : ∀ p ∈ pairs, ∃ t, p.1 = .ofText t) (hValues : ∀ p ∈ pairs, Plain p.2) :
      Plain (.map pairs)
  | simple {code : Nat} (h : code < 24) : Plain (.simple code)

end Item

variable {items : List Item} {pairs : List (Item × Item)} {limits : Limits} {depth : Nat}

theorem canonicalAll_eq (items : List Item) : canonicalAll items = items.map Item.canonical := by
  induction items with
  | nil => rfl
  | cons i items ih => rw [canonicalAll, ih, List.map_cons]

theorem canonicalPairs_eq (pairs : List (Item × Item)) :
    canonicalPairs pairs = pairs.map fun p => (p.1, p.2.canonical) := by
  induction pairs with
  | nil => rfl
  | cons p pairs ih => rw [canonicalPairs, ih, List.map_cons, canonicalPair.eq_def]

theorem encodePairs_eq (pairs : List (Item × Item)) :
    encodePairs pairs = pairs.map fun p => (p.1.encode, p.2.encode) := by
  induction pairs with
  | nil => rfl
  | cons p pairs ih => rw [encodePairs, ih, List.map_cons, encodePair.eq_def]

theorem measureAll_le_iff {node : Nat → Nat → Nat} : measureAll node items ≤ n ↔ ∀ i ∈ items, i.measure node ≤ n := by
  induction items with
  | nil => simp [measureAll]
  | cons i items ih => rw [measureAll, Nat.max_le, ih, List.forall_mem_cons]

theorem measurePairs_le_iff {node : Nat → Nat → Nat} :
    measurePairs node pairs ≤ n ↔ ∀ i ∈ unpair pairs, i.measure node ≤ n := by
  induction pairs with
  | nil => simp [measurePairs, unpair]
  | cons p pairs ih =>
    obtain ⟨k, v⟩ := p
    have hParts : unpair ((k, v) :: pairs) = k :: v :: unpair pairs := rfl
    rw [measurePairs, measurePair, Nat.max_le, Nat.max_le, ih, hParts, List.forall_mem_cons, List.forall_mem_cons,
      and_assoc]

theorem fits_parts {parts : List Item} {size height breadth : Nat} (hHeight : i.height = height + 1)
    (hBreadth : i.breadth = max size breadth) (hInner : ∀ n, height ≤ n ↔ ∀ j ∈ parts, j.height ≤ n)
    (hWide : ∀ n, breadth ≤ n ↔ ∀ j ∈ parts, j.breadth ≤ n) : i.Fits limits depth ↔
      depth < limits.depth ∧ size ≤ limits.size ∧ ∀ j ∈ parts, j.Fits limits (depth + 1) := by
  unfold Item.Fits
  rw [hHeight, hBreadth, Nat.max_le, hWide]
  constructor
  · rintro ⟨hDepth, hSize, hParts⟩
    have hHeights := (hInner (limits.depth - (depth + 1))).mp (by omega)
    refine ⟨by omega, hSize, fun j hj => ⟨?_, hParts j hj⟩⟩
    have := hHeights j hj
    omega
  · rintro ⟨hDepth, hSize, hParts⟩
    have hHeights := (hInner (limits.depth - (depth + 1))).mpr fun j hj => by have := (hParts j hj).1; omega
    exact ⟨by omega, hSize, fun j hj => (hParts j hj).2⟩

theorem fits_array : (Item.array items).Fits limits depth ↔
    depth < limits.depth ∧ items.length ≤ limits.size ∧ ∀ i ∈ items, i.Fits limits (depth + 1) :=
  fits_parts rfl rfl (fun _ => measureAll_le_iff) fun _ => measureAll_le_iff

theorem fits_map : (Item.map pairs).Fits limits depth ↔
    depth < limits.depth ∧ pairs.length ≤ limits.size ∧ ∀ i ∈ unpair pairs, i.Fits limits (depth + 1) :=
  fits_parts rfl rfl (fun _ => measurePairs_le_iff) fun _ => measurePairs_le_iff

/-! ## Lengths -/

theorem length_head_pos (major : UInt8) (n : Nat) : 0 < (head major n).length := by
  unfold head
  repeat' split
  all_goals exact Nat.succ_pos _

theorem length_encode_pos (i : Item) : 0 < i.encode.length := by
  cases i with
  | uint n => exact length_head_pos 0 n
  | nint n => exact length_head_pos 1 n
  | simple code => exact length_head_pos 7 code
  | float => decide
  | _ => exact Nat.lt_of_lt_of_le (length_head_pos _ _) (List.sublist_append_left _ _).length_le

theorem length_le_encodeAll (items : List Item) : items.length ≤ (encodeAll items).length := by
  induction items with
  | nil => exact Nat.le_refl _
  | cons i items ih =>
    have := length_encode_pos i
    rw [encodeAll, List.length_append, List.length_cons]
    omega

theorem length_encode_le (h : i ∈ items) : i.encode.length ≤ (encodeAll items).length := by
  induction items with
  | nil => cases h
  | cons j items ih =>
    rw [encodeAll, List.length_append]
    rcases List.mem_cons.mp h with rfl | h
    · exact Nat.le_add_right _ _
    · exact Nat.le_trans (ih h) (Nat.le_add_left _ _)

/-! ## Reading -/

/-- The canonical bytes of the item are read as its canonical form if it fits, and refused otherwise. -/
def ReadsBack (limits : Limits) (i : Item) : Prop :=
  ∀ fuel depth rest, 2 * i.encode.length ≤ fuel + 1 → depth ≤ limits.depth → i.encode.length < 2 ^ 64 →
    itemAt limits (fuel + 1) depth false (i.encode ++ rest) =
      if i.Fits limits depth then some (i.canonical, rest) else none

theorem itemsAt_encodeAll (h : ∀ i ∈ items, ReadsBack limits i) (hDepth : depth ≤ limits.depth) :
    ∀ fuel rest, 2 * (encodeAll items).length + 1 ≤ fuel → (encodeAll items).length < 2 ^ 64 →
      itemsAt limits fuel depth (some items.length) (encodeAll items ++ rest) =
        if ∀ i ∈ items, i.Fits limits depth then some (items.map Item.canonical, rest) else none := by
  induction items with
  | nil =>
    intro fuel rest hFuel _
    obtain ⟨fuel, rfl⟩ : ∃ n, fuel = n + 1 := Nat.exists_eq_succ_of_ne_zero (by omega)
    rw [if_pos (by simp)]
    simp [itemsAt, encodeAll]
  | cons i items ih =>
    intro fuel rest hFuel hLength
    obtain ⟨hFirst, hRest⟩ := List.forall_mem_cons.mp h
    rw [encodeAll, List.length_append] at hFuel hLength
    have hPos := length_encode_pos i
    obtain ⟨fuel, rfl⟩ : ∃ n, fuel = n + 2 := Nat.exists_eq_add_of_le' (by omega)
    obtain ⟨b, bs, hBytes⟩ := List.exists_cons_of_length_pos hPos
    have hItem := hFirst fuel depth (encodeAll items ++ rest) (by omega) hDepth (by omega)
    have hItems := ih hRest (fuel + 1) rest (by omega) (by omega)
    rw [hBytes, List.cons_append] at hItem
    rw [encodeAll, hBytes, List.append_assoc, List.cons_append, List.length_cons, itemsAt]
    · simp only [hItem, Option.map_some, Nat.add_sub_cancel, Option.isNone_some, Bool.false_and]
      by_cases hFits : i.Fits limits depth
      · simp only [if_pos hFits, hItems, bind, Option.bind]
        by_cases hAll : ∀ i ∈ items, i.Fits limits depth
        · rw [if_pos hAll, if_pos (List.forall_mem_cons.mpr ⟨hFits, hAll⟩)]
          rfl
        · rw [if_neg hAll, if_neg fun h => hAll (List.forall_mem_cons.mp h).2]
          rfl
      · rw [if_neg hFits, if_neg fun h => hFits (List.forall_mem_cons.mp h).1]
        rfl
    · rintro ⟨⟩

/-! ## Maps -/

theorem encodeAll_unpair (pairs : List (Item × Item)) :
    encodeAll (unpair pairs) = pairs.flatMap fun p => p.1.encode ++ p.2.encode := by
  induction pairs with
  | nil => rfl
  | cons p pairs ih =>
    rw [List.flatMap_cons, ← ih, List.append_assoc]
    rfl

theorem joinPairs_encodePairs (pairs : List (Item × Item)) :
    joinPairs (encodePairs pairs) = encodeAll (unpair (sortPairs pairs)) := by
  have hSort : (sortPairs pairs).map (fun p => (p.1.encode, p.2.encode)) =
      (pairs.map fun p => (p.1.encode, p.2.encode)).mergeSort fun a b => lengthFirst a.1 b.1 :=
    List.map_mergeSort fun _ _ _ _ => rfl
  rw [joinPairs, encodePairs_eq, ← hSort, List.flatMap_map, encodeAll_unpair]

theorem sortPairs_canonicalPairs (pairs : List (Item × Item)) :
    sortPairs (canonicalPairs pairs) = (sortPairs pairs).map fun p => (p.1, p.2.canonical) := by
  have hSort : (sortPairs pairs).map (fun p => (p.1, p.2.canonical)) =
      (pairs.map fun p => (p.1, p.2.canonical)).mergeSort fun a b => lengthFirst a.1.encode b.1.encode :=
    List.map_mergeSort fun _ _ _ _ => rfl
  rw [canonicalPairs_eq, hSort, sortPairs]

theorem pairUp_unpair (pairs : List (Item × Item)) : pairUp (unpair pairs) = pairs := by
  induction pairs with
  | nil => rfl
  | cons p pairs ih => exact congrArg (p :: ·) ih

theorem length_unpair (pairs : List (Item × Item)) : (unpair pairs).length = 2 * pairs.length := by
  induction pairs with
  | nil => rfl
  | cons p pairs ih =>
    change (unpair pairs).length + 1 + 1 = 2 * (pairs.length + 1)
    omega

theorem length_sortPairs (pairs : List (Item × Item)) : (sortPairs pairs).length = pairs.length :=
  (List.mergeSort_perm pairs _).length_eq

theorem mem_unpair_sortPairs : i ∈ unpair (sortPairs pairs) ↔ i ∈ unpair pairs :=
  ((List.mergeSort_perm pairs _).flatMap_right _).mem_iff

theorem map_canonical_unpair (h : ∀ p ∈ pairs, ∃ t, p.1 = .ofText t) :
    (unpair pairs).map Item.canonical = unpair (pairs.map fun p => (p.1, p.2.canonical)) := by
  induction pairs with
  | nil => rfl
  | cons p pairs ih =>
    obtain ⟨⟨t, ht⟩, hRest⟩ := List.forall_mem_cons.mp h
    obtain ⟨k, v⟩ := p
    subst ht
    exact congrArg (Item.ofText t :: v.canonical :: ·) (ih hRest)

/-! ## Whole items -/

theorem Item.fits_leaf (h : ∀ node, i.measure node = 0) (hDepth : depth ≤ limits.depth) : i.Fits limits depth :=
  ⟨by rw [Item.height, h]; exact hDepth, by rw [Item.breadth, h]; exact Nat.zero_le _⟩

theorem readsBack_uint (h : n < 2 ^ 64) : ReadsBack limits (.uint n) := by
  intro fuel depth rest _ hDepth _
  obtain ⟨b, bs, hHead, hDiv, hArg, -⟩ := exists_head 0 (by decide) h
  rw [if_pos (Item.fits_leaf (fun _ => rfl) hDepth), Item.encode, hHead, List.cons_append, itemAt]
  simp only [hDiv, hArg, bind, Option.bind]
  rfl

theorem readsBack_nint (h : n < 2 ^ 64) : ReadsBack limits (.nint n) := by
  intro fuel depth rest _ hDepth _
  obtain ⟨b, bs, hHead, hDiv, hArg, -⟩ := exists_head 1 (by decide) h
  rw [if_pos (Item.fits_leaf (fun _ => rfl) hDepth), Item.encode, hHead, List.cons_append, itemAt]
  simp only [hDiv, hArg, bind, Option.bind]
  rfl

theorem readsBack_simple {code : Nat} (h : code < 24) : ReadsBack limits (.simple code) := by
  intro fuel depth rest _ hDepth _
  obtain ⟨b, bs, hHead, hDiv, hArg, hInfo⟩ := exists_head 7 (by decide) (show code < 2 ^ 64 by omega)
  have hBelow := UInt8.lt_iff_toNat_lt.mp (hInfo h)
  have hNotAbove : ¬ b % 32 > 24 := by
    rw [gt_iff_lt, UInt8.lt_iff_toNat_lt]
    exact Nat.not_lt.mpr (Nat.le_of_lt hBelow)
  have hNotNext : b % 32 ≠ 24 := fun hEq => Nat.lt_irrefl _ (hEq ▸ hBelow)
  rw [if_pos (Item.fits_leaf (fun _ => rfl) hDepth), Item.encode, hHead, List.cons_append, itemAt]
  simp [hDiv, hArg, hNotAbove, hNotNext, Item.canonical]

theorem readsBack_text (t : Text) : ReadsBack limits (.ofText t) := by
  intro fuel depth rest _ hDepth hLength
  have hText : (Item.ofText t).encode = head 3 t.length ++ t := by
    rw [Item.ofText, Item.encode, List.flatten_singleton]
  rw [hText, List.length_append] at hLength
  obtain ⟨b, bs, hHead, hDiv, hArg, -⟩ := exists_head 3 (by decide) (show t.length < 2 ^ 64 by omega)
  have hString : stringOf 3 (some t.length) (t ++ rest) = some ([t], rest) := by
    rw [stringOf, takeBytes_append]
    rfl
  rw [if_pos (Item.fits_leaf (fun _ => rfl) hDepth), hText, hHead, List.cons_append, List.cons_append,
    List.append_assoc, itemAt]
  simp only [hDiv, hArg, hString, bind, Option.bind]
  rfl

theorem itemAt_array {fuel : Nat} {inTag : Bool} {b : UInt8} {bs t : Text} {arg : Option Nat} (hDiv : b / 32 = 4)
    (hArg : argument (b % 32) bs = some (arg, t)) : itemAt limits (fuel + 1) depth inTag (b :: bs) =
      if depth < limits.depth then
        (itemsAt limits fuel (depth + 1) arg t).bind fun x =>
          if x.1.length ≤ limits.size then some (.array x.1, x.2) else none
      else none := by
  rw [itemAt]
  simp only [hDiv, hArg, bind, Option.bind]
  by_cases hOpen : depth < limits.depth
  · rw [if_pos hOpen]
    cases itemsAt limits fuel (depth + 1) arg t with
    | none => simp
    | some x => by_cases hSize : x.1.length ≤ limits.size <;> simp [hSize, Nat.not_le.mpr hOpen]
  · simp [hOpen, Nat.not_lt.mp hOpen]

theorem itemAt_map {fuel : Nat} {inTag : Bool} {b : UInt8} {bs t : Text} {arg : Option Nat} (hDiv : b / 32 = 5)
    (hArg : argument (b % 32) bs = some (arg, t)) : itemAt limits (fuel + 1) depth inTag (b :: bs) =
      if depth < limits.depth then
        (itemsAt limits fuel (depth + 1) (arg.map (2 * ·)) t).bind fun x =>
          if x.1.length % 2 = 1 || x.1.length > 2 * limits.size then none else some (.map (pairUp x.1), x.2)
      else none := by
  rw [itemAt]
  simp only [hDiv, hArg, bind, Option.bind]
  by_cases hOpen : depth < limits.depth
  · rw [if_pos hOpen]
    cases itemsAt limits fuel (depth + 1) (arg.map (2 * ·)) t with
    | none => simp
    | some x => simp [Nat.not_le.mpr hOpen]
  · simp [hOpen, Nat.not_lt.mp hOpen]

theorem readsBack_array (h : ∀ i ∈ items, ReadsBack limits i) : ReadsBack limits (.array items) := by
  intro fuel depth rest hFuel hDepth hLength
  rw [Item.encode, List.length_append] at hFuel hLength
  have hHeadPos := length_head_pos 4 items.length
  have hCount := length_le_encodeAll items
  obtain ⟨b, bs, hHead, hDiv, hArg, -⟩ := exists_head 4 (by decide) (show items.length < 2 ^ 64 by omega)
  rw [Item.encode, hHead, List.cons_append, List.cons_append, List.append_assoc, itemAt_array hDiv (hArg _),
    Item.canonical, canonicalAll_eq]
  by_cases hOpen : depth < limits.depth
  · rw [if_pos hOpen, itemsAt_encodeAll h hOpen fuel rest (by omega) (by omega)]
    by_cases hAll : ∀ i ∈ items, i.Fits limits (depth + 1)
    · rw [if_pos hAll, Option.bind_some, List.length_map]
      by_cases hSize : items.length ≤ limits.size
      · rw [if_pos hSize, if_pos (fits_array.mpr ⟨hOpen, hSize, hAll⟩)]
      · rw [if_neg hSize, if_neg fun hFits => hSize (fits_array.mp hFits).2.1]
    · rw [if_neg hAll, if_neg fun hFits => hAll (fits_array.mp hFits).2.2]
      rfl
  · rw [if_neg hOpen, if_neg fun hFits => hOpen (fits_array.mp hFits).1]

theorem readsBack_map (hKeys : ∀ p ∈ pairs, ∃ t, p.1 = .ofText t) (h : ∀ i ∈ unpair pairs, ReadsBack limits i) :
    ReadsBack limits (.map pairs) := by
  intro fuel depth rest hFuel hDepth hLength
  rw [Item.encode, joinPairs_encodePairs, List.length_append] at hFuel hLength
  have hHeadPos := length_head_pos 5 pairs.length
  have hCount := length_le_encodeAll (unpair (sortPairs pairs))
  rw [length_unpair, length_sortPairs] at hCount
  obtain ⟨b, bs, hHead, hDiv, hArg, -⟩ := exists_head 5 (by decide) (show pairs.length < 2 ^ 64 by omega)
  have hParts : ∀ i ∈ unpair (sortPairs pairs), ReadsBack limits i := fun i hi => h i (mem_unpair_sortPairs.mp hi)
  have hSortedKeys : ∀ p ∈ sortPairs pairs, ∃ t, p.1 = .ofText t := fun p hp => hKeys p (List.mem_mergeSort.mp hp)
  have hLengths : (unpair (sortPairs pairs)).length = 2 * pairs.length := by rw [length_unpair, length_sortPairs]
  have hMembers : (∀ i ∈ unpair (sortPairs pairs), i.Fits limits (depth + 1)) ↔
      ∀ i ∈ unpair pairs, i.Fits limits (depth + 1) :=
    forall_congr' fun i => by rw [mem_unpair_sortPairs]
  rw [Item.encode, joinPairs_encodePairs, hHead, List.cons_append, List.cons_append, List.append_assoc,
    itemAt_map hDiv (hArg _), Item.canonical, sortPairs_canonicalPairs, Option.map_some, ← hLengths]
  by_cases hOpen : depth < limits.depth
  · rw [if_pos hOpen, itemsAt_encodeAll hParts hOpen fuel rest (by omega) (by omega)]
    by_cases hAll : ∀ i ∈ unpair (sortPairs pairs), i.Fits limits (depth + 1)
    · rw [if_pos hAll, Option.bind_some, map_canonical_unpair hSortedKeys, length_unpair, List.length_map,
        length_sortPairs, pairUp_unpair]
      by_cases hSize : pairs.length ≤ limits.size
      · rw [if_neg (by simp; omega), if_pos (fits_map.mpr ⟨hOpen, hSize, hMembers.mp hAll⟩)]
      · rw [if_pos (by simp; omega), if_neg fun hFits => hSize (fits_map.mp hFits).2.1]
    · rw [if_neg hAll, if_neg fun hFits => hAll (hMembers.mpr (fits_map.mp hFits).2.2)]
      rfl
  · rw [if_neg hOpen, if_neg fun hFits => hOpen (fits_map.mp hFits).1]

theorem Item.Plain.readsBack (h : i.Plain) : ReadsBack limits i := by
  induction h with
  | uint h => exact readsBack_uint h
  | nint h => exact readsBack_nint h
  | text t => exact readsBack_text t
  | array _ ih => exact readsBack_array ih
  | map hKeys _ ih =>
    refine readsBack_map hKeys fun i hi => ?_
    obtain ⟨p, hp, hi⟩ := List.mem_flatMap.mp hi
    rcases List.mem_pair.mp hi with rfl | rfl
    · obtain ⟨t, ht⟩ := hKeys p hp
      rw [ht]
      exact readsBack_text t
    · exact ih p hp
  | simple h => exact readsBack_simple h

/-- Exactly the items within the limits are read back from their canonical bytes, in canonical form. -/
theorem decode_encode (h : i.Plain) (hLength : i.encode.length < 2 ^ 64) :
    decode limits i.encode = if i.Fits limits 0 then some i.canonical else none := by
  have hRead := h.readsBack (2 * i.encode.length + 1) 0 [] (by omega) (Nat.zero_le limits.depth) hLength
  rw [List.append_nil] at hRead
  rw [decode, hRead]
  by_cases hFits : i.Fits limits 0
  · rw [if_pos hFits, if_pos hFits]
    rfl
  · rw [if_neg hFits, if_neg hFits]
    rfl

end Cbor

end Marshal
