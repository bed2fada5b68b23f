import Mathlib.Data.List.Pairwise
import Marshal.Plan.Snapshot
import Marshal.Proofs.Cbor.Canonical
import Marshal.Proofs.Text.Sorted
import Marshal.Proofs.Text.Utf8

/-! # Records are filled from their items

The canonical form of a record lists its fields in the order of their encoded names. Each field is taken once and by
its exact name, so filling a record comes to filling its fields one after the other.
-/
set_option autoImplicit false
namespace Marshal
namespace Cbor

/-! ## The order of fields -/

theorem lengthFirst_trans (a b c : Text) (hab : lengthFirst a b = true) (hbc : lengthFirst b c = true) :
    lengthFirst a c = true := by
  simp only [lengthFirst, Bool.or_eq_true, Bool.and_eq_true, decide_eq_true_eq] at *
  rcases hab with hab | ⟨hab, hle⟩
  · omega
  · rcases hbc with hbc | ⟨hbc, hle'⟩
    · omega
    · exact .inr ⟨by omega, Text.le_trans' a b c hle hle'⟩

theorem lengthFirst_total (a b : Text) : (lengthFirst a b || lengthFirst b a) = true := by
  have hTotal := Text.le_total' a b
  simp only [lengthFirst, Bool.or_eq_true, Bool.and_eq_true, decide_eq_true_eq] at *
  rcases Nat.lt_trichotomy a.length b.length with hLess | hSame | hMore
  · exact .inl (.inl hLess)
  · exact hTotal.imp (fun hle => .inr ⟨hSame, hle⟩) fun hle => .inr ⟨hSame.symm, hle⟩
  · exact .inr (.inl hMore)

def Precedes (a b : Text) : Prop :=
  lengthFirst (Item.ofText a).encode (Item.ofText b).encode = true ∧
    lengthFirst (Item.ofText b).encode (Item.ofText a).encode = false

instance (a b : Text) : Decidable (Precedes a b) := inferInstanceAs (Decidable (_ ∧ _))

theorem nodup_of_precedes {names : List Text} (h : names.Pairwise Precedes) : names.Nodup := by
  refine h.imp fun hBefore hEq => ?_
  subst hEq
  exact absurd hBefore.1 (by simp [hBefore.2])

theorem sortPairs_eq {pairs sorted : List (Item × Item)} (hPerm : sorted.Perm pairs)
    (hSorted : sorted.Pairwise fun p q => lengthFirst p.1.encode q.1.encode = true ∧
      lengthFirst q.1.encode p.1.encode = false) : sortPairs pairs = sorted := by
  let Tied (p q : Item × Item) : Prop := lengthFirst p.1.encode q.1.encode = true →
    lengthFirst q.1.encode p.1.encode = true → p = q
  have hSymm : Std.Symm Tied := ⟨fun p q h hqp hpq => (h hpq hqp).symm⟩
  have hTied : ∀ p ∈ sorted, ∀ q ∈ sorted, Tied p q :=
    fun p hp q hq => List.Pairwise.forall_of_forall (fun _ _ _ _ => rfl)
      (hSorted.imp fun h _ hqp => absurd hqp (by simp [h.2])) hp hq
  have hMembers : ∀ p, p ∈ sortPairs pairs → p ∈ sorted := fun p hp => hPerm.mem_iff.mpr (List.mem_mergeSort.mp hp)
  have hMerged : (sortPairs pairs).Pairwise fun p q => lengthFirst p.1.encode q.1.encode = true :=
    List.pairwise_mergeSort (fun p q r => lengthFirst_trans p.1.encode q.1.encode r.1.encode)
      (fun p q => lengthFirst_total p.1.encode q.1.encode) pairs
  exact List.Perm.eq_of_pairwise (fun p q hp hq => hTied p (hMembers p hp) q hq) hMerged (hSorted.imp fun h => h.1)
    ((List.mergeSort_perm pairs _).trans hPerm.symm)

variable {fields sorted : List (Text × Option Item)}

def present (fields : List (Text × Option Item)) : List (Item × Item) :=
  fields.filterMap fun f => f.2.map fun i => (.ofText f.1, i)

theorem present_cons (name : Text) (item : Option Item) (fields : List (Text × Option Item)) :
    present ((name, item) :: fields) = (item.map fun i => (.ofText name, i)).toList ++ present fields := by
  cases item <;> rfl

theorem canonicalPairs_present (fields : List (Text × Option Item)) :
    canonicalPairs (present fields) = present (fields.map fun f => (f.1, f.2.map Item.canonical)) := by
  rw [canonicalPairs_eq]
  induction fields with
  | nil => rfl
  | cons f fields ih =>
    obtain ⟨name, item⟩ := f
    rw [present_cons, List.map_append, ih, List.map_cons, present_cons]
    cases item <;> rfl

theorem mem_present {p : Item × Item} (h : p ∈ present fields) : ∃ f ∈ fields, p.1 = .ofText f.1 := by
  obtain ⟨f, hf, hItem⟩ := List.mem_filterMap.mp h
  obtain ⟨i, -, rfl⟩ := Option.map_eq_some_iff.mp hItem
  exact ⟨f, hf, rfl⟩

theorem pairwise_present (h : (fields.map (·.1)).Pairwise Precedes) : (present fields).Pairwise fun p q =>
    lengthFirst p.1.encode q.1.encode = true ∧ lengthFirst q.1.encode p.1.encode = false := by
  induction fields with
  | nil => exact .nil
  | cons f fields ih =>
    obtain ⟨name, item⟩ := f
    obtain ⟨hFirst, hRest⟩ := List.pairwise_cons.mp h
    rw [present_cons]
    cases item with
    | none => exact ih hRest
    | some i =>
      refine List.pairwise_cons.mpr ⟨fun q hq => ?_, ih hRest⟩
      obtain ⟨f, hf, hKey⟩ := mem_present hq
      rw [hKey]
      exact hFirst f.1 (List.mem_map_of_mem hf)

theorem canonical_recordItem (hPerm : sorted.Perm fields) (hSorted : (sorted.map (·.1)).Pairwise Precedes) :
    (recordItem fields).canonical = recordItem (sorted.map fun f => (f.1, f.2.map Item.canonical)) := by
  have hPairs : sortPairs (canonicalPairs (present fields)) =
      present (sorted.map fun f => (f.1, f.2.map Item.canonical)) := by
    rw [canonicalPairs_present]
    refine sortPairs_eq ((hPerm.map _).filterMap _) (pairwise_present ?_)
    rw [List.map_map]
    exact hSorted
  exact congrArg Item.map hPairs

/-! ## Fields by name -/

namespace Member

variable {α : Type} {members : List (Member α)}

theorem pick_of_find? {name : Text} {m : Member α} (h : members.find? (·.name = name) = some m) :
    ∃ others, pick (· = name) members = some (m, others) ∧
      ∀ n, n ≠ name → others.find? (·.name = n) = members.find? (·.name = n) := by
  induction members with
  | nil => cases h
  | cons f members ih =>
    by_cases hName : f.name = name
    · rw [List.find?_cons_of_pos (by simpa using hName)] at h
      cases h
      refine ⟨members, by simp [pick, hName], fun n hn => ?_⟩
      rw [List.find?_cons_of_neg (by simpa [hName] using hn.symm)]
    · rw [List.find?_cons_of_neg (by simpa using hName)] at h
      obtain ⟨others, hPick, hOthers⟩ := ih h
      refine ⟨f :: others, by simp [pick, hName, hPick], fun n hn => ?_⟩
      rw [List.find?_cons, List.find?_cons, hOthers n hn]

def fillFields (members : List (Member α)) : List (Text × Option Item) → α → Option α
  | [], a => some a
  | (_, none) :: rest, a => fillFields members rest a
  | (name, some item) :: rest, a => do
    let m ← members.find? (·.name = name)
    fillFields members rest (← m.fill item a)

theorem fillAll_present {left : List (Member α)} (a : α) (hNodup : (fields.map (·.1)).Nodup)
    (hText : ∀ f ∈ fields, f.1.isUtf8 = true) (hLeft : ∀ f ∈ fields, ∃ m, members.find? (·.name = f.1) = some m ∧
      left.find? (·.name = f.1) = some m) : fillAll left (present fields) a = fillFields members fields a := by
  induction fields generalizing left a with
  | nil => rfl
  | cons f fields ih =>
    obtain ⟨name, item⟩ := f
    obtain ⟨hNew, hDistinct⟩ := List.nodup_cons.mp hNodup
    obtain ⟨hName, hOtherNames⟩ := List.forall_mem_cons.mp hText
    obtain ⟨⟨m, hMember, hFound⟩, hRest⟩ := List.forall_mem_cons.mp hLeft
    cases item with
    | none => exact ih a hDistinct hOtherNames hRest
    | some i =>
      obtain ⟨others, hPick, hOthers⟩ := pick_of_find? hFound
      have hKey : Fill.joinChunks [name] = some name := by
        simp [Fill.joinChunks, hName]
      have hMatch : match? name left = some (m, others) := by
        rw [match?, hPick]
      have hOthers' : ∀ f ∈ fields, ∃ m, members.find? (·.name = f.1) = some m ∧
          others.find? (·.name = f.1) = some m := by
        intro f hf
        have hNe : f.1 ≠ name := fun hEq => hNew (List.mem_map.mpr ⟨f, hf, hEq⟩)
        obtain ⟨m, hm, hm'⟩ := hRest f hf
        exact ⟨m, hm, by rw [hOthers f.1 hNe, hm']⟩
      change fillAll left ((.text [name], i) :: present fields) a = _
      rw [fillAll, fillFields]
      simp only [hKey, hMatch, hMember, bind, Option.bind]
      cases m.fill i a with
      | none => rfl
      | some b => exact ih b hDistinct hOtherNames hOthers'

/-- The value that a field gets: the one that its item describes, or the old one if the field is left out. -/
def Fills {β : Type} (fill : Fill β) (item : Option Item) (old v : β) : Prop :=
  match item with
  | none => old = v
  | some i => fill i old = some v

theorem fillFields_cons {β : Type} {name : Text} {fill : Fill β} {get : α → β} {set : β → α → α} {item : Option Item}
    {rest : List (Text × Option Item)} {a : α} {v : β}
    (hMember : members.find? (·.name = name) = some (.of name fill get set)) (hSame : set (get a) a = a)
    (hFills : Fills fill item (get a) v) :
    fillFields members ((name, item) :: rest) a = fillFields members rest (set v a) := by
  cases item with
  | none =>
    rw [fillFields, ← show get a = v from hFills, hSame]
  | some i =>
    rw [fillFields]
    have hFill : fill i (get a) = some v := hFills
    simp only [hMember, Member.of, hFill, bind, Option.bind, Option.map]

end Member

/-- The names are in canonical order and each belongs to a member. -/
def readable (memberNames names : List Text) : Bool :=
  decide (names.Pairwise Precedes) && names.all fun n => n.isUtf8 && memberNames.contains n

theorem Fill.record_canonical {α : Type} {members : List (Member α)} (sorted : List (Text × Option Item))
    (hPerm : sorted.Perm fields) (h : readable (members.map (·.name)) (sorted.map (·.1)) = true) (a : α) :
    Fill.record members (recordItem fields).canonical a =
      Member.fillFields members (sorted.map fun f => (f.1, f.2.map Item.canonical)) a := by
  obtain ⟨hOrder, hNames⟩ := Bool.and_eq_true_iff.mp h
  have hOrder := of_decide_eq_true hOrder
  have hSameNames : (sorted.map fun f => (f.1, f.2.map Item.canonical)).map (·.1) = sorted.map (·.1) := by
    rw [List.map_map]
    rfl
  have hField : ∀ f ∈ sorted.map fun f => (f.1, f.2.map Item.canonical),
      f.1.isUtf8 = true ∧ f.1 ∈ members.map (·.name) := by
    intro f hf
    have hName := List.all_eq_true.mp hNames f.1 (hSameNames ▸ List.mem_map_of_mem hf)
    simpa using hName
  rw [canonical_recordItem hPerm hOrder]
  refine Member.fillAll_present a (hSameNames ▸ nodup_of_precedes hOrder) (fun f hf => (hField f hf).1) fun f hf => ?_
  obtain ⟨m, hm, hName⟩ := List.mem_map.mp (hField f hf).2
  have hSome : (members.find? (·.name = f.1)).isSome = true :=
    List.find?_isSome.mpr ⟨m, hm, decide_eq_true hName⟩
  obtain ⟨found, hFound⟩ := Option.isSome_iff_exists.mp hSome
  exact ⟨found, hFound, hFound⟩

/-! ## Values -/

namespace Fill

theorem text_ofText {t : Text} (h : t.isUtf8 = true) (old : Text) : Fill.text (.ofText t) old = some t := by
  simp [Fill.text, ofItem, Item.ofText, Item.untagged, joinChunks, h]

theorem integerIn_ofInt {low high n : Int} (hLow : low ≤ n) (hHigh : n < high) (old : Int) :
    integerIn low high (.ofInt n) old = some n := by
  have hInteger : integer? (.ofInt n) = some n := by
    cases n with
    | ofNat k => rfl
    | negSucc k =>
      change some (-1 - (k : Int)) = _
      rw [Int.negSucc_eq]
      congr 1
      omega
  have hFill : integerIn low high (.ofInt n) old =
      (integer? (.ofInt n)).bind fun n => if low ≤ n && n < high then some n else none := by
    cases n <;> rfl
  rw [hFill, hInteger]
  simp [hLow, hHigh]

theorem int_ofInt {n : Int} (hLow : -0x8000000000000000 ≤ n) (hHigh : n < 0x8000000000000000) (old : Int) :
    Fill.int (.ofInt n) old = some n :=
  integerIn_ofInt hLow hHigh old

theorem word_uint (n old : UInt32) : Fill.word (.uint n.toNat) old = some n := by
  have hFill : integerIn 0 0x100000000 (.uint n.toNat) old.toNat = some (n.toNat : Int) :=
    integerIn_ofInt (by omega) (Int.ofNat_lt.mpr n.toNat_lt) _
  rw [word, hFill]
  simp

theorem byte_uint (n old : UInt8) : Fill.byte (.uint n.toNat) old = some n := by
  have hFill : integerIn 0 0x100 (.uint n.toNat) old.toNat = some (n.toNat : Int) :=
    integerIn_ofInt (by omega) (Int.ofNat_lt.mpr n.toNat_lt) _
  rw [byte, hFill]
  simp

variable {α : Type} {fill : Fill α} {blank : α} {encode : α → Item} {xs : List α}

theorem list_array (h : ∀ x ∈ xs, fill (encode x) blank = some x) (old : Option (List α)) :
    Fill.list fill blank (.array (xs.map encode)) old = some (some xs) := by
  have hItems : (xs.map encode).mapM (fun i => fill i blank) = some xs := by
    induction xs with
    | nil => rfl
    | cons x xs ih =>
      obtain ⟨hx, hxs⟩ := List.forall_mem_cons.mp h
      simp [hx, ih hxs]
  change ((xs.map encode).mapM fun i => fill i blank).map some = _
  rw [hItems]
  rfl

theorem plainList_array (h : ∀ x ∈ xs, fill (encode x) blank = some x) (old : List α) :
    Fill.plainList fill blank (.array (xs.map encode)) old = some xs := by
  rw [plainList, list_array h]
  rfl

end Fill

end Cbor

end Marshal
