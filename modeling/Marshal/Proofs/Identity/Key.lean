import Mathlib.Algebra.Group.Nat.Defs
import Marshal.Key
import Marshal.Proofs.Memory

/-! # Keys and their encoding

A field in canonical form can be read off the start of any text that begins with its encoding: the tag tells the form,
words take eight bytes, and texts are announced by their length. So two keys have the same encoding only if they have
the same canonical form, and then the comparison of keys, which treats floats in a way of its own, finds them equal.
-/
set_option autoImplicit false
namespace Marshal

theorem Word.toBytes_inj {width n m : Nat} (hn : n < 256 ^ width) (hm : m < 256 ^ width)
    (h : toBytes width n = toBytes width m) : n = m := by
  have hWord := congrArg ofBytes h
  rwa [ofBytes_toBytes, ofBytes_toBytes, Nat.mod_eq_of_lt hn, Nat.mod_eq_of_lt hm] at hWord

namespace KeyField

/-! ## Canonical floats -/

def IsNormal : KeyField → Prop
  | float bits => normalizeDouble bits = bits
  | _ => True

variable {bits : UInt64}

theorem eq_zero_of_normal (h : normalizeDouble bits = bits) (hZero : magnitude bits = 0) : bits = 0 := by
  rw [normalizeDouble, if_pos hZero] at h
  exact h.symm

theorem magnitude_ne_zero (h : isNaN bits = true) : magnitude bits ≠ 0 := by
  intro hZero
  rw [isNaN, hZero] at h
  cases h

theorem eq_nanBits_of_normal (h : normalizeDouble bits = bits) (hNaN : isNaN bits = true) : bits = nanBits := by
  rw [normalizeDouble, if_neg (magnitude_ne_zero hNaN), if_pos hNaN] at h
  exact h.symm

theorem normalizeDouble_normal (bits : UInt64) : normalizeDouble (normalizeDouble bits) = normalizeDouble bits := by
  by_cases hZero : magnitude bits = 0
  · rw [normalizeDouble.eq_def bits, if_pos hZero]
    decide
  · by_cases hNaN : isNaN bits = true
    · rw [normalizeDouble.eq_def bits, if_neg hZero, if_pos hNaN]
      decide
    · have hSelf : normalizeDouble bits = bits := by rw [normalizeDouble, if_neg hZero, if_neg hNaN]
      rw [hSelf, hSelf]

theorem ofDatum_normal (d : Datum) : (ofDatum d).IsNormal := by
  cases d with
  | f32 bits => exact normalizeDouble_normal _
  | f64 bits => exact normalizeDouble_normal _
  | _ => trivial

theorem same_float_iff {a b : UInt64} (ha : normalizeDouble a = a) (hb : normalizeDouble b = b) :
    (float a).same (float b) = true ↔ a = b := by
  simp only [same, doubleEq, Bool.or_eq_true, Bool.and_eq_true, decide_eq_true_eq]
  constructor
  · rintro (⟨-, hEq | ⟨hZero, hZero'⟩⟩ | ⟨hNaN, hNaN'⟩)
    · exact hEq
    · rw [eq_zero_of_normal ha hZero, eq_zero_of_normal hb hZero']
    · rw [eq_nanBits_of_normal ha hNaN, eq_nanBits_of_normal hb hNaN']
  · rintro rfl
    by_cases hNaN : isNaN a = true
    · exact .inr ⟨hNaN, hNaN⟩
    · simp [hNaN]

theorem same_iff {x y : KeyField} (hx : x.IsNormal) (hy : y.IsNormal) : x.same y = true ↔ x = y := by
  cases x with
  | float a =>
    cases y with
    | float b => rw [same_float_iff hx hy, float.injEq]
    | _ => simp [same]
  | _ => simp [same]

/-! ## What an encoding tells -/

def IsShort : KeyField → Prop
  | text t => t.length < 2 ^ 32
  | bytes bs => bs.length < 2 ^ 32
  | other typeName shown => typeName.length < 2 ^ 32 ∧ shown.length < 2 ^ 32
  | _ => True

instance (x : KeyField) : Decidable x.IsShort :=
  match x with
  | text t => inferInstanceAs (Decidable (t.length < 2 ^ 32))
  | bytes bs => inferInstanceAs (Decidable (bs.length < 2 ^ 32))
  | other typeName shown => inferInstanceAs (Decidable (typeName.length < 2 ^ 32 ∧ shown.length < 2 ^ 32))
  | nil | bool _ | int _ | uint _ | float _ => inferInstanceAs (Decidable True)

theorem word64_append_inj {v w : UInt64} {r s : List UInt8} (h : word64 v ++ r = word64 w ++ s) : v = w ∧ r = s := by
  obtain ⟨hWord, hRest⟩ := List.append_inj h (by simp [word64])
  exact ⟨UInt64.toNat_inj.mp (Word.toBytes_inj v.toNat_lt w.toNat_lt hWord), hRest⟩

theorem sized_append_inj {t u r s : List UInt8} (ht : t.length < 2 ^ 32) (hu : u.length < 2 ^ 32)
    (h : sized t ++ r = sized u ++ s) : t = u ∧ r = s := by
  simp only [sized, List.append_assoc] at h
  obtain ⟨hLength, hRest⟩ := List.append_inj h (by simp)
  exact List.append_inj hRest (Word.toBytes_inj ht hu hLength)

theorem encoded_float (h : normalizeDouble bits = bits) : (if isNaN bits = true then nanBits else bits) = bits := by
  split
  · rename_i hNaN
    exact (eq_nanBits_of_normal h hNaN).symm
  · rfl

theorem encode_append_inj {x y : KeyField} {r s : List UInt8} (hx : x.IsNormal) (hy : y.IsNormal) (hxs : x.IsShort)
    (hys : y.IsShort) (h : x.encode ++ r = y.encode ++ s) : x = y ∧ r = s := by
  cases x with
  | nil =>
    cases y with
    | nil => simpa [encode] using h
    | _ => simp [encode] at h
  | bool a =>
    cases y with
    | bool b =>
      cases a <;> cases b <;> simp_all [encode]
    | _ => simp [encode] at h
  | int v =>
    cases y with
    | int w =>
      obtain ⟨rfl, hRest⟩ := word64_append_inj (List.cons.inj h).2
      exact ⟨rfl, hRest⟩
    | _ => simp [encode] at h
  | uint v =>
    cases y with
    | uint w =>
      obtain ⟨rfl, hRest⟩ := word64_append_inj (List.cons.inj h).2
      exact ⟨rfl, hRest⟩
    | _ => simp [encode] at h
  | float a =>
    cases y with
    | float b =>
      rw [encode, encode, encoded_float hx, encoded_float hy] at h
      obtain ⟨rfl, hRest⟩ := word64_append_inj (List.cons.inj h).2
      exact ⟨rfl, hRest⟩
    | _ => simp [encode] at h
  | text t =>
    cases y with
    | text u =>
      obtain ⟨rfl, hRest⟩ := sized_append_inj hxs hys (List.cons.inj h).2
      exact ⟨rfl, hRest⟩
    | _ => simp [encode] at h
  | bytes t =>
    cases y with
    | bytes u =>
      obtain ⟨rfl, hRest⟩ := sized_append_inj hxs hys (List.cons.inj h).2
      exact ⟨rfl, hRest⟩
    | _ => simp [encode] at h
  | other name shown =>
    cases y with
    | other name' shown' =>
      have hTail := (List.cons.inj h).2
      simp only [List.append_eq, List.append_assoc] at hTail
      obtain ⟨rfl, hShown⟩ := sized_append_inj hxs.1 hys.1 hTail
      obtain ⟨rfl, hRest⟩ := sized_append_inj hxs.2 hys.2 hShown
      exact ⟨rfl, hRest⟩
    | _ => simp [encode] at h

theorem encode_ne_nil (x : KeyField) : x.encode ≠ [] := by
  cases x <;> simp [encode]

end KeyField

namespace Key

open KeyField

theorem same_all_iff {xs ys : List KeyField} (hx : ∀ x ∈ xs, x.IsNormal) (hy : ∀ y ∈ ys, y.IsNormal) :
    (xs.length = ys.length ∧ ((xs.zip ys).all fun p => p.1.same p.2) = true) ↔ xs = ys := by
  induction xs generalizing ys with
  | nil => cases ys <;> simp
  | cons x xs ih =>
    cases ys with
    | nil => simp
    | cons y ys =>
      obtain ⟨hFirst, hRest⟩ := List.forall_mem_cons.mp hx
      obtain ⟨hFirst', hRest'⟩ := List.forall_mem_cons.mp hy
      rw [List.cons.injEq, ← same_iff hFirst hFirst', ← ih hRest hRest']
      simp only [List.length_cons, Nat.add_right_cancel_iff, List.zip_cons_cons, List.all_cons, Bool.and_eq_true]
      exact and_left_comm

theorem canonical_normal (fields : List Datum) : ∀ x ∈ canonical fields, x.IsNormal := by
  intro x hx
  obtain ⟨d, -, rfl⟩ := List.mem_map.mp hx
  exact ofDatum_normal d

theorem equal_iff_canonical_eq (a b : List Datum) : equal a b = true ↔ canonical a = canonical b := by
  rw [← same_all_iff (canonical_normal a) (canonical_normal b), equal, Bool.and_eq_true, decide_eq_true_eq, canonical,
    canonical, List.length_map, List.length_map]

theorem flatMap_encode_inj {xs ys : List KeyField} (hx : ∀ x ∈ xs, x.IsNormal ∧ x.IsShort)
    (hy : ∀ y ∈ ys, y.IsNormal ∧ y.IsShort) (h : xs.flatMap KeyField.encode = ys.flatMap KeyField.encode) :
    xs = ys := by
  induction xs generalizing ys with
  | nil =>
    cases ys with
    | nil => rfl
    | cons y ys => simp [encode_ne_nil] at h
  | cons x xs ih =>
    cases ys with
    | nil => simp [encode_ne_nil] at h
    | cons y ys =>
      obtain ⟨hFirst, hRest⟩ := List.forall_mem_cons.mp hx
      obtain ⟨hFirst', hRest'⟩ := List.forall_mem_cons.mp hy
      rw [List.flatMap_cons, List.flatMap_cons] at h
      obtain ⟨rfl, hTail⟩ := encode_append_inj hFirst.1 hFirst'.1 hFirst.2 hFirst'.2 h
      rw [ih hRest hRest' hTail]

def IsShort (fields : List Datum) : Prop := ∀ d ∈ fields, (ofDatum d).IsShort

instance (fields : List Datum) : Decidable (IsShort fields) :=
  inferInstanceAs (Decidable (∀ d ∈ fields, (ofDatum d).IsShort))

theorem canonical_short {fields : List Datum} (h : IsShort fields) :
    ∀ x ∈ canonical fields, x.IsNormal ∧ x.IsShort := by
  intro x hx
  obtain ⟨d, hd, rfl⟩ := List.mem_map.mp hx
  exact ⟨ofDatum_normal d, h d hd⟩

theorem encode_eq_of_equal {a b : List Datum} (h : equal a b = true) : encode a = encode b := by
  rw [encode, (equal_iff_canonical_eq a b).mp h, encode]

theorem equal_of_encode_eq {a b : List Datum} (ha : IsShort a) (hb : IsShort b) (h : encode a = encode b) :
    equal a b = true :=
  (equal_iff_canonical_eq a b).mpr (flatMap_encode_inj (canonical_short ha) (canonical_short hb) h)

theorem equal_equivalence : Equivalence fun a b => equal a b = true := by
  constructor
  · intro a
    exact (equal_iff_canonical_eq a a).mpr rfl
  · intro a b h
    exact (equal_iff_canonical_eq b a).mpr ((equal_iff_canonical_eq a b).mp h).symm
  · intro a b c h h'
    exact (equal_iff_canonical_eq a c).mpr
      (((equal_iff_canonical_eq a b).mp h).trans ((equal_iff_canonical_eq b c).mp h'))

/-- Keys are equal exactly if the same bytes are hashed for them. So equal keys have equal hashes, unequal ones differ
before they are hashed, and equality of keys is an equivalence. -/
theorem equal_iff_encode_eq :
    (∀ a b, IsShort a → IsShort b → (equal a b = true ↔ encode a = encode b)) ∧
      (∀ a b, equal a b = true → encode a = encode b ∧ hash a = hash b) ∧
      Equivalence fun a b => equal a b = true := by
  refine ⟨?_, ?_, equal_equivalence⟩
  · intro a b ha hb
    exact ⟨encode_eq_of_equal, equal_of_encode_eq ha hb⟩
  · intro a b h
    have hEncode := encode_eq_of_equal h
    exact ⟨hEncode, congrArg Digest.xxh3 hEncode⟩

/-- The fields of one key in two spellings, and two keys that differ only in where their texts are divided. -/
theorem equal_iff_encode_eq_spelled :
    encode [.i8 5, .f32 0x80000000, .f64 0x7FF0000000000123, .text "ab"] =
        encode [.i64 5, .f64 0, .f32 0xFFC00000, .text "ab"] ∧
      encode [.text "ab", .text "c"] ≠ encode [.text "a", .text "bc"] := by
  constructor
  · exact (equal_iff_encode_eq.1 _ _ (by decide) (by decide)).mp (by decide)
  · intro h
    exact absurd ((equal_iff_encode_eq.1 _ _ (by decide) (by decide)).mpr h) (by decide)

end Key

end Marshal
