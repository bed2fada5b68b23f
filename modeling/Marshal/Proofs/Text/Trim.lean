import Mathlib.Data.List.DropRight
import Marshal.Text.Blank
import Marshal.Proofs.Text.Utf8

/-! # Trimming text

A text falls into the white space at its start, the white space at its end and what lies between, and there is one way
only to take it apart like that. Trimming at the start reads the characters forward and trimming at the end reads them
backward; on well-formed text both stop at the same parts.
-/
set_option autoImplicit false
namespace Marshal
namespace Text

/-- The characters are white space, a part that neither starts nor ends with white space, and white space again. Where
there is nothing but white space, the part between is empty and stands at the end. -/
structure Trims (cs before inner behind : List Char) : Prop where
  parts : cs = before ++ inner ++ behind
  blank_before : ∀ c ∈ before, isBlank c = true
  blank_behind : ∀ c ∈ behind, isBlank c = true
  first : ∀ c, inner.head? = some c → isBlank c = false
  last : ∀ c, inner.getLast? = some c → isBlank c = false
  at_end : inner = [] → behind = []

variable {cs before inner behind : List Char}

theorem exists_trims (cs : List Char) : ∃ before inner behind, Trims cs before inner behind := by
  have hParts : cs.takeWhile isBlank ++ cs.dropWhile isBlank = cs := List.takeWhile_append_dropWhile
  cases hRest : cs.dropWhile isBlank with
  | nil =>
    rw [hRest, List.append_nil] at hParts
    refine ⟨cs, [], [], by simp, ?_, by simp, by simp, by simp, fun _ => rfl⟩
    intro c hc
    rw [← hParts] at hc
    exact List.mem_takeWhile_imp hc
  | cons c rest =>
    have hFirst : isBlank c = false := by
      have hNot := List.head?_dropWhile_not isBlank cs
      rw [hRest] at hNot
      exact hNot
    -- the first character is not white space, so that it is not dropped from the end
    have hNe : (c :: rest).rdropWhile isBlank ≠ [] := by
      intro hNil
      have hBlank := List.rdropWhile_eq_nil_iff.mp hNil c List.mem_cons_self
      rw [hFirst] at hBlank
      cases hBlank
    refine ⟨cs.takeWhile isBlank, (c :: rest).rdropWhile isBlank, (c :: rest).rtakeWhile isBlank,
      ?_, ?_, ?_, ?_, ?_, ?_⟩
    · rw [List.append_assoc, List.rdropWhile_append_rtakeWhile, ← hRest, hParts]
    · exact fun d hd => List.mem_takeWhile_imp hd
    · exact fun d hd => List.mem_rtakeWhile_imp hd
    · intro d hd
      obtain ⟨tail, hTail⟩ := List.rdropWhile_prefix isBlank (c :: rest)
      have hHead := congrArg List.head? hTail
      rw [List.head?_append, hd, Option.some_or, List.head?_cons] at hHead
      rw [Option.some.inj hHead]
      exact hFirst
    · intro d hd
      have hLast := List.rdropWhile_last_not isBlank (c :: rest) hNe
      rw [List.getLast?_eq_some_getLast hNe] at hd
      rw [← Option.some.inj hd]
      exact Bool.eq_false_iff.mpr hLast
    · exact fun hNil => absurd hNil hNe

namespace Trims

theorem inner_self (ht : Trims cs before inner behind) : Trims inner [] inner [] where
  parts := by simp
  blank_before := by simp
  blank_behind := by simp
  first := ht.first
  last := ht.last
  at_end := fun _ => rfl

theorem inner_nil (ht : Trims cs before inner behind) (hBlank : ∀ c ∈ cs, isBlank c = true) : inner = [] := by
  cases inner with
  | nil => rfl
  | cons c rest =>
    have hMem : c ∈ cs := by
      rw [ht.parts]
      simp
    cases (hBlank c hMem).symm.trans (ht.first c rfl)

theorem dropWhile_eq (ht : Trims cs before inner behind) : cs.dropWhile isBlank = inner ++ behind := by
  rw [ht.parts, List.append_assoc, List.dropWhile_append_of_pos ht.blank_before]
  cases hInner : inner with
  | nil =>
    rw [ht.at_end hInner]
    rfl
  | cons c rest => exact List.dropWhile_cons_of_neg (by simp [ht.first c (by rw [hInner]; rfl)])

theorem rdropWhile_eq (ht : Trims cs before inner behind) (hInner : inner ≠ []) :
    cs.rdropWhile isBlank = before ++ inner := by
  have hLast := ht.last (inner.getLast hInner) (List.getLast?_eq_some_getLast hInner)
  have hReverse : (before ++ inner).reverse = inner.getLast hInner :: (before ++ inner.dropLast).reverse := by
    nth_rewrite 1 [← List.dropLast_append_getLast hInner]
    rw [← List.append_assoc, List.reverse_append]
    rfl
  have hBehind : ∀ c ∈ behind.reverse, isBlank c = true := fun c hc => ht.blank_behind c (List.mem_reverse.mp hc)
  rw [ht.parts, List.rdropWhile, List.reverse_append, List.dropWhile_append_of_pos hBehind, hReverse,
    List.dropWhile_cons_of_neg (by simp [hLast]), ← hReverse, List.reverse_reverse]

end Trims

theorem ofChars_append (cs ds : List Char) : ofChars (cs ++ ds) = ofChars cs ++ ofChars ds := List.flatMap_append

theorem ofChar_ne_nil (c : Char) : ofChar c ≠ [] := by
  intro hNil
  have hGlyphs := glyphs_ofChar_append c []
  rw [hNil] at hGlyphs
  cases hGlyphs

theorem ofChars_eq_nil_iff : ofChars cs = [] ↔ cs = [] := by
  constructor
  · intro hNil
    cases cs with
    | nil => rfl
    | cons c rest => exact absurd (List.append_eq_nil_iff.mp hNil).1 (ofChar_ne_nil c)
  · rintro rfl
    rfl

theorem trimLeft_ofChars (cs : List Char) : trimLeft (ofChars cs) = ofChars (cs.dropWhile isBlank) := by
  rw [trimLeft, glyphs_ofChars, dropBlank, List.dropWhile_map, ofGlyphs_map_char]
  rfl

theorem trimRight_ofChars (cs : List Char) : trimRight (ofChars cs) = ofChars (cs.rdropWhile isBlank) := by
  rw [trimRight, glyphs_ofChars, dropBlankEnd, dropBlank, ← List.map_reverse, List.dropWhile_map, ← List.map_reverse,
    ofGlyphs_map_char]
  rfl

theorem trim_ofChars (cs : List Char) : trim (ofChars cs) = ofChars ((cs.dropWhile isBlank).rdropWhile isBlank) := by
  rw [trim, glyphs_ofChars, dropBlank, List.dropWhile_map, dropBlankEnd, dropBlank, ← List.map_reverse,
    List.dropWhile_map, ← List.map_reverse, ofGlyphs_map_char]
  rfl

namespace Trims

theorem trimLeft_eq (ht : Trims cs before inner behind) : trimLeft (ofChars cs) = ofChars (inner ++ behind) := by
  rw [trimLeft_ofChars, ht.dropWhile_eq]

theorem trimRight_eq (ht : Trims cs before inner behind) (hInner : inner ≠ []) :
    trimRight (ofChars cs) = ofChars before ++ ofChars inner := by
  rw [trimRight_ofChars, ht.rdropWhile_eq hInner, ofChars_append]

theorem trim_eq (ht : Trims cs before inner behind) : trim (ofChars cs) = ofChars inner := by
  rw [trim_ofChars, ht.dropWhile_eq]
  by_cases hInner : inner = []
  · rw [hInner, ht.at_end hInner]
    rfl
  · have hEnd : Trims (inner ++ behind) [] inner behind :=
      ⟨by simp, by simp, ht.blank_behind, ht.first, ht.last, ht.at_end⟩
    rw [hEnd.rdropWhile_eq hInner, List.nil_append]

theorem length_eq (ht : Trims cs before inner behind) :
    (ofChars cs).length = (ofChars before).length + (ofChars (inner ++ behind)).length := by
  rw [ht.parts, List.append_assoc, ofChars_append, List.length_append]

theorem length_sub_trimLeft (ht : Trims cs before inner behind) :
    (ofChars cs).length - (trimLeft (ofChars cs)).length = (ofChars before).length := by
  rw [ht.trimLeft_eq, ht.length_eq, Nat.add_sub_cancel]

end Trims

theorem trim_blank_append {ds : List Char} (h : ∀ c ∈ ds, isBlank c = true) (cs : List Char) :
    trim (ofChars (ds ++ cs)) = trim (ofChars cs) := by
  obtain ⟨before, inner, behind, ht⟩ := exists_trims cs
  have hMore : Trims (ds ++ cs) (ds ++ before) inner behind :=
    ⟨by rw [ht.parts]; simp, List.forall_mem_append.mpr ⟨h, ht.blank_before⟩, ht.blank_behind, ht.first, ht.last,
      ht.at_end⟩
  rw [hMore.trim_eq, ht.trim_eq]

theorem trim_append_blank {ds : List Char} (h : ∀ c ∈ ds, isBlank c = true) (cs : List Char) :
    trim (ofChars (cs ++ ds)) = trim (ofChars cs) := by
  obtain ⟨before, inner, behind, ht⟩ := exists_trims cs
  by_cases hInner : inner = []
  · have hBlank : ∀ c ∈ cs, isBlank c = true := by
      rw [ht.parts, hInner, ht.at_end hInner, List.append_nil, List.append_nil]
      exact ht.blank_before
    have hAll := trim_blank_append (List.forall_mem_append.mpr ⟨hBlank, h⟩) []
    have hFirst := trim_blank_append hBlank []
    rw [List.append_nil] at hAll hFirst
    rw [hAll, hFirst]
  · have hMore : Trims (cs ++ ds) before inner (behind ++ ds) :=
      ⟨by rw [ht.parts]; simp, ht.blank_before, List.forall_mem_append.mpr ⟨ht.blank_behind, h⟩, ht.first, ht.last,
        fun hNil => absurd hNil hInner⟩
    rw [hMore.trim_eq, ht.trim_eq]

end Text

end Marshal
