import Marshal.Proofs.Align
import Marshal.Proofs.Layout.Outline

/-! # Layouts without wrapping

Rounding with a mask is rounding by division when the alignment is a power of two and the sum does not wrap. As long as
the exact size of a type stays eight below the end of the words, no sum on the way to its layout wraps: the parts of a
value are no larger than the whole. The layout in words is then the layout in natural numbers, with all it promises.
-/
set_option autoImplicit false
namespace Marshal

/-! ## Words and numbers agree -/

def Layout.outline (l : Layout) : Outline :=
  { size := l.size.toNat, align := l.align.toNat, fields := l.fields.map fun fs => fs.map fun f => (f.1, f.2.toNat) }

theorem alignTo_toNat (offset : UInt32) {align : UInt32} (hAlign : align.toNat ∈ alignments)
    (hFits : offset.toNat ≤ 2 ^ 32 - 8) : (alignTo offset align).toNat = roundUp offset.toNat align.toNat := by
  have hPow : ∃ k, align.toNat = 2 ^ k := by
    simp only [alignments, List.mem_cons, List.not_mem_nil, or_false] at hAlign
    rcases hAlign with h | h | h | h
    · exact ⟨0, h⟩
    · exact ⟨1, h⟩
    · exact ⟨2, h⟩
    · exact ⟨3, h⟩
  obtain ⟨k, hk⟩ := hPow
  have hPos := alignment_pos hAlign
  have hLe := alignment_le hAlign
  have hNonzero : align ≠ 0 := by
    rintro rfl
    exact absurd hPos (by decide)
  rw [alignTo, if_neg hNonzero, Align.roundUp_toNat hk (by omega), roundUp, hk]

namespace Layout

variable {parts : List Layout}

theorem toNat_foldl_max {f : Layout → UInt32} {g : Outline → Nat} (hfg : ∀ l, (f l).toNat = g l.outline)
    (parts : List Layout) (n : UInt32) :
    (parts.foldl (fun m l => max m (f l)) n).toNat =
      (parts.map outline).foldl (fun m e => max m (g e)) n.toNat := by
  induction parts generalizing n with
  | nil => rfl
  | cons l parts ih => rw [List.foldl_cons, ih, List.map_cons, List.foldl_cons, UInt32.toNat_max, hfg]

theorem maxAlign_toNat (parts : List Layout) : (maxAlign parts).toNat = Outline.maxAlign (parts.map outline) :=
  toNat_foldl_max (fun _ => rfl) parts 1

theorem maxSize_toNat (parts : List Layout) : (maxSize parts).toNat = Outline.maxSize (parts.map outline) :=
  toNat_foldl_max (fun _ => rfl) parts 0

theorem place_toNat (h : ∀ l ∈ parts, l.align.toNat ∈ alignments) (offset : UInt32)
    (hFits : (Outline.place offset.toNat (parts.map outline)).2 ≤ 2 ^ 32 - 8) :
    (place offset parts).1.map UInt32.toNat = (Outline.place offset.toNat (parts.map outline)).1 ∧
      (place offset parts).2.toNat = (Outline.place offset.toNat (parts.map outline)).2 := by
  induction parts generalizing offset with
  | nil => exact ⟨rfl, rfl⟩
  | cons l parts ih =>
    obtain ⟨hAlign, hParts⟩ := List.forall_mem_cons.mp h
    have hOutlines : ∀ e ∈ (l :: parts).map outline, e.align ∈ alignments := by
      intro e he
      obtain ⟨l', hl', rfl⟩ := List.mem_map.mp he
      exact h l' hl'
    have hRise := (Outline.tight_place (List.forall_mem_cons.mp hOutlines).2
      (roundUp offset.toNat l.align.toNat + l.size.toNat)).le
    have hStop :
        (Outline.place (roundUp offset.toNat l.align.toNat + l.size.toNat) (parts.map outline)).2 ≤ 2 ^ 32 - 8 :=
      hFits
    have hOffset : offset.toNat ≤ roundUp offset.toNat l.align.toNat := le_roundUp (alignment_pos hAlign)
    have hStart := alignTo_toNat offset hAlign (by omega)
    have hEnd : (alignTo offset l.align + l.size).toNat = roundUp offset.toNat l.align.toNat + l.size.toNat := by
      rw [UInt32.toNat_add, hStart, Nat.mod_eq_of_lt (by omega)]
    obtain ⟨hStarts, hLast⟩ := ih hParts (alignTo offset l.align + l.size) (by rw [hEnd]; exact hStop)
    rw [hEnd] at hStarts hLast
    refine ⟨?_, hLast⟩
    show (alignTo offset l.align).toNat :: _ = roundUp offset.toNat l.align.toNat :: _
    rw [hStart, hStarts]
    rfl

theorem sequence_outline (h : ∀ l ∈ parts, l.align.toNat ∈ alignments)
    (hFits : (Outline.sequence (parts.map outline)).size ≤ 2 ^ 32 - 8) :
    (sequence parts).outline = Outline.sequence (parts.map outline) := by
  have hMax : (maxAlign parts).toNat ∈ alignments := by
    rw [maxAlign_toNat]
    refine Outline.maxAlign_mem fun e he => ?_
    obtain ⟨l, hl, rfl⟩ := List.mem_map.mp he
    exact h l hl
  have hStop : (Outline.place 0 (parts.map outline)).2 ≤ (Outline.sequence (parts.map outline)).size :=
    le_roundUp (maxAlign_toNat parts ▸ alignment_pos hMax)
  have hPlace := (place_toNat h 0 (Nat.le_trans hStop hFits)).2
  have hSize := alignTo_toNat (place 0 parts).2 hMax (by rw [hPlace]; exact Nat.le_trans hStop hFits)
  rw [hPlace, maxAlign_toNat] at hSize
  simp only [outline, sequence, Outline.sequence, hSize, maxAlign_toNat]
  rfl

theorem named_toNat (names : List Text) (starts : List UInt32) :
    (named names starts).map (fun f => (f.1, f.2.toNat)) = Outline.named names (starts.map UInt32.toNat) := by
  have hFold : ∀ (fs acc : List (Text × UInt32)),
      (fs.foldl (fun acc f => acc.filter (·.1 ≠ f.1) ++ [f]) acc).map (fun f => (f.1, f.2.toNat)) =
        (fs.map fun f => (f.1, f.2.toNat)).foldl (fun acc f => acc.filter (·.1 ≠ f.1) ++ [f])
          (acc.map fun f => (f.1, f.2.toNat)) := by
    intro fs
    induction fs with
    | nil => exact fun _ => rfl
    | cons f fs ih =>
      intro acc
      rw [List.foldl_cons, ih, List.map_cons, List.foldl_cons, List.map_append, List.filter_map]
      rfl
  rw [named, hFold, Outline.named, List.zip_map_right]
  rfl

theorem record_outline {fields : List (Text × Layout)} (h : ∀ f ∈ fields, f.2.align.toNat ∈ alignments)
    (hFits : (Outline.record (fields.map fun f => (f.1, f.2.outline))).size ≤ 2 ^ 32 - 8) :
    (record fields).outline = Outline.record (fields.map fun f => (f.1, f.2.outline)) := by
  have hParts : ∀ l ∈ fields.map (·.2), l.align.toNat ∈ alignments := List.forall_mem_map.mpr h
  have hMap : (fields.map fun f => (f.1, f.2.outline)).map (·.2) = (fields.map (·.2)).map outline := by simp
  have hNames : (fields.map fun f => (f.1, f.2.outline)).map (·.1) = fields.map (·.1) := by simp
  have hSize : (Outline.sequence ((fields.map (·.2)).map outline)).size ≤ 2 ^ 32 - 8 := by
    rwa [← hMap, ← Outline.record_size]
  have hShape := sequence_outline hParts hSize
  unfold record Outline.record
  simp only [List.isEmpty_map, hMap, hNames]
  split
  · exact hShape
  · have hMax : 0 < Outline.maxAlign ((fields.map (·.2)).map outline) := by
      refine alignment_pos (Outline.maxAlign_mem (List.forall_mem_map.mpr hParts))
    have hStop := Nat.le_trans (le_roundUp hMax) hSize
    have hStarts := (place_toNat hParts 0 hStop).1
    have hSized := congrArg Outline.size hShape
    have hAligned := congrArg Outline.align hShape
    simp only [outline, Option.map_some, named_toNat, hStarts] at hSized hAligned ⊢
    rw [hSized, hAligned]
    rfl

theorem tagged_outline {tagSize : UInt32} (hTag : tagSize.toNat ∈ alignments)
    (h : ∀ l ∈ parts, l.align.toNat ∈ alignments)
    (hFits : (Outline.tagged tagSize.toNat (parts.map outline)).size ≤ 2 ^ 32 - 8) :
    (tagged tagSize parts).1.outline = Outline.tagged tagSize.toNat (parts.map outline) ∧
      (tagged tagSize parts).2.toNat = Outline.payloadAt tagSize.toNat (parts.map outline) := by
  have hParts : ∀ e ∈ parts.map outline, e.align ∈ alignments := List.forall_mem_map.mpr h
  have hMax : (max tagSize (maxAlign parts)).toNat = max tagSize.toNat (Outline.maxAlign (parts.map outline)) := by
    rw [UInt32.toNat_max, maxAlign_toNat]
  have hAlign : (max tagSize (maxAlign parts)).toNat ∈ alignments := hMax ▸ Outline.tagged_align hTag hParts
  have hPos := alignment_pos (Outline.tagged_align hTag hParts)
  have hEnd : Outline.payloadAt tagSize.toNat (parts.map outline) + Outline.maxSize (parts.map outline) ≤ 2 ^ 32 - 8 :=
    Nat.le_trans (le_roundUp hPos) hFits
  have hAt : (tagged tagSize parts).2.toNat = Outline.payloadAt tagSize.toNat (parts.map outline) := by
    show (alignTo tagSize (max tagSize (maxAlign parts))).toNat = _
    rw [alignTo_toNat _ hAlign (by have := alignment_le hTag; omega), hMax]
    rfl
  have hSum : ((tagged tagSize parts).2 + maxSize parts).toNat =
      Outline.payloadAt tagSize.toNat (parts.map outline) + Outline.maxSize (parts.map outline) := by
    rw [UInt32.toNat_add, hAt, maxSize_toNat, Nat.mod_eq_of_lt (by omega)]
  have hSize : (tagged tagSize parts).1.size.toNat = (Outline.tagged tagSize.toNat (parts.map outline)).size := by
    show (alignTo ((tagged tagSize parts).2 + maxSize parts) (max tagSize (maxAlign parts))).toNat = _
    rw [alignTo_toNat _ hAlign (by rw [hSum]; exact hEnd), hSum, hMax]
    rfl
  refine ⟨?_, hAt⟩
  rw [outline, hSize, show (tagged tagSize parts).1.align = max tagSize (maxAlign parts) from rfl, hMax]
  rfl

theorem variant_outline {cases : Nat} (h : ∀ l ∈ parts, l.align.toNat ∈ alignments)
    (hFits : (Outline.variant cases (parts.map outline)).size ≤ 2 ^ 32 - 8) :
    (variant cases parts).outline = Outline.variant cases (parts.map outline) := by
  unfold variant Outline.variant at *
  split
  · rfl
  · rename_i hCases
    rw [if_neg hCases] at hFits
    exact (tagged_outline (discriminantSize_mem cases) h hFits).1

theorem result_outline (h : ∀ l ∈ parts, l.align.toNat ∈ alignments)
    (hFits : (Outline.result (parts.map outline)).size ≤ 2 ^ 32 - 8) :
    (result parts).outline = Outline.result (parts.map outline) := by
  obtain ⟨hShape, hAt⟩ := tagged_outline (show (1 : UInt32).toNat ∈ alignments by decide) h hFits
  have hSized := congrArg Outline.size hShape
  have hAligned := congrArg Outline.align hShape
  simp only [outline, result, Option.map_some, List.map_cons, List.map_nil, hAt] at hSized hAligned ⊢
  rw [hSized, hAligned]
  rfl

theorem optional_outline {size align : UInt32} (h : align.toNat ∈ alignments)
    (hFits : (Outline.optional { size := size.toNat, align := align.toNat }).size ≤ 2 ^ 32 - 8) :
    (optional size align).outline = Outline.optional { size := size.toNat, align := align.toNat } := by
  have hNonzero : align ≠ 0 := by
    rintro rfl
    exact absurd (alignment_pos h) (by decide)
  have hEnd : size.toNat + 1 ≤ 2 ^ 32 - 8 := Nat.le_trans (le_roundUp (alignment_pos h)) hFits
  have hSum : (size + 1).toNat = size.toNat + 1 := by
    rw [UInt32.toNat_add, show (1 : UInt32).toNat = 1 from rfl, Nat.mod_eq_of_lt (by omega)]
  have hSize := alignTo_toNat (size + 1) h (by omega)
  simp only [outline, optional, Outline.optional, if_neg hNonzero, hSize, hSum]
  rfl

theorem flags_outline {count : Nat} (hFits : (Outline.flags count).size < 2 ^ 32) :
    (flags count).outline = Outline.flags count := by
  unfold flags Outline.flags at *
  iterate 5
    split
    · rfl
  rename_i h₀ h₁ h₂ h₃ h₄
  rw [if_neg h₀, if_neg h₁, if_neg h₂, if_neg h₃, if_neg h₄] at hFits
  simp only [outline, UInt32.toNat_ofNat_of_lt' hFits]
  rfl

end Layout

/-! ## The layouts of types -/

theorem fieldLayouts_eq (fs : List (Text × Decl)) : fieldLayouts fs = fs.map fun f => (f.1, f.2.layout) := by
  induction fs with
  | nil => rfl
  | cons f fs ih =>
    obtain ⟨name, t⟩ := f
    rw [fieldLayouts, ih, List.map_cons, fieldLayout]

theorem payloadLayouts_eq (cs : List (Text × Decl)) : payloadLayouts cs = (fieldLayouts cs).map (·.2) := by
  induction cs with
  | nil => rfl
  | cons c cs ih =>
    obtain ⟨name, t⟩ := c
    rw [payloadLayouts, ih, fieldLayouts, List.map_cons, payloadLayout, fieldLayout]

mutual
theorem Kind.layout_of_isReference (kind : Kind) (h : kind.isReference = true) : kind.layout = .address := by
  cases kind with
  | list elem => rfl
  | own target => rfl
  | borrow target => rfl
  | resource => rfl
  | «alias» target => exact Decl.layout_of_isReference target h
  | _ => cases h

theorem Decl.layout_of_isReference (t : Decl) (h : t.isReference = true) : t.layout = .address := by
  cases t with
  | string => rfl
  | defn name kind => exact Kind.layout_of_isReference kind h
  | _ => cases h
end

theorem aligned_of_outlines {ls : List Layout} {es : List Outline} (h : ls.map Layout.outline = es)
    (hes : ∀ e ∈ es, e.Sound) : ∀ l ∈ ls, l.align.toNat ∈ alignments := by
  intro l hl
  exact (hes l.outline (h ▸ List.mem_map_of_mem hl)).align

theorem outlines_of_fields {fs : List (Text × Layout)} {es : List (Text × Outline)}
    (h : fs.map (fun f => (f.1, f.2.outline)) = es) : (fs.map (·.2)).map Layout.outline = es.map (·.2) := by
  rw [← h, List.map_map, List.map_map]
  rfl

mutual
/-- By induction on the type: a part is no larger than the whole, so that the bound is passed on inwards. -/
theorem Kind.layout_outline (kind : Kind) (hRef : kind.isReference = false) (h : kind.outline.size ≤ 2 ^ 32 - 8) :
    kind.layout.outline = kind.outline := by
  cases kind with
  | record fields =>
    have hParts : ∀ e ∈ (fieldOutlines fields).map (·.2), e.Sound := fieldOutlines_sound fields
    rw [Kind.outline] at h ⊢
    have hSize := Outline.record_size (fieldOutlines fields) ▸ h
    have hFields := fieldLayouts_outline fields fun e he =>
      Nat.le_trans (Outline.size_le_sequence (fun e he => (hParts e he).align) he) hSize
    have hAligned := aligned_of_outlines (outlines_of_fields hFields) hParts
    rw [← hFields] at h ⊢
    exact Layout.record_outline (fun f hf => hAligned f.2 (List.mem_map_of_mem hf)) h
  | variant cases =>
    have hParts : ∀ e ∈ (fieldOutlines cases).map (·.2), e.Sound := fieldOutlines_sound cases
    have hAligned : ∀ e ∈ (fieldOutlines cases).map (·.2), e.align ∈ alignments := fun e he => (hParts e he).align
    have hSizes : ∀ e ∈ (fieldOutlines cases).map (·.2), e.size ≤ 2 ^ 32 - 8 := by
      intro e he
      have hCases : cases.length ≠ 0 := by
        rintro hNone
        rw [List.length_eq_zero_iff.mp hNone] at he
        cases he
      rw [Kind.outline, Outline.variant, if_neg hCases] at h
      exact Nat.le_trans (Outline.size_le_tagged (discriminantSize_mem _) hAligned he) h
    have hLayouts := outlines_of_fields (fieldLayouts_outline cases hSizes)
    rw [Kind.layout, payloadLayouts_eq]
    rw [Kind.outline, ← hLayouts] at h ⊢
    exact Layout.variant_outline (aligned_of_outlines hLayouts hParts) h
  | enum cases => rfl
  | option elem =>
    rw [Kind.layout]
    rw [Kind.outline] at h ⊢
    split
    · rfl
    · rename_i hElem
      rw [if_neg hElem] at h
      have hSound := Decl.outline_sound elem
      have hInner := Decl.layout_outline elem (Nat.le_trans (by have := Outline.size_lt_optional hSound; omega) h)
      rw [← hInner] at h hSound ⊢
      exact Layout.optional_outline hSound.align h
  | result ok err =>
    rw [Kind.layout]
    rw [Kind.outline] at h ⊢
    split
    · rfl
    · rename_i hSides
      rw [if_neg hSides] at h
      have hParts : ∀ e ∈ [ok.outline, err.outline], e.Sound :=
        List.forall_mem_cons.mpr ⟨Decl.outline_sound ok, List.forall_mem_singleton.mpr (Decl.outline_sound err)⟩
      have hSizes : ∀ e ∈ [ok.outline, err.outline], e.size ≤ 2 ^ 32 - 8 := fun e he =>
        Nat.le_trans (Outline.size_le_tagged (show 1 ∈ alignments by decide) (fun e he => (hParts e he).align) he) h
      have hLayouts : [ok.layout, err.layout].map Layout.outline = [ok.outline, err.outline] := by
        rw [List.map_cons, List.map_cons, List.map_nil, Decl.layout_outline ok (hSizes _ (.head _)),
          Decl.layout_outline err (hSizes _ (.tail _ (.head _)))]
      rw [← hLayouts] at h ⊢
      exact Layout.result_outline (aligned_of_outlines hLayouts hParts) h
  | tuple elems =>
    have hParts : ∀ e ∈ outlines elems, e.Sound := outlines_sound elems
    rw [Kind.outline] at h ⊢
    have hElems := layouts_outline elems fun e he =>
      Nat.le_trans (Outline.size_le_sequence (fun e he => (hParts e he).align) he) h
    rw [Kind.layout]
    rw [← hElems] at h ⊢
    exact Layout.sequence_outline (aligned_of_outlines hElems hParts) h
  | flags count => exact Layout.flags_outline (Nat.lt_of_le_of_lt h (by decide))
  | «alias» target => exact Decl.layout_outline target h
  | stream elem => rfl
  | future elem => rfl
  | unspecified => rfl
  | _ => cases hRef

theorem Decl.layout_outline (t : Decl) (h : t.outline.size ≤ 2 ^ 32 - 8) : t.layout.outline = t.outline := by
  cases t with
  | defn name kind =>
    rw [Decl.layout]
    rw [Decl.outline] at h ⊢
    split
    · rename_i hRef
      rw [Kind.layout_of_isReference kind hRef]
      rfl
    · rename_i hRef
      rw [if_neg hRef] at h
      exact Kind.layout_outline kind (Bool.eq_false_iff.mpr hRef) h
  | _ => rfl

theorem layouts_outline (ts : List Decl) (h : ∀ e ∈ outlines ts, e.size ≤ 2 ^ 32 - 8) :
    (layouts ts).map Layout.outline = outlines ts := by
  cases ts with
  | nil => rfl
  | cons t ts =>
    obtain ⟨hFirst, hRest⟩ := List.forall_mem_cons.mp h
    rw [layouts, outlines, List.map_cons, Decl.layout_outline t hFirst, layouts_outline ts hRest]

theorem fieldLayouts_outline (fields : List (Text × Decl))
    (h : ∀ e ∈ (fieldOutlines fields).map (·.2), e.size ≤ 2 ^ 32 - 8) :
    (fieldLayouts fields).map (fun f => (f.1, f.2.outline)) = fieldOutlines fields := by
  cases fields with
  | nil => rfl
  | cons f fields =>
    obtain ⟨name, t⟩ := f
    obtain ⟨hFirst, hRest⟩ := List.forall_mem_cons.mp h
    rw [fieldLayouts, fieldOutlines, List.map_cons, fieldLayouts_outline fields hRest, fieldLayout, fieldOutline,
      Decl.layout_outline t hFirst]
end

/-- What the layout of a type promises, in numbers that do not wrap. -/
structure Decl.LaidOut (t : Decl) : Prop where
  exactly : t.layout.outline = t.outline
  align : t.layout.align.toNat ∈ alignments
  multiple : t.layout.align.toNat ∣ t.layout.size.toNat
  reference : t.isReference = true → t.layout.outline = .address
  /-- The fields of a record in the order of their declaration. -/
  record : ∀ name fields, t = .defn name (.record fields) → (fields.map (·.1)).Nodup →
    ∃ starts, t.layout.outline.fields.getD [] = (fields.map (·.1)).zip starts ∧
      t.layout.outline.Arranges (fields.map fun f => f.2.layout.outline) starts
  variant : ∀ name cases, t = .defn name (.variant cases) → cases ≠ [] →
    ∃ payloadAt, t.layout.outline.Tags (discriminantSize cases.length).toNat payloadAt
      (cases.map fun c => c.2.layout.outline)
  /-- The value first, then the flag. -/
  option : ∀ name elem, t = .defn name (.option elem) → elem.isReference = false →
    t.layout.outline.fields = (some [("val", 0), ("is_some", elem.layout.size.toNat)] : Option (List (Text × Nat))) ∧
      t.layout.outline.Holds 0 elem.layout.outline ∧ elem.layout.size.toNat + 1 ≤ t.layout.size.toNat
  result : ∀ name ok err, t = .defn name (.result ok err) →
    ∃ key payloadAt, t.layout.outline.fields = (some [("is_ok", 0), (key, payloadAt)] : Option (List (Text × Nat))) ∧
      t.layout.outline.Tags 1 payloadAt [ok.layout.outline, err.layout.outline]

namespace Decl

variable {name : Option Text}

theorem laidOut_record {fields : List (Text × Decl)} (h : (defn name (.record fields)).outline.size ≤ 2 ^ 32 - 8)
    (hNodup : (fields.map (·.1)).Nodup) :
    ∃ starts, (defn name (.record fields)).layout.outline.fields.getD [] = (fields.map (·.1)).zip starts ∧
      (defn name (.record fields)).layout.outline.Arranges (fields.map fun f => f.2.layout.outline) starts := by
  have hAligned : ∀ e ∈ (fieldOutlines fields).map (·.2), e.align ∈ alignments :=
    fun e he => (fieldOutlines_sound fields e he).align
  have hSize : (Outline.sequence ((fieldOutlines fields).map (·.2))).size ≤ 2 ^ 32 - 8 := Outline.record_size _ ▸ h
  have hFields := fieldLayouts_outline fields fun e he => Nat.le_trans (Outline.size_le_sequence hAligned he) hSize
  have hNames : (fieldOutlines fields).map (·.1) = fields.map (·.1) := by simp [fieldOutlines_eq]
  have hParts : (fields.map fun f => f.2.layout.outline) = (fieldOutlines fields).map (·.2) := by
    rw [← hFields, fieldLayouts_eq]
    simp
  rw [layout_outline _ h, hParts, ← hNames]
  exact ⟨_, Outline.record_arranges hAligned (hNames ▸ hNodup)⟩

theorem laidOut_variant {cases : List (Text × Decl)} (h : (defn name (.variant cases)).outline.size ≤ 2 ^ 32 - 8)
    (hCases : cases ≠ []) :
    ∃ payloadAt, (defn name (.variant cases)).layout.outline.Tags (discriminantSize cases.length).toNat payloadAt
      (cases.map fun c => c.2.layout.outline) := by
  have hAligned : ∀ e ∈ (fieldOutlines cases).map (·.2), e.align ∈ alignments :=
    fun e he => (fieldOutlines_sound cases e he).align
  have hOutline : (defn name (.variant cases)).outline =
      Outline.tagged (discriminantSize cases.length).toNat ((fieldOutlines cases).map (·.2)) :=
    if_neg (mt List.length_eq_zero_iff.mp hCases)
  have hTag := discriminantSize_mem cases.length
  have hFields := fieldLayouts_outline cases fun e he =>
    Nat.le_trans (Outline.size_le_tagged hTag hAligned he) (hOutline ▸ h)
  have hParts : (cases.map fun c => c.2.layout.outline) = (fieldOutlines cases).map (·.2) := by
    rw [← hFields, fieldLayouts_eq]
    simp
  rw [layout_outline _ h, hParts, hOutline]
  exact ⟨_, Outline.tagged_tags hTag hAligned⟩

theorem laidOut_option {elem : Decl} (h : (defn name (.option elem)).outline.size ≤ 2 ^ 32 - 8)
    (hElem : elem.isReference = false) :
    (defn name (.option elem)).layout.outline = Outline.optional elem.layout.outline ∧ elem.layout.outline.Sound := by
  have hOutline : (defn name (.option elem)).outline = Outline.optional elem.outline :=
    if_neg (Bool.eq_false_iff.mp hElem)
  have hSound := outline_sound elem
  have hInner := layout_outline elem (Nat.le_trans (Nat.le_of_succ_le (Outline.size_lt_optional hSound)) (hOutline ▸ h))
  rw [layout_outline _ h, hOutline, hInner]
  exact ⟨rfl, hSound⟩

theorem laidOut_result {ok err : Decl} (h : (defn name (.result ok err)).outline.size ≤ 2 ^ 32 - 8) :
    ∃ key payloadAt, (defn name (.result ok err)).layout.outline.fields =
        (some [("is_ok", 0), (key, payloadAt)] : Option (List (Text × Nat))) ∧
      (defn name (.result ok err)).layout.outline.Tags 1 payloadAt [ok.layout.outline, err.layout.outline] := by
  by_cases hSides : (ok.isReference && err.isReference) = true
  · obtain ⟨hOk, hErr⟩ := Bool.and_eq_true_iff.mp hSides
    have hLayout : (defn name (.result ok err)).layout = .pointerResult := if_pos hSides
    rw [hLayout, layout_of_isReference ok hOk, layout_of_isReference err hErr]
    have hHolds : Layout.pointerResult.outline.Holds 4 Layout.address.outline := ⟨by decide, by decide, by decide⟩
    exact ⟨_, _, rfl, by decide, by decide,
      List.forall_mem_cons.mpr ⟨hHolds, List.forall_mem_singleton.mpr hHolds⟩, by decide⟩
  · have hOutline : (defn name (.result ok err)).outline = Outline.result [ok.outline, err.outline] := if_neg hSides
    have hAligned : ∀ e ∈ [ok.outline, err.outline], e.align ∈ alignments := List.forall_mem_cons.mpr
      ⟨(outline_sound ok).align, List.forall_mem_singleton.mpr (outline_sound err).align⟩
    have hTags := Outline.result_tags hAligned
    have hSizes : ∀ e ∈ [ok.outline, err.outline], e.size ≤ 2 ^ 32 - 8 := fun e he =>
      Nat.le_trans (Nat.le_trans (Nat.le_add_left _ _) (hTags.held e he).within) (hOutline ▸ h)
    rw [layout_outline _ h, hOutline, layout_outline ok (hSizes _ (.head _)),
      layout_outline err (hSizes _ (.tail _ (.head _)))]
    exact ⟨_, _, rfl, hTags⟩

/-- A layout that is small enough in natural numbers is the layout in words. -/
theorem layout_exact (t : Decl) (h : t.outline.size < 2 ^ 32 - 8) : t.LaidOut := by
  have hFits := Nat.le_of_lt h
  have hExact := layout_outline t hFits
  have hSound := outline_sound t
  rw [← hExact] at hSound
  refine ⟨hExact, hSound.align, hSound.multiple, ?_, ?_, ?_, ?_, ?_⟩
  · intro hRef
    rw [layout_of_isReference t hRef]
    rfl
  · rintro name fields rfl hNodup
    exact laidOut_record hFits hNodup
  · rintro name cases rfl hCases
    exact laidOut_variant hFits hCases
  · rintro name elem rfl hElem
    obtain ⟨hOption, hInner⟩ := laidOut_option hFits hElem
    have hFlag := Outline.size_lt_optional hInner
    rw [← hOption] at hFlag
    refine ⟨?_, ?_, hFlag⟩
    · rw [hOption]
      rfl
    · rw [hOption]
      exact Outline.optional_holds hInner
  · rintro name ok err rfl
    exact laidOut_result hFits

/-- Scalars, a list, an option and a choice with a payload, each with another alignment. -/
def mixedRecord : Decl :=
  .defn (some "mixed") (.record
    [("flag", .prim .bool), ("names", .defn none (.list .string)), ("last", .defn none (.option (.prim .u64))),
      ("pick", .defn none (.variant [("none", .absent), ("some", .defn none (.tuple [.prim .u8, .prim .u16]))]))])

theorem layout_exact_mixedRecord :
    mixedRecord.outline.size < 2 ^ 32 - 8 ∧ mixedRecord.LaidOut ∧
      mixedRecord.layout.outline =
        { size := 32, align := 8, fields := some [("flag", 0), ("names", 4), ("last", 8), ("pick", 24)] } :=
  ⟨by decide, layout_exact mixedRecord (by decide), by decide⟩

end Decl

end Marshal
