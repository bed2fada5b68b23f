import Mathlib.Data.List.Forall2
import Mathlib.Order.Bounds.Defs
import Marshal.Layout

/-! # Layouts in natural numbers

Size, alignment and field offsets of declared types without a bound on the numbers, by the rules of 32-bit layouts.
Every alignment is a power of two up to eight, and of two alignments the smaller divides the larger. So what is placed
at a multiple of the larger one suits the smaller one too, and every part of a value is aligned where the whole is.
-/
set_option autoImplicit false
namespace Marshal

/-! ## Rounding -/

def roundUp (offset align : Nat) : Nat := (offset + align - 1) / align * align

/-- The alignments that types have. -/
def alignments : List Nat := [1, 2, 4, 8]

theorem alignment_pos {a : Nat} (h : a ∈ alignments) : 0 < a := by
  simp only [alignments, List.mem_cons, List.not_mem_nil, or_false] at h
  omega

theorem alignment_le {a : Nat} (h : a ∈ alignments) : a ≤ 8 := by
  simp only [alignments, List.mem_cons, List.not_mem_nil, or_false] at h
  omega

theorem alignment_dvd {a b : Nat} (ha : a ∈ alignments) (hb : b ∈ alignments) (h : a ≤ b) : a ∣ b := by
  have hAll : ∀ a ∈ alignments, ∀ b ∈ alignments, a ≤ b → a ∣ b := by decide
  exact hAll a ha b hb h

theorem roundUp_dvd (offset align : Nat) : align ∣ roundUp offset align := Nat.dvd_mul_left _ _

theorem le_roundUp {offset align : Nat} (h : 0 < align) : offset ≤ roundUp offset align := by
  have hMod := Nat.mod_lt (offset + align - 1) h
  have hDiv := Nat.div_add_mod' (offset + align - 1) align
  unfold roundUp
  omega

theorem roundUp_isLeast {offset align : Nat} (h : 0 < align) :
    IsLeast {n | offset ≤ n ∧ align ∣ n} (roundUp offset align) := by
  refine ⟨⟨le_roundUp h, roundUp_dvd offset align⟩, ?_⟩
  rintro n ⟨hLow, k, rfl⟩
  rw [roundUp, Nat.mul_comm]
  refine Nat.mul_le_mul_left align (Nat.lt_succ_iff.mp ?_)
  rw [Nat.div_lt_iff_lt_mul h, Nat.succ_mul, Nat.mul_comm]
  omega

/-! ## Layouts in natural numbers -/

/-- The shape of a value in memory, in natural numbers. -/
structure Outline where
  size : Nat
  align : Nat
  fields : Option (List (Text × Nat)) := none
deriving DecidableEq

namespace Outline

def scalar (size : Nat) : Outline := { size, align := size }

def address : Outline := scalar 4

def empty : Outline := { size := 0, align := 1 }

def pointerResult : Outline := { size := 8, align := 4, fields := some [("is_ok", 0), ("ok_or_err", 4)] }

def optional (elem : Outline) : Outline :=
  { size := roundUp (elem.size + 1) elem.align, align := elem.align
    fields := some [("val", 0), ("is_some", elem.size)] }

def place (offset : Nat) : List Outline → List Nat × Nat
  | [] => ([], offset)
  | part :: parts =>
    let start := roundUp offset part.align
    let (starts, stop) := place (start + part.size) parts
    (start :: starts, stop)

def maxAlign (parts : List Outline) : Nat := parts.foldl (fun m e => max m e.align) 1

def maxSize (parts : List Outline) : Nat := parts.foldl (fun m e => max m e.size) 0

def sequence (parts : List Outline) : Outline :=
  { size := roundUp (place 0 parts).2 (maxAlign parts), align := maxAlign parts }

def named (names : List Text) (starts : List Nat) : List (Text × Nat) :=
  (names.zip starts).foldl (fun acc f => acc.filter (·.1 ≠ f.1) ++ [f]) []

def record (fields : List (Text × Outline)) : Outline :=
  let parts := fields.map (·.2)
  if fields.isEmpty then sequence parts
  else { sequence parts with fields := some (named (fields.map (·.1)) (place 0 parts).1) }

def payloadAt (tagSize : Nat) (payloads : List Outline) : Nat :=
  roundUp tagSize (max tagSize (maxAlign payloads))

def tagged (tagSize : Nat) (payloads : List Outline) : Outline :=
  { size := roundUp (payloadAt tagSize payloads + maxSize payloads) (max tagSize (maxAlign payloads))
    align := max tagSize (maxAlign payloads) }

def variant (cases : Nat) (payloads : List Outline) : Outline :=
  if cases = 0 then empty else tagged (discriminantSize cases).toNat payloads

def result (payloads : List Outline) : Outline :=
  { tagged 1 payloads with fields := some [("is_ok", 0), ("payload", payloadAt 1 payloads)] }

def flags (count : Nat) : Outline :=
  if count = 0 then empty
  else if count ≤ 8 then scalar 1
  else if count ≤ 16 then scalar 2
  else if count ≤ 32 then scalar 4
  else if count ≤ 64 then scalar 8
  else { size := (count + 31) / 32 * 4, align := 4 }

end Outline

mutual
/-- The exact layout of a type. A reference is one address, whatever it refers to. -/
def Decl.outline : Decl → Outline
  | .absent => .empty
  | .prim p => .scalar p.size.toNat
  | .string => .address
  | .errorContext => .empty
  | .defn _ kind => if kind.isReference then .address else kind.outline

def Kind.outline : Kind → Outline
  | .record fields => .record (fieldOutlines fields)
  | .variant cases => .variant cases.length ((fieldOutlines cases).map (·.2))
  | .enum cases => .scalar (discriminantSize cases).toNat
  | .option elem => if elem.isReference then .address else .optional elem.outline
  | .result ok err =>
    if ok.isReference && err.isReference then .pointerResult else .result [ok.outline, err.outline]
  | .tuple elems => .sequence (outlines elems)
  | .flags count => .flags count
  | .alias target => target.outline
  | _ => .empty

def outlines : List Decl → List Outline
  | [] => []
  | t :: ts => t.outline :: outlines ts

def fieldOutlines : List (Text × Decl) → List (Text × Outline)
  | [] => []
  | f :: fs => fieldOutline f :: fieldOutlines fs

def fieldOutline : Text × Decl → Text × Outline
  | (name, t) => (name, t.outline)
end

theorem fieldOutlines_eq (fs : List (Text × Decl)) : fieldOutlines fs = fs.map fun f => (f.1, f.2.outline) := by
  induction fs with
  | nil => rfl
  | cons f fs ih =>
    obtain ⟨name, t⟩ := f
    rw [fieldOutlines, ih, List.map_cons, fieldOutline]

/-! ## What exact layouts are like -/

namespace Outline

variable {parts : List Outline} {e : Outline}

/-- The alignment is one that types have, and arrays of the shape keep it. -/
structure Sound (e : Outline) : Prop where
  align : e.align ∈ alignments
  multiple : e.align ∣ e.size

theorem scalar_sound {size : Nat} (h : size ∈ alignments) : (scalar size).Sound := ⟨h, Nat.dvd_refl _⟩

theorem empty_sound : empty.Sound := ⟨by decide, by decide⟩

theorem foldl_max {f : Outline → Nat} (parts : List Outline) (n : Nat) :
    n ≤ parts.foldl (fun m e => max m (f e)) n ∧ (∀ e ∈ parts, f e ≤ parts.foldl (fun m e => max m (f e)) n) ∧
      (parts.foldl (fun m e => max m (f e)) n = n ∨ ∃ e ∈ parts, parts.foldl (fun m e => max m (f e)) n = f e) := by
  induction parts generalizing n with
  | nil => exact ⟨Nat.le_refl n, List.forall_mem_nil _, .inl rfl⟩
  | cons e parts ih =>
    obtain ⟨hStart, hAll, hOne⟩ := ih (max n (f e))
    rw [List.foldl_cons]
    refine ⟨by omega, List.forall_mem_cons.mpr ⟨by omega, hAll⟩, ?_⟩
    rcases hOne with hOne | ⟨e', he', hOne⟩
    · rcases Nat.le_total n (f e) with h | h
      · exact .inr ⟨e, List.mem_cons_self, hOne.trans (Nat.max_eq_right h)⟩
      · exact .inl (hOne.trans (Nat.max_eq_left h))
    · exact .inr ⟨e', List.mem_cons_of_mem _ he', hOne⟩

theorem align_le_maxAlign (he : e ∈ parts) : e.align ≤ maxAlign parts := (foldl_max parts 1).2.1 e he

theorem size_le_maxSize (he : e ∈ parts) : e.size ≤ maxSize parts := (foldl_max parts 0).2.1 e he

theorem maxAlign_mem (h : ∀ e ∈ parts, e.align ∈ alignments) : maxAlign parts ∈ alignments := by
  rcases (foldl_max (f := Outline.align) parts 1).2.2 with hOne | ⟨e, he, hOne⟩
  · rw [maxAlign, hOne]
    decide
  · rw [maxAlign, hOne]
    exact h e he

/-- The part lies inside the whole at the offset, and is aligned where the whole is. -/
structure Holds (whole : Outline) (offset : Nat) (part : Outline) : Prop where
  aligned : part.align ∣ offset
  alignedWhole : part.align ∣ whole.align
  within : offset + part.size ≤ whole.size

/-- From `offset` to `stop`, each part starts at the first multiple of its alignment from the end of the part before it
on. -/
inductive Tight : Nat → List Outline → List Nat → Nat → Prop
  | nil (offset : Nat) : Tight offset [] [] offset
  | cons {offset start stop : Nat} {part : Outline} {parts : List Outline} {starts : List Nat}
      (hStart : IsLeast {n | offset ≤ n ∧ part.align ∣ n} start)
      (hRest : Tight (start + part.size) parts starts stop) : Tight offset (part :: parts) (start :: starts) stop

theorem tight_place (h : ∀ e ∈ parts, e.align ∈ alignments) (offset : Nat) :
    Tight offset parts (place offset parts).1 (place offset parts).2 := by
  induction parts generalizing offset with
  | nil => exact .nil offset
  | cons part parts ih =>
    obtain ⟨hPart, hParts⟩ := List.forall_mem_cons.mp h
    exact .cons (roundUp_isLeast (alignment_pos hPart)) (ih hParts _)

variable {offset stop : Nat} {starts : List Nat}

theorem Tight.le (h : Tight offset parts starts stop) : offset ≤ stop := by
  induction h with
  | nil => exact Nat.le_refl _
  | cons hStart _ ih => exact Nat.le_trans hStart.1.1 (Nat.le_trans (Nat.le_add_right _ _) ih)

theorem Tight.length_eq (h : Tight offset parts starts stop) : parts.length = starts.length := by
  induction h with
  | nil => rfl
  | cons _ _ ih => rw [List.length_cons, List.length_cons, ih]

theorem Tight.bounds (h : Tight offset parts starts stop) :
    List.Forall₂ (fun e n => offset ≤ n ∧ e.align ∣ n ∧ n + e.size ≤ stop) parts starts := by
  induction h with
  | nil => exact .nil
  | @cons offset start stop part parts starts hStart hRest ih =>
    refine .cons ⟨hStart.1.1, hStart.1.2, hRest.le⟩ (ih.imp fun e n hn => ?_)
    exact ⟨Nat.le_trans hStart.1.1 (Nat.le_trans (Nat.le_add_right _ _) hn.1), hn.2⟩

theorem Tight.ordered (h : Tight offset parts starts stop) :
    (parts.zip starts).Pairwise fun a b => a.2 + a.1.size ≤ b.2 := by
  induction h with
  | nil => exact .nil
  | cons hStart hRest ih =>
    refine List.pairwise_cons.mpr ⟨fun b hb => ?_, ih⟩
    exact (List.forall₂_iff_zip.mp hRest.bounds).2 hb |>.1

/-- Parts in order inside a whole, each as early as it can be. -/
structure Arranges (whole : Outline) (parts : List Outline) (starts : List Nat) : Prop where
  tight : ∃ stop, Tight 0 parts starts stop ∧ stop ≤ whole.size
  held : List.Forall₂ (fun e n => whole.Holds n e) parts starts
  ordered : (parts.zip starts).Pairwise fun a b => a.2 + a.1.size ≤ b.2

theorem sequence_arranges (h : ∀ e ∈ parts, e.align ∈ alignments) :
    (sequence parts).Arranges parts (place 0 parts).1 := by
  have hTight := tight_place h 0
  have hMax := maxAlign_mem h
  have hStop : (place 0 parts).2 ≤ (sequence parts).size := le_roundUp (alignment_pos hMax)
  refine ⟨⟨_, hTight, hStop⟩, ?_, hTight.ordered⟩
  refine List.forall₂_iff_zip.mpr ⟨hTight.length_eq, fun {e n} hMem => ?_⟩
  obtain ⟨-, hAligned, hEnd⟩ := (List.forall₂_iff_zip.mp hTight.bounds).2 hMem
  have he := (List.of_mem_zip hMem).1
  exact ⟨hAligned, alignment_dvd (h e he) hMax (align_le_maxAlign he), Nat.le_trans hEnd hStop⟩

theorem Holds.setFields {whole : Outline} (h : whole.Holds offset e) (fields : Option (List (Text × Nat))) :
    Holds { whole with fields } offset e :=
  ⟨h.aligned, h.alignedWhole, h.within⟩

theorem size_le_sequence (h : ∀ e ∈ parts, e.align ∈ alignments) (he : e ∈ parts) : e.size ≤ (sequence parts).size := by
  obtain ⟨i, hi, rfl⟩ := List.mem_iff_getElem.mp he
  have hHeld := (sequence_arranges h).held
  have hWithin := (hHeld.get hi (hHeld.length_eq ▸ hi)).within
  exact Nat.le_trans (Nat.le_add_left _ _) hWithin

theorem sequence_sound (h : ∀ e ∈ parts, e.align ∈ alignments) : (sequence parts).Sound :=
  ⟨maxAlign_mem h, roundUp_dvd _ _⟩

/-- A tag at the start of a whole, and room for any of the payloads behind it. -/
structure Tags (whole : Outline) (tagSize payloadAt : Nat) (payloads : List Outline) : Prop where
  tag : tagSize ∣ whole.align
  apart : tagSize ≤ payloadAt
  held : ∀ e ∈ payloads, whole.Holds payloadAt e
  within : payloadAt ≤ whole.size

variable {tagSize : Nat}

theorem tagged_align (hTag : tagSize ∈ alignments) (h : ∀ e ∈ parts, e.align ∈ alignments) :
    (tagged tagSize parts).align ∈ alignments := by
  show max tagSize (maxAlign parts) ∈ alignments
  rcases Nat.le_total tagSize (maxAlign parts) with hLe | hLe
  · rw [Nat.max_eq_right hLe]
    exact maxAlign_mem h
  · rw [Nat.max_eq_left hLe]
    exact hTag

theorem tagged_sound (hTag : tagSize ∈ alignments) (h : ∀ e ∈ parts, e.align ∈ alignments) :
    (tagged tagSize parts).Sound :=
  ⟨tagged_align hTag h, roundUp_dvd _ _⟩

theorem tagged_tags (hTag : tagSize ∈ alignments) (h : ∀ e ∈ parts, e.align ∈ alignments) :
    (tagged tagSize parts).Tags tagSize (payloadAt tagSize parts) parts := by
  have hAlign := tagged_align hTag h
  have hPos := alignment_pos hAlign
  have hSize : payloadAt tagSize parts + maxSize parts ≤ (tagged tagSize parts).size := le_roundUp hPos
  refine ⟨alignment_dvd hTag hAlign (Nat.le_max_left _ _), le_roundUp hPos, fun e he => ?_, by omega⟩
  have hDvd : e.align ∣ (tagged tagSize parts).align :=
    alignment_dvd (h e he) hAlign (Nat.le_trans (align_le_maxAlign he) (Nat.le_max_right _ _))
  exact ⟨Nat.dvd_trans hDvd (roundUp_dvd _ _), hDvd,
    Nat.le_trans (Nat.add_le_add_left (size_le_maxSize he) _) hSize⟩

theorem size_le_tagged (hTag : tagSize ∈ alignments) (h : ∀ e ∈ parts, e.align ∈ alignments)
    (he : e ∈ parts) : e.size ≤ (tagged tagSize parts).size :=
  Nat.le_trans (Nat.le_add_left _ _) ((tagged_tags hTag h).held e he).within

theorem record_size (fields : List (Text × Outline)) : (record fields).size = (sequence (fields.map (·.2))).size := by
  unfold record
  simp only
  split <;> rfl

theorem named_of_nodup {names : List Text} (h : names.Nodup) (hLength : names.length = starts.length) :
    named names starts = names.zip starts := by
  have hFold : ∀ fs acc : List (Text × Nat), ((acc ++ fs).map Prod.fst).Nodup →
      fs.foldl (fun acc f => acc.filter (·.1 ≠ f.1) ++ [f]) acc = acc ++ fs := by
    intro fs
    induction fs with
    | nil => simp
    | cons f fs ih =>
      intro acc hNodup
      have hNew : ∀ g ∈ acc, g.1 ≠ f.1 := by
        intro g hg hEq
        rw [List.map_append, List.nodup_append] at hNodup
        exact hNodup.2.2 _ (List.mem_map_of_mem hg) _ (List.mem_cons_self) hEq
      rw [List.foldl_cons, List.filter_eq_self.mpr (by simpa using hNew), ih _ (by simpa using hNodup)]
      simp
  refine (hFold _ [] ?_).trans (List.nil_append _)
  rwa [List.nil_append, List.map_fst_zip (Nat.le_of_eq hLength)]

theorem record_arranges {fields : List (Text × Outline)} (h : ∀ e ∈ fields.map (·.2), e.align ∈ alignments)
    (hNodup : (fields.map (·.1)).Nodup) :
    (record fields).fields.getD [] = (fields.map (·.1)).zip (place 0 (fields.map (·.2))).1 ∧
      (record fields).Arranges (fields.map (·.2)) (place 0 (fields.map (·.2))).1 := by
  have hArranged := sequence_arranges h
  unfold record
  simp only
  split
  · rename_i hEmpty
    obtain rfl := List.isEmpty_iff.mp hEmpty
    exact ⟨rfl, hArranged⟩
  · obtain ⟨hTight, hHeld, hOrdered⟩ := hArranged
    refine ⟨named_of_nodup hNodup ?_, hTight, hHeld.imp fun e n hn => hn.setFields _, hOrdered⟩
    rw [← hHeld.length_eq, List.length_map, List.length_map]

theorem result_tags (h : ∀ e ∈ parts, e.align ∈ alignments) : (result parts).Tags 1 (payloadAt 1 parts) parts := by
  obtain ⟨hTag, hApart, hHeld, hWithin⟩ := tagged_tags (show 1 ∈ alignments by decide) h
  exact ⟨hTag, hApart, fun e he => (hHeld e he).setFields _, hWithin⟩

theorem optional_sound (h : e.Sound) : (optional e).Sound := ⟨h.align, roundUp_dvd _ _⟩

theorem size_lt_optional (h : e.Sound) : e.size + 1 ≤ (optional e).size := le_roundUp (alignment_pos h.align)

theorem optional_holds (h : e.Sound) : (optional e).Holds 0 e := by
  refine ⟨Nat.dvd_zero _, Nat.dvd_refl _, ?_⟩
  rw [Nat.zero_add]
  exact Nat.le_of_succ_le (size_lt_optional h)

theorem flags_sound (count : Nat) : (flags count).Sound := by
  unfold flags
  split
  · exact empty_sound
  · iterate 4
      split
      · exact scalar_sound (by decide)
    exact ⟨by simp [alignments], Nat.dvd_mul_left _ _⟩

end Outline

theorem discriminantSize_mem (cases : Nat) : (discriminantSize cases).toNat ∈ alignments := by
  unfold discriminantSize
  iterate 2
    split
    · decide
  decide

theorem Primitive.size_mem (p : Primitive) : p.size.toNat ∈ alignments := by
  cases p <;> decide

/-! ## The exact layouts of types -/

mutual
theorem Kind.outline_sound (kind : Kind) : kind.outline.Sound := by
  cases kind with
  | record fields =>
    have hParts : ∀ e ∈ (fieldOutlines fields).map (·.2), e.align ∈ alignments :=
      fun e he => (fieldOutlines_sound fields e he).align
    rw [Kind.outline, Outline.record]
    split
    · exact Outline.sequence_sound hParts
    · exact ⟨(Outline.sequence_sound hParts).align, (Outline.sequence_sound hParts).multiple⟩
  | variant cases =>
    rw [Kind.outline, Outline.variant]
    split
    · exact Outline.empty_sound
    · exact Outline.tagged_sound (discriminantSize_mem _) fun e he => (fieldOutlines_sound cases e he).align
  | enum cases => exact Outline.scalar_sound (discriminantSize_mem cases)
  | option elem =>
    rw [Kind.outline]
    split
    · exact Outline.scalar_sound (by decide)
    · exact Outline.optional_sound (Decl.outline_sound elem)
  | result ok err =>
    rw [Kind.outline]
    split
    · exact ⟨by decide, by decide⟩
    · have hParts : ∀ e ∈ [ok.outline, err.outline], e.align ∈ alignments :=
        List.forall_mem_cons.mpr
          ⟨(Decl.outline_sound ok).align, List.forall_mem_singleton.mpr (Decl.outline_sound err).align⟩
      have hSound := Outline.tagged_sound (show 1 ∈ alignments by decide) hParts
      exact ⟨hSound.align, hSound.multiple⟩
  | tuple elems => exact Outline.sequence_sound fun e he => (outlines_sound elems e he).align
  | flags count => exact Outline.flags_sound count
  | «alias» target => exact Decl.outline_sound target
  | _ => exact Outline.empty_sound

theorem Decl.outline_sound (t : Decl) : t.outline.Sound := by
  cases t with
  | prim p => exact Outline.scalar_sound p.size_mem
  | string => exact Outline.scalar_sound (by decide)
  | defn name kind =>
    rw [Decl.outline]
    split
    · exact Outline.scalar_sound (by decide)
    · exact Kind.outline_sound kind
  | _ => exact Outline.empty_sound

theorem outlines_sound (ts : List Decl) : ∀ e ∈ outlines ts, e.Sound := by
  cases ts with
  | nil => exact List.forall_mem_nil _
  | cons t ts => exact List.forall_mem_cons.mpr ⟨Decl.outline_sound t, outlines_sound ts⟩

theorem fieldOutlines_sound (fields : List (Text × Decl)) : ∀ e ∈ (fieldOutlines fields).map (·.2), e.Sound := by
  cases fields with
  | nil => exact List.forall_mem_nil _
  | cons f fields =>
    obtain ⟨name, t⟩ := f
    exact List.forall_mem_cons.mpr ⟨Decl.outline_sound t, fieldOutlines_sound fields⟩
end

end Marshal
