import Marshal.Proofs.Signature.Commas

/-! # Signatures are read as they are written

A signature is written from the name of a function, its parameters and its result, each type in any of its
renderings. Reading it gives them back, with the types as they are read one by one and the texts of the types trimmed.
Parameters of one name are always refused.
-/
set_option autoImplicit false
namespace Marshal

open TypeExpr

/-! ## Writing -/

def marks : List Char := [':', ',', '(', ')', '<', '>']

namespace Param

def text (p : Param) : Text := p.name ++ ": " ++ p.written

def trimmed (p : Param) : Param := { p with written := Text.trim p.written }

structure Writable (names : List Text) (p : Param) : Prop where
  utf8 : Text.isUtf8 p.name = true
  nonempty : p.name ≠ []
  plain : ∀ c ∈ Text.chars p.name, Text.isBlank c = false ∧ c ∉ marks
  rendering : Rendering names p.type p.written

end Param

/-- How a result is written: not at all, as the empty tuple, or as a type. -/
inductive ResultText where
  | omitted
  | unit
  | type (t : Decl) (written : Text)

namespace ResultText

def text : ResultText → Text
  | omitted => []
  | unit => " -> ()"
  | type _ written => " -> " ++ written

def decl : ResultText → Decl
  | type t _ => t
  | _ => .absent

def trimmed : ResultText → Text
  | type _ written => Text.trim written
  | _ => []

def Writable (names : List Text) : ResultText → Prop
  | type t written => Rendering names t written
  | _ => True

end ResultText

structure Wording where
  name : Text
  params : List Param
  result : ResultText
  semicolon : Bool

namespace Wording

def isFunctionName : Text → Bool
  | [] => false
  | b :: rest => Signature.isNameStart b && rest.all isNameByte

structure Writable (names : List Text) (w : Wording) : Prop where
  name : isFunctionName w.name = true
  params : ∀ p ∈ w.params, p.Writable names
  result : w.result.Writable names

def paramsText (w : Wording) : Text := Text.join ", " (w.params.map Param.text)

def ending (w : Wording) : Text := if w.semicolon then ";" else []

def text (w : Wording) : Text := w.name ++ ": func(" ++ w.paramsText ++ ")" ++ w.result.text ++ w.ending

def signature (w : Wording) : Signature :=
  { name := w.name, params := w.params.map Param.trimmed, result := w.result.decl, resultWritten := w.result.trimmed }

end Wording

/-! ## Types without the blanks around them -/

namespace Text

theorem trim_of_ends {cs : List Char} (hFirst : ∀ c, cs.head? = some c → isBlank c = false)
    (hLast : ∀ c, cs.getLast? = some c → isBlank c = false) : trim (ofChars cs) = ofChars cs :=
  Trims.trim_eq ⟨by simp, List.forall_mem_nil _, List.forall_mem_nil _, hFirst, hLast, fun _ => rfl⟩

end Text

namespace TypeExpr

theorem isBlank_of_isSpace {b : UInt8} (h : isSpace b = true) : Text.isBlank (Char.ofNat b.toNat) = true := by
  have hCode : b = 32 ∨ b = 9 := by simpa [isSpace] using h
  rcases hCode with rfl | rfl <;> decide

theorem isBlank_of_token {b : UInt8} (h : isNameByte b = true ∨ b = 62) :
    Text.isBlank (Char.ofNat b.toNat) = false := by
  have hCode : 32 < b.toNat ∧ b.toNat < 128 := by
    rw [isNameByte_iff, ← UInt8.toNat_inj, show (62 : UInt8).toNat = 62 from rfl] at h
    omega
  simp only [Text.isBlank, Text.toNat_ofNat (.inl (show b.toNat < 55296 by omega))]
  simp
  omega

theorem blanks_eq {blanks : Text} (h : blanks.all isSpace = true) :
    ∃ cs, blanks = Text.ofChars cs ∧ ∀ c ∈ cs, Text.isBlank c = true := by
  have hBlanks := List.all_eq_true.mp h
  refine ⟨_, (Text.ofChars_ascii fun b hb => ?_).symm,
    List.forall_mem_map.mpr fun b hb => isBlank_of_isSpace (hBlanks b hb)⟩
  have hCode := isSpace_iff.mp (hBlanks b hb)
  omega

theorem trim_append_blanks {t blanks : Text} (ht : Text.isUtf8 t = true) (h : blanks.all isSpace = true) :
    Text.trim (t ++ blanks) = Text.trim t := by
  obtain ⟨cs, rfl⟩ := Text.isUtf8_iff.mp ht
  obtain ⟨ds, rfl, hBlank⟩ := blanks_eq h
  rw [← Text.ofChars_append, Text.trim_append_blank hBlank]

theorem trim_blanks_append {t blanks : Text} (ht : Text.isUtf8 t = true) (h : blanks.all isSpace = true) :
    Text.trim (blanks ++ t) = Text.trim t := by
  obtain ⟨cs, rfl⟩ := Text.isUtf8_iff.mp ht
  obtain ⟨ds, rfl, hBlank⟩ := blanks_eq h
  rw [← Text.ofChars_append, Text.trim_blank_append hBlank]

variable {names : List Text} {t : Decl} {source core : Text}

namespace Framed

theorem utf8 (h : Framed names t source core) : Text.isUtf8 core = true :=
  Text.isUtf8_of_ascii fun b hb => lt_of_isTypeByte (h.bytes b hb)

theorem chars_eq (h : Framed names t source core) : Text.chars core = core.map fun b => Char.ofNat b.toNat := by
  have hChars := Text.ofChars_ascii fun b hb => lt_of_isTypeByte (h.bytes b hb)
  rw [← hChars, Text.chars_ofChars, hChars]

theorem getLast_nonblank (h : Framed names t source core) :
    ∀ c, (Text.chars core).getLast? = some c → Text.isBlank c = false := by
  intro c hc
  obtain ⟨rest, b, hCore, hb⟩ := h.last
  rw [h.chars_eq, hCore, List.map_append, List.map_singleton, List.getLast?_concat] at hc
  rw [← Option.some.inj hc]
  exact isBlank_of_token hb

theorem head_nonblank (h : Framed names t source core) :
    ∀ c, (Text.chars core).head? = some c → Text.isBlank c = false := by
  intro c hc
  obtain ⟨b, rest, hCore, hb⟩ := h.first
  rw [h.chars_eq, hCore, List.map_cons, List.head?_cons] at hc
  rw [← Option.some.inj hc]
  exact isBlank_of_token (.inl (by rw [isNameByte, hb]; rfl))

theorem trim_core (h : Framed names t source core) : Text.trim core = core := by
  have hTrim := Text.trim_of_ends h.head_nonblank h.getLast_nonblank
  rwa [Text.ofChars_chars h.utf8] at hTrim

theorem exists_parts (h : Framed names t source core) : ∃ before behind, source = before ++ core ++ behind ∧
    before.all isSpace = true ∧ behind.all isSpace = true ∧ Text.isUtf8 (before ++ core) = true := by
  obtain ⟨before, behind, rfl, hBefore, hBehind⟩ := h.parts
  obtain ⟨cs, hChars, -⟩ := blanks_eq hBefore
  exact ⟨before, behind, rfl, hBefore, hBehind, Text.isUtf8_append (hChars ▸ Text.isUtf8_ofChars cs) h.utf8⟩

theorem trim_source (h : Framed names t source core) : Text.trim source = core := by
  obtain ⟨before, behind, rfl, hBefore, hBehind, hUtf8⟩ := h.exists_parts
  rw [trim_append_blanks hUtf8 hBehind, trim_blanks_append h.utf8 hBefore, h.trim_core]

theorem source_bytes (h : Framed names t source core) : ∀ b ∈ source, isTypeByte b = true := by
  obtain ⟨before, behind, rfl, hBefore, hBehind⟩ := h.parts
  have hSpace : ∀ blanks : Text, blanks.all isSpace = true → ∀ b ∈ blanks, isTypeByte b = true :=
    fun blanks hBlanks b hb => isTypeByte_iff.mpr (.inr (.inl (List.all_eq_true.mp hBlanks b hb)))
  exact List.forall_mem_append.mpr
    ⟨List.forall_mem_append.mpr ⟨hSpace _ hBefore, h.bytes⟩, hSpace _ hBehind⟩

theorem source_utf8 (h : Framed names t source core) : Text.isUtf8 source = true :=
  Text.isUtf8_of_ascii fun b hb => lt_of_isTypeByte (h.source_bytes b hb)

theorem source_solid (h : Framed names t source core) : Signature.Solid 0 0 (Text.chars source) := by
  have hChars := Text.ofChars_ascii fun b hb => lt_of_isTypeByte (h.source_bytes b hb)
  rw [← hChars, Text.chars_ofChars]
  obtain ⟨before, behind, rfl, hBefore, hBehind⟩ := h.parts
  obtain ⟨tokens, hSpelled, hWalks⟩ := h.walks
  have hSpace : ∀ blanks : Text, blanks.all isSpace = true →
      Signature.Solid 0 0 (blanks.map fun b => Char.ofNat b.toNat) :=
    fun blanks hBlanks => Signature.solid_bytes (fun b hb => .inr (List.all_eq_true.mp hBlanks b hb)) 0
  rw [List.map_append, List.map_append]
  exact ((hSpace _ hBefore).append (Signature.solid_of_walks hWalks hSpelled)).append (hSpace _ hBehind)

end Framed

end TypeExpr

/-! ## Parameters -/

namespace Param.Writable

variable {names : List Text} {p : Param}

theorem not_mem_name (h : p.Writable names) {b : UInt8} (hb : b.toNat < 128) (hMark : Char.ofNat b.toNat ∈ marks) :
    b ∉ p.name :=
  fun hMem => (h.plain _ (Text.mem_chars_of_mem h.utf8 hb hMem)).2 hMark

theorem solid_name (h : p.Writable names) : Signature.Solid 0 0 (Text.chars p.name) := by
  refine Signature.solid_plain (fun c hc => ?_) 0
  have hMarks := (h.plain c hc).2
  simp only [marks, List.mem_cons, List.not_mem_nil, or_false, not_or] at hMarks
  simp [Signature.nesting, hMarks]

theorem utf8_text (h : p.Writable names) : Text.isUtf8 p.text = true := by
  obtain ⟨core, hCore⟩ := h.rendering.exists_framed
  exact Text.isUtf8_append (Text.isUtf8_append h.utf8 rfl) hCore.source_utf8

theorem solid_text (h : p.Writable names) : Signature.Solid 0 0 (Text.chars p.text) := by
  obtain ⟨core, hCore⟩ := h.rendering.exists_framed
  have hColon : Signature.Solid 0 0 (Text.chars ": ") :=
    Signature.solid_plain (List.forall_mem_cons.mpr ⟨by decide, List.forall_mem_singleton.mpr (by decide)⟩) 0
  rw [text, Text.chars_append (Text.isUtf8_append h.utf8 rfl), Text.chars_append h.utf8]
  exact (h.solid_name.append hColon).append hCore.source_solid

theorem not_mem_text (h : p.Writable names) : 41 ∉ p.text := by
  obtain ⟨core, hCore⟩ := h.rendering.exists_framed
  rw [text, List.mem_append, List.mem_append, not_or, not_or]
  refine ⟨⟨h.not_mem_name (by decide) (by decide), by decide⟩, fun hMem => ?_⟩
  exact absurd (hCore.source_bytes 41 hMem) (by decide)

theorem trim_text (h : p.Writable names) :
    ∃ rest, Text.trim p.text = p.name ++ 58 :: rest ∧ Text.trim rest = Text.trim p.written := by
  obtain ⟨core, hCore⟩ := h.rendering.exists_framed
  obtain ⟨before, behind, hWritten, hBefore, hBehind, hUtf8⟩ := hCore.exists_parts
  have hFront : Text.isUtf8 (p.name ++ ": " ++ before) = true := by
    obtain ⟨cs, hChars, -⟩ := blanks_eq hBefore
    exact Text.isUtf8_append (Text.isUtf8_append h.utf8 rfl) (hChars ▸ Text.isUtf8_ofChars cs)
  have hWhole : Text.isUtf8 (p.name ++ ": " ++ before ++ core) = true := Text.isUtf8_append hFront hCore.utf8
  obtain ⟨c, cs, hName⟩ : ∃ c cs, Text.chars p.name = c :: cs := by
    refine List.exists_cons_of_ne_nil fun hNil => h.nonempty ?_
    rw [← Text.ofChars_chars h.utf8, hNil]
    rfl
  refine ⟨32 :: (before ++ core), ?_, ?_⟩
  · have hTrim : Text.trim (p.name ++ ": " ++ before ++ core) = p.name ++ ": " ++ before ++ core := by
      have hEnds := @Text.trim_of_ends (Text.chars (p.name ++ ": " ++ before ++ core)) ?_ ?_
      · rwa [Text.ofChars_chars hWhole] at hEnds
      · intro d hd
        rw [List.append_assoc, List.append_assoc, Text.chars_append h.utf8, hName] at hd
        obtain rfl : c = d := by simpa using hd
        exact (h.plain c (hName ▸ List.mem_cons_self)).1
      · intro d hd
        obtain ⟨rest, b, hLast, -⟩ := hCore.last
        rw [Text.chars_append hFront] at hd
        refine hCore.getLast_nonblank d ?_
        rw [hCore.chars_eq, hLast, List.map_append, List.map_singleton] at hd ⊢
        rwa [← List.append_assoc, List.getLast?_concat, ← List.getLast?_concat] at hd
    have hText : p.text = p.name ++ ": " ++ before ++ core ++ behind := by
      rw [text, hWritten]
      simp
    rw [hText, trim_append_blanks hWhole hBehind, hTrim]
    show _ = p.name ++ (": " ++ (before ++ core))
    simp
  · have hSpaces : (32 :: before).all isSpace = true := by
      rw [List.all_cons, hBefore]
      rfl
    rw [← List.cons_append, trim_blanks_append hCore.utf8 hSpaces, hCore.trim_core, hCore.trim_source]

theorem trim_name (h : p.Writable names) : Text.trim p.name = p.name := by
  have hEnds := @Text.trim_of_ends (Text.chars p.name) (fun c hc => (h.plain c (List.mem_of_mem_head? hc)).1)
    fun c hc => (h.plain c (List.mem_of_mem_getLast? hc)).1
  rwa [Text.ofChars_chars h.utf8] at hEnds

theorem parse_trim (hNames : Declarable names) (h : p.Writable names) :
    TypeExpr.parse names (Text.trim p.written) = .ok p.type := by
  obtain ⟨core, hCore⟩ := h.rendering.exists_framed
  rw [hCore.trim_source]
  exact parse_of_rendering hNames hCore.rendering

end Param.Writable

namespace Signature

variable {names : List Text} {function : Text}

def duplicate (function : Text) : Failure :=
  .report (.invalidInput .plan ("bad or duplicate parameter name in " ++ function))

theorem readType_eq_ok {what written : Text} {t : Decl} (h : TypeExpr.parse names written = .ok t) :
    readType names what written = .ok t := by
  rw [readType, h]
  rfl

variable {b : UInt8} {params : List Param} {w : Wording}

theorem takeWhile_append_cons {t rest : Text} (h : b ∉ t) :
    (t ++ b :: rest).takeWhile (· ≠ b) = t ∧ (t ++ b :: rest).dropWhile (· ≠ b) = b :: rest := by
  have hAll : ∀ c ∈ t, decide (c ≠ b) = true := fun c hc => decide_eq_true (ne_of_mem_of_not_mem hc h)
  rw [List.takeWhile_append_of_pos hAll, List.dropWhile_append_of_pos hAll]
  simp

theorem readParams_cons (hNames : Declarable names) {p : Param} (hp : p.Writable names) (seen parts : List Text) :
    readParams names function seen (Text.trim p.text :: parts) =
      if p.name ∈ seen then .error (duplicate function)
      else do return p.trimmed :: (← readParams names function (p.name :: seen) parts) := by
  obtain ⟨rest, hText, hRest⟩ := hp.trim_text
  have hColon : (58 : UInt8) ∉ p.name := hp.not_mem_name (by decide) (by decide)
  obtain ⟨hTake, hDrop⟩ := @takeWhile_append_cons 58 p.name rest hColon
  have hAll : ¬ ((p.name ++ 58 :: rest).all fun b => decide (b ≠ 58)) = true := by simp
  have hName : p.name.isEmpty = false := by simpa using hp.nonempty
  rw [readParams, hText, if_neg hAll]
  simp only [hTake, hDrop, List.drop_one, List.tail_cons, hRest, hp.trim_name, hName, Bool.false_or,
    List.contains_iff_mem, readType_eq_ok (hp.parse_trim hNames)]
  split
  · rfl
  · rfl

theorem readParams_eq_ok (hNames : Declarable names) (hParams : ∀ p ∈ params, p.Writable names)
    {seen : List Text} (hNodup : (params.map Param.name).Nodup) (hNew : ∀ p ∈ params, p.name ∉ seen) :
    readParams names function seen (params.map fun p => Text.trim p.text) = .ok (params.map Param.trimmed) := by
  induction params generalizing seen with
  | nil => rfl
  | cons p params ih =>
    obtain ⟨hp, hRest⟩ := List.forall_mem_cons.mp hParams
    obtain ⟨hFirst, hOthers⟩ := List.nodup_cons.mp hNodup
    have hSeen : ∀ q ∈ params, q.name ∉ p.name :: seen := by
      intro q hq
      rw [List.mem_cons, not_or]
      refine ⟨fun hSame => hFirst ?_, hNew q (List.mem_cons_of_mem _ hq)⟩
      exact hSame ▸ List.mem_map_of_mem hq
    rw [List.map_cons, readParams_cons hNames hp, if_neg (hNew p List.mem_cons_self), ih hRest hOthers hSeen]
    rfl

theorem readParams_eq_error (hNames : Declarable names) (hParams : ∀ p ∈ params, p.Writable names)
    {seen : List Text} (hTwice : ¬ ((params.map Param.name).Nodup ∧ ∀ p ∈ params, p.name ∉ seen)) :
    readParams names function seen (params.map fun p => Text.trim p.text) = .error (duplicate function) := by
  induction params generalizing seen with
  | nil => exact absurd ⟨List.nodup_nil, List.forall_mem_nil _⟩ hTwice
  | cons p params ih =>
    obtain ⟨hp, hRest⟩ := List.forall_mem_cons.mp hParams
    rw [List.map_cons, readParams_cons hNames hp]
    split
    · rfl
    · rename_i hFirst
      have hLater : ¬ ((params.map Param.name).Nodup ∧ ∀ q ∈ params, q.name ∉ p.name :: seen) := by
        rintro ⟨hNodup, hNew⟩
        refine hTwice ⟨List.nodup_cons.mpr ⟨fun hMem => ?_, hNodup⟩,
          List.forall_mem_cons.mpr ⟨hFirst, fun q hq hOld => ?_⟩⟩
        · obtain ⟨q, hq, hSame⟩ := List.mem_map.mp hMem
          exact hNew q hq (hSame ▸ List.mem_cons_self)
        · exact hNew q hq (List.mem_cons_of_mem _ hOld)
      rw [ih hRest hLater]
      rfl

theorem nodup_readParams {seen parts : List Text} (h : readParams names function seen parts = .ok params) :
    (params.map Param.name).Nodup ∧ ∀ p ∈ params, p.name ≠ [] ∧ p.name ∉ seen := by
  induction parts generalizing seen params with
  | nil =>
    cases h
    exact ⟨List.nodup_nil, List.forall_mem_nil _⟩
  | cons part parts ih =>
    obtain ⟨p, rest, rfl, -, hName, -, hRest⟩ := readParams_cons_eq_ok h
    obtain ⟨hNodup, hNew⟩ := ih hRest
    refine ⟨List.nodup_cons.mpr ⟨fun hMem => ?_, hNodup⟩, List.forall_mem_cons.mpr ⟨hName, fun q hq => ?_⟩⟩
    · obtain ⟨q, hq, hSame⟩ := List.mem_map.mp hMem
      exact (hNew q hq).2 (hSame ▸ List.mem_cons_self)
    · exact ⟨(hNew q hq).1, fun hOld => (hNew q hq).2 (List.mem_cons_of_mem _ hOld)⟩

/-! ## The result -/

theorem isGap_iff : isGap b = true ↔ b.toNat = 9 ∨ b.toNat = 10 ∨ b.toNat = 12 ∨ b.toNat = 13 ∨ b.toNat = 32 := by
  simp [isGap, ← UInt8.toNat_inj, or_assoc]

theorem isEnd_eq_false {t : Text} (hMem : b ∈ t) (hGap : isGap b = false) (hb : b ≠ 59) : isEnd t = false := by
  -- skipping white space does not get past the byte
  have hSkip : ∀ {u : Text}, b ∈ u → b ∈ skipGap u := by
    intro u hu
    rw [skipGap]
    by_contra hGone
    have hTaken : b ∈ u.takeWhile isGap := by
      rw [← List.takeWhile_append_dropWhile (p := isGap) (l := u), List.mem_append] at hu
      exact hu.resolve_right hGone
    rw [List.mem_takeWhile_imp hTaken] at hGap
    cases hGap
  unfold isEnd
  split
  · rename_i hNil
    have hHere := hSkip hMem
    rw [hNil] at hHere
    cases hHere
  · rename_i c rest hCons
    have hHere := hSkip hMem
    rw [hCons] at hHere
    rcases List.mem_cons.mp hHere with rfl | hRest
    · simp [hb]
    · have hNe : skipGap rest ≠ [] := List.ne_nil_of_mem (hSkip hRest)
      simp [hNe]

/-- The first place where the signature can end is the end of the last byte that is neither white space nor a
semicolon. -/
theorem upToEnd_append {core rest : Text} (hLine : 10 ∉ core ++ [b]) (hGap : isGap b = false) (hb : b ≠ 59)
    (hEnd : isEnd rest = true) : upToEnd (core ++ [b] ++ rest) = some (core ++ [b]) := by
  induction core with
  | nil =>
    have hNot : b ≠ 10 := fun hSame => hLine (hSame ▸ List.mem_cons_self)
    show upToEnd (b :: rest) = _
    rw [upToEnd, if_neg hNot, if_pos hEnd]
    rfl
  | cons c core ih =>
    rw [List.cons_append, List.mem_cons, not_or] at hLine
    have hMore : isEnd (core ++ [b] ++ rest) = false := isEnd_eq_false (by simp) hGap hb
    rw [List.cons_append, List.cons_append, upToEnd, if_neg (Ne.symm hLine.1), hMore, ih hLine.2]
    rfl

theorem isGap_of_isSpace (h : isSpace b = true) : isGap b = true := by
  rw [isSpace_iff] at h
  rw [isGap_iff]
  omega

theorem isGap_of_token (h : isNameByte b = true ∨ b = 62) : isGap b = false ∧ b ≠ 59 := by
  rw [isNameByte_iff, ← UInt8.toNat_inj, show (62 : UInt8).toNat = 62 from rfl] at h
  refine ⟨Bool.eq_false_iff.mpr fun hGap => ?_, fun hSame => ?_⟩
  · rw [isGap_iff] at hGap
    omega
  · rw [← UInt8.toNat_inj, show (59 : UInt8).toNat = 59 from rfl] at hSame
    omega

theorem skipGap_append {blanks : Text} (h : blanks.all isSpace = true) (t : Text) : skipGap (blanks ++ t) = skipGap t :=
  List.dropWhile_append_of_pos fun b hb => isGap_of_isSpace (List.all_eq_true.mp h b hb)

theorem skipGap_cons (h : isGap b = false) (t : Text) : skipGap (b :: t) = b :: t :=
  List.dropWhile_cons_of_neg (by simp [h])

theorem isEnd_ending (w : Wording) {blanks : Text} (h : blanks.all isSpace = true) :
    isEnd (blanks ++ w.ending) = true := by
  rw [isEnd, skipGap_append h, Wording.ending]
  cases w.semicolon <;> rfl

def shown : ResultText → Text
  | .omitted => []
  | .unit => "()"
  | .type _ written => Text.trim written

theorem resultText?_text (h : w.result.Writable names) :
    resultText? (skipGap (w.result.text ++ w.ending)) = some (shown w.result) := by
  cases hForm : w.result with
  | omitted =>
    rw [Wording.ending]
    cases w.semicolon <;> rfl
  | unit =>
    rw [Wording.ending]
    cases w.semicolon <;> rfl
  | type t written =>
    rw [hForm] at h
    obtain ⟨core, hCore⟩ := Rendering.exists_framed h
    obtain ⟨before, behind, hWritten, hBefore, hBehind⟩ := hCore.parts
    obtain ⟨b, rest, hFirst, hLetter⟩ := hCore.first
    obtain ⟨front, last, hLast, hToken⟩ := hCore.last
    have hGap : isGap b = false := (isGap_of_token (.inl (by rw [isNameByte, hLetter]; rfl))).1
    have hLine : 10 ∉ front ++ [last] := by
      rw [← hLast]
      exact fun hMem => absurd (hCore.bytes 10 hMem) (by decide)
    have hText : ResultText.text (.type t written) ++ w.ending =
        32 :: 45 :: 62 :: 32 :: (before ++ (core ++ (behind ++ w.ending))) := by
      rw [ResultText.text, hWritten]
      show [32, 45, 62, 32] ++ _ ++ w.ending = _
      simp
    have hBody : skipGap (32 :: (before ++ (core ++ (behind ++ w.ending)))) = b :: (rest ++ (behind ++ w.ending)) := by
      have hSpaces : (32 :: before).all isSpace = true := by
        rw [List.all_cons, hBefore]
        rfl
      rw [← List.cons_append, skipGap_append hSpaces, hFirst, List.cons_append, skipGap_cons hGap]
    have hUpTo : upToEnd (b :: (rest ++ (behind ++ w.ending))) = some core := by
      obtain ⟨hLastGap, hLastEnd⟩ := isGap_of_token hToken
      rw [← List.cons_append, ← hFirst, hLast]
      exact upToEnd_append hLine hLastGap hLastEnd (isEnd_ending w hBehind)
    rw [hText, shown, hCore.trim_source]
    show (match skipGap (32 :: (before ++ (core ++ (behind ++ w.ending)))) with
      | [] => _
      | b :: rest => upToEnd (b :: rest)) = some core
    rw [hBody]
    exact hUpTo

theorem readResult_shown (hNames : Declarable names) {r : ResultText} (h : r.Writable names) :
    readResult names (shown r) = .ok (r.decl, r.trimmed) := by
  cases r with
  | omitted => rfl
  | unit => rfl
  | type t written =>
    obtain ⟨core, hCore⟩ := Rendering.exists_framed h
    obtain ⟨b, rest, hFirst, hLetter⟩ := hCore.first
    have hNot : ¬ (core.isEmpty || core = Text.ofString "()") = true := by
      rw [hFirst]
      simp only [List.isEmpty_cons, Bool.false_or, decide_eq_true_eq]
      intro hSame
      obtain ⟨rfl, -⟩ := List.cons.inj (hSame.trans (show Text.ofString "()" = 40 :: [41] from rfl))
      exact absurd hLetter (by decide)
    rw [shown, readResult, hCore.trim_source, hCore.trim_core]
    simp only [if_neg hNot, readType_eq_ok (parse_of_rendering hNames hCore.rendering)]
    show Except.ok (t, core) = .ok (t, Text.trim written)
    rw [hCore.trim_source]

/-! ## The whole signature -/

theorem after?_append (lead t : Text) : after? lead (lead ++ t) = some t := by
  rw [after?, if_pos (List.isPrefixOf_iff_prefix.mpr (List.prefix_append lead t)), List.drop_left]

theorem splitName?_append {name : Text} (h : Wording.isFunctionName name = true) (hb : isNameByte b = false)
    (rest : Text) : skipGap (name ++ b :: rest) = name ++ b :: rest ∧
      splitName? (name ++ b :: rest) = some (name, b :: rest) := by
  cases name with
  | nil => cases h
  | cons c name =>
    obtain ⟨hStart, hBytes⟩ := Bool.and_eq_true_iff.mp h
    have hLetter : isLetter c = true := (Bool.and_eq_true_iff.mp hStart).1
    have hGap : isGap c = false := (isGap_of_token (.inl (by rw [isNameByte, hLetter]; rfl))).1
    have hBytes := List.all_eq_true.mp hBytes
    refine ⟨skipGap_cons hGap _, ?_⟩
    rw [List.cons_append, splitName?, if_pos hStart, List.takeWhile_append_of_pos hBytes,
      List.dropWhile_append_of_pos hBytes, List.takeWhile_cons_of_neg (by simp [hb]),
      List.dropWhile_cons_of_neg (by simp [hb]), List.append_nil]

theorem not_mem_paramsText (h : w.Writable names) : 41 ∉ w.paramsText := by
  have hAll : ∀ t ∈ w.params.map Param.text, (41 : UInt8) ∉ t :=
    List.forall_mem_map.mpr fun p hp => (h.params p hp).not_mem_text
  rw [Wording.paramsText]
  generalize w.params.map Param.text = ts at hAll
  induction ts with
  | nil => exact List.not_mem_nil
  | cons t ts ih =>
    obtain ⟨ht, hts⟩ := List.forall_mem_cons.mp hAll
    cases ts with
    | nil => exact ht
    | cons u us =>
      rw [Text.join, List.mem_append, List.mem_append, not_or, not_or]
      · exact ⟨⟨ht, by decide⟩, ih hts⟩
      · simp

theorem ofText?_text (h : w.Writable names) : Shape.ofText? w.text = some ⟨w.name, w.paramsText, shown w.result⟩ := by
  let tail := w.result.text ++ w.ending
  have hText : w.text = w.name ++ 58 :: 32 :: ("func" ++ ("(" ++ (w.paramsText ++ 41 :: tail)) : Text) := by
    rw [Wording.text]
    show w.name ++ (([58, 32] : Text) ++ "func" ++ "(" : Text) ++ w.paramsText ++ [41] ++ w.result.text ++ w.ending = _
    simp [tail]
  obtain ⟨hSkip, hName⟩ := @splitName?_append 58 w.name h.name (by decide)
    (32 :: ("func" ++ ("(" ++ (w.paramsText ++ 41 :: tail)) : Text))
  obtain ⟨hTake, hDrop⟩ := @takeWhile_append_cons 41 w.paramsText tail (not_mem_paramsText h)
  have hColon : ∀ t : Text, after? ":" (skipGap (58 :: t)) = some t := fun t => after?_append [58] t
  have hFunc : ∀ t : Text, after? "func" (skipGap (32 :: ("func" ++ t : Text))) = some t :=
    fun t => after?_append "func" t
  have hOpen : ∀ t : Text, after? "(" (skipGap ("(" ++ t : Text)) = some t := fun t => after?_append "(" t
  have hClose : ∀ t : Text, after? ")" (41 :: t) = some t := fun t => after?_append [41] t
  simp only [Shape.ofText?, hText, hSkip, hName, hColon, hFunc, hOpen, hTake, hDrop, hClose, Option.bind_eq_bind,
    Option.bind_some, tail, resultText?_text h.result]
  rfl

theorem splitParams_text (h : w.Writable names) :
    splitParams (Text.trim w.paramsText) = w.params.map fun p => Text.trim p.text := by
  rw [Wording.paramsText, splitParams_join, List.map_map]
  · rfl
  · exact List.forall_mem_map.mpr fun p hp => ⟨(h.params p hp).utf8_text, (h.params p hp).solid_text⟩
  · refine List.forall_mem_map.mpr fun p hp hNil => ?_
    obtain ⟨rest, hText, -⟩ := (h.params p hp).trim_text
    rw [hText] at hNil
    simp at hNil

/-- A signature is read as it is written, whatever the renderings of its types, unless two of its parameters have one
name. No text at all is read as a signature with such parameters. -/
theorem parse_text (hNames : Declarable names) {w : Wording} (h : w.Writable names) :
    ((w.params.map Param.name).Nodup → parse names w.text = .ok w.signature) ∧
      (¬ (w.params.map Param.name).Nodup → parse names w.text = .error (duplicate w.name)) ∧
      ∀ t s, parse names t = .ok s → (s.params.map Param.name).Nodup := by
  have hShape := ofText?_text h
  refine ⟨fun hNodup => ?_, fun hTwice => ?_, fun t s hParse => ?_⟩
  · have hParams : readParams names w.name [] (w.params.map fun p => Text.trim p.text) =
        .ok (w.params.map Param.trimmed) :=
      readParams_eq_ok hNames h.params hNodup fun p _ => List.not_mem_nil
    simp only [parse, hShape, splitParams_text h, hParams, readResult_shown hNames h.result]
    rfl
  · have hParams : readParams names w.name [] (w.params.map fun p => Text.trim p.text) = .error (duplicate w.name) :=
      readParams_eq_error hNames h.params fun hBoth => hTwice hBoth.1
    simp only [parse, hShape, splitParams_text h, hParams]
    rfl
  · unfold parse at hParse
    split at hParse
    · cases hParse
    · obtain ⟨params, hParams, hParse⟩ := bind_eq_ok.mp hParse
      obtain ⟨⟨d, written⟩, -, hParse⟩ := bind_eq_ok.mp hParse
      cases hParse
      exact (nodup_readParams hParams).1

/-- A parameter with a name that is not ASCII, and blanks around types with commas of their own. -/
def nestedWording : Wording where
  name := "draw_2-d"
  params := [
    { name := "größe", written := " tuple< u8 ,u8>", type := .defn none (.tuple [.prim .u8, .prim .u8]) },
    { name := "p", written := "result<_, Point> "
      type := .defn none (.result .absent (.defn none (.own (.resourceNamed "Point")))) }]
  result := .type (.defn none (.list .string)) "list<string> "
  semicolon := true

example : nestedWording.text = "draw_2-d: func(größe:  tuple< u8 ,u8>, p: result<_, Point> ) -> list<string> ;" := by
  decide +kernel

theorem nestedWording_writable : nestedWording.Writable ["Point"] := by
  have hRenders : ∀ {source : Text} {t : Decl}, TypeExpr.parse ["Point"] source = .ok t →
      Rendering ["Point"] t source :=
    fun h => rendering_of_parse declarable_point.nonempty h
  -- Deciding the quantifier itself would run over every character there is.
  have hPlain : ∀ {name : Text},
      ((Text.chars name).all fun c => decide (Text.isBlank c = false ∧ c ∉ marks)) = true →
      ∀ c ∈ Text.chars name, Text.isBlank c = false ∧ c ∉ marks :=
    fun h c hc => of_decide_eq_true (List.all_eq_true.mp h c hc)
  refine ⟨by decide, ?_, hRenders rfl⟩
  refine List.forall_mem_cons.mpr ⟨?_, List.forall_mem_singleton.mpr ?_⟩
  · exact ⟨by decide +kernel, by decide +kernel, hPlain (by decide +kernel), hRenders rfl⟩
  · exact ⟨by decide +kernel, by decide +kernel, hPlain (by decide +kernel), hRenders rfl⟩

theorem parse_text_nested : parse ["Point"] nestedWording.text = .ok nestedWording.signature ∧
    parse ["Point"] { nestedWording with params := nestedWording.params ++ nestedWording.params }.text =
      .error (duplicate "draw_2-d") := by
  have h := nestedWording_writable
  constructor
  · exact (parse_text declarable_point h).1 (by decide +kernel)
  · have hTwice : { nestedWording with params := nestedWording.params ++ nestedWording.params }.Writable ["Point"] :=
      ⟨h.name, List.forall_mem_append.mpr ⟨h.params, h.params⟩, h.result⟩
    exact (parse_text declarable_point hTwice).2.1 (by decide +kernel)

end Signature

end Marshal
