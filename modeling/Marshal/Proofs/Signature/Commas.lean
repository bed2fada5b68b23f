import Marshal.Proofs.Text.Trim
import Marshal.Proofs.TypeExpr.Reads

/-! # Parameters between commas

A list of parameters is split at the commas that stand outside all brackets. The tokens of a type open and close
brackets in pairs and have commas only inside them, so that no comma of a type splits it. White space around a
parameter makes no difference.
-/
set_option autoImplicit false
namespace Marshal

/-! ## Bytes of types -/

namespace TypeExpr

def isTypeByte (b : UInt8) : Bool := isNameByte b || isSpace b || b = 60 || b = 62 || b = 44

variable {ts : List Text} {b : UInt8}

theorem isNameByte_iff : isNameByte b = true ↔ b.toNat = 95 ∨ b.toNat = 45 ∨
    (97 ≤ b.toNat ∧ b.toNat ≤ 122) ∨ (65 ≤ b.toNat ∧ b.toNat ≤ 90) ∨ (48 ≤ b.toNat ∧ b.toNat ≤ 57) := by
  simp [isNameByte, isLetter, UInt8.le_iff_toNat_le, ← UInt8.toNat_inj, or_assoc]

theorem isSpace_iff : isSpace b = true ↔ b.toNat = 32 ∨ b.toNat = 9 := by
  simp [isSpace, ← UInt8.toNat_inj]

theorem isTypeByte_iff : isTypeByte b = true ↔
    isNameByte b = true ∨ isSpace b = true ∨ b.toNat = 60 ∨ b.toNat = 62 ∨ b.toNat = 44 := by
  simp [isTypeByte, ← UInt8.toNat_inj, or_assoc]

theorem lt_of_isTypeByte (h : isTypeByte b = true) : b.toNat < 128 := by
  rw [isTypeByte_iff, isNameByte_iff, isSpace_iff] at h
  omega

/-- The tokens as brackets see them: from one depth to another, with commas inside brackets only. -/
inductive Walks : Nat → List Text → Nat → Prop
  | nil {d : Nat} : Walks d [] d
  | name {d d' : Nat} {w : Text} {ts : List Text} (hName : isName w = true) (h : Walks d ts d') : Walks d (w :: ts) d'
  | opening {d d' : Nat} {ts : List Text} (h : Walks (d + 1) ts d') : Walks d (opening :: ts) d'
  | closing {d d' : Nat} {ts : List Text} (h : Walks d ts d') : Walks (d + 1) (closing :: ts) d'
  | comma {d d' : Nat} {ts : List Text} (h : Walks (d + 1) ts d') : Walks (d + 1) (comma :: ts) d'

theorem Walks.append {d d' d'' : Nat} {ts us : List Text} (h : Walks d ts d') (h' : Walks d' us d'') :
    Walks d (ts ++ us) d'' := by
  induction h with
  | nil => exact h'
  | name hName _ ih => exact .name hName (ih h')
  | opening _ ih => exact .opening (ih h')
  | closing _ ih => exact .closing (ih h')
  | comma _ ih => exact .comma (ih h')

variable {names : List Text}

theorem walks_bracketed {w : Text} (hName : isName w = true) {d : Nat} (h : Walks (d + 1) ts (d + 1)) :
    Walks d (bracketed w ts) d :=
  .name hName (.opening (h.append (.closing .nil)))

mutual
theorem Written.walks (d : Nat) : ∀ {t : Decl} {ts : List Text}, Written names t ts → Walks d ts d
  | _, _, .word hWord => .name (ofWord?_eq_some hWord).1 .nil
  | _, _, .bare _ hIdent => .name hIdent .nil
  | _, _, .own _ hIdent => walks_bracketed (isName_keyword .own) (.name hIdent .nil)
  | _, _, .borrow _ hIdent => walks_bracketed (isName_keyword .borrow) (.name hIdent .nil)
  | _, _, .list hElem => walks_bracketed (isName_keyword .list) (hElem.walks (d + 1))
  | _, _, .option hElem => walks_bracketed (isName_keyword .option) (hElem.walks (d + 1))
  | _, _, .tuple hFields => walks_bracketed (isName_keyword .tuple) (hFields.walks d)
  | _, _, .result => .name (isName_keyword .result) .nil
  | _, _, .resultOk hOk => walks_bracketed (isName_keyword .result) (hOk.walks (d + 1))
  | _, _, .resultBoth hOk hErr =>
    walks_bracketed (isName_keyword .result) ((hOk.walks (d + 1)).append (.comma (hErr.walks (d + 1))))

theorem WrittenSide.walks (d : Nat) : ∀ {t : Decl} {ts : List Text}, WrittenSide names t ts → Walks d ts d
  | _, _, .absent => .name (by decide) .nil
  | _, _, .type hType => hType.walks d

theorem WrittenFields.walks (d : Nat) :
    ∀ {fields : List Decl} {ts : List Text}, WrittenFields names fields ts → Walks (d + 1) ts (d + 1)
  | _, _, .one hType => hType.walks (d + 1)
  | _, _, .more hType hFields => (hType.walks (d + 1)).append (.comma (hFields.walks d))
end

theorem isNameByte_of_isName {w : Text} (h : isName w = true) : ∀ b ∈ w, isNameByte b = true := by
  cases w with
  | nil => cases h
  | cons b w =>
    obtain ⟨hb, hw⟩ := Bool.and_eq_true_iff.mp h
    refine List.forall_mem_cons.mpr ⟨?_, List.all_eq_true.mp hw⟩
    rw [isNameByte, hb]
    rfl

theorem Walks.isTypeByte {d d' : Nat} {ts : List Text} (h : Walks d ts d') {t : Text} (hSpelled : Spelled ts t []) :
    ∀ b ∈ t, isTypeByte b = true := by
  -- each token, with the blanks before it and what follows it
  have hToken : ∀ {w : Text} {ts : List Text}, (∀ b ∈ w, TypeExpr.isTypeByte b = true) →
      (∀ {t : Text}, Spelled ts t [] → ∀ b ∈ t, TypeExpr.isTypeByte b = true) →
      ∀ {t : Text}, Spelled (w :: ts) t [] → ∀ b ∈ t, TypeExpr.isTypeByte b = true := by
    rintro w ts hw hRest t ⟨blanks, u, hBlanks, rfl, hSpelled⟩ b hb
    rcases List.mem_append.mp hb with hb | hb
    · rcases List.mem_append.mp hb with hb | hb
      · exact isTypeByte_iff.mpr (.inr (.inl (List.all_eq_true.mp hBlanks b hb)))
      · exact hw b hb
    · exact hRest hSpelled b hb
  induction h generalizing t with
  | nil =>
    obtain rfl : t = [] := hSpelled
    exact List.forall_mem_nil _
  | name hName _ ih =>
    exact hToken (fun b hb => isTypeByte_iff.mpr (.inl (isNameByte_of_isName hName b hb))) ih hSpelled
  | opening _ ih => exact hToken (List.forall_mem_singleton.mpr rfl) ih hSpelled
  | closing _ ih => exact hToken (List.forall_mem_singleton.mpr rfl) ih hSpelled
  | comma _ ih => exact hToken (List.forall_mem_singleton.mpr rfl) ih hSpelled

theorem Spelled.exists_core {t rest : Text} (h : Spelled ts t rest) :
    ∃ core, t = core ++ rest ∧ Spelled ts core [] := by
  induction ts generalizing t with
  | nil => exact ⟨[], h, rfl⟩
  | cons w ts ih =>
    obtain ⟨blanks, u, hBlanks, rfl, h⟩ := h
    obtain ⟨core, rfl, hCore⟩ := ih h
    exact ⟨blanks ++ w ++ core, by simp, blanks, core, hBlanks, rfl, hCore⟩

theorem Written.exists_first {t : Decl} (h : Written names t ts) : ∃ w us, ts = w :: us ∧ isName w = true := by
  cases h with
  | word hWord => exact ⟨_, _, rfl, (ofWord?_eq_some hWord).1⟩
  | bare _ hIdent => exact ⟨_, _, rfl, hIdent⟩
  | own => exact ⟨_, _, rfl, isName_keyword .own⟩
  | borrow => exact ⟨_, _, rfl, isName_keyword .borrow⟩
  | list => exact ⟨_, _, rfl, isName_keyword .list⟩
  | option => exact ⟨_, _, rfl, isName_keyword .option⟩
  | tuple => exact ⟨_, _, rfl, isName_keyword .tuple⟩
  | result => exact ⟨_, _, rfl, isName_keyword .result⟩
  | resultOk => exact ⟨_, _, rfl, isName_keyword .result⟩
  | resultBoth => exact ⟨_, _, rfl, isName_keyword .result⟩

theorem Written.exists_last {t : Decl} (h : Written names t ts) :
    ∃ us w, ts = us ++ [w] ∧ (isName w = true ∨ w = TypeExpr.closing) := by
  cases h with
  | word hWord => exact ⟨[], _, rfl, .inl (ofWord?_eq_some hWord).1⟩
  | bare _ hIdent => exact ⟨[], _, rfl, .inl hIdent⟩
  | result => exact ⟨[], _, rfl, .inl (isName_keyword .result)⟩
  | _ => exact ⟨_, _, rfl, .inr rfl⟩

/-- A rendering is blanks, a rendering that starts and ends with bytes of its tokens, and blanks. -/
structure Framed (names : List Text) (t : Decl) (source core : Text) : Prop where
  parts : ∃ before behind, source = before ++ core ++ behind ∧ before.all isSpace = true ∧ behind.all isSpace = true
  rendering : Rendering names t core
  bytes : ∀ b ∈ core, isTypeByte b = true
  first : ∃ b rest, core = b :: rest ∧ isLetter b = true
  last : ∃ rest b, core = rest ++ [b] ∧ (isNameByte b = true ∨ b = 62)
  walks : ∃ tokens, Spelled tokens core [] ∧ Walks 0 tokens 0

theorem Rendering.exists_framed {t : Decl} {source : Text} (h : Rendering names t source) :
    ∃ core, Framed names t source core := by
  obtain ⟨tokens, behind, hWritten, hSpelled, hBehind⟩ := h
  obtain ⟨w, ts, rfl, hFirst⟩ := hWritten.exists_first
  obtain ⟨us, last, hTokens, hLast⟩ := hWritten.exists_last
  obtain ⟨before, u, hBefore, rfl, hRest⟩ := hSpelled
  obtain ⟨u, rfl, hInner⟩ := hRest.exists_core
  have hCore : Spelled (w :: ts) (w ++ u) [] := ⟨[], u, rfl, rfl, hInner⟩
  have hWalks := hWritten.walks 0
  refine ⟨w ++ u, ⟨before, behind, by simp, hBefore, hBehind⟩, ⟨_, [], hWritten, hCore, rfl⟩, hWalks.isTypeByte hCore,
    ?_, ?_, ⟨_, hCore, hWalks⟩⟩
  · cases w with
    | nil => cases hFirst
    | cons b w => exact ⟨b, w ++ u, rfl, (Bool.and_eq_true_iff.mp hFirst).1⟩
  · -- the text ends with the last token
    rw [hTokens] at hCore
    obtain ⟨middle, hSpelled, hToken⟩ := spelled_append.mp hCore
    obtain ⟨blanks, -, hText⟩ := spelled_singleton.mp hToken
    obtain ⟨front, hFront, -⟩ := hSpelled.exists_core
    have hEnd : ∃ rest b, last = rest ++ [b] ∧ (isNameByte b = true ∨ b = 62) := by
      rcases hLast with hName | rfl
      · have hNe : last ≠ [] := by
          rintro rfl
          cases hName
        exact ⟨last.dropLast, last.getLast hNe, (List.dropLast_append_getLast hNe).symm,
          .inl (isNameByte_of_isName hName _ (List.getLast_mem hNe))⟩
      · exact ⟨[], 62, rfl, .inr rfl⟩
    obtain ⟨rest, b, rfl, hb⟩ := hEnd
    exact ⟨front ++ blanks ++ rest, b, by rw [hFront, hText]; simp, hb⟩

end TypeExpr

/-! ## Splitting -/

namespace Signature

open TypeExpr

def prepend (cs : List Char) : List (List Char) → List (List Char)
  | [] => [cs]
  | piece :: pieces => (cs ++ piece) :: pieces

theorem splitCommas_ne_nil (d : Int) (cs : List Char) : splitCommas d cs ≠ [] := by
  cases cs with
  | nil => simp [splitCommas]
  | cons c cs =>
    rw [splitCommas]
    split
    · simp
    · split <;> simp

theorem prepend_nil {pieces : List (List Char)} (h : pieces ≠ []) : prepend [] pieces = pieces := by
  cases pieces with
  | nil => exact absurd rfl h
  | cons => rfl

theorem prepend_append (cs ds : List Char) (pieces : List (List Char)) :
    prepend (cs ++ ds) pieces = prepend cs (prepend ds pieces) := by
  cases pieces <;> simp [prepend]

/-- No comma of the characters splits them, and they lead from one depth of brackets to another. -/
def Solid (d d' : Int) (cs : List Char) : Prop :=
  ∀ rest, splitCommas d (cs ++ rest) = prepend cs (splitCommas d' rest)

theorem solid_nil (d : Int) : Solid d d [] := by
  intro rest
  rw [List.nil_append, prepend_nil (splitCommas_ne_nil d rest)]

theorem Solid.append {d d' d'' : Int} {cs ds : List Char} (h : Solid d d' cs) (h' : Solid d' d'' ds) :
    Solid d d'' (cs ++ ds) := by
  intro rest
  rw [List.append_assoc, h, h', prepend_append]

theorem solid_cons {d d' : Int} {c : Char} {cs : List Char} (hChar : c ≠ ',' ∨ d ≠ 0)
    (h : Solid (d + nesting c) d' cs) : Solid d d' (c :: cs) := by
  intro rest
  have hNot : ¬ (c = ',' && d = 0) = true := by
    rcases hChar with hChar | hDepth
    · simp [hChar]
    · simp [hDepth]
  rw [List.cons_append, splitCommas, if_neg hNot, h rest]
  cases splitCommas d' rest <;> rfl

theorem solid_plain {cs : List Char} (h : ∀ c ∈ cs, c ≠ ',' ∧ nesting c = 0) (d : Int) : Solid d d cs := by
  induction cs with
  | nil => exact solid_nil d
  | cons c cs ih =>
    obtain ⟨⟨hComma, hNesting⟩, hRest⟩ := List.forall_mem_cons.mp h
    refine solid_cons (.inl hComma) ?_
    rw [hNesting, Int.add_zero]
    exact ih hRest

theorem ofNat_ne {b : UInt8} (hb : b.toNat < 128) {c : Char} (h : b.toNat ≠ c.toNat) : Char.ofNat b.toNat ≠ c := by
  rintro rfl
  exact h (Text.toNat_ofNat (.inl (by omega))).symm

theorem plain_of_byte {b : UInt8} (h : isNameByte b = true ∨ isSpace b = true) :
    Char.ofNat b.toNat ≠ ',' ∧ nesting (Char.ofNat b.toNat) = 0 := by
  rw [isNameByte_iff, isSpace_iff] at h
  have hNe : ∀ c ∈ [',', '(', '<', ')', '>'], Char.ofNat b.toNat ≠ c := by
    intro c hc
    refine ofNat_ne (by omega) ?_
    simp only [List.mem_cons, List.not_mem_nil, or_false] at hc
    rcases hc with rfl | rfl | rfl | rfl | rfl <;> simp <;> omega
  refine ⟨hNe _ (by simp), ?_⟩
  simp [nesting, hNe '(' (by simp), hNe '<' (by simp), hNe ')' (by simp), hNe '>' (by simp)]

variable {ts : List Text} {ds : List Char} {t : Text}

theorem solid_bytes (h : ∀ b ∈ t, isNameByte b = true ∨ isSpace b = true) (d : Int) :
    Solid d d (t.map fun b => Char.ofNat b.toNat) :=
  solid_plain (List.forall_mem_map.mpr fun b hb => plain_of_byte (h b hb)) d

/-- However the tokens are spelled, only their brackets and commas count. -/
theorem solid_of_walks {d d' : Nat} (h : Walks d ts d') (hSpelled : Spelled ts t []) :
    Solid d d' (t.map fun b => Char.ofNat b.toNat) := by
  -- a token between the blanks before it and what follows it
  have hToken : ∀ {a b c : Int} {w : Text} {ts : List Text}, Solid a b (w.map fun b => Char.ofNat b.toNat) →
      (∀ {t : Text}, Spelled ts t [] → Solid b c (t.map fun b => Char.ofNat b.toNat)) →
      ∀ {t : Text}, Spelled (w :: ts) t [] → Solid a c (t.map fun b => Char.ofNat b.toNat) := by
    rintro a b c w ts hw hRest t ⟨blanks, u, hBlanks, rfl, hSpelled⟩
    rw [List.map_append, List.map_append]
    exact ((solid_bytes (fun b hb => .inr (List.all_eq_true.mp hBlanks b hb)) a).append hw).append (hRest hSpelled)
  induction h generalizing t with
  | nil =>
    obtain rfl : t = [] := hSpelled
    exact solid_nil _
  | name hName _ ih => exact hToken (solid_bytes (fun b hb => .inl (isNameByte_of_isName hName b hb)) _) ih hSpelled
  | opening _ ih => exact hToken (solid_cons (.inl (by decide)) (solid_nil _)) ih hSpelled
  | @closing d _ _ _ ih =>
    refine hToken (solid_cons (.inl (by decide)) ?_) ih hSpelled
    have hBack : ((d + 1 : Nat) : Int) + nesting (Char.ofNat (62 : UInt8).toNat) = d := by
      rw [show nesting (Char.ofNat (62 : UInt8).toNat) = -1 from rfl]
      omega
    rw [hBack]
    exact solid_nil _
  | @comma d _ _ _ ih =>
    refine hToken (solid_cons (.inr (by omega)) ?_) ih hSpelled
    exact solid_nil _

/-! ## Parameters -/

theorem plain_of_isBlank {c : Char} (h : Text.isBlank c = true) : c ≠ ',' ∧ nesting c = 0 := by
  have hNe : ∀ d : Char, Text.isBlank d = false → c ≠ d := by
    rintro d hd rfl
    rw [h] at hd
    cases hd
  refine ⟨hNe _ (by decide), ?_⟩
  simp [nesting, hNe '(' (by decide), hNe '<' (by decide), hNe ')' (by decide), hNe '>' (by decide)]

theorem splitCommas_append_blank (h : ∀ c ∈ ds, Text.isBlank c = true) (d : Int) (cs : List Char) :
    List.Forall₂ (fun p q => q = p ∨ q = p ++ ds) (splitCommas d cs) (splitCommas d (cs ++ ds)) := by
  induction cs generalizing d with
  | nil =>
    have hSolid := solid_plain (fun c hc => plain_of_isBlank (h c hc)) d []
    rw [List.append_nil] at hSolid
    rw [List.nil_append, hSolid]
    exact .cons (.inr (by simp)) .nil
  | cons c cs ih =>
    rw [List.cons_append, splitCommas, splitCommas]
    split
    · exact .cons (.inl rfl) (ih d)
    · have hRest := ih (d + nesting c)
      cases hPieces : splitCommas (d + nesting c) cs with
      | nil => exact absurd hPieces (splitCommas_ne_nil _ _)
      | cons piece pieces =>
        rw [hPieces] at hRest
        generalize splitCommas (d + nesting c) (cs ++ ds) = more at hRest ⊢
        cases hRest with
        | cons hPiece hOthers =>
          refine .cons ?_ hOthers
          rcases hPiece with rfl | rfl
          · exact .inl rfl
          · exact .inr rfl

def trimmed (piece : List Char) : Text := Text.trim (Text.ofChars piece)

theorem map_trimmed_append_blank (h : ∀ c ∈ ds, Text.isBlank c = true) (d : Int) (cs : List Char) :
    (splitCommas d (cs ++ ds)).map trimmed = (splitCommas d cs).map trimmed := by
  have hPieces := splitCommas_append_blank h d cs
  generalize splitCommas d cs = ps, splitCommas d (cs ++ ds) = qs at hPieces
  induction hPieces with
  | nil => rfl
  | cons hPiece _ ih =>
    rw [List.map_cons, List.map_cons, ih]
    rcases hPiece with rfl | rfl
    · rfl
    · rw [trimmed, Text.trim_append_blank h, trimmed]

theorem map_trimmed_blank_append (h : ∀ c ∈ ds, Text.isBlank c = true) (cs : List Char) :
    (splitCommas 0 (ds ++ cs)).map trimmed = (splitCommas 0 cs).map trimmed := by
  rw [solid_plain (fun c hc => plain_of_isBlank (h c hc)) 0 cs]
  cases hPieces : splitCommas 0 cs with
  | nil => exact absurd hPieces (splitCommas_ne_nil _ _)
  | cons piece pieces =>
    rw [prepend, List.map_cons, List.map_cons, trimmed, Text.trim_blank_append h, trimmed]

theorem splitParams_eq (t : Text) :
    splitParams t = ((splitCommas 0 (Text.chars t)).map trimmed).filter fun part => !part.isEmpty := rfl

theorem splitParams_trim (h : Text.isUtf8 t = true) : splitParams (Text.trim t) = splitParams t := by
  obtain ⟨cs, rfl⟩ := Text.isUtf8_iff.mp h
  obtain ⟨before, inner, behind, ht⟩ := Text.exists_trims cs
  rw [ht.trim_eq, splitParams_eq, splitParams_eq, Text.chars_ofChars, Text.chars_ofChars, ht.parts,
    map_trimmed_append_blank ht.blank_behind, map_trimmed_blank_append ht.blank_before]

theorem splitCommas_join (h : ∀ u ∈ t :: ts, Text.isUtf8 u = true ∧ Solid 0 0 (Text.chars u)) :
    splitCommas 0 (Text.chars (Text.join ", " (t :: ts))) = Text.chars t :: ts.map fun u => ' ' :: Text.chars u := by
  induction ts generalizing t with
  | nil =>
    have hSolid := (h t List.mem_cons_self).2 []
    rw [List.append_nil] at hSolid
    rw [Text.join, hSolid]
    simp [prepend, splitCommas]
  | cons u us ih =>
    obtain ⟨⟨hUtf8, hSolid⟩, hRest⟩ := List.forall_mem_cons.mp h
    have hChars : Text.chars (Text.join ", " (t :: u :: us)) =
        Text.chars t ++ ',' :: ' ' :: Text.chars (Text.join ", " (u :: us)) := by
      rw [Text.join, List.append_assoc, Text.chars_append hUtf8, Text.chars_append rfl]
      · rfl
      · simp
    have hSpace : Solid 0 0 [' '] := solid_plain (List.forall_mem_singleton.mpr (by decide)) 0
    have hNext := hSpace (Text.chars (Text.join ", " (u :: us)))
    rw [ih hRest] at hNext
    rw [hChars, hSolid, splitCommas, if_pos (by simp)]
    show prepend (Text.chars t) ([] :: splitCommas 0 ([' '] ++ Text.chars (Text.join ", " (u :: us)))) = _
    rw [hNext, prepend, List.append_nil]
    rfl

theorem splitParams_join (h : ∀ t ∈ ts, Text.isUtf8 t = true ∧ Solid 0 0 (Text.chars t))
    (hText : ∀ t ∈ ts, Text.trim t ≠ []) : splitParams (Text.trim (Text.join ", " ts)) = ts.map Text.trim := by
  have hUtf8 : Text.isUtf8 (Text.join ", " ts) = true := Text.isUtf8_join rfl fun t ht => (h t ht).1
  rw [splitParams_trim hUtf8, splitParams_eq]
  cases ts with
  | nil => rfl
  | cons t ts =>
    have hSpace : ∀ c ∈ [' '], Text.isBlank c = true := List.forall_mem_singleton.mpr rfl
    have hPieces : (splitCommas 0 (Text.chars (Text.join ", " (t :: ts)))).map trimmed = (t :: ts).map Text.trim := by
      rw [splitCommas_join h, List.map_cons, List.map_cons, trimmed, Text.ofChars_chars (h t List.mem_cons_self).1,
        List.map_map]
      refine congrArg _ (List.map_congr_left fun u hu => ?_)
      show Text.trim (Text.ofChars ([' '] ++ Text.chars u)) = _
      rw [Text.trim_blank_append hSpace, Text.ofChars_chars (h u (List.mem_cons_of_mem _ hu)).1]
    rw [hPieces, List.filter_eq_self]
    intro part hPart
    obtain ⟨u, hu, rfl⟩ := List.mem_map.mp hPart
    simpa using hText u hu

end Signature

end Marshal
