import Marshal.Text.Blank

/-! # Texts that are UTF-8

Reading the glyphs of a text and writing them out again changes nothing, and the glyphs of encoded characters are those
characters. So a text is UTF-8 exactly if it encodes some characters, and texts stay UTF-8 when they are joined,
trimmed or cut before an ASCII byte.
-/
set_option autoImplicit false
namespace Marshal
namespace Text

/-! ## One character -/

variable {t : Text} {b : UInt8}

theorem isTail_iff : isTail b = true ↔ 128 ≤ b.toNat ∧ b.toNat ≤ 191 := by
  simp [isTail, UInt8.le_iff_toNat_le]

theorem isPair_iff {a b : UInt8} : isPair a b = true ↔ (194 ≤ a.toNat ∧ a.toNat ≤ 223) ∧ isTail b = true := by
  simp [isPair, UInt8.le_iff_toNat_le]

theorem isTriple_iff {a b c : UInt8} : isTriple a b c = true ↔
    (a.toNat = 224 ∧ 160 ≤ b.toNat ∧ b.toNat ≤ 191 ∨ 225 ≤ a.toNat ∧ a.toNat ≤ 236 ∧ isTail b = true ∨
      a.toNat = 237 ∧ 128 ≤ b.toNat ∧ b.toNat ≤ 159 ∨ 238 ≤ a.toNat ∧ a.toNat ≤ 239 ∧ isTail b = true) ∧
      isTail c = true := by
  simp [isTriple, UInt8.le_iff_toNat_le, ← UInt8.toNat_inj, and_assoc, or_assoc]

theorem isQuad_iff {a b c d : UInt8} : isQuad a b c d = true ↔
    (a.toNat = 240 ∧ 144 ≤ b.toNat ∧ b.toNat ≤ 191 ∨ 241 ≤ a.toNat ∧ a.toNat ≤ 243 ∧ isTail b = true ∨
      a.toNat = 244 ∧ 128 ≤ b.toNat ∧ b.toNat ≤ 143) ∧ isTail c = true ∧ isTail d = true := by
  simp [isQuad, UInt8.le_iff_toNat_le, ← UInt8.toNat_inj, and_assoc, or_assoc]

theorem toNat_ofNat {n : Nat} (h : n.isValidChar) : (Char.ofNat n).toNat = n := by
  rw [Char.ofNat, dif_pos h]
  rfl

theorem ofNat_eq (b : UInt8) {n : Nat} (h : n = b.toNat) : UInt8.ofNat n = b := by
  rw [h, UInt8.ofNat_toNat]

theorem ofChar_eq {c : Char} {n : Nat} (h : c.toNat = n) : ofChar c =
    if n ≤ 127 then [UInt8.ofNat n]
    else if n ≤ 2047 then [UInt8.ofNat (n / 64 % 32 + 192), UInt8.ofNat (n % 64 + 128)]
    else if n ≤ 65535 then
      [UInt8.ofNat (n / 4096 % 16 + 224), UInt8.ofNat (n / 64 % 64 + 128), UInt8.ofNat (n % 64 + 128)]
    else [UInt8.ofNat (n / 262144 % 8 + 240), UInt8.ofNat (n / 4096 % 64 + 128), UInt8.ofNat (n / 64 % 64 + 128),
      UInt8.ofNat (n % 64 + 128)] := by
  subst h
  rfl

theorem ofChar_ascii {a : UInt8} (h : a.toNat < 128) : ofChar (Char.ofNat a.toNat) = [a] := by
  rw [ofChar_eq (toNat_ofNat (.inl (by omega))), if_pos (by omega), UInt8.ofNat_toNat]

theorem ofChar_pairChar {a b : UInt8} (h : isPair a b = true) : ofChar (pairChar a b) = [a, b] := by
  obtain ⟨ha, hb⟩ := isPair_iff.mp h
  rw [isTail_iff] at hb
  have hCode : (pairChar a b).toNat = a.toNat % 32 * 64 + b.toNat % 64 := toNat_ofNat (.inl (by unfold tailBits; omega))
  rw [ofChar_eq hCode, if_neg (by omega), if_pos (by omega), ofNat_eq a (by omega), ofNat_eq b (by omega)]

theorem ofChar_tripleChar {a b c : UInt8} (h : isTriple a b c = true) : ofChar (tripleChar a b c) = [a, b, c] := by
  obtain ⟨hab, hc⟩ := isTriple_iff.mp h
  rw [isTail_iff] at hab hc
  have hCode : (tripleChar a b c).toNat = a.toNat % 16 * 4096 + b.toNat % 64 * 64 + c.toNat % 64 := by
    refine toNat_ofNat ?_
    unfold Nat.isValidChar tailBits
    omega
  rw [ofChar_eq hCode, if_neg (by omega), if_neg (by omega), if_pos (by omega), ofNat_eq a (by omega),
    ofNat_eq b (by omega), ofNat_eq c (by omega)]

theorem ofChar_quadChar {a b c d : UInt8} (h : isQuad a b c d = true) :
    ofChar (quadChar a b c d) = [a, b, c, d] := by
  obtain ⟨hab, hc, hd⟩ := isQuad_iff.mp h
  rw [isTail_iff] at hab hc hd
  have hCode : (quadChar a b c d).toNat =
      a.toNat % 8 * 262144 + b.toNat % 64 * 4096 + c.toNat % 64 * 64 + d.toNat % 64 := by
    refine toNat_ofNat ?_
    unfold Nat.isValidChar tailBits
    omega
  rw [ofChar_eq hCode, if_neg (by omega), if_neg (by omega), if_neg (by omega), ofNat_eq a (by omega),
    ofNat_eq b (by omega), ofNat_eq c (by omega), ofNat_eq d (by omega)]

/-! ## Glyphs -/

theorem firstGlyph_ascii {a : UInt8} (h : a.toNat < 128) (t : Text) :
    firstGlyph a t = (.char (Char.ofNat a.toNat), 0) :=
  if_pos (UInt8.lt_iff_toNat_lt.mpr h)

theorem firstGlyph_pair {a b : UInt8} (h : isPair a b = true) (t : Text) :
    firstGlyph a (b :: t) = (.char (pairChar a b), 1) := by
  have ha : ¬ a < 0x80 := by
    rw [UInt8.lt_iff_toNat_lt]
    exact Nat.not_lt.mpr (Nat.le_trans (by decide) (isPair_iff.mp h).1.1)
  unfold firstGlyph
  rw [if_neg ha]
  rcases t with _ | ⟨c, _ | ⟨d, t⟩⟩ <;> simp only [h, if_true]

theorem firstGlyph_triple {a b c : UInt8} (h : isTriple a b c = true) (t : Text) :
    firstGlyph a (b :: c :: t) = (.char (tripleChar a b c), 2) := by
  have ha := (isTriple_iff.mp h).1
  have hPair : isPair a b = false := by
    rw [← Bool.not_eq_true, isPair_iff]
    omega
  unfold firstGlyph
  rw [if_neg (by rw [UInt8.lt_iff_toNat_lt]; simp only [UInt8.reduceToNat]; omega)]
  rcases t with _ | ⟨d, t⟩ <;> simp [h, hPair]

theorem firstGlyph_quad {a b c d : UInt8} (h : isQuad a b c d = true) (t : Text) :
    firstGlyph a (b :: c :: d :: t) = (.char (quadChar a b c d), 3) := by
  have ha := (isQuad_iff.mp h).1
  have hPair : isPair a b = false := by
    rw [← Bool.not_eq_true, isPair_iff]
    omega
  have hTriple : isTriple a b c = false := by
    rw [← Bool.not_eq_true, isTriple_iff]
    omega
  unfold firstGlyph
  rw [if_neg (by rw [UInt8.lt_iff_toNat_lt]; simp only [UInt8.reduceToNat]; omega)]
  simp [h, hPair, hTriple]

theorem bytes_firstGlyph (a : UInt8) (t : Text) :
    (firstGlyph a t).1.bytes ++ t.drop (firstGlyph a t).2 = a :: t := by
  unfold firstGlyph
  split
  · rename_i ha
    rw [UInt8.lt_iff_toNat_lt] at ha
    simp [Glyph.bytes, ofChar_ascii ha]
  · split
    · split
      · simp [Glyph.bytes, ofChar_pairChar, *]
      · split
        · simp [Glyph.bytes, ofChar_tripleChar, *]
        · split
          · simp [Glyph.bytes, ofChar_quadChar, *]
          · rfl
    · split
      · simp [Glyph.bytes, ofChar_pairChar, *]
      · split
        · simp [Glyph.bytes, ofChar_tripleChar, *]
        · rfl
    · split
      · simp [Glyph.bytes, ofChar_pairChar, *]
      · rfl
    · rfl

theorem glyphsFrom_eq (n : Nat) (t : Text) : glyphsFrom n t = glyphs (t.drop n) := by
  induction n generalizing t with
  | zero => rfl
  | succ n ih =>
    cases t with
    | nil => rfl
    | cons a t => exact ih t

theorem glyphs_cons (a : UInt8) (t : Text) :
    glyphs (a :: t) = (firstGlyph a t).1 :: glyphs (t.drop (firstGlyph a t).2) := by
  rw [← glyphsFrom_eq]
  rfl

theorem ofGlyphs_glyphs (t : Text) : ofGlyphs (glyphs t) = t := by
  induction t using (measure List.length).wf.induction with
  | h t ih =>
    cases t with
    | nil => rfl
    | cons a t =>
      have hRest : ofGlyphs (glyphs (t.drop (firstGlyph a t).2)) = t.drop (firstGlyph a t).2 := by
        refine ih _ ?_
        change (t.drop (firstGlyph a t).2).length < (a :: t).length
        rw [List.length_drop, List.length_cons]
        omega
      rw [glyphs_cons, ofGlyphs, List.flatMap_cons]
      change _ ++ ofGlyphs _ = _
      rw [hRest, bytes_firstGlyph]

theorem glyphs_ofChar_append (c : Char) (t : Text) : glyphs (ofChar c ++ t) = .char c :: glyphs t := by
  have hValid : c.toNat < 0xD800 ∨ 0xDFFF < c.toNat ∧ c.toNat < 0x110000 := c.valid
  have hBack : ∀ n, n = c.toNat → Char.ofNat n = c := fun n hn => hn ▸ Char.ofNat_toNat c
  have hByte : ∀ n < 256, (UInt8.ofNat n).toNat = n := fun n hn => UInt8.toNat_ofNat_of_lt' hn
  rw [ofChar_eq rfl]
  split
  · have hFirst := hByte c.toNat (by omega)
    rw [List.singleton_append, glyphs_cons, firstGlyph_ascii (by omega), hBack _ hFirst]
    rfl
  · split
    · have ha := hByte (c.toNat / 64 % 32 + 192) (by omega)
      have hb := hByte (c.toNat % 64 + 128) (by omega)
      have hPair : isPair (UInt8.ofNat (c.toNat / 64 % 32 + 192)) (UInt8.ofNat (c.toNat % 64 + 128)) = true := by
        rw [isPair_iff, isTail_iff]
        omega
      rw [List.cons_append, List.singleton_append, glyphs_cons, firstGlyph_pair hPair, pairChar, tailBits,
        hBack _ (by omega)]
      rfl
    · split
      · have ha := hByte (c.toNat / 4096 % 16 + 224) (by omega)
        have hb := hByte (c.toNat / 64 % 64 + 128) (by omega)
        have hc := hByte (c.toNat % 64 + 128) (by omega)
        have hTriple : isTriple (UInt8.ofNat (c.toNat / 4096 % 16 + 224)) (UInt8.ofNat (c.toNat / 64 % 64 + 128))
            (UInt8.ofNat (c.toNat % 64 + 128)) = true := by
          rw [isTriple_iff, isTail_iff, isTail_iff]
          omega
        rw [List.cons_append, List.cons_append, List.singleton_append, glyphs_cons, firstGlyph_triple hTriple,
          tripleChar, tailBits, tailBits, hBack _ (by omega)]
        rfl
      · have ha := hByte (c.toNat / 262144 % 8 + 240) (by omega)
        have hb := hByte (c.toNat / 4096 % 64 + 128) (by omega)
        have hc := hByte (c.toNat / 64 % 64 + 128) (by omega)
        have hd := hByte (c.toNat % 64 + 128) (by omega)
        have hQuad : isQuad (UInt8.ofNat (c.toNat / 262144 % 8 + 240)) (UInt8.ofNat (c.toNat / 4096 % 64 + 128))
            (UInt8.ofNat (c.toNat / 64 % 64 + 128)) (UInt8.ofNat (c.toNat % 64 + 128)) = true := by
          rw [isQuad_iff, isTail_iff, isTail_iff, isTail_iff]
          omega
        rw [List.cons_append, List.cons_append, List.cons_append, List.singleton_append, glyphs_cons,
          firstGlyph_quad hQuad, quadChar, tailBits, tailBits, tailBits, hBack _ (by omega)]
        rfl

theorem glyphs_ofChars (cs : List Char) : glyphs (ofChars cs) = cs.map .char := by
  induction cs with
  | nil => rfl
  | cons c cs ih =>
    rw [ofChars, List.flatMap_cons, glyphs_ofChar_append, List.map_cons]
    exact congrArg _ ih

/-! ## UTF-8 -/

theorem ofGlyphs_map_char (cs : List Char) : ofGlyphs (cs.map .char) = ofChars cs := by
  rw [ofGlyphs, List.flatMap_map]
  rfl

theorem exists_map_char {gs : List Glyph} (h : gs.all Glyph.isChar = true) : ∃ cs : List Char, gs = cs.map .char := by
  induction gs with
  | nil => exact ⟨[], rfl⟩
  | cons g gs ih =>
    obtain ⟨hg, hgs⟩ := Bool.and_eq_true_iff.mp h
    obtain ⟨cs, rfl⟩ := ih hgs
    cases g with
    | char c => exact ⟨c :: cs, rfl⟩
    | stray b => cases hg

theorem isUtf8_iff : isUtf8 t = true ↔ ∃ cs, t = ofChars cs := by
  constructor
  · intro h
    obtain ⟨cs, hGlyphs⟩ := exists_map_char h
    refine ⟨cs, ?_⟩
    rw [← ofGlyphs_glyphs t, hGlyphs, ofGlyphs_map_char]
  · rintro ⟨cs, rfl⟩
    rw [isUtf8, glyphs_ofChars, List.all_map, List.all_eq_true]
    exact fun _ _ => rfl

theorem isUtf8_ofChars (cs : List Char) : isUtf8 (ofChars cs) = true := isUtf8_iff.mpr ⟨cs, rfl⟩

theorem chars_ofChars (cs : List Char) : chars (ofChars cs) = cs := by
  rw [chars, glyphs_ofChars, List.map_map]
  exact List.map_id cs

theorem chars_append {s : Text} (h : isUtf8 s = true) (t : Text) : chars (s ++ t) = chars s ++ chars t := by
  obtain ⟨cs, rfl⟩ := isUtf8_iff.mp h
  induction cs with
  | nil => rfl
  | cons c cs ih =>
    have hRest := ih (isUtf8_ofChars cs)
    rw [ofChars, List.flatMap_cons, List.append_assoc, chars, chars, glyphs_ofChar_append, glyphs_ofChar_append,
      List.map_cons, List.map_cons, List.cons_append]
    exact congrArg _ hRest

theorem ofChars_chars (h : isUtf8 t = true) : ofChars (chars t) = t := by
  obtain ⟨cs, rfl⟩ := isUtf8_iff.mp h
  rw [chars_ofChars]

theorem isUtf8_append {s t : Text} (hs : isUtf8 s = true) (ht : isUtf8 t = true) : isUtf8 (s ++ t) = true := by
  obtain ⟨cs, rfl⟩ := isUtf8_iff.mp hs
  obtain ⟨ds, rfl⟩ := isUtf8_iff.mp ht
  rw [ofChars, ofChars, ← List.flatMap_append]
  exact isUtf8_ofChars _

theorem isUtf8_join {sep : Text} {ts : List Text} (hSep : isUtf8 sep = true) (h : ∀ t ∈ ts, isUtf8 t = true) :
    isUtf8 (join sep ts) = true := by
  induction ts with
  | nil => rfl
  | cons t ts ih =>
    obtain ⟨ht, hts⟩ := List.forall_mem_cons.mp h
    cases ts with
    | nil => exact ht
    | cons u ts => exact isUtf8_append (isUtf8_append ht hSep) (ih hts)

theorem ofChars_ascii (h : ∀ b ∈ t, b.toNat < 128) : ofChars (t.map fun b => Char.ofNat b.toNat) = t := by
  induction t with
  | nil => rfl
  | cons b t ih =>
    obtain ⟨hb, ht⟩ := List.forall_mem_cons.mp h
    rw [List.map_cons, ofChars, List.flatMap_cons, ofChar_ascii hb, List.singleton_append]
    exact congrArg _ (ih ht)

theorem isUtf8_of_ascii (h : ∀ b ∈ t, b.toNat < 128) : isUtf8 t = true :=
  isUtf8_iff.mpr ⟨_, (ofChars_ascii h).symm⟩

theorem isUtf8_trim (h : isUtf8 t = true) : isUtf8 (trim t) = true := by
  have hTrim : (dropBlankEnd (dropBlank (glyphs t))).all Glyph.isChar = true := by
    rw [List.all_eq_true]
    intro g hg
    rw [dropBlankEnd, List.mem_reverse] at hg
    have hStart := List.mem_reverse.mp ((List.dropWhile_sublist Glyph.isBlank).subset hg)
    exact List.all_eq_true.mp h g ((List.dropWhile_sublist Glyph.isBlank).subset hStart)
  obtain ⟨cs, hGlyphs⟩ := exists_map_char hTrim
  rw [trim, hGlyphs, ofGlyphs_map_char]
  exact isUtf8_ofChars cs

theorem ofChar_eq_of_mem {c : Char} (hb : b.toNat < 128) (h : b ∈ ofChar c) : ofChar c = [b] := by
  have hHigh : ∀ n, 128 ≤ n → n < 256 → b ≠ UInt8.ofNat n := by
    rintro n hn hn' rfl
    rw [UInt8.toNat_ofNat_of_lt' hn'] at hb
    omega
  rw [ofChar_eq rfl] at h ⊢
  by_cases hAscii : c.toNat ≤ 127
  · rw [if_pos hAscii] at h ⊢
    rw [List.mem_singleton.mp h]
  · rw [if_neg hAscii] at h
    split at h
    · simp only [List.mem_cons, List.not_mem_nil, or_false] at h
      rcases h with h | h <;> exact absurd h (hHigh _ (by omega) (by omega))
    · split at h
      · simp only [List.mem_cons, List.not_mem_nil, or_false] at h
        rcases h with h | h | h <;> exact absurd h (hHigh _ (by omega) (by omega))
      · simp only [List.mem_cons, List.not_mem_nil, or_false] at h
        rcases h with h | h | h | h <;> exact absurd h (hHigh _ (by omega) (by omega))

theorem mem_chars_of_mem (h : isUtf8 t = true) (hb : b.toNat < 128) (hMem : b ∈ t) :
    Char.ofNat b.toNat ∈ chars t := by
  obtain ⟨cs, rfl⟩ := isUtf8_iff.mp h
  obtain ⟨c, hc, hByte⟩ := List.mem_flatMap.mp hMem
  have hSame : ofChars [c] = ofChars [Char.ofNat b.toNat] := by
    rw [ofChars, ofChars, List.flatMap_singleton, List.flatMap_singleton, ofChar_eq_of_mem hb hByte, ofChar_ascii hb]
  have hChar := congrArg chars hSame
  rw [chars_ofChars, chars_ofChars, List.singleton_inj] at hChar
  rw [chars_ofChars, ← hChar]
  exact hc

theorem isUtf8_takeWhile (hb : b.toNat < 128) (h : isUtf8 t = true) : isUtf8 (t.takeWhile (· ≠ b)) = true := by
  obtain ⟨cs, rfl⟩ := isUtf8_iff.mp h
  induction cs with
  | nil => rfl
  | cons c cs ih =>
    rw [ofChars, List.flatMap_cons]
    by_cases hMem : b ∈ ofChar c
    · rw [ofChar_eq_of_mem hb hMem, List.singleton_append, List.takeWhile_cons_of_neg (by simp)]
      rfl
    · have hAll : ∀ x ∈ ofChar c, decide (x ≠ b) = true := by
        intro x hx
        exact decide_eq_true fun hEq => hMem (hEq ▸ hx)
      rw [List.takeWhile_append_of_pos hAll]
      refine isUtf8_append ?_ (ih (isUtf8_ofChars cs))
      exact isUtf8_iff.mpr ⟨[c], (List.flatMap_singleton ..).symm⟩

end Text

end Marshal
