import Marshal.Text

/-! # UTF-8

A byte string read as UTF-8: a list of glyphs, each of them a character or a stray byte that starts
no well-formed encoding. A character takes one to four bytes, never more than it needs, and is no
surrogate.
-/
set_option autoImplicit false
namespace Marshal
namespace Text

/-- What stands at one place of a text: a character, or a byte that is part of none. -/
inductive Glyph where
  | char (c : Char)
  | stray (b : UInt8)
deriving DecidableEq, Repr

def isTail (b : UInt8) : Bool := 0x80 ≤ b && b ≤ 0xBF

def isPair (a b : UInt8) : Bool := 0xC2 ≤ a && a ≤ 0xDF && isTail b

def isTriple (a b c : UInt8) : Bool :=
  ((a = 0xE0 && 0xA0 ≤ b && b ≤ 0xBF) ||
    (0xE1 ≤ a && a ≤ 0xEC && isTail b) ||
    (a = 0xED && 0x80 ≤ b && b ≤ 0x9F) ||
    (0xEE ≤ a && a ≤ 0xEF && isTail b)) && isTail c

def isQuad (a b c d : UInt8) : Bool :=
  ((a = 0xF0 && 0x90 ≤ b && b ≤ 0xBF) ||
    (0xF1 ≤ a && a ≤ 0xF3 && isTail b) ||
    (a = 0xF4 && 0x80 ≤ b && b ≤ 0x8F)) && isTail c && isTail d

def tailBits (b : UInt8) : Nat := b.toNat % 64

def pairChar (a b : UInt8) : Char := Char.ofNat (a.toNat % 32 * 64 + tailBits b)

def tripleChar (a b c : UInt8) : Char :=
  Char.ofNat (a.toNat % 16 * 4096 + tailBits b * 64 + tailBits c)

def quadChar (a b c d : UInt8) : Char :=
  Char.ofNat (a.toNat % 8 * 262144 + tailBits b * 4096 + tailBits c * 64 + tailBits d)

/-- The glyph that starts with byte `a` before `t`, and how many bytes of `t` it takes. -/
def firstGlyph (a : UInt8) (t : Text) : Glyph × Nat :=
  if a < 0x80 then (.char (Char.ofNat a.toNat), 0)
  else match t with
    | b :: c :: d :: _ =>
      if isPair a b then (.char (pairChar a b), 1)
      else if isTriple a b c then (.char (tripleChar a b c), 2)
      else if isQuad a b c d then (.char (quadChar a b c d), 3)
      else (.stray a, 0)
    | [b, c] =>
      if isPair a b then (.char (pairChar a b), 1)
      else if isTriple a b c then (.char (tripleChar a b c), 2)
      else (.stray a, 0)
    | [b] => if isPair a b then (.char (pairChar a b), 1) else (.stray a, 0)
    | [] => (.stray a, 0)

def glyphsFrom : Nat → Text → List Glyph
  | _, [] => []
  | skip + 1, _ :: t => glyphsFrom skip t
  | 0, a :: t => (firstGlyph a t).1 :: glyphsFrom (firstGlyph a t).2 t

def glyphs (t : Text) : List Glyph := glyphsFrom 0 t

def ofChar (c : Char) : Text := String.utf8EncodeChar c

def Glyph.bytes : Glyph → Text
  | .char c => ofChar c
  | .stray b => [b]

/-- The glyph as a character; a stray byte reads as the replacement character. -/
def Glyph.toChar : Glyph → Char
  | .char c => c
  | .stray _ => '�'

def Glyph.isChar : Glyph → Bool
  | .char _ => true
  | .stray _ => false

def isUtf8 (t : Text) : Bool := (glyphs t).all Glyph.isChar

def ofGlyphs (gs : List Glyph) : Text := gs.flatMap Glyph.bytes

def ofChars (cs : List Char) : Text := cs.flatMap ofChar

def chars (t : Text) : List Char := (glyphs t).map Glyph.toChar

end Text

end Marshal
