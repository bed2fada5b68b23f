import Marshal.Text.Printable

/-! # Quoted text

Text between quotes, on one line and printable: printable characters stand for themselves, the quote
and the backslash take a backslash, seven control characters have a letter, and everything else is
written by its code point or, for a stray byte, by its value.
-/
set_option autoImplicit false
namespace Marshal
namespace Text

def escapeLetter? : Nat → Option UInt8
  | 7 => some 97
  | 8 => some 98
  | 9 => some 116
  | 10 => some 110
  | 11 => some 118
  | 12 => some 102
  | 13 => some 114
  | _ => none

/-- One character inside quotes of the kind `mark`; those that `bare` allows stand for themselves. -/
def escapeChar (bare : Char → Bool) (mark : UInt8) (c : Char) : Text :=
  if c.toNat = mark.toNat || c = '\\' then [92, c.toNat.toUInt8]
  else if bare c then ofChar c
  else match escapeLetter? c.toNat with
    | some letter => [92, letter]
    | none =>
      if c.toNat < 0x20 || c.toNat = 0x7F then "\\x" ++ ofBase 16 c.toNat 2
      else if c.toNat < 0x10000 then "\\u" ++ ofBase 16 c.toNat 4
      else "\\U" ++ ofBase 16 c.toNat 8

def escapeGlyph (bare : Char → Bool) (mark : UInt8) : Glyph → Text
  | .char c => escapeChar bare mark c
  | .stray b => "\\x" ++ ofBase 16 b.toNat 2

def isPrintableAscii (c : Char) : Bool := c.toNat < 0x80 && isPrintable c

def quote (t : Text) : Text :=
  [34] ++ (glyphs t).flatMap (escapeGlyph isPrintable 34) ++ [34]

def quoteAscii (t : Text) : Text :=
  [34] ++ (glyphs t).flatMap (escapeGlyph isPrintableAscii 34) ++ [34]

def quoteChar (c : Char) : Text := [39] ++ escapeChar isPrintable 39 c ++ [39]

def quoteCharAscii (c : Char) : Text := [39] ++ escapeChar isPrintableAscii 39 c ++ [39]

def Glyph.isRaw : Glyph → Bool
  | .char c => (c = '\t' || 0x20 ≤ c.toNat) && c.toNat ≠ 0x60 && c.toNat ≠ 0x7F && c.toNat ≠ 0xFEFF
  | .stray _ => false

def quoteRaw? (t : Text) : Option Text :=
  if (glyphs t).all Glyph.isRaw then some ([96] ++ t ++ [96]) else none

end Text

end Marshal
