import Marshal.Text.Utf8

/-! # White space

The characters with the Unicode property White_Space, and trimming them off both ends of a text.
A stray byte is never white space.
-/
set_option autoImplicit false
namespace Marshal
namespace Text

/-- The Unicode property White_Space. -/
def isBlank (c : Char) : Bool :=
  let n := c.toNat
  (9 ≤ n && n ≤ 13) || n = 0x20 || n = 0x85 || n = 0xA0 || n = 0x1680 ||
    (0x2000 ≤ n && n ≤ 0x200A) || n = 0x2028 || n = 0x2029 || n = 0x202F || n = 0x205F || n = 0x3000

def Glyph.isBlank : Glyph → Bool
  | .char c => Text.isBlank c
  | .stray _ => false

def dropBlank (gs : List Glyph) : List Glyph := gs.dropWhile Glyph.isBlank

def dropBlankEnd (gs : List Glyph) : List Glyph := (dropBlank gs.reverse).reverse

def trimLeft (t : Text) : Text := ofGlyphs (dropBlank (glyphs t))

def trimRight (t : Text) : Text := ofGlyphs (dropBlankEnd (glyphs t))

def trim (t : Text) : Text := ofGlyphs (dropBlankEnd (dropBlank (glyphs t)))

end Text

end Marshal
