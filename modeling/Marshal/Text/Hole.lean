import Marshal.Datum
import Marshal.Text.Quoted

/-! # Data in holes

How a datum is shown in a hole of a template: by a verb, which is a single character, and under flags, a
width and a precision. Nothing fails: a datum that its verb cannot show is shown with a note that says so.
-/
set_option autoImplicit false
namespace Marshal
namespace Text

/-- How one datum is to be shown. `literal` asks for the notation of a program and `named` for the names of
fields. -/
structure Hole where
  sharp : Bool := false
  plus : Bool := false
  minus : Bool := false
  zero : Bool := false
  space : Bool := false
  literal : Bool := false
  named : Bool := false
  width : Option Nat := none
  precision : Option Nat := none

namespace Hole

/-- The general verbs read two of the flags in a way of their own. -/
def forVerb (h : Hole) (verb : Char) : Hole :=
  if verb = 'v' || verb = 'w' then
    { h with literal := h.sharp, sharp := false, named := h.plus, plus := false }
  else h

/-- Pads a text to the hole's width, counted in characters. Zeros are for the left side only. -/
def pad (h : Hole) (t : Text) : Text :=
  let missing := h.width.getD 0 - (glyphs t).length
  if h.minus then t ++ List.replicate missing 32
  else List.replicate missing (if h.zero then 48 else 32) ++ t

def padBlank (h : Hole) (t : Text) : Text := { h with zero := false }.pad t

def upper (t : Text) : Text := t.map fun b => if 97 ≤ b && b ≤ 122 then b - 32 else b

/-- What tells the base of digits; an octal number needs no more than a leading zero. -/
def baseMark (base : Nat) (digits : Text) : Text :=
  if base = 2 then "0b" else if base = 16 then "0x"
  else if base = 8 && digits.head? ≠ some 48 then "0" else []

/-- An integer in the given base: sign, `lead`, base mark, then digits padded to the precision, or to the
width when zeros are asked for and no precision is given. Zero at precision zero shows nothing. -/
def showInt (h : Hole) (base : Nat) (lead : Text) (n : Int) : Text :=
  if h.precision = some 0 && n = 0 then h.padBlank []
  else
    let sign : Text := if n < 0 then [45] else if h.plus then [43] else if h.space then [32] else []
    let least := match h.precision with
      | some p => p
      | none => if h.zero && !h.minus then h.width.getD 0 - sign.length else 0
    let digits := ofBase base n.natAbs least
    h.padBlank (sign ++ lead ++ (if h.sharp then baseMark base digits else []) ++ digits)

def showHex (h : Hole) (bytes : List UInt8) : Text :=
  let shown := match h.precision with
    | some p => bytes.take p
    | none => bytes
  if shown.isEmpty then h.pad []
  else if h.space then
    let mark : Text := if h.sharp then "0x" else []
    h.pad (join [32] (shown.map fun b => mark ++ hexBytes [b]))
  else h.pad ((if h.sharp then ofString "0x" else []) ++ hexBytes shown)

def cut (h : Hole) (t : Text) : Text :=
  match h.precision with
  | some p => ofGlyphs ((glyphs t).take p)
  | none => t

def showText (h : Hole) (t : Text) : Text := h.pad (h.cut t)

def showQuoted (h : Hole) (t : Text) : Text :=
  let t := h.cut t
  let quoted := if h.plus then quoteAscii t else quote t
  h.pad (if h.sharp then (quoteRaw? t).getD quoted else quoted)

def wordOf (n : Int) : Nat := (n % 0x10000000000000000).toNat

def charOf (n : Int) : Char :=
  if (wordOf n).isValidChar then Char.ofNat (wordOf n) else '\uFFFD'

/-- The code point written as `U+` and at least four digits, and the character itself where asked for. -/
def showCodePoint (h : Hole) (n : Int) : Text :=
  let c := charOf n
  let drawn : Text := if h.sharp && c.toNat = wordOf n && isPrintable c then " '" ++ ofChar c ++ "'" else []
  h.padBlank ("U+" ++ upper (ofBase 16 (wordOf n) (max 4 (h.precision.getD 0))) ++ drawn)

def int? (h : Hole) (verb : Char) (n : Int) : Option Text :=
  match verb with
  | 'd' => some (h.showInt 10 [] n)
  | 'b' => some (h.showInt 2 [] n)
  | 'o' => some (h.showInt 8 [] n)
  | 'O' => some (h.showInt 8 "0o" n)
  | 'x' => some (h.showInt 16 [] n)
  | 'X' => some (upper (h.showInt 16 [] n))
  | 'c' => some (h.pad (ofChar (charOf n)))
  | 'q' => some (h.pad (if h.plus then quoteCharAscii (charOf n) else quoteChar (charOf n)))
  | 'U' => some (h.showCodePoint n)
  | _ => none

def text? (h : Hole) (verb : Char) (t : Text) : Option Text :=
  match verb with
  | 's' => some (h.showText t)
  | 'q' => some (h.showQuoted t)
  | 'x' => some (h.showHex t)
  | 'X' => some (upper (h.showHex t))
  | _ => none

def showUnsigned (h : Hole) (n : Nat) : Text :=
  if h.literal then { h with sharp := true }.showInt 16 [] n else h.showInt 10 [] n

/-- Parts between brackets; in the notation of a program after the name of their type. -/
def enclose (h : Hole) (name first last : Text) (parts : List Text) : Text :=
  if h.literal then name ++ "\x7b" ++ join ", " parts ++ "\x7d" else first ++ join " " parts ++ last

def showView (h : Hole) (start len : Text) : Text :=
  let label (name : Text) : Text := if h.named || h.literal then name ++ ":" else []
  h.enclose "abi.Str" "\x7b" "\x7d" [label "Start" ++ start, label "Len" ++ len]

def showBytes (h : Hole) (name : Text) (bs : List UInt8) : Text :=
  h.enclose name "[" "]" (bs.map fun b => h.showUnsigned b.toNat)

mutual
def value (h : Hole) : Datum → Text
  | .nil => h.pad "<nil>"
  | .bool b => h.pad (Datum.bool b).plain
  | .text t => if h.literal then h.showQuoted t else h.showText t
  | .bytes bs => h.showBytes "[]byte" bs
  | .view start len => h.showView (h.showUnsigned start.toNat) (h.showUnsigned len.toNat)
  | .list items => h.enclose (Datum.list items).typeName "[" "]" (valueAll h items)
  | .other _ shown => h.showText shown
  | .f32 bits => (Datum.f32 bits).plain
  | .f64 bits => (Datum.f64 bits).plain
  | .u8 n => h.showUnsigned n.toNat
  | .u16 n => h.showUnsigned n.toNat
  | .u32 n => h.showUnsigned n.toNat
  | .u64 n => h.showUnsigned n.toNat
  | .usize n => h.showUnsigned n.toNat
  | .uptr n => h.showUnsigned n.toNat
  | .i8 n => h.showInt 10 [] n.toInt
  | .i16 n => h.showInt 10 [] n.toInt
  | .i32 n => h.showInt 10 [] n.toInt
  | .i64 n => h.showInt 10 [] n.toInt
  | .isize n => h.showInt 10 [] n.toInt

def valueAll (h : Hole) : List Datum → List Text
  | [] => []
  | .nil :: ds => (if h.literal then "interface \x7b\x7d(nil)" else "<nil>" : Text) :: valueAll h ds
  | .bytes bs :: ds => h.showBytes "[]uint8" bs :: valueAll h ds
  | d :: ds => value h d :: valueAll h ds
end

def misfit (h : Hole) (verb : Char) (d : Datum) : Text :=
  "%!" ++ ofChar verb ++ "(" ++
    (match d with
      | .nil => "<nil>"
      | d => d.typeName ++ "=" ++ h.value d) ++ ")"

def number (h : Hole) (verb : Char) (d : Datum) : Text :=
  (d.toInt?.bind (h.int? verb)).getD (h.misfit verb d)

mutual
def special (h : Hole) (verb : Char) : Datum → Text
  | .bool b => if verb = 't' then h.pad (Datum.bool b).plain else h.misfit verb (.bool b)
  | .text t => (h.text? verb t).getD (h.misfit verb (.text t))
  | .other name shown => (h.text? verb shown).getD (h.misfit verb (.other name shown))
  | .bytes bs =>
    (h.text? verb bs).getD (h.enclose "[]uint8" "[" "]" (bs.map fun b => h.number verb (.u8 b)))
  | .view start len => h.showView (h.number verb (.u32 start)) (h.number verb (.u32 len))
  | .list items => h.enclose [] "[" "]" (specialAll h verb items)
  | d => h.number verb d

def specialAll (h : Hole) (verb : Char) : List Datum → List Text
  | [] => []
  | .nil :: ds => ("<nil>" : Text) :: specialAll h verb ds
  | d :: ds => special h verb d :: specialAll h verb ds
end

def fill (h : Hole) (verb : Char) (d : Datum) : Text :=
  let h := h.forVerb verb
  match verb, d with
  | 'v', d => h.value d
  | 'T', .nil => h.value .nil
  | 'T', d => h.showText d.typeName
  | 'w', .bytes bs => h.special 'w' (.bytes bs)
  | 'w', d => h.misfit 'w' d
  | verb, d => h.special verb d

end Hole

end Text

end Marshal
