/-! # Text as bytes

Names, messages and payloads cross the boundary as byte strings. Most of them are UTF-8, but none
of the operations here assumes it, so a name with stray bytes is carried through unchanged.
-/
set_option autoImplicit false
namespace Marshal

/-- A byte string. -/
abbrev Text := List UInt8

namespace Text

def ofString (s : String) : Text := s.toUTF8.data.toList

instance : Coe String Text := ⟨ofString⟩

def ofNat (n : Nat) : Text := ofString (toString n)

def ofInt (n : Int) : Text := ofString (toString n)

def digit (n : Nat) : UInt8 :=
  if n < 10 then (48 + n).toUInt8 else (87 + n).toUInt8

def ofBase (base n width : Nat) : Text :=
  let digits := (Nat.toDigits base n).map fun c => c.toNat.toUInt8
  List.replicate (width - digits.length) 48 ++ digits

def hex (n : Nat) : Text := ofBase 16 n 1

def hexLiteral (n : Nat) : Text := "0x" ++ hex n

def hexBytes (bytes : List UInt8) : Text :=
  bytes.flatMap fun b => [digit (b.toNat / 16), digit (b.toNat % 16)]

def join (sep : Text) : List Text → Text
  | [] => []
  | [part] => part
  | part :: rest => part ++ sep ++ join sep rest

def splitOn (sep : UInt8) : Text → List Text
  | [] => [[]]
  | b :: rest =>
    match splitOn sep rest with
    | [] => [[b]]
    | piece :: pieces => if b = sep then [] :: piece :: pieces else (b :: piece) :: pieces

def contains (t part : Text) : Bool :=
  part.isPrefixOf t ||
    match t with
    | [] => false
    | _ :: rest => contains rest part

def le : Text → Text → Bool
  | [], _ => true
  | _ :: _, [] => false
  | a :: s, b :: t => a < b || (a = b && le s t)

def sortUnique (texts : List Text) : List Text :=
  (texts.mergeSort le).foldr (fun t rest => if rest.head? = some t then rest else t :: rest) []

def times (n : Nat) (t : Text) : Text := (List.replicate n t).flatten

end Text

end Marshal
