import Marshal.Text

/-! # Data

A datum is a value whose type is known only when it is looked at: the payload of a slot list, a field
of a key, the offending value of an error. Floats are kept as their bit patterns, so that no
arithmetic on them is ever needed.
-/
set_option autoImplicit false
namespace Marshal

/-- A dynamically typed value. -/
inductive Datum where
  | nil
  | bool (b : Bool)
  | u8 (n : UInt8)
  | u16 (n : UInt16)
  | u32 (n : UInt32)
  | u64 (n : UInt64)
  | usize (n : UInt64)
  | uptr (n : UInt64)
  | i8 (n : Int8)
  | i16 (n : Int16)
  | i32 (n : Int32)
  | i64 (n : Int64)
  | isize (n : Int64)
  | f32 (bits : UInt32)
  | f64 (bits : UInt64)
  | text (t : Text)
  | bytes (bs : List UInt8)
  | view (start len : UInt32)
  | list (items : List Datum)
  | other (typeName shown : Text)
deriving Inhabited

namespace Datum

def typeName : Datum → Text
  | nil => "nil"
  | bool _ => "bool"
  | u8 _ => "uint8"
  | u16 _ => "uint16"
  | u32 _ => "uint32"
  | u64 _ => "uint64"
  | usize _ => "uint"
  | uptr _ => "uintptr"
  | i8 _ => "int8"
  | i16 _ => "int16"
  | i32 _ => "int32"
  | i64 _ => "int64"
  | isize _ => "int"
  | f32 _ => "float32"
  | f64 _ => "float64"
  | text _ => "string"
  | bytes _ => "[]uint8"
  | view _ _ => "abi.Str"
  | list _ => "[]interface \x7b\x7d"
  | other name _ => name

def toInt? : Datum → Option Int
  | u8 n => some n.toNat
  | u16 n => some n.toNat
  | u32 n => some n.toNat
  | u64 n => some n.toNat
  | usize n => some n.toNat
  | uptr n => some n.toNat
  | i8 n => some n.toInt
  | i16 n => some n.toInt
  | i32 n => some n.toInt
  | i64 n => some n.toInt
  | isize n => some n.toInt
  | _ => none

mutual
/-- The plain text of a value. Composite values list their parts between brackets, and floats show
their bit pattern. -/
def plain : Datum → Text
  | nil => "<nil>"
  | bool b => if b then "true" else "false"
  | f32 bits => Text.hexLiteral bits.toNat
  | f64 bits => Text.hexLiteral bits.toNat
  | text t => t
  | bytes bs => "[" ++ Text.join " " (bs.map fun b => Text.ofNat b.toNat) ++ "]"
  | view start len => "\x7b" ++ Text.ofNat start.toNat ++ " " ++ Text.ofNat len.toNat ++ "\x7d"
  | list items => "[" ++ Text.join " " (plainAll items) ++ "]"
  | other _ shown => shown
  | u8 n => Text.ofNat n.toNat
  | u16 n => Text.ofNat n.toNat
  | u32 n => Text.ofNat n.toNat
  | u64 n => Text.ofNat n.toNat
  | usize n => Text.ofNat n.toNat
  | uptr n => Text.ofNat n.toNat
  | i8 n => Text.ofInt n.toInt
  | i16 n => Text.ofInt n.toInt
  | i32 n => Text.ofInt n.toInt
  | i64 n => Text.ofInt n.toInt
  | isize n => Text.ofInt n.toInt

def plainAll : List Datum → List Text
  | [] => []
  | d :: ds => plain d :: plainAll ds
end

end Datum

end Marshal
