import Marshal.Datum
import Marshal.Digest
import Marshal.Word

/-! # Identity keys

The identity of an object is a list of key fields. Each field has a canonical form in which the width of
integers and the spelling of zero and of a float that is no number do not matter. Keys are compared field by
field on these forms, and the hash of a key is the digest of their tagged encoding.
-/
set_option autoImplicit false
namespace Marshal

/-- A key field in canonical form. Integers are 64-bit words and floats are bit patterns of doubles. -/
inductive KeyField where
  | nil
  | bool (b : Bool)
  | int (word : UInt64)
  | uint (word : UInt64)
  | float (bits : UInt64)
  | text (t : Text)
  | bytes (bs : List UInt8)
  | other (typeName shown : Text)
deriving DecidableEq

namespace KeyField

def nanBits : UInt64 := 0x7ff8000000000001

def magnitude (bits : UInt64) : UInt64 := bits &&& 0x7FFFFFFFFFFFFFFF

def isNaN (bits : UInt64) : Bool := magnitude bits > 0x7FF0000000000000

/-- One pattern for both zeros and one for all that is no number. -/
def normalizeDouble (bits : UInt64) : UInt64 :=
  if magnitude bits = 0 then 0 else if isNaN bits then nanBits else bits

def widenSingle (bits : UInt32) : UInt64 :=
  let sign := (bits >>> 31).toUInt64 <<< 63
  let exponent := (bits >>> 23 &&& 0xFF).toUInt64
  let fraction := (bits &&& 0x7FFFFF).toUInt64
  if exponent = 0xFF then sign ||| (0x7FF0000000000000 : UInt64) ||| fraction <<< 29
  else if exponent ≠ 0 then sign ||| (exponent + 896) <<< 52 ||| fraction <<< 29
  else if fraction = 0 then sign
  else
    let top := fraction.toNat.log2
    let rest := fraction - (1 : UInt64) <<< top.toUInt64
    sign ||| (top + 874).toUInt64 <<< 52 ||| rest <<< (52 - top).toUInt64

def ofDatum : Datum → KeyField
  | .nil => nil
  | .bool b => bool b
  | .i8 n => int n.toInt64.toUInt64
  | .i16 n => int n.toInt64.toUInt64
  | .i32 n => int n.toInt64.toUInt64
  | .i64 n => int n.toUInt64
  | .isize n => int n.toUInt64
  | .u8 n => uint n.toUInt64
  | .u16 n => uint n.toUInt64
  | .u32 n => uint n.toUInt64
  | .u64 n => uint n
  | .usize n => uint n
  | .uptr n => uint n
  | .f32 bits => float (normalizeDouble (widenSingle bits))
  | .f64 bits => float (normalizeDouble bits)
  | .text t => text t
  | .bytes bs => bytes bs
  | d => other d.typeName d.plain

def word64 (w : UInt64) : List UInt8 := Word.toBytes 8 w.toNat

def sized (bs : List UInt8) : List UInt8 := Word.toBytes 4 bs.length ++ bs

/-- A tag that tells the form, then its payload; texts carry their length. -/
def encode : KeyField → List UInt8
  | nil => [0]
  | bool b => [1, if b then 1 else 0]
  | int w => 2 :: word64 w
  | uint w => 3 :: word64 w
  | float bits => 4 :: word64 (if isNaN bits then nanBits else bits)
  | text t => 5 :: sized t
  | bytes bs => 6 :: sized bs
  | other typeName shown => 7 :: (sized typeName ++ sized shown)

/-- Doubles are equal by value: both zeros are one number, and what is no number equals nothing. -/
def doubleEq (a b : UInt64) : Bool :=
  !isNaN a && !isNaN b && (a = b || (magnitude a = 0 && magnitude b = 0))

/-- Fields of one kind are compared by value, but all that is no number is the same. -/
def same : KeyField → KeyField → Bool
  | float a, float b => doubleEq a b || (isNaN a && isNaN b)
  | a, b => a = b

end KeyField

namespace Key

def canonical (fields : List Datum) : List KeyField := fields.map KeyField.ofDatum

def encode (fields : List Datum) : List UInt8 := (canonical fields).flatMap KeyField.encode

def hash (fields : List Datum) : UInt64 := Digest.xxh3 (encode fields)

def equal (a b : List Datum) : Bool :=
  a.length = b.length && ((canonical a).zip (canonical b)).all fun p => p.1.same p.2

end Key

end Marshal
