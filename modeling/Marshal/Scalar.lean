import Marshal.Failure
import Marshal.Layout
import Marshal.Word

/-! # Scalars in memory

The thirteen element types that are stored by value. Each takes a fixed number of bytes, which is also
its alignment, and is stored with its lowest byte first.
-/
set_option autoImplicit false
namespace Marshal

inductive Scalar where
  | u8
  | u16
  | u32
  | u64
  | usize
  | i8
  | i16
  | i32
  | i64
  | isize
  | f32
  | f64
  | bool
deriving DecidableEq, Repr

namespace Scalar

def all : List Scalar := [u8, u16, u32, u64, usize, i8, i16, i32, i64, isize, f32, f64, bool]

def name : Scalar → Text
  | u8 => "u8"
  | u16 => "u16"
  | u32 => "u32"
  | u64 => "u64"
  | usize => "usize"
  | i8 => "i8"
  | i16 => "i16"
  | i32 => "i32"
  | i64 => "i64"
  | isize => "isize"
  | f32 => "f32"
  | f64 => "f64"
  | bool => "bool"

def width : Scalar → Nat
  | u8 | i8 | bool => 1
  | u16 | i16 => 2
  | u32 | i32 | f32 => 4
  | u64 | i64 | f64 | usize | isize => 8

def size (s : Scalar) : UInt32 := s.width.toUInt32

def layout (s : Scalar) : Layout := .scalar s.size

def toWord? : Scalar → Datum → Option Nat
  | u8, .u8 n => some n.toNat
  | u16, .u16 n => some n.toNat
  | u32, .u32 n => some n.toNat
  | u64, .u64 n => some n.toNat
  | usize, .usize n => some n.toNat
  | i8, .i8 n => some n.toUInt8.toNat
  | i16, .i16 n => some n.toUInt16.toNat
  | i32, .i32 n => some n.toUInt32.toNat
  | i64, .i64 n => some n.toUInt64.toNat
  | isize, .isize n => some n.toUInt64.toNat
  | f32, .f32 bits => some bits.toNat
  | f64, .f64 bits => some bits.toNat
  | bool, .bool b => some (if b then 1 else 0)
  | _, _ => none

def holds (s : Scalar) (v : Datum) : Bool := (s.toWord? v).isSome

/-- The datum a stored word stands for. Only a truth value can be out of range. -/
def ofWord : Scalar → Nat → Except Report Datum
  | u8, n => .ok (.u8 n.toUInt8)
  | u16, n => .ok (.u16 n.toUInt16)
  | u32, n => .ok (.u32 n.toUInt32)
  | u64, n => .ok (.u64 n.toUInt64)
  | usize, n => .ok (.usize n.toUInt64)
  | i8, n => .ok (.i8 n.toUInt8.toInt8)
  | i16, n => .ok (.i16 n.toUInt16.toInt16)
  | i32, n => .ok (.i32 n.toUInt32.toInt32)
  | i64, n => .ok (.i64 n.toUInt64.toInt64)
  | isize, n => .ok (.isize n.toUInt64.toInt64)
  | f32, n => .ok (.f32 n.toUInt32)
  | f64, n => .ok (.f64 n.toUInt64)
  | bool, n =>
    if n > 1 then .error (.invalidData .decode ["bool"] "bool byte must be 0 or 1")
    else .ok (.bool (n = 1))

/-- The filler that stands in an absent option: 123, 123.4 or false. -/
def sentinel : Scalar → Datum
  | u8 => .u8 123
  | u16 => .u16 123
  | u32 => .u32 123
  | u64 => .u64 123
  | usize => .usize 123
  | i8 => .i8 123
  | i16 => .i16 123
  | i32 => .i32 123
  | i64 => .i64 123
  | isize => .isize 123
  | f32 => .f32 0x42F6CCCD
  | f64 => .f64 0x405ED9999999999A
  | bool => .bool false

def zero : Scalar → Datum
  | u8 => .u8 0
  | u16 => .u16 0
  | u32 => .u32 0
  | u64 => .u64 0
  | usize => .usize 0
  | i8 => .i8 0
  | i16 => .i16 0
  | i32 => .i32 0
  | i64 => .i64 0
  | isize => .isize 0
  | f32 => .f32 0
  | f64 => .f64 0
  | bool => .bool false

def typeName (s : Scalar) : Text := s.zero.typeName

end Scalar

/-- An optional scalar as it crosses the boundary: a value, which is filler when the flag is down. -/
structure OptionAggregate where
  val : Datum
  isSome : Bool

structure View where
  start : UInt32
  len : UInt32
deriving DecidableEq

/-- A result of two references: the flag tells what the address refers to. -/
structure PointerResult where
  isOk : Bool
  target : UInt32
deriving DecidableEq

def OptionAggregate.ofOption (s : Scalar) : Option Datum → OptionAggregate
  | some v => ⟨v, true⟩
  | none => ⟨s.sentinel, false⟩

def OptionAggregate.toOption (a : OptionAggregate) : Option Datum :=
  if a.isSome then some a.val else none

end Marshal
