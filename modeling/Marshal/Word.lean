/-! # Words as bytes

A word of a given number of bytes, the lowest byte first.
-/
set_option autoImplicit false
namespace Marshal
namespace Word

def toBytes : Nat → Nat → List UInt8
  | 0, _ => []
  | width + 1, n => (n % 256).toUInt8 :: toBytes width (n / 256)

def ofBytes : List UInt8 → Nat
  | [] => 0
  | b :: bs => b.toNat + 256 * ofBytes bs

end Word

end Marshal
