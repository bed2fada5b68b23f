import Marshal.Text

/-! # The XXH3 digest

The 64-bit XXH3 hash of a byte string with seed zero. Short inputs have a formula for each range of
lengths; an input of more than 240 bytes is folded in stripes of 64 bytes into eight lanes.
-/
set_option autoImplicit false
namespace Marshal
namespace Digest

def secret : Array UInt8 := #[
  0xb8, 0xfe, 0x6c, 0x39, 0x23, 0xa4, 0x4b, 0xbe, 0x7c, 0x01, 0x81, 0x2c, 0xf7, 0x21, 0xad, 0x1c,
  0xde, 0xd4, 0x6d, 0xe9, 0x83, 0x90, 0x97, 0xdb, 0x72, 0x40, 0xa4, 0xa4, 0xb7, 0xb3, 0x67, 0x1f,
  0xcb, 0x79, 0xe6, 0x4e, 0xcc, 0xc0, 0xe5, 0x78, 0x82, 0x5a, 0xd0, 0x7d, 0xcc, 0xff, 0x72, 0x21,
  0xb8, 0x08, 0x46, 0x74, 0xf7, 0x43, 0x24, 0x8e, 0xe0, 0x35, 0x90, 0xe6, 0x81, 0x3a, 0x26, 0x4c,
  0x3c, 0x28, 0x52, 0xbb, 0x91, 0xc3, 0x00, 0xcb, 0x88, 0xd0, 0x65, 0x8b, 0x1b, 0x53, 0x2e, 0xa3,
  0x71, 0x64, 0x48, 0x97, 0xa2, 0x0d, 0xf9, 0x4e, 0x38, 0x19, 0xef, 0x46, 0xa9, 0xde, 0xac, 0xd8,
  0xa8, 0xfa, 0x76, 0x3f, 0xe3, 0x9c, 0x34, 0x3f, 0xf9, 0xdc, 0xbb, 0xc7, 0xc7, 0x0b, 0x4f, 0x1d,
  0x8a, 0x51, 0xe0, 0x4b, 0xcd, 0xb4, 0x59, 0x31, 0xc8, 0x9f, 0x7e, 0xc9, 0xd9, 0x78, 0x73, 0x64,
  0xea, 0xc5, 0xac, 0x83, 0x34, 0xd3, 0xeb, 0xc3, 0xc5, 0x81, 0xa0, 0xff, 0xfa, 0x13, 0x63, 0xeb,
  0x17, 0x0d, 0xdd, 0x51, 0xb7, 0xf0, 0xda, 0x49, 0xd3, 0x16, 0x55, 0x26, 0x29, 0xd4, 0x68, 0x9e,
  0x2b, 0x16, 0xbe, 0x58, 0x7d, 0x47, 0xa1, 0xfc, 0x8f, 0xf8, 0xb8, 0xd1, 0x7a, 0xd0, 0x31, 0xce,
  0x45, 0xcb, 0x3a, 0x8f, 0x95, 0x16, 0x04, 0x28, 0xaf, 0xd7, 0xfb, 0xca, 0xbb, 0x4b, 0x40, 0x7e]

def prime32a : UInt64 := 0x9E3779B1
def prime32b : UInt64 := 0x85EBCA77
def prime32c : UInt64 := 0xC2B2AE3D
def prime64a : UInt64 := 0x9E3779B185EBCA87
def prime64b : UInt64 := 0xC2B2AE3D27D4EB4F
def prime64c : UInt64 := 0x165667B19E3779F9
def prime64d : UInt64 := 0x85EBCA77C2B2AE63
def prime64e : UInt64 := 0x27D4EB2F165667C5

def byteAt (data : Array UInt8) (i : Nat) : UInt64 := (data.getD i 0).toUInt64

def word32 (data : Array UInt8) (i : Nat) : UInt64 :=
  byteAt data i ||| byteAt data (i + 1) <<< 8 ||| byteAt data (i + 2) <<< 16 |||
    byteAt data (i + 3) <<< 24

def word64 (data : Array UInt8) (i : Nat) : UInt64 := word32 data i ||| word32 data (i + 4) <<< 32

def rotate (x : UInt64) (n : UInt64) : UInt64 := x <<< n ||| x >>> (64 - n)

def swapBytes (x : UInt64) : UInt64 :=
  let x := (x &&& 0x00FF00FF00FF00FF) <<< 8 ||| (x >>> 8) &&& 0x00FF00FF00FF00FF
  let x := (x &&& 0x0000FFFF0000FFFF) <<< 16 ||| (x >>> 16) &&& 0x0000FFFF0000FFFF
  x <<< 32 ||| x >>> 32

def foldMul (a b : UInt64) : UInt64 :=
  let product := a.toNat * b.toNat
  product.toUInt64 ^^^ (product / 0x10000000000000000).toUInt64

def shiftMix (h : UInt64) (n : UInt64) : UInt64 := h ^^^ h >>> n

def finishShort (h : UInt64) : UInt64 :=
  shiftMix (shiftMix (shiftMix h 33 * prime64b) 29 * prime64c) 32

def finish (h : UInt64) : UInt64 :=
  shiftMix (shiftMix h 37 * 0x165667919E3779F9) 32

def mixFourToEight (h len : UInt64) : UInt64 :=
  let h := (h ^^^ rotate h 49 ^^^ rotate h 24) * 0x9FB21C651E98DF25
  shiftMix ((h ^^^ (h >>> 35 + len)) * 0x9FB21C651E98DF25) 28

def mix16 (data : Array UInt8) (i key : Nat) : UInt64 :=
  foldMul (word64 data i ^^^ word64 secret key) (word64 data (i + 8) ^^^ word64 secret (key + 8))

def oneToThree (data : Array UInt8) : UInt64 :=
  let n := data.size
  let combined := byteAt data 0 <<< 16 ||| byteAt data (n / 2) <<< 24 ||| byteAt data (n - 1) |||
    n.toUInt64 <<< 8
  finishShort (combined ^^^ word32 secret 0 ^^^ word32 secret 4)

def fourToEight (data : Array UInt8) : UInt64 :=
  let n := data.size
  let combined := word32 data (n - 4) + word32 data 0 <<< 32
  mixFourToEight (combined ^^^ word64 secret 8 ^^^ word64 secret 16) n.toUInt64

def nineToSixteen (data : Array UInt8) : UInt64 :=
  let n := data.size
  let lo := word64 data 0 ^^^ (word64 secret 24 ^^^ word64 secret 32)
  let hi := word64 data (n - 8) ^^^ (word64 secret 40 ^^^ word64 secret 48)
  finish (n.toUInt64 + swapBytes lo + hi + foldMul lo hi)

def seventeenTo128 (data : Array UInt8) : UInt64 :=
  let n := data.size
  let pairs := (n - 1) / 32 + 1
  finish <| (List.range pairs).foldl
    (fun acc i => acc + mix16 data (16 * i) (32 * i) + mix16 data (n - 16 * (i + 1)) (32 * i + 16))
    (n.toUInt64 * prime64a)

def to240 (data : Array UInt8) : UInt64 :=
  let n := data.size
  let head := (List.range 8).foldl (fun acc i => acc + mix16 data (16 * i) (16 * i))
    (n.toUInt64 * prime64a)
  let body := (List.range (n / 16 - 8)).foldl
    (fun acc i => acc + mix16 data (16 * (i + 8)) (16 * i + 3)) (finish head)
  finish (body + mix16 data (n - 16) 119)

abbrev Lanes := Array UInt64

def lanesInit : Lanes :=
  #[prime32c, prime64a, prime64b, prime64c, prime64d, prime32b, prime64e, prime32a]

/-- Adds a stripe of 64 bytes: each word goes to the neighbouring lane, and its keyed halves multiplied to
its own. -/
def addStripe (data : Array UInt8) (lanes : Lanes) (i key : Nat) : Lanes :=
  (List.range 8).foldl (fun (acc : Lanes) k =>
    let value := word64 data (i + 8 * k)
    let keyed : UInt64 := value ^^^ word64 secret (key + 8 * k)
    let other := if k % 2 = 0 then k + 1 else k - 1
    let acc := acc.modify other (· + value)
    acc.modify k (· + (keyed &&& (0xFFFFFFFF : UInt64)) * (keyed >>> 32))) lanes

def scramble (lanes : Lanes) : Lanes :=
  lanes.mapIdx fun k lane => (shiftMix lane 47 ^^^ word64 secret (128 + 8 * k)) * prime32a

def addStripes (data : Array UInt8) (i count : Nat) (lanes : Lanes) : Lanes :=
  (List.range count).foldl (fun acc s => addStripe data acc (i + 64 * s) (8 * s)) lanes

def long (data : Array UInt8) : UInt64 :=
  let n := data.size
  let blocks := (n - 1) / 1024
  let lanes := (List.range blocks).foldl
    (fun acc b => scramble (addStripes data (1024 * b) 16 acc)) lanesInit
  let lanes := addStripes data (1024 * blocks) ((n - 1 - 1024 * blocks) / 64) lanes
  let lanes := addStripe data lanes (n - 64) 121
  finish <| (List.range 4).foldl (fun acc i =>
    acc + foldMul (lanes.getD (2 * i) 0 ^^^ word64 secret (11 + 16 * i))
      (lanes.getD (2 * i + 1) 0 ^^^ word64 secret (19 + 16 * i))) (n.toUInt64 * prime64a)

def xxh3 (bytes : List UInt8) : UInt64 :=
  let data := bytes.toArray
  let n := data.size
  if n = 0 then finishShort (word64 secret 56 ^^^ word64 secret 64)
  else if n ≤ 3 then oneToThree data
  else if n ≤ 8 then fourToEight data
  else if n ≤ 16 then nineToSixteen data
  else if n ≤ 128 then seventeenTo128 data
  else if n ≤ 240 then to240 data
  else long data

end Digest

end Marshal
