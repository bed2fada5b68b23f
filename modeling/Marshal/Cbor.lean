import Marshal.Text.Lower

/-! # CBOR

Data items, their canonical bytes and the reading of arbitrary bytes. Canonical bytes use the shortest heads
and definite lengths, and order the pairs of a map by the encoded key, shorter ones first. Reading accepts
every well-formed item of bounded depth. A text is kept by its chunks, since each of them has to be UTF-8 by
itself.
-/
set_option autoImplicit false
namespace Marshal
namespace Cbor

inductive Item where
  | uint (n : Nat)
  | nint (n : Nat)
  | bytes (b : Text)
  | text (chunks : List Text)
  | array (items : List Item)
  | map (pairs : List (Item × Item))
  | tag (number : Nat) (content : Item)
  | simple (code : Nat)
  | float

instance : Inhabited Item := ⟨.simple 22⟩

namespace Item

def null : Item := .simple 22
def ofBool (b : Bool) : Item := .simple (if b then 21 else 20)
def ofText (t : Text) : Item := .text [t]

/-- `-1 - n` is `nint n`. -/
def ofInt : Int → Item
  | .ofNat n => .uint n
  | .negSucc n => .nint n

end Item

/-- The last `width` bytes of a number, most significant first. -/
def bigEndian : Nat → Nat → Text
  | 0, _ => []
  | width + 1, n => bigEndian width (n / 256) ++ [n.toUInt8]

def ofBigEndian (bytes : Text) : Nat := bytes.foldl (fun n b => n * 256 + b.toNat) 0

def head (major : UInt8) (n : Nat) : Text :=
  let lead := fun (info : UInt8) => major * 32 + info
  if n < 24 then [lead n.toUInt8]
  else if n < 0x100 then lead 24 :: bigEndian 1 n
  else if n < 0x10000 then lead 25 :: bigEndian 2 n
  else if n < 0x100000000 then lead 26 :: bigEndian 4 n
  else lead 27 :: bigEndian 8 n

/-- Shorter texts come first, texts of one length in byte order. -/
def lengthFirst (a b : Text) : Bool :=
  a.length < b.length || (a.length = b.length && Text.le a b)

def joinPairs (pairs : List (Text × Text)) : Text :=
  (pairs.mergeSort fun a b => lengthFirst a.1 b.1).flatMap fun p => p.1 ++ p.2

mutual
def Item.encode : Item → Text
  | .uint n => head 0 n
  | .nint n => head 1 n
  | .bytes b => head 2 b.length ++ b
  | .text chunks => head 3 chunks.flatten.length ++ chunks.flatten
  | .array items => head 4 items.length ++ encodeAll items
  | .map pairs => head 5 pairs.length ++ joinPairs (encodePairs pairs)
  | .tag n content => head 6 n ++ content.encode
  | .simple code => head 7 code
  | .float => [0xF9, 0x7E, 0]

def encodeAll : List Item → Text
  | [] => []
  | i :: rest => i.encode ++ encodeAll rest

def encodePairs : List (Item × Item) → List (Text × Text)
  | [] => []
  | p :: rest => encodePair p :: encodePairs rest

def encodePair : Item × Item → Text × Text
  | (k, v) => (k.encode, v.encode)
end

/-- How deep arrays and maps may be nested, where every tag on a tag counts too, and how many items an array
and how many pairs a map may have. -/
structure Limits where
  depth : Nat
  size : Nat

def Limits.standard : Limits := { depth := 32, size := 131072 }

def takeBytes (n : Nat) (t : Text) : Option (Text × Text) :=
  if (t.take n).length < n then none else some (t.take n, t.drop n)

/-- The argument after a first byte: unset for an indefinite length. -/
def argument (info : UInt8) (rest : Text) : Option (Option Nat × Text) :=
  let width := if info = 24 then 1 else if info = 25 then 2 else if info = 26 then 4 else 8
  if info < 24 then some (some info.toNat, rest)
  else if info = 31 then some (none, rest)
  else if info > 27 then none
  else do
    let (bytes, rest) ← takeBytes width rest
    return (some (ofBigEndian bytes), rest)

def pairUp : List Item → List (Item × Item)
  | k :: v :: rest => (k, v) :: pairUp rest
  | _ => []

/-- The chunks of a string of indefinite length, which are definite strings of the same kind. -/
def chunksOf (major : UInt8) : Nat → Text → Option (List Text × Text)
  | 0, _ => none
  | _, [] => none
  | fuel + 1, b :: rest =>
    if b = 0xFF then some ([], rest)
    else if b / 32 ≠ major then none
    else do
      let (size, rest) ← argument (b % 32) rest
      let (chunk, rest) ← takeBytes (← size) rest
      let (chunks, rest) ← chunksOf major fuel rest
      return (chunk :: chunks, rest)

def stringOf (major : UInt8) (size : Option Nat) (rest : Text) : Option (List Text × Text) :=
  match size with
  | some n => do
    let (chunk, rest) ← takeBytes n rest
    return ([chunk], rest)
  | none => chunksOf major (rest.length + 1) rest

mutual
def itemAt (limits : Limits) : Nat → Nat → Bool → Text → Option (Item × Text)
  | 0, _, _, _ => none
  | _, _, _, [] => none
  | fuel + 1, depth, inTag, b :: rest => do
    let major := b / 32
    let info := b % 32
    let (arg, rest) ← argument info rest
    if major = 0 then return (.uint (← arg), rest)
    else if major = 1 then return (.nint (← arg), rest)
    else if major = 2 then
      let (chunks, rest) ← stringOf major arg rest
      return (.bytes chunks.flatten, rest)
    else if major = 3 then
      let (chunks, rest) ← stringOf major arg rest
      return (.text chunks, rest)
    else if major = 4 then
      if depth ≥ limits.depth then none
      let (items, rest) ← itemsAt limits fuel (depth + 1) arg rest
      if items.length > limits.size then none
      return (.array items, rest)
    else if major = 5 then
      if depth ≥ limits.depth then none
      let (items, rest) ← itemsAt limits fuel (depth + 1) (arg.map (2 * ·)) rest
      if items.length % 2 = 1 || items.length > 2 * limits.size then none
      return (.map (pairUp items), rest)
    else if major = 6 then
      let depth := if inTag then depth + 1 else depth
      if depth > limits.depth then none
      let number ← arg
      let (content, rest) ← itemAt limits fuel depth true rest
      return (.tag number content, rest)
    else
      let code ← arg
      if info > 24 then return (.float, rest)
      if info = 24 && code < 32 then none
      return (.simple code, rest)

def itemsAt (limits : Limits) : Nat → Nat → Option Nat → Text → Option (List Item × Text)
  | 0, _, _, _ => none
  | _, _, some 0, rest => some ([], rest)
  | _, _, _, [] => none
  | fuel + 1, depth, count, b :: rest => do
    if count.isNone && b = 0xFF then return ([], rest)
    let (item, rest) ← itemAt limits fuel depth false (b :: rest)
    let (items, rest) ← itemsAt limits fuel depth (count.map (· - 1)) rest
    return (item :: items, rest)
end

def decode (limits : Limits) (t : Text) : Option Item := do
  let (item, rest) ← itemAt limits (2 * t.length + 2) 0 false t
  if rest.isEmpty then some item else none

end Cbor

end Marshal
