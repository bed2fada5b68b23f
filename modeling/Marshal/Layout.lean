import Marshal.Decl

/-! # Memory layouts

Size, alignment and field offsets of declared types as they are passed by value, in 32-bit arithmetic.
Strings, lists and opaque objects are one address. An optional scalar is its value followed by a flag;
an optional reference is a nullable address. A result of two references is a flag and one address.
-/
set_option autoImplicit false
namespace Marshal

/-- The shape of a value in memory. `fields` is unset for shapes without named fields. -/
structure Layout where
  size : UInt32
  align : UInt32
  fields : Option (List (Text × UInt32)) := none

/-- Rounds an offset up to an alignment; zero leaves it as it is. The sum wraps at 32 bits, and the
result is a multiple of the alignment when that is a power of two. -/
def alignTo (offset align : UInt32) : UInt32 :=
  if align = 0 then offset else (offset + align - 1) &&& ~~~(align - 1)

def mulFits (a b : UInt32) : Option UInt32 :=
  if b ≠ 0 && a > 0xFFFFFFFF / b then none else some (a * b)

def discriminantSize (cases : Nat) : UInt32 :=
  if cases ≤ 256 then 1 else if cases ≤ 65536 then 2 else 4

namespace Layout

def scalar (size : UInt32) : Layout := { size, align := size }

def address : Layout := scalar 4

def empty : Layout := { size := 0, align := 1 }

def view : Layout := { size := 8, align := 4, fields := some [("start", 0), ("len", 4)] }

def pointerResult : Layout :=
  { size := 8, align := 4, fields := some [("is_ok", 0), ("ok_or_err", 4)] }

def optional (size align : UInt32) : Layout :=
  let align := if align = 0 then 1 else align
  { size := alignTo (size + 1) align, align, fields := some [("val", 0), ("is_some", size)] }

/-- The offset of each part and the end of the last, parts placed in order from `offset`. -/
def place (offset : UInt32) : List Layout → List UInt32 × UInt32
  | [] => ([], offset)
  | part :: parts =>
    let start := alignTo offset part.align
    let (starts, stop) := place (start + part.size) parts
    (start :: starts, stop)

def maxAlign (parts : List Layout) : UInt32 := parts.foldl (fun m l => max m l.align) 1

def maxSize (parts : List Layout) : UInt32 := parts.foldl (fun m l => max m l.size) 0

def sequence (parts : List Layout) : Layout :=
  let align := maxAlign parts
  { size := alignTo (place 0 parts).2 align, align }

/-- The last of several fields of one name gives that name its offset. -/
def named (names : List Text) (starts : List UInt32) : List (Text × UInt32) :=
  (names.zip starts).foldl (fun acc f => acc.filter (·.1 ≠ f.1) ++ [f]) []

def record (fields : List (Text × Layout)) : Layout :=
  let parts := fields.map (·.2)
  let shape := sequence parts
  if fields.isEmpty then shape
  else { shape with fields := some (named (fields.map (·.1)) (place 0 parts).1) }

/-- A tag of `tagSize` bytes and room for the largest payload behind it. -/
def tagged (tagSize : UInt32) (payloads : List Layout) : Layout × UInt32 :=
  let align := max tagSize (maxAlign payloads)
  let payloadAt := alignTo tagSize align
  ({ size := alignTo (payloadAt + maxSize payloads) align, align }, payloadAt)

def variant (cases : Nat) (payloads : List Layout) : Layout :=
  if cases = 0 then empty else (tagged (discriminantSize cases) payloads).1

def result (payloads : List Layout) : Layout :=
  let (shape, payloadAt) := tagged 1 payloads
  { shape with fields := some [("is_ok", 0), ("payload", payloadAt)] }

/-- A set of flags: the smallest scalar that holds them, or words of 32 bits. -/
def flags (count : Nat) : Layout :=
  if count = 0 then empty
  else if count ≤ 8 then scalar 1
  else if count ≤ 16 then scalar 2
  else if count ≤ 32 then scalar 4
  else if count ≤ 64 then scalar 8
  else { size := ((count + 31) / 32 * 4).toUInt32, align := 4 }

end Layout

mutual
def Decl.layout : Decl → Layout
  | .prim p => .scalar p.size
  | .string => .address
  | .defn _ kind => kind.layout
  | .absent => .empty
  | .errorContext => .empty

def Kind.layout : Kind → Layout
  | .record fields => .record (fieldLayouts fields)
  | .variant cases => .variant cases.length (payloadLayouts cases)
  | .enum cases => .scalar (discriminantSize cases)
  | .list _ => .address
  | .own _ => .address
  | .borrow _ => .address
  | .resource => .address
  | .option elem =>
    if elem.isReference then .address else .optional elem.layout.size elem.layout.align
  | .result ok err =>
    if ok.isReference && err.isReference then .pointerResult
    else .result [ok.layout, err.layout]
  | .tuple elems => .sequence (layouts elems)
  | .flags count => .flags count
  | .alias target => target.layout
  | .stream _ => .empty
  | .future _ => .empty
  | .unspecified => .empty

def layouts : List Decl → List Layout
  | [] => []
  | t :: ts => t.layout :: layouts ts

def fieldLayouts : List (Text × Decl) → List (Text × Layout)
  | [] => []
  | f :: fs => fieldLayout f :: fieldLayouts fs

def fieldLayout : Text × Decl → Text × Layout
  | (name, t) => (name, t.layout)

def payloadLayouts : List (Text × Decl) → List Layout
  | [] => []
  | c :: cs => payloadLayout c :: payloadLayouts cs

def payloadLayout : Text × Decl → Layout
  | (_, t) => t.layout
end

/-- The layout of a borrowed argument: a string is passed as a view of its bytes. -/
def Decl.viewLayout : Decl → Layout
  | .string => .view
  | t => t.layout

end Marshal
