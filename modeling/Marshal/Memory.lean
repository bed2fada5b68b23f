import Marshal.Scalar
import Marshal.Step

/-! # Linear memory

A linear memory is a number of pages of 65536 bytes, a limit on that number, and the byte at each address.
Reads and writes are checked against the current size with exact sums, so they never wrap. Aggregates are
read and written field by field at 32-bit offsets: a write whose second field does not fit leaves the
first one written.
-/
set_option autoImplicit false
namespace Marshal

inductive Backend where
  | linear
  | sandboxed
deriving DecidableEq, Repr

def pageSize : Nat := 65536

def pageLimit : UInt32 := 65536

structure Memory where
  backend : Backend := .linear
  pages : Nat
  maxPages : Nat
  byte : Nat → UInt8 := fun _ => 0

namespace Memory

/-- A memory of cleared pages; no limit, or one above the largest, means the largest. -/
def create (backend : Backend) (initial limit : UInt32) : Memory :=
  let maxPages := if limit = 0 || limit > pageLimit then pageLimit else limit
  { backend, pages := (min initial maxPages).toNat, maxPages := maxPages.toNat }

def bytes (m : Memory) : Nat := m.pages * pageSize

/-- The number of bytes, or the largest 32-bit number when they are more. -/
def size (m : Memory) : UInt32 := (min m.bytes 0xFFFFFFFF).toUInt32

def outOfBounds (op : Text) (offset length : UInt32) : Report :=
  { phase := .heap, kind := .outOfBounds,
    detail := "memory " ++ op ++ " out of bounds: offset=" ++ Text.ofNat offset.toNat ++ ", length=" ++
      Text.ofNat length.toNat }

def slice (m : Memory) (offset length : Nat) : List UInt8 :=
  (List.range length).map fun i => m.byte (offset + i)

def read (m : Memory) (offset length : UInt32) : Except Report (List UInt8) :=
  if offset.toNat + length.toNat ≤ m.bytes then .ok (m.slice offset.toNat length.toNat)
  else .error (outOfBounds "read" offset length)

def overwrite (m : Memory) (offset : Nat) (data : Array UInt8) : Memory :=
  { m with byte := fun i =>
      if offset ≤ i && i < offset + data.size then data.getD (i - offset) 0 else m.byte i }

def write (m : Memory) (offset : UInt32) (data : List UInt8) : Except Report Memory :=
  if offset.toNat + data.length ≤ m.bytes then .ok (m.overwrite offset.toNat data.toArray)
  else .error (outOfBounds "write" offset data.length.toUInt32)

def clear (m : Memory) (offset length : UInt32) : Except Report Memory :=
  if offset.toNat + length.toNat ≤ m.bytes then
    .ok { m with byte := fun i =>
      if offset.toNat ≤ i && i < offset.toNat + length.toNat then 0 else m.byte i }
  else .error (outOfBounds "write" offset length)

def readWord (m : Memory) (width : Nat) (offset : UInt32) : Except Report Nat :=
  (m.read offset width.toUInt32).map Word.ofBytes

def writeWord (m : Memory) (width : Nat) (offset : UInt32) (word : Nat) : Except Report Memory :=
  m.write offset (Word.toBytes width word)

/-- Adds cleared pages; refused above the limit. The answer is the page count before, which a sandboxed
memory does not tell when it refuses. -/
def grow (m : Memory) (delta : UInt32) : Option Memory × UInt32 :=
  if m.pages + delta.toNat ≤ m.maxPages then
    (some { m with
      pages := m.pages + delta.toNat
      byte := fun i => if i < m.bytes then m.byte i else 0 }, m.pages.toUInt32)
  else (none, if m.backend = .linear then m.pages.toUInt32 else 0)

def load (m : Memory) (s : Scalar) (offset : UInt32) : Except Report Datum := do
  s.ofWord (← m.readWord s.width offset)

def store (m : Memory) (s : Scalar) (offset : UInt32) (v : Datum) : Except Report Memory :=
  m.writeWord s.width offset ((s.toWord? v).getD 0)

def loadAddress (m : Memory) (offset : UInt32) : Except Report UInt32 :=
  (m.readWord 4 offset).map Nat.toUInt32

def storeAddress (m : Memory) (offset addr : UInt32) : Except Report Memory :=
  m.writeWord 4 offset addr.toNat

/-- The flag is read first, and the value only when the flag is up. -/
def readOption (m : Memory) (s : Scalar) (offset : UInt32) : Except Report OptionAggregate := do
  match ← m.load .bool (offset + s.size) with
  | .bool true => return ⟨← m.load s offset, true⟩
  | _ => return .ofOption s none

def readView (m : Memory) (offset : UInt32) : Except Report View := do
  return ⟨← m.loadAddress offset, ← m.loadAddress (offset + 4)⟩

def readPointerResult (m : Memory) (offset : UInt32) : Except Report PointerResult := do
  let flag ← m.load .bool offset
  let target ← m.loadAddress (offset + 4)
  return ⟨match flag with
    | .bool b => b
    | _ => false, target⟩

def change (f : Memory → Except Report Memory) : Step Memory Unit :=
  Step.update fun m => (f m).map fun m => ((), m)

def writeOption (s : Scalar) (offset : UInt32) (a : OptionAggregate) : Step Memory Unit := do
  change fun m => m.store s offset a.val
  change fun m => m.store .bool (offset + s.size) (.bool a.isSome)

def writeView (offset : UInt32) (v : View) : Step Memory Unit := do
  change fun m => m.storeAddress offset v.start
  change fun m => m.storeAddress (offset + 4) v.len

def writePointerResult (offset : UInt32) (r : PointerResult) : Step Memory Unit := do
  change fun m => m.store .bool offset (.bool r.isOk)
  change fun m => m.storeAddress (offset + 4) r.target

end Memory

end Marshal
