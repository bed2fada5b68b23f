import Marshal.Object.Table

/-! # Boxed objects

What the owning side keeps behind an address: a value of an opaque type, a string, a vector of scalars, a
vector of objects, or a callback. Strings and vectors own a buffer in the heap, and a vector of objects
owns its elements as well: destroying it drops them.
-/
set_option autoImplicit false
namespace Marshal

structure Buffer where
  addr : UInt32 := 0
  len : UInt32 := 0
  cap : UInt32 := 0
deriving DecidableEq

/-- A boxed object; `V` is the type of the values of opaque types. -/
inductive Object (V : Type) where
  | guest (value : V)
  | string (ptr len : UInt32)
  | vector (elem : Scalar) (buf : Buffer)
  | refVector (buf : Buffer)
  | callback (label : Text)

namespace Buffer

def maxCap : UInt32 := 0x8000000

def slot (b : Buffer) (s : Scalar) (i : UInt32) : UInt32 := b.addr + i * s.size

def grow (s : Scalar) (b : Buffer) : Step Heap Buffer := do
  let cap := max 4 (b.cap * 2)
  if cap > maxCap then Step.refuse (.overflow .container [] (.u32 cap) "vector capacity")
  match mulFits cap s.size with
  | none => Step.refuse (.allocationFailed .container cap s.size)
  | some bytes =>
    let addr ← Heap.allocate bytes s.size
    let copy : Step Heap Unit := do
      let data ← Heap.readBytes b.addr (b.len * s.size)
      Heap.change fun m => m.write addr data
    if b.len > 0 then
      tryCatch copy fun e => do
        Heap.release addr
        throw e
    if b.addr ≠ 0 then Heap.release b.addr
    return { b with addr, cap }

def push (s : Scalar) (b : Buffer) (v : Datum) : Step Heap Buffer := do
  let b ← if b.len = b.cap then b.grow s else pure b
  Heap.change fun m => m.store s (b.slot s b.len) v
  return { b with len := b.len + 1 }

def get? (s : Scalar) (b : Buffer) (i : UInt32) : Step Heap (Option Datum) :=
  if i ≥ b.len then pure none
  else do
    let v ← Step.trapRefusal (fun why => .wrap .container .outOfBounds why "vector element")
      (Heap.inspect fun m => m.load s (b.slot s i))
    return some v

def pop (s : Scalar) (b : Buffer) : Step Heap (Option Datum × Buffer) := do
  if b.len = 0 then return (none, b)
  match ← b.get? s (b.len - 1) with
  | some v => return (some v, { b with len := b.len - 1 })
  | none => return (none, b)

def discard (b : Buffer) : Step Heap Unit := if b.addr = 0 then pure () else Heap.release b.addr

end Buffer

namespace Object

variable {V : Type}

/-- Drops the object at an address. A refusal is a trap: nothing lives there, or it is borrowed. -/
def dropWith (remove : UInt32 → Step (Table (Object V)) (Object V)) (addr : UInt32) :
    Step (Table (Object V)) Unit := do
  if addr = 0 then return
  match ← Step.attempt (remove addr) with
  | .ok _ => return
  | .error why =>
    if ((← get).store.get? addr).isNone then Step.trap (.doubleFree .runtime addr)
    else Step.trapWith (.wrap .ownership .aliasing why "drop while borrowed")

/-- Drops an object owned by another. While everything is being closed it may be gone already. -/
def dropOwned (closing : Bool) (remove : UInt32 → Step (Table (Object V)) (Object V))
    (addr : UInt32) : Step (Table (Object V)) Unit := do
  if closing then
    let _ ← Step.attempt (remove addr)
    return
  dropWith remove addr

def dropElements (drop : UInt32 → Step (Table (Object V)) Unit) (b : Buffer) :
    List Nat → Step (Table (Object V)) Unit
  | [] => pure ()
  | i :: rest => do
    match ← Table.onHeap (b.get? .u32 i.toUInt32) with
    | some (.u32 addr) => drop addr
    | _ => pure ()
    dropElements drop b rest

/-- Runs the destructor of an object. Every object dropped on the way has left the table before its own
destructor runs, so the nesting is no deeper than the number of objects. -/
def destroy (closing : Bool) : Nat → Object V → Step (Table (Object V)) Unit
  | _, guest value => Table.note (.destroyed (guest value))
  | _, string ptr _ => if ptr = 0 then pure () else Table.onHeap (Heap.release ptr)
  | _, vector _ buf => Table.onHeap buf.discard
  | _, callback _ => pure ()
  | 0, refVector buf => Table.onHeap buf.discard
  | depth + 1, refVector buf => do
    dropElements (dropOwned closing (Table.remove (destroy closing depth))) buf
      (List.range buf.len.toNat)
    Table.onHeap buf.discard

end Object

end Marshal
