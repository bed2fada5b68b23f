import Marshal.Memory
import Marshal.Text.Utf8

/-! # The heap

A heap is a linear memory with an allocator. Blocks come in size classes, the powers of two from eight
bytes on. A block that is freed waits on the free list of its class, newest first, and is cleared when it
is handed out again; otherwise a block is cut from the end, where memory grows as needed. The low sixteen
bytes are never handed out, so that the null address is never live.
-/
set_option autoImplicit false
namespace Marshal

/-- A live allocation: its address, the bytes set aside and the bytes asked for. -/
structure Block where
  addr : UInt32
  capacity : UInt32
  size : UInt32
deriving DecidableEq

structure Heap where
  memory : Memory
  live : List Block := []
  free : UInt32 → List UInt32 := fun _ => []
  next : UInt32 := 16
  allocs : Nat := 0
  frees : Nat := 0

structure HeapStats where
  allocs : Nat
  frees : Nat
  live : Nat
  liveBytes : Nat
  pages : Nat

namespace Heap

def create (backend : Backend) (initial limit : UInt32) : Heap :=
  { memory := .create backend initial limit }

def maxAlign : UInt32 := 65536

/-- The least power of two that holds `size` bytes, and at least eight. -/
def sizeClass (size : UInt32) : UInt32 :=
  if size ≤ 8 then 8 else (1 : UInt32) <<< ((size - 1).toNat.log2 + 1).toUInt32

def block? (h : Heap) (addr : UInt32) : Option Block := h.live.find? (·.addr = addr)

def isLive (h : Heap) (addr : UInt32) : Bool := (h.block? addr).isSome

def badAlign (align : UInt32) : Report :=
  { phase := .heap, kind := .invalidInput,
    detail := "alignment " ++ Text.ofNat align.toNat ++ " is not a power of two up to " ++
      Text.ofNat maxAlign.toNat }

/-- The newest waiting block of the class whose address suits the alignment. -/
def takeFree? (h : Heap) (cls align : UInt32) : Option (UInt32 × Heap) :=
  match (h.free cls).find? (· % align = 0) with
  | none => none
  | some addr =>
    some (addr, { h with free := fun c => if c = cls then (h.free cls).erase addr else h.free c })

def reach (h : Heap) (stop : Nat) (failed : Report) : Except Report Heap :=
  if stop ≤ h.memory.size.toNat then .ok h
  else
    match h.memory.grow ((stop - h.memory.size.toNat + pageSize - 1) / pageSize).toUInt32 with
    | (some memory, _) => .ok { h with memory }
    | (none, _) => .error failed

def bump (h : Heap) (cls align : UInt32) : Except Report (UInt32 × Heap) := do
  let blockAlign := max align (min cls 16)
  let addr := (h.next + blockAlign - 1) &&& ~~~(blockAlign - 1)
  let stop := addr.toNat + cls.toNat
  let failed := Report.allocationFailed .heap cls align
  if stop > 0xFFFFFFFF then .error failed
  else return (addr, { ← h.reach stop failed with next := stop.toUInt32 })

def handOut (h : Heap) (addr cls size : UInt32) : Except Report (UInt32 × Heap) := do
  let memory ← h.memory.clear addr cls
  return (addr, { h with
    memory
    live := ⟨addr, cls, size⟩ :: h.live.filter (·.addr ≠ addr)
    allocs := h.allocs + 1 })

/-- A cleared block of at least `size` bytes at a multiple of `align`, where zero counts as one. -/
def alloc? (h : Heap) (size align : UInt32) : Except Report (UInt32 × Heap) :=
  let align := if align = 0 then 1 else align
  if align &&& (align - 1) ≠ 0 || align > maxAlign then .error (badAlign align)
  else if size > (1 : UInt32) <<< 30 then .error (.allocationFailed .heap size align)
  else do
    let size := if size = 0 then 1 else size
    let cls := sizeClass size
    let (addr, h) ← match h.takeFree? cls align with
      | some found => .ok found
      | none => h.bump cls align
    h.handOut addr cls size

/-- The heap with the block at `addr` back on its free list. The null address is ignored; any other that is
not live is an error. -/
def free? (h : Heap) (addr : UInt32) : Except Report Heap :=
  if addr = 0 then .ok h
  else match h.block? addr with
    | none => .error (.doubleFree .heap addr)
    | some b => .ok { h with
        live := h.live.filter (·.addr ≠ addr)
        free := fun c => if c = b.capacity then addr :: h.free c else h.free c
        frees := h.frees + 1 }

def stats (h : Heap) : HeapStats :=
  { allocs := h.allocs
    frees := h.frees
    live := h.live.length
    liveBytes := h.live.foldl (fun n b => n + b.size.toNat) 0
    pages := h.memory.size.toNat / pageSize }

def onMemory {α : Type} (x : Step Memory α) : Step Heap α :=
  Step.within Heap.memory (fun memory h => { h with memory }) x

def change (f : Memory → Except Report Memory) : Step Heap Unit := onMemory (Memory.change f)

def inspect {α : Type} (f : Memory → Except Report α) : Step Heap α := do
  Step.ofExcept (f (← get).memory)

def allocate (size align : UInt32) : Step Heap UInt32 :=
  Step.update fun h => h.alloc? size align

def release (addr : UInt32) : Step Heap Unit := do
  match (← get).free? addr with
  | .ok h => set h
  | .error r => Step.trap r

def readBytes (addr length : UInt32) : Step Heap (List UInt8) :=
  if length = 0 then pure [] else inspect fun m => m.read addr length

def readText (addr length : UInt32) : Step Heap Text := do
  let bytes ← readBytes addr length
  if Text.isUtf8 bytes then pure bytes else Step.refuse (.invalidUtf8 .decode [] bytes)

/-- Copies data into a block of its own; empty data needs none and is the null address. -/
def allocateBytes (data : List UInt8) : Step Heap UInt32 := do
  if data.isEmpty then return 0
  let addr ← allocate data.length.toUInt32 1
  tryCatch (change fun m => m.write addr data) fun e => do
    release addr
    throw e
  return addr

def growPages (delta : UInt32) : Step Heap (UInt32 × Bool) := do
  let h ← get
  match h.memory.grow delta with
  | (some memory, previous) => set { h with memory }; return (previous, true)
  | (none, previous) => return (previous, false)

end Heap

end Marshal
