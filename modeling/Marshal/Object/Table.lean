import Marshal.Heap
import Marshal.Object.Store

/-! # The object table

The table boxes values at heap addresses: each has a cell of eight bytes that starts with its type. It
tells its observers about every object that is created, dropped, taken, borrowed or given back, and keeps
a journal of the destructors and callbacks that ran.

What destroying a value does beyond the table is up to its owner, so the operations that destroy are given
the destructor to run.
-/
set_option autoImplicit false
namespace Marshal

inductive EventKind where
  | created
  | dropped
  | taken
  | borrowed
  | borrowReturned
deriving DecidableEq, Repr

def EventKind.name : EventKind → Text
  | created => "created"
  | dropped => "dropped"
  | taken => "taken"
  | borrowed => "borrowed"
  | borrowReturned => "borrow_returned"

def EventKind.nameOfCode (code : UInt8) : Text :=
  match [created, dropped, taken, borrowed, borrowReturned][code.toNat]? with
  | some kind => kind.name
  | none => "unknown"

/-- A notification. Borrow events do not carry the value. -/
structure Event (V : Type) where
  kind : EventKind
  addr : UInt32
  typeId : UInt32
  borrow : BorrowKind := .shared
  value : Option V := none

inductive Deed (V : Type) where
  | destroyed (value : V)
  | called (value : V)

structure Table (V : Type) where
  heap : Heap
  store : Store V := {}
  observers : List (Nat × List (Event V)) := []
  nextObserver : Nat := 0
  closed : Bool := false
  journal : List (Deed V) := []

namespace Table

variable {V α : Type}

def cellSize : UInt32 := 8

def onHeap (x : Step Heap α) : Step (Table V) α :=
  Step.within Table.heap (fun heap t => { t with heap }) x

def onStore (f : Store V → Except Report (α × Store V)) : Step (Table V) α :=
  Step.update fun t => (f t.store).map fun (a, store) => (a, { t with store })

def notify (e : Event V) : Step (Table V) Unit :=
  modify fun t => { t with observers := t.observers.map fun (id, seen) => (id, seen ++ [e]) }

def note (d : Deed V) : Step (Table V) Unit :=
  modify fun t => { t with journal := t.journal ++ [d] }

def insert (typeId : UInt32) (value : V) : Step (Table V) UInt32 := do
  if (← get).closed then Step.refuse Store.closedReport
  let addr ← onHeap (Heap.allocate cellSize cellSize)
  let fill : Step (Table V) Unit := do
    onHeap (Heap.change fun m => m.storeAddress addr typeId)
    onStore fun s => (s.put addr typeId value).map fun s => ((), s)
  tryCatch fill fun e => do
    onHeap (Heap.release addr)
    throw e
  notify { kind := .created, addr, typeId, value := some value }
  return addr

def getTyped? (t : Table V) (addr typeId : UInt32) : Option V :=
  if t.store.typeId? addr = some typeId then t.store.get? addr else none

def detach (addr : UInt32) : Step (Table V) (Entry V) := do
  let e ← onStore fun s => s.take addr
  onHeap (Heap.release addr)
  return e

def remove (destroy : V → Step (Table V) Unit) (addr : UInt32) : Step (Table V) V := do
  let e ← detach addr
  destroy e.value
  notify { kind := .dropped, addr, typeId := e.typeId, value := some e.value }
  return e.value

def take (addr : UInt32) : Step (Table V) V := do
  let e ← detach addr
  notify { kind := .taken, addr, typeId := e.typeId, value := some e.value }
  return e.value

def borrow (addr : UInt32) (kind : BorrowKind) : Step (Table V) Unit := do
  onStore fun s => (s.borrow addr kind).map fun s => ((), s)
  let typeId := ((← get).store.typeId? addr).getD 0
  notify { kind := .borrowed, addr, typeId, borrow := kind }

def giveBack (addr : UInt32) (kind : BorrowKind) : Step (Table V) Bool := do
  match (← get).store.giveBack? addr kind with
  | none => return false
  | some store =>
    modify fun t => { t with store }
    let typeId := (store.typeId? addr).getD 0
    notify { kind := .borrowReturned, addr, typeId, borrow := kind }
    return true

def setValue (addr : UInt32) (value : V) : Step (Table V) Unit :=
  modify fun t => { t with store := t.store.modify addr fun e => { e with value } }

def subscribe : Step (Table V) Nat := do
  let t ← get
  set { t with observers := t.observers ++ [(t.nextObserver, [])], nextObserver := t.nextObserver + 1 }
  return t.nextObserver

def unsubscribe (id : Nat) : Step (Table V) Unit :=
  modify fun t => { t with observers := t.observers.filter (·.1 ≠ id) }

/-- Removes each of the addresses in turn; those that refuse stay. -/
def removeAll (destroy : V → Step (Table V) Unit) : List UInt32 → Step (Table V) Unit
  | [] => pure ()
  | addr :: rest => do
    let _ ← Step.attempt (remove destroy addr)
    removeAll destroy rest

def clear (destroy : V → Step (Table V) Unit) : Step (Table V) Unit := do
  removeAll destroy ((← get).store.sorted.map (·.addr))

def destroyAll (destroy : V → Step (Table V) Unit) : List V → Step (Table V) Unit
  | [] => pure ()
  | v :: rest => do
    destroy v
    destroyAll destroy rest

/-- Refuses further objects and drops all there are. Those still borrowed lose only their entry: their
destructors run, but their cells stay and nobody is told. -/
def close (destroy : V → Step (Table V) Unit) : Step (Table V) Unit := do
  modify fun t => { t with closed := true }
  clear destroy
  let (values, store) := (← get).store.close
  modify fun t => { t with store }
  destroyAll destroy values

end Table

end Marshal
