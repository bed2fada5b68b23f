import Marshal.Step

/-! # The object store

A store maps addresses to boxed values. Each entry counts the borrows of its value: any number of shared
ones, or a single exclusive one. A value leaves the store only while nobody borrows it.
-/
set_option autoImplicit false
namespace Marshal

inductive BorrowKind where
  | shared
  | exclusive
deriving DecidableEq, Repr

def BorrowKind.name : BorrowKind → Text
  | shared => "shared"
  | exclusive => "exclusive"

/-- The name of a borrow kind given by number; only one number means exclusive. -/
def BorrowKind.nameOfCode (code : UInt8) : Text :=
  if code = 1 then exclusive.name else shared.name

structure Entry (V : Type) where
  addr : UInt32
  typeId : UInt32
  value : V
  shared : UInt32 := 0
  exclusive : Bool := false

structure Store (V : Type) where
  entries : List (Entry V) := []
  closed : Bool := false

namespace Entry

variable {V : Type}

def isBorrowed (e : Entry V) : Bool := e.shared > 0 || e.exclusive

/-- An exclusive borrow excludes every other; a shared one excludes only an exclusive one. -/
def admits (e : Entry V) : BorrowKind → Bool
  | .shared => !e.exclusive
  | .exclusive => !e.exclusive && e.shared = 0

def borrow (e : Entry V) : BorrowKind → Entry V
  | .shared => { e with shared := e.shared + 1 }
  | .exclusive => { e with exclusive := true }

def giveBack? (e : Entry V) : BorrowKind → Option (Entry V)
  | .shared => if e.shared = 0 then none else some { e with shared := e.shared - 1 }
  | .exclusive => if e.exclusive then some { e with exclusive := false } else none

end Entry

namespace Store

variable {V : Type}

def entry? (s : Store V) (addr : UInt32) : Option (Entry V) := s.entries.find? (·.addr = addr)

def get? (s : Store V) (addr : UInt32) : Option V := (s.entry? addr).map (·.value)

def typeId? (s : Store V) (addr : UInt32) : Option UInt32 := (s.entry? addr).map (·.typeId)

def size (s : Store V) : Nat := s.entries.length

def borrows (s : Store V) (addr : UInt32) : UInt32 × Bool :=
  match s.entry? addr with
  | some e => (e.shared, e.exclusive)
  | none => (0, false)

def erase (s : Store V) (addr : UInt32) : Store V :=
  { s with entries := s.entries.filter (·.addr ≠ addr) }

def modify (s : Store V) (addr : UInt32) (f : Entry V → Entry V) : Store V :=
  { s with entries := s.entries.map fun e => if e.addr = addr then f e else e }

def sorted (s : Store V) : List (Entry V) := s.entries.mergeSort fun a b => a.addr ≤ b.addr

def closedReport : Report :=
  { phase := .runtime, kind := .notInitialized, detail := "object table closed" }

def borrowedReport : Report :=
  { phase := .ownership, kind := .aliasing, detail := "cannot drop object with outstanding borrows" }

def absentReport (phase : Phase) (addr : UInt32) : Report :=
  .notFound phase "object" (Text.hexLiteral addr.toNat)

def put (s : Store V) (addr typeId : UInt32) (value : V) : Except Report (Store V) :=
  if addr = 0 then .error (.nilPointer .runtime [] "object address")
  else if s.closed then .error closedReport
  else if (s.entry? addr).isSome then
    .error { phase := .runtime, kind := .aliasing,
             detail := "address " ++ Text.hexLiteral addr.toNat ++ " already holds an object" }
  else .ok { s with entries := { addr, typeId, value } :: s.entries }

def take (s : Store V) (addr : UInt32) : Except Report (Entry V × Store V) :=
  match s.entry? addr with
  | none => .error (absentReport .runtime addr)
  | some e => if e.isBorrowed then .error borrowedReport else .ok (e, s.erase addr)

def borrow (s : Store V) (addr : UInt32) (kind : BorrowKind) : Except Report (Store V) :=
  match s.entry? addr with
  | none => .error (absentReport .ownership addr)
  | some e =>
    if e.admits kind then .ok (s.modify addr (·.borrow kind))
    else .error { phase := .ownership, kind := .aliasing,
                  detail := kind.name ++ " borrow of " ++ Text.hexLiteral addr.toNat ++
                    " conflicts with an outstanding borrow" }

/-- Gives a borrow back; nothing happens when there is none of the kind. -/
def giveBack? (s : Store V) (addr : UInt32) (kind : BorrowKind) : Option (Store V) := do
  let e ← (← s.entry? addr).giveBack? kind
  return s.modify addr fun _ => e

/-- Refuses further values and hands over those still held, in address order. -/
def close (s : Store V) : List V × Store V :=
  if s.closed then ([], s) else (s.sorted.map (·.value), { entries := [], closed := true })

end Store

end Marshal
