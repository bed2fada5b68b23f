import Marshal.Step

/-! # Completion contexts

An asynchronous call is named by a context address. The registry hands out contexts, never null and never
one that is still pending, and remembers the future that waits for each. Completing a context removes it
and puts the value into its future; awaiting a future takes the value out, once.
-/
set_option autoImplicit false
namespace Marshal

/-- The waiting side of one context. -/
structure Future where
  context : UInt32
  /-- The type of the values it accepts. -/
  typeName : Text
  /-- The value that was delivered and not yet received. -/
  inbox : Option Datum := none
  /-- Somebody waits, or has received the value. -/
  waiting : Bool := false
  /-- The value was received. -/
  done : Bool := false

namespace Future

def awaitedReport (context : UInt32) : Report :=
  { phase := .async, kind := .invalidInput, value := .u32 context,
    detail := "context " ++ Text.ofNat context.toNat ++ " already awaited" }

/-- Begins to wait; refused while somebody else waits and after the value was received. -/
def enter (f : Future) : Except Report Future :=
  if f.done || f.waiting then .error (awaitedReport f.context) else .ok { f with waiting := true }

def receive? (f : Future) : Option (Datum × Future) :=
  f.inbox.map fun v => (v, { f with inbox := none, done := true })

def leave (f : Future) : Future := { f with waiting := false }

end Future

structure Registry where
  last : UInt32 := 0
  /-- The pending contexts and the position of the future of each. -/
  pending : List (UInt32 × Nat) := []
  futures : List Future := []

namespace Registry

def isPending (r : Registry) (context : UInt32) : Bool := r.pending.any (·.1 = context)

/-- The first address after `context`, in cyclic order, that is neither null nor pending. Of any
`pending.length + 2` addresses in a row one is, so that many tries are enough. -/
def firstFree (r : Registry) : Nat → UInt32 → UInt32
  | 0, context => context
  | tries + 1, context =>
    let next := context + 1
    if next = 0 || r.isPending next then r.firstFree tries next else next

def nextContext (r : Registry) : UInt32 := r.firstFree (r.pending.length + 2) r.last

def start (r : Registry) (typeName : Text) : Nat × Registry :=
  let context := r.nextContext
  (r.futures.length,
    { last := context
      pending := (context, r.futures.length) :: r.pending
      futures := r.futures ++ [{ context, typeName }] })

def setFuture (r : Registry) (i : Nat) (f : Future) : Registry := { r with futures := r.futures.set i f }

def mismatch (context : UInt32) (v : Datum) : Report :=
  { phase := .async, kind := .typeMismatch, valueType := v.typeName, value := .u32 context,
    detail := "completion value type does not match context " ++ Text.ofNat context.toNat }

/-- Completes a context. It is no longer pending afterwards, even when the value is of the wrong type. -/
def complete (r : Registry) (context : UInt32) (v : Datum) : Except Report Unit × Registry :=
  match r.pending.find? (·.1 = context) with
  | none => (.error (.doubleCompletion context), r)
  | some (_, i) =>
    let r := { r with pending := r.pending.filter (·.1 ≠ context) }
    match r.futures[i]? with
    | some f =>
      if f.typeName = v.typeName then (.ok (), r.setFuture i { f with inbox := some v })
      else (.error (mismatch context v), r)
    | none => (.error (mismatch context v), r)

def abandoned : Failure :=
  .wrap .async .abandoned (.plain "context canceled") "await abandoned"

/-- Awaits a future. A value that was delivered is received; otherwise the waiter gives up and the future
can be awaited again. -/
def await (r : Registry) (i : Nat) : Except Failure Datum × Registry :=
  match r.futures[i]? with
  | none => (.error abandoned, r)
  | some f =>
    match f.enter with
    | .error report => (.error (.report report), r)
    | .ok f =>
      match f.receive? with
      | some (v, f) => (.ok v, r.setFuture i f)
      | none => (.error abandoned, r.setFuture i f.leave)

end Registry

end Marshal
