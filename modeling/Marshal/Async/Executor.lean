import Marshal.Failure

/-! # The executor

One worker runs tasks from a bounded queue in the order they were accepted. A task that cannot finish yet
keeps the worker busy. Closing refuses further tasks and lets the accepted ones run.
-/
set_option autoImplicit false
namespace Marshal

structure Executor (α : Type) where
  depth : Nat
  queue : List α := []
  running : Option α := none
  finished : List α := []
  closed : Bool := false

namespace Executor

variable {α : Type}

def defaultDepth : Nat := 10000

def create (depth : Int) : Executor α :=
  { depth := if depth < 1 then defaultDepth else depth.toNat }

def closedReport : Report :=
  { phase := .async, kind := .notInitialized, detail := "executor closed" }

def fullReport (depth : Nat) : Report :=
  { phase := .async, kind := .allocation, detail := "task queue full",
    value := .isize (Int64.ofNat depth) }

/-- Queues a task; refused when closed or full. -/
def spawn (e : Executor α) (task : α) : Except Report (Executor α) :=
  if e.closed then .error closedReport
  else if e.queue.length < e.depth then .ok { e with queue := e.queue ++ [task] }
  else .error (fullReport e.depth)

def pending (e : Executor α) : Nat := e.queue.length + e.running.toList.length

def takeNext (e : Executor α) : Executor α :=
  match e.running, e.queue with
  | none, task :: queue => { e with running := some task, queue }
  | _, _ => e

def finish (e : Executor α) : Executor α :=
  match e.running with
  | some task => { e with running := none, finished := e.finished ++ [task] }
  | none => e

def advance (ready : α → Bool) (e : Executor α) : Executor α :=
  match e.running with
  | some task => if ready task then e.finish.takeNext else e
  | none => e.takeNext

def settle (ready : α → Bool) (e : Executor α) : Executor α :=
  Nat.repeat (advance ready) (e.pending + 1) e

def close (e : Executor α) : Executor α := { e with closed := true }

end Executor

end Marshal
