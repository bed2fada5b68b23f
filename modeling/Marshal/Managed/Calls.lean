import Marshal.Managed.Session

/-! # Callbacks and asynchronous calls

A boxed callback is called or freed once. An asynchronous call opens a context, hands it to the owning
side and waits for the worker to complete it; the worker runs whenever its tasks are ready.
-/
set_option autoImplicit false
namespace Marshal

variable {V : Type}

structure Callbacks (V : Type) where
  call : Export V
  free : Export V

structure OwnedCallback (V : Type) where
  handle : Handle (Export V)
  call : Export V

def Callbacks.resolveIn {α : Type} (syms : Option (Symbols α)) : Except Report (α × α) := do
  let call ← Symbols.resolve syms Symbol.callBoxed .destructor
  let free ← Symbols.resolve syms Symbol.freeBoxed .destructor
  return (call, free)

def Callbacks.resolve : Step (Session V) (Callbacks V) := do
  let (call, free) ← Step.ofExcept (Callbacks.resolveIn (some (← get).symbols))
  return { call, free }

def Callbacks.lift (c : Callbacks V) (addr : UInt32) : Step (Session V) (OwnedCallback V) :=
  return ⟨← Session.lift Owner.callbackType addr .owned c.free, c.call⟩

def OwnedCallback.run (f : OwnedCallback V) : Step (Session V) Unit := do
  let addr ← Session.mustTransfer f.handle
  let _ ← Session.call f.call [.u32 addr]

structure AsyncFunction (V : Type) where
  name : Text
  target : Export V

namespace Session

def completeAll : List Task → Step (Session V) Unit
  | [] => pure ()
  | task :: rest => do
    let (outcome, registry) := (← get).registry.complete task.context (.u32 (task.body.run task.arg))
    modify fun s => { s with registry }
    match outcome with
    | .ok () => completeAll rest
    | .error r => Step.trap r

def deliver : Step (Session V) Unit := do
  let s ← get
  let finished := s.owner.executor.finished
  set { s with delivered := finished.length }
  completeAll (finished.drop s.delivered)

def work : Step (Session V) Unit := do
  let isOpen := (← get).gateOpen
  let ready := fun (task : Task) => !task.body.waits || isOpen
  modify fun s => { s with owner := { s.owner with executor := s.owner.executor.settle ready } }
  deliver

def openGate : Step (Session V) Unit := do
  modify fun s => { s with gateOpen := true }
  work

/-- Closes the owning side; the tasks it has accepted complete first. -/
def close : Step (Session V) Unit := do
  openGate
  onOwner Owner.close
  deliver

end Session

namespace AsyncFunction

def resolve (name : Text) : Step (Session V) (AsyncFunction V) :=
  return ⟨name, ← Session.resolve (Symbol.ofFunction name) .async⟩

/-- Starts a call; the answer is the position of its future. A call that is not accepted leaves its context
pending. -/
def start (f : AsyncFunction V) (arg : UInt32) : Step (Session V) Nat := do
  let (i, registry) := (← get).registry.start (Datum.u32 0).typeName
  modify fun s => { s with registry }
  match f.target with
  | .async symbol body =>
    Session.onOwner (Owner.spawn symbol { body, arg, context := registry.last })
    Session.work
    return i
  | _ => Step.crash

def await (i : Nat) : Step (Session V) UInt32 := do
  let (outcome, registry) := (← get).registry.await i
  modify fun s => { s with registry }
  match outcome with
  | .ok (.u32 v) => return v
  | .ok _ => Step.crash
  | .error why => throw (.refused why)

end AsyncFunction

end Marshal
