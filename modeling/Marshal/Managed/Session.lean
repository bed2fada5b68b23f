import Marshal.Async.Registry
import Marshal.Handle
import Marshal.Owner.Call

/-! # The managed side

A session is an owning side together with what the managed side keeps: the unspent tokens of its owning
handles, the pending contexts of its asynchronous calls, and the gate some of them wait for. The managed
side acts on objects only by calling exported functions that it has resolved.
-/
set_option autoImplicit false
namespace Marshal

structure Session (V : Type) where
  owner : Owner V
  tokens : Tokens := {}
  registry : Registry := {}
  gateOpen : Bool := false
  /-- How many finished tasks have completed their contexts. -/
  delivered : Nat := 0

namespace Session

variable {V α : Type}

def onOwner (x : Step (Owner V) α) : Step (Session V) α :=
  Step.within Session.owner (fun owner s => { s with owner }) x

def onHeap (x : Step Heap α) : Step (Session V) α := onOwner (Owner.onHeap x)

def symbols (s : Session V) : Symbols (Export V) := s.owner.symbols

def resolve (name : Text) (want : FunctionType) : Step (Session V) (Export V) := do
  Step.ofExcept (Symbols.resolve (some (← get).symbols) name want)

def resolveAll (wants : List (Text × FunctionType)) : Step (Session V) (List (Export V)) := do
  match Symbols.resolveAll (some (← get).symbols) wants with
  | .ok fs => return fs
  | .error why => throw (.refused why)

def call (f : Export V) (args : List Datum) : Step (Session V) Reply := onOwner (Owner.call f args)

def callAddress (f : Export V) (args : List Datum) : Step (Session V) UInt32 := do
  match ← call f args with
  | .datum (.u32 addr) => return addr
  | _ => Step.crash

def callLength (f : Export V) (args : List Datum) : Step (Session V) UInt64 := do
  match ← call f args with
  | .datum (.usize n) => return n
  | _ => Step.crash

def callView (f : Export V) (args : List Datum) : Step (Session V) View := do
  match ← call f args with
  | .datum (.view start len) => return ⟨start, len⟩
  | _ => Step.crash

def callBool (f : Export V) (args : List Datum) : Step (Session V) Bool := do
  match ← call f args with
  | .datum (.bool b) => return b
  | _ => Step.crash

def lift (typeName : Text) (addr : UInt32) (mode : Mode) (release : Export V) :
    Step (Session V) (Handle (Export V)) := do
  let (h, tokens) := Handle.lift typeName addr mode (some release) (← get).tokens
  modify fun s => { s with tokens }
  return h

/-- Frees the object of a handle that still owns it. The right to it is gone even when the destructor
traps. -/
def free (h : Handle (Export V)) : Step (Session V) Unit := do
  let (due, tokens) := h.free (← get).tokens
  modify fun s => { s with tokens }
  match due with
  | some (release, addr) => let _ ← call release [.u32 addr]
  | none => pure ()

def transfer (h : Handle (Export V)) : Step (Session V) (UInt32 × Bool) := do
  let (moved, tokens) := h.transfer (← get).tokens
  modify fun s => { s with tokens }
  return moved

def mustTransfer (h : Handle (Export V)) : Step (Session V) UInt32 := do
  match h.mustTransfer (← get).tokens with
  | .ok (addr, tokens) =>
    modify fun s => { s with tokens }
    return addr
  | .error r => Step.trap r

def asMut (h : Handle (Export V)) : Step (Session V) (Handle (Export V)) :=
  match h.asMut with
  | .ok h => pure h
  | .error r => Step.trap r

end Session

structure HandleType (V : Type) where
  name : Text
  release : Export V

namespace HandleType

variable {V : Type}

def resolve (name : Text) : Step (Session V) (HandleType V) :=
  return ⟨name, ← Session.resolve (Symbol.ofType name Symbol.free) .destructor⟩

def lift (t : HandleType V) (addr : UInt32) (mode : Mode) : Step (Session V) (Handle (Export V)) :=
  Session.lift t.name addr mode t.release

def owned (t : HandleType V) (addr : UInt32) : Step (Session V) (Handle (Export V)) :=
  t.lift addr .owned

def free (t : HandleType V) (addr : UInt32) : Step (Session V) Unit := do
  let _ ← Session.call t.release [.u32 addr]

end HandleType

end Marshal
