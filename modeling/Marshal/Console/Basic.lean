import Marshal.Console.Memory
import Marshal.Managed.Calls
import Marshal.Managed.Identity
import Marshal.Managed.Vectors

/-! # Consoles

A console holds a session and the variables that earlier requests have filled. Its objects are numbers,
which its opaque types share, and tokens that only have a name.
-/
set_option autoImplicit false
namespace Marshal
namespace Console

inductive Guest where
  | number (n : Int64)
  | token (name : Text)

inductive Variable where
  | datum (d : Datum)
  | handle (h : Handle (Export Guest))
  | string (s : OwnedString Guest)
  | view (v : View)
  | vec (x : OwnedVec Guest)
  | witness (w : Witness Guest)
  | type (t : HandleType Guest)
  | adapter (a : Adapter Guest)
  | set (a : Adapter Guest) (s : IdentitySet UInt32)
  | callbacks (c : Callbacks Guest)
  | callback (f : OwnedCallback Guest)
  | function (f : AsyncFunction Guest)
  | future (i : Nat)

end Console

structure Console where
  session : Session Console.Guest
  kept : List (String × Console.Variable) := []
  types : List OpaqueType := []
  bridge : Option (StringBridge Console.Guest) := none
  witnesses : WitnessTable Console.Guest := {}

namespace Console

variable {α : Type}

def onSession (x : Step (Session Guest) α) : Step Console α :=
  Step.within Console.session (fun session c => { c with session }) x

def onOwner (x : Step (Owner Guest) α) : Step Console α := onSession (Session.onOwner x)

def owner (c : Console) : Owner Guest := c.session.owner

def valueOf? (c : Console) (name : String) : Option Variable :=
  (c.kept.find? (·.1 = name)).map (·.2)

def Variable.address : Variable → UInt32
  | datum (.u32 addr) => addr
  | handle h => h.addr
  | string s => s.addr
  | view v => v.start
  | vec x => x.addr
  | callback f => f.handle.addr
  | _ => 0

def Variable.toDatum : Variable → Datum
  | datum d => d
  | view v => .view v.start v.len
  | v => .u32 v.address

def reader (c : Console) : Reader :=
  { place := fun
      | .given addr => addr
      | .var name plus => ((c.valueOf? name).map Variable.address).getD 0 + plus
    operand := fun
      | .given d => d
      | .var name => ((c.valueOf? name).map Variable.toDatum).getD .nil }

def handleAnswer (kind : String) (t : Tokens) (h : Handle (Export Guest)) : Answer :=
  .handle kind (some h.typeName) h.addr h.mode (h.owns t)

def Variable.answer (t : Tokens) : Variable → Answer
  | datum d => .datum d
  | handle h => handleAnswer "handle" t h
  | string s => .handle "String" none s.addr s.handle.mode (s.handle.owns t)
  | view v => .view v
  | vec x => handleAnswer "vec" t x.handle
  | witness w => .text w.typeName
  | type t => .text t.name
  | adapter a => .list [.text a.typeName, .flag a.isHashable]
  | callback f => .list [.address f.handle.addr, .flag (f.handle.owns t)]
  | function f => .text f.name
  | _ => .done

def tokens : Step Console Tokens := return (← get).session.tokens

def setVariable (name : String) (v : Variable) : Step Console Unit :=
  modify fun c => { c with kept := (name, v) :: c.kept }

def keep (r : Request) (v : Variable) : Step Console Answer := do
  if r.keepAs ≠ "" then setVariable r.keepAs v
  return v.answer (← tokens)

def keepAddress (r : Request) (x : Step Console UInt32) : Step Console Answer := do
  keep r (.datum (.u32 (← x)))

def perform (x : Step Console Unit) : Step Console Answer := do
  x
  return .done

def require : Option α → Step Console α
  | some a => return a
  | none => Step.crash

def Guest.number? : Guest → Option Int64
  | number n => some n
  | token _ => none

def logLine : Deed (Object Guest) → Text
  | .destroyed (.guest (.number n)) => "thing " ++ Text.ofInt n.toInt
  | .destroyed (.guest (.token name)) => name
  | .called (.callback label) => "called " ++ label
  | _ => []

def setJournal (c : Console) (journal : List (Deed (Object Guest))) : Console :=
  { c with session := { c.session with
      owner := { c.owner with table := { c.owner.table with journal } } } }

/-- The state after a request; the log starts afresh. -/
def status (c : Console) : Status × Console :=
  let table := c.owner.table
  ({ heap := table.heap.stats, objects := table.store.size, log := table.journal.map logLine },
    c.setJournal [])

end Console

end Marshal
