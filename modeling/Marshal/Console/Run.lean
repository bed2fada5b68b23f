import Marshal.Console.Managed
import Marshal.Console.Objects

/-! # Running requests

A console runs requests one after the other. A request that fails does not end the run; what it did
before it failed stays done, and it keeps no variable.
-/
set_option autoImplicit false
namespace Marshal
namespace Console

def create (config : Config) : Except Report Console := do
  return { session := { owner := ← Owner.create config } }

def memoryRequest (c : Console) (r : Request) : Option (Step Console Answer) :=
  (memory c.reader r).map fun x => do
    let answer ← onOwner (Owner.onHeap x)
    match answer with
    | .number n => if r.keepAs ≠ "" then setVariable r.keepAs (.datum (.u32 n.toNat.toUInt32))
    | _ => pure ()
    return answer

/-- A request without others inside it. A request that nothing knows how to run is no request. -/
def runSimple (r : Request) : Step Console Answer := do
  let c ← get
  match declarations r <|> objects c r <|> strings c r <|> bindings c r <|> methods c r <|>
      memoryRequest c r with
  | some x => x
  | none => Step.crash

mutual
def run : Script → Step Console Answer
  | .request r nested =>
    if r.verb = "with" then underBorrow r (do return .replies (← runAll nested)) else runSimple r

def runAll : List Script → Step Console (List (Except Stop Answer × Status))
  | [] => return []
  | s :: rest => do
    let (outcome, c) := (run s).run.run (← get)
    let (status, c) := c.status
    set c
    return (outcome, status) :: (← runAll rest)
end

def replies (config : Config) (scripts : List Script) :
    Except Report (List (Except Stop Answer × Status)) := do
  match ((runAll scripts).run.run (← create config)).1 with
  | .ok rs => return rs
  | .error _ => return []

end Console

end Marshal
