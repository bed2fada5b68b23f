import Marshal.Failure

/-! # Steps

A step acts on a state and may stop short. It is refused when it reports an error to its caller, trapped
when it finds the boundary's rules broken, and crashed when a value is used as something it is not. What
a step has done to the state before it stopped stays done.
-/
set_option autoImplicit false
namespace Marshal

inductive Stop where
  | refused (why : Failure)
  | trapped (why : Failure)
  | crashed

/-- An action on a state of type `σ`. -/
abbrev Step (σ α : Type) := ExceptT Stop (StateM σ) α

namespace Step

variable {σ τ α β : Type}

def refuse (r : Report) : Step σ α := throw (.refused (.report r))

def trap (r : Report) : Step σ α := throw (.trapped (.report r))

def trapWith (f : Failure) : Step σ α := throw (.trapped f)

def crash : Step σ α := throw .crashed

def ofExcept : Except Report α → Step σ α
  | .ok a => pure a
  | .error r => refuse r

def update (f : σ → Except Report (α × σ)) : Step σ α := do
  match f (← get) with
  | .ok (a, s) => set s; pure a
  | .error r => refuse r

def within (part : τ → σ) (put : σ → τ → τ) (x : Step σ α) : Step τ α := do
  let t ← get
  let (result, s) := x.run.run (part t)
  set (put s t)
  match result with
  | .ok a => pure a
  | .error e => throw e

/-- A refusal turned into a trap; traps and crashes pass through. -/
def trapRefusal (f : Failure → Failure) (x : Step σ α) : Step σ α :=
  tryCatch x fun
    | .refused why => throw (.trapped (f why))
    | e => throw e

def attempt (x : Step σ α) : Step σ (Except Failure α) :=
  tryCatch (do return .ok (← x)) fun
    | .refused why => pure (.error why)
    | e => throw e

/-- Runs the second action after the first, however the first ends. -/
def andFinally (x : Step σ α) (y : Step σ Unit) : Step σ α := do
  let a ← tryCatch x fun e => do
    y
    throw e
  y
  pure a

end Step

end Marshal
