import Marshal.Async.Executor
import Marshal.Memory

/-! # Configuration

How the owning side is set up: what backs its memory, how large that may become, and how many tasks may
wait. A field that is zero or empty takes its default.
-/
set_option autoImplicit false
namespace Marshal

structure Config where
  backend : Text := []
  initialPages : UInt32 := 0
  maxPages : UInt32 := 0
  workers : Int := 0
  queueDepth : Int := 0

def Backend.name : Backend → Text
  | linear => "linear"
  | sandboxed => "wazero"

def Backend.ofName? (name : Text) : Option Backend :=
  [Backend.linear, .sandboxed].find? (·.name = name)

namespace Config

def withDefaults (c : Config) (processors : Int) : Config :=
  { backend := if c.backend.isEmpty then Backend.linear.name else c.backend
    initialPages := if c.initialPages = 0 then 1 else c.initialPages
    maxPages := if c.maxPages = 0 then 1024 else c.maxPages
    workers := if c.workers = 0 then processors else c.workers
    queueDepth := if c.queueDepth = 0 then Executor.defaultDepth else c.queueDepth }

def validate (c : Config) : Except Report Backend :=
  match Backend.ofName? c.backend with
  | none => .error (.invalidInput .config ("unknown heap backend " ++ c.backend))
  | some backend =>
    if c.maxPages > pageLimit then
      .error (.invalidInput .config ("max_pages " ++ Text.ofNat c.maxPages.toNat ++ " exceeds " ++
        Text.ofNat pageLimit.toNat))
    else if c.initialPages > c.maxPages then
      .error (.invalidInput .config ("initial_pages " ++ Text.ofNat c.initialPages.toNat ++
        " exceeds max_pages " ++ Text.ofNat c.maxPages.toNat))
    else if c.workers < 1 then .error (.invalidInput .config "workers must be positive")
    else if c.queueDepth < 1 then .error (.invalidInput .config "queue_depth must be positive")
    else .ok backend

end Config

end Marshal
