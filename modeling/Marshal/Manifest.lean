import Marshal.Config
import Marshal.Toml.Decode
import Marshal.TypeExpr

/-! # Manifests

What a bridge is to offer: its name, the configuration of the owning side, the opaque types and the
functions. A manifest is written in TOML; keys that it does not know are refused.
-/
set_option autoImplicit false
namespace Marshal

/-- A type that crosses the boundary only by address, and what can be done with its values. -/
structure OpaqueDecl where
  name : Text := []
  key : List Text := []
  equatable : Bool := false
  hashable : Bool := false
  sendable : Bool := false
  vectorizable : Bool := false

structure FunctionDecl where
  signature : Text := []
  async : Bool := false

structure Manifest where
  name : Text := []
  package : Text := []
  runtime : Config := {}
  opaques : List OpaqueDecl := []
  functions : List FunctionDecl := []

namespace Manifest

open Toml (Member)

def settingsMembers : List (Member Manifest) :=
  [.value "name" Toml.Node.asText fun name m => { m with name },
    .value "package" Toml.Node.asText fun package m => { m with package }]

def configMembers : List (Member Config) :=
  [.value "backend" Toml.Node.asText fun backend c => { c with backend },
    .value "initial_pages" Toml.Node.asWord fun initialPages c => { c with initialPages },
    .value "max_pages" Toml.Node.asWord fun maxPages c => { c with maxPages },
    .value "workers" Toml.Node.asInt fun workers c => { c with workers },
    .value "queue_depth" Toml.Node.asInt fun queueDepth c => { c with queueDepth }]

def opaqueMembers : List (Member OpaqueDecl) :=
  [.value "name" Toml.Node.asText fun name o => { o with name },
    .value "key" Toml.Node.asTexts fun key o => { o with key },
    .value "equatable" Toml.Node.asBool fun equatable o => { o with equatable },
    .value "hashable" Toml.Node.asBool fun hashable o => { o with hashable },
    .value "sendable" Toml.Node.asBool fun sendable o => { o with sendable },
    .value "vectorizable" Toml.Node.asBool fun vectorizable o => { o with vectorizable }]

def functionMembers : List (Member FunctionDecl) :=
  [.value "signature" Toml.Node.asText fun signature f => { f with signature },
    .value "async" Toml.Node.asBool fun async f => { f with async }]

def fields : List (Member Manifest) :=
  [.record "bridge" settingsMembers id fun m _ => m,
    .record "runtime" configMembers Manifest.runtime fun runtime m => { m with runtime },
    .rows "opaque" opaqueMembers {} fun opaques m => { m with opaques },
    .rows "function" functionMembers {} fun functions m => { m with functions }]

def checkOpaque (seen : List Text) (o : OpaqueDecl) : Except Report Unit :=
  if o.name.isEmpty then .error (.invalidInput .config "opaque type without a name")
  else if seen.contains o.name then
    .error (.invalidInput .config ("opaque type " ++ o.name ++ " declared twice"))
  else if TypeExpr.isReserved o.name then
    .error (.invalidInput .config ("opaque type " ++ o.name ++ " shadows a built-in type"))
  else if o.hashable && !o.equatable then
    .error (.invalidInput .config ("opaque type " ++ o.name ++ " is hashable but not equatable"))
  else .ok ()

def checkOpaques (seen : List Text) : List OpaqueDecl → Except Report Unit
  | [] => .ok ()
  | o :: rest => do
    checkOpaque seen o
    checkOpaques (o.name :: seen) rest

def checkFunctions (index : Nat) : List FunctionDecl → Except Report Unit
  | [] => .ok ()
  | f :: rest =>
    if f.signature.isEmpty then
      .error (.invalidInput .config ("function " ++ Text.ofNat index ++ " has no signature"))
    else checkFunctions (index + 1) rest

def validate (m : Manifest) : Except Report Unit := do
  let _ ← m.runtime.validate
  checkOpaques [] m.opaques
  checkFunctions 0 m.functions

/-- Reads and checks a manifest; `processors` is the number of workers of a machine. -/
def parse (processors : Int) (t : Text) : Except Failure Manifest := do
  match Toml.decode fields {} t with
  | .error fault => .error (.parseFailed "manifest" (.plain fault.message))
  | .ok (_, some path) =>
    .error (.report (.invalidInput .config ("unknown manifest key " ++ Text.quote (Toml.dotted path))))
  | .ok (m, none) =>
    let m := { m with runtime := m.runtime.withDefaults processors }
    m.validate.mapError .report
    return m

def declared? (m : Manifest) (name : Text) : Option OpaqueDecl := m.opaques.find? (·.name = name)

end Manifest

end Marshal
