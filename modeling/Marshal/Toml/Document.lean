import Marshal.Toml.Reader

/-! # Building TOML documents

The lines of a document fill a tree of tables. A key may be defined once. A table that only came up on the
way to another key is implied, and one later definition may make it explicit. `Builder.keys` are all keys in
the order in which they were written.
-/
set_option autoImplicit false
namespace Marshal
namespace Toml

namespace Entries

def get? (entries : Entries) (name : Text) : Option Node := entries.lookup name

def set (name : Text) (node : Node) : Entries → Entries
  | [] => [(name, node)]
  | (n, old) :: rest => if n = name then (n, node) :: rest else (n, old) :: set name node rest

end Entries

/-- The table that keys below a node belong to: of several rows the last. -/
def Node.entries? : Node → Option Entries
  | .table entries => some entries
  | .rows tables => tables.getLast?
  | _ => none

def Node.withEntries (entries : Entries) : Node → Node
  | .rows tables => .rows (tables.dropLast ++ [entries])
  | _ => .table entries

namespace Entries

def tableAt? : Path → Entries → Option Entries
  | [], entries => some entries
  | name :: path, entries => do tableAt? path (← (← entries.get? name).entries?)

def updateAt (f : Entries → Entries) : Path → Entries → Entries
  | [], entries => f entries
  | name :: path, entries =>
    match entries.get? name with
    | none => entries
    | some node => set name (node.withEntries (updateAt f path (node.entries?.getD []))) entries

/-- Sets a value below a table that has no rows, with the tables on the way to it. -/
def insertAt (node : Node) : Path → Entries → Except Fault Entries
  | [], entries => .ok entries
  | [name], entries => .ok (set name node entries)
  | name :: path, entries =>
    match (entries.get? name).getD (.table []) with
    | .table inner => do return set name (.table (← insertAt node path inner)) entries
    | _ => .error .mismatch

end Entries

/-- A document in the making. `context` is the table that the next key belongs to; `implied` are the tables
that no line defined by itself; `arrays` are the keys whose latest value is an array. -/
structure Builder where
  root : Entries := []
  context : Path := []
  implied : List Path := []
  arrays : List Path := []
  keys : List Path := []

abbrev Build (α : Type) := StateT Builder (Except Fault) α

namespace Builder

def imply (path : Path) : Build Unit :=
  modify fun b => { b with implied := if b.implied.contains path then b.implied else path :: b.implied }

def settle (path : Path) : Build Unit :=
  modify fun b => { b with implied := b.implied.filter (· ≠ path) }

def noteKey (path : Path) : Build Unit := modify fun b => { b with keys := b.keys ++ [path] }

def moveTo (path : Path) : Build Unit := modify fun b => { b with context := path }

def noteKind (name : Text) (isArray : Bool) : Build Unit := modify fun b =>
  let path := if name.isEmpty then b.context else b.context ++ [name]
  let path := if path.isEmpty then [[]] else path
  let others := b.arrays.filter (· ≠ path)
  { b with arrays := if isArray then path :: others else others }

def tableAt (path : Path) : Build Entries := do
  match (← get).root.tableAt? path with
  | some entries => return entries
  | none => throw .redefined

def put (path : Path) (name : Text) (node : Node) : Build Unit :=
  modify fun b => { b with root := b.root.updateAt (Entries.set name node) path }

/-- Defines a key of the current table. An implied table stays as it is and becomes explicit; an implied
list, which its own items brought up, is replaced. -/
def define (name : Text) (node : Node) : Build Unit := do
  let b ← get
  let path := b.context ++ [name]
  match (← tableAt b.context).get? name with
  | none => put b.context name node
  | some _ =>
    if !b.implied.contains path then throw .redefined
    settle path
    if b.arrays.contains path then put b.context name node

/-- Makes sure that the tables on the way to a key exist; `done` are the names already passed. -/
def prepare (done : Path) : Path → Build Unit
  | [] => pure ()
  | name :: rest => do
    let path := done ++ [name]
    if ((← tableAt done).get? name).isNone then
      imply path
      put done name (.table [])
    let _ ← tableAt path
    prepare path rest

def enter (path : Path) (row : Bool) : Build Unit := do
  let parents := path.dropLast
  let name := path.getLast?.getD []
  prepare [] parents
  moveTo parents
  if row then
    match (← tableAt parents).get? name with
    | none => put parents name (.rows [[]])
    | some (.rows tables) => put parents name (.rows (tables ++ [[]]))
    | some _ => throw .redefined
  else define name (.table [])
  moveTo path

/-- Enters the tables that a dotted key names before its last part. -/
def enterDotted : Path → Build Unit
  | [] => pure ()
  | name :: rest => do
    let path := (← get).context ++ [name]
    imply path
    enter path false
    enterDotted rest

end Builder

def Term.isArray : Term → Bool
  | .array _ => true
  | _ => false

mutual
/-- The node of a value written under the key `name` of the current table. The keys of inline tables are
defined on the way. -/
def Term.node (name : Text) (inArray : Bool) : Term → Build Node
  | .text t => return .text t
  | .integer n => return .integer n
  | .boolean b => return .boolean b
  | .other => return .other
  | .array items => do
    Builder.noteKind name true
    return .array (← itemNodes name items)
  | .inline pairs => do
    let outer := (← get).context
    let inner := outer ++ [name]
    Builder.imply inner
    Builder.enter inner inArray
    let entries ← inlineEntries inner [] pairs
    Builder.moveTo outer
    return .table entries

def itemNodes (name : Text) : List Term → Build (List Node)
  | [] => return []
  | item :: items => do
    let node ← item.node name true
    let nodes ← itemNodes name items
    return node :: nodes

def inlineEntries (context : Path) (entries : Entries) : List (Path × Term) → Build Entries
  | [] => return entries
  | pair :: pairs => do
    let (path, node) ← pairNode pair
    Builder.moveTo context
    inlineEntries context (← Entries.insertAt node path entries) pairs

def pairNode : Path × Term → Build (Path × Node)
  | (path, value) => do
    let name := path.getLast?.getD []
    Builder.enterDotted path.dropLast
    Builder.noteKey ((← get).context ++ [name])
    let node ← value.node name false
    Builder.define name node
    Builder.noteKind name value.isArray
    return (path, node)
end

def Line.build : Line → Build Unit
  | .table path => do
    Builder.enter path false
    Builder.noteKind [] false
    Builder.noteKey path
  | .tables path => do
    Builder.enter path true
    Builder.noteKind [] false
    Builder.noteKey path
  | .assign path value => do
    let context := (← get).context
    let _ ← pairNode (path, value)
    Builder.moveTo context

def document (t : Text) : Except Fault Builder := do
  let ls ← lines t
  let (_, b) ← (ls.forM Line.build).run {}
  return b

end Toml

end Marshal
