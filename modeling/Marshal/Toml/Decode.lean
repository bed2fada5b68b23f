import Marshal.Text.Lower
import Marshal.Toml.Document

/-! # From TOML to records

A record takes the keys of a table that spell its field names, ignoring case. Other keys are passed over;
the paths of the keys that were taken are kept, so that what is left can be reported.
-/
set_option autoImplicit false
namespace Marshal
namespace Toml

namespace Node

def asText : Node → Except Fault Text
  | .text t => .ok t
  | _ => .error .mismatch

def asBool : Node → Except Fault Bool
  | .boolean b => .ok b
  | _ => .error .mismatch

def asInt : Node → Except Fault Int
  | .integer n => .ok n
  | _ => .error .mismatch

def asWord (n : Node) : Except Fault UInt32 := do
  let n ← n.asInt
  if 0 ≤ n && n < 0x100000000 then return n.toNat.toUInt32 else throw .outOfRange

def asTable : Node → Except Fault Entries
  | .table entries => .ok entries
  | _ => .error .mismatch

def asList : Node → Except Fault (List Node)
  | .array items => .ok items
  | .rows tables => .ok (tables.map .table)
  | _ => .error .mismatch

def asTexts (n : Node) : Except Fault (List Text) := do (← n.asList).mapM asText

end Node

/-- How a record takes the value of one of its fields; the result lists the paths of the keys taken below
it. -/
structure Member (α : Type) where
  name : Text
  take : Path → Node → α → Except Fault (α × List Path)

namespace Member

def value {α β : Type} (name : Text) (read : Node → Except Fault β) (set : β → α → α) : Member α :=
  { name, take := fun _ node a => do return (set (← read node) a, []) }

def takeAll {α : Type} (fields : List (Member α)) (path : Path) :
    Entries → α → Except Fault (α × List Path)
  | [], a => .ok (a, [])
  | (key, node) :: rest, a =>
    match fields.find? fun f => Text.spells key f.name with
    | none => takeAll fields path rest a
    | some f => do
      let (a, inner) ← f.take (path ++ [key]) node a
      let (a, others) ← takeAll fields path rest a
      return (a, (path ++ [key]) :: inner ++ others)

def record {α β : Type} (name : Text) (fields : List (Member β)) (get : α → β) (set : β → α → α) :
    Member α :=
  { name, take := fun path node a => do
      let (b, paths) ← takeAll fields path (← node.asTable) (get a)
      return (set b a, paths) }

def takeRows {β : Type} (fields : List (Member β)) (blank : β) (path : Path) :
    List Node → Except Fault (List β × List Path)
  | [] => .ok ([], [])
  | node :: rest => do
    let (b, inner) ← takeAll fields path (← node.asTable) blank
    let (bs, others) ← takeRows fields blank path rest
    return (b :: bs, inner ++ others)

def rows {α β : Type} (name : Text) (fields : List (Member β)) (blank : β) (set : List β → α → α) :
    Member α :=
  { name, take := fun path node a => do
      let (bs, paths) ← takeRows fields blank path (← node.asList)
      return (set bs a, paths) }

end Member

/-- The record that a document describes, and the first of its keys that no field took. -/
def decode {α : Type} (fields : List (Member α)) (blank : α) (t : Text) :
    Except Fault (α × Option Path) := do
  let doc ← document t
  let (a, taken) ← Member.takeAll fields [] doc.root blank
  return (a, doc.keys.find? fun path => !taken.contains path)

end Toml

end Marshal
