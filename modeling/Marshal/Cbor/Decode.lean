import Marshal.Cbor

/-! # From CBOR to records

Items fill values of a known type. Null and undefined leave a value as it was, tags without a meaning of
their own are passed over, and unassigned simple values count as numbers. A record takes each of its fields
from the first key that spells it, exactly or else ignoring case; other keys are passed over.
-/
set_option autoImplicit false
namespace Marshal
namespace Cbor

/-- The item behind its tags. The content of dates, of times and of large numbers must be of the kind that
their tags ask for. -/
def Item.untagged : Item → Option Item
  | .tag n content =>
    if n = 0 then
      match content with
      | .text chunks => some (.text chunks)
      | _ => none
    else if n = 1 then
      match content with
      | .uint n => some (.uint n)
      | .nint n => some (.nint n)
      | .float => some .float
      | _ => none
    else if n = 2 then
      match content with
      | .bytes b => some (.uint (ofBigEndian b))
      | _ => none
    else if n = 3 then
      match content with
      | .bytes b => some (.nint (ofBigEndian b))
      | _ => none
    else content.untagged
  | item => some item

/-- Fills a value from an item, starting from what it was. -/
abbrev Fill (α : Type) := Item → α → Option α

namespace Fill

def isNull (code : Nat) : Bool := code = 22 || code = 23

/-- Fills a value from what stands behind the tags; null leaves it alone. -/
def ofItem {α : Type} (f : Item → Option α) : Fill α := fun item old =>
  match item.untagged with
  | none => none
  | some (.simple code) => if isNull code then some old else f (.simple code)
  | some item => f item

def joinChunks (chunks : List Text) : Option Text :=
  if chunks.all Text.isUtf8 then some chunks.flatten else none

def text : Fill Text := ofItem fun
  | .text chunks => joinChunks chunks
  | _ => none

def bool : Fill Bool := ofItem fun
  | .simple code => if code = 20 then some false else if code = 21 then some true else none
  | _ => none

def integer? : Item → Option Int
  | .uint n => some n
  | .nint n => some (-1 - n)
  | .simple code => if code = 20 || code = 21 then none else some code
  | _ => none

def integerIn (low high : Int) : Fill Int := ofItem fun item => do
  let n ← integer? item
  if low ≤ n && n < high then some n else none

def int : Fill Int := integerIn (-0x8000000000000000) 0x8000000000000000

def word : Fill UInt32 := fun item old =>
  (integerIn 0 0x100000000 item old.toNat).map fun n => n.toNat.toUInt32

def byte : Fill UInt8 := fun item old =>
  (integerIn 0 0x100 item old.toNat).map fun n => n.toNat.toUInt8

/-- A list of values that start out blank. Null makes the list unset. -/
def list {α : Type} (fill : Fill α) (blank : α) : Fill (Option (List α)) := fun item _ =>
  match item.untagged with
  | some (.array items) => (items.mapM fun i => fill i blank).map some
  | some (.simple code) => if isNull code then some none else none
  | _ => none

def plainList {α : Type} (fill : Fill α) (blank : α) : Fill (List α) := fun item old =>
  (list fill blank item (some old)).map (·.getD [])

/-- Puts a value under a key, which keeps its place if it is there. -/
def putPair {α : Type} (key : Text) (value : α) : List (Text × α) → List (Text × α)
  | [] => [(key, value)]
  | (k, v) :: rest => if k = key then (k, value) :: rest else (k, v) :: putPair key value rest

/-- The pairs of a map. A key or value that is null repeats the one before it. -/
def pairsFrom {α : Type} (fill : Fill α) :
    Text → α → List (Text × α) → List (Item × Item) → Option (List (Text × α))
  | _, _, filled, [] => some filled
  | key, value, filled, (k, v) :: rest => do
    let key ← text k key
    let value ← fill v value
    pairsFrom fill key value (putPair key value filled) rest

def pairs {α : Type} (fill : Fill α) (blank : α) : Fill (Option (List (Text × α))) := fun item _ =>
  match item.untagged with
  | some (.map entries) => (pairsFrom fill [] blank [] entries).map some
  | some (.simple code) => if isNull code then some none else none
  | _ => none

end Fill

structure Member (α : Type) where
  name : Text
  fill : Fill α

namespace Member

def of {α β : Type} (name : Text) (fill : Fill β) (get : α → β) (set : β → α → α) : Member α :=
  { name, fill := fun item a => (fill item (get a)).map fun b => set b a }

def pick {α : Type} (isNamed : Text → Bool) : List (Member α) → Option (Member α × List (Member α))
  | [] => none
  | f :: rest =>
    if isNamed f.name then some (f, rest)
    else (pick isNamed rest).map fun (found, others) => (found, f :: others)

/-- The field that a key names: exactly if there is one, else by a name of the same length that differs
only in case. -/
def match? {α : Type} (key : Text) (fields : List (Member α)) : Option (Member α × List (Member α)) :=
  match pick (· = key) fields with
  | some found => some found
  | none => pick (fun name => name.length = key.length && Text.spells key name) fields

def fillAll {α : Type} : List (Member α) → List (Item × Item) → α → Option α
  | _, [], a => some a
  | fields, (key, value) :: rest, a =>
    match key with
    | .text chunks => do
      let key ← Fill.joinChunks chunks
      match match? key fields with
      | some (f, others) => fillAll others rest (← f.fill value a)
      | none => fillAll fields rest a
    | _ => fillAll fields rest a

end Member

def Fill.record {α : Type} (fields : List (Member α)) : Fill α := fun item a =>
  match item.untagged with
  | some (.map pairs) => Member.fillAll fields pairs a
  | some (.simple code) => if Fill.isNull code then some a else none
  | _ => none

end Cbor

end Marshal
