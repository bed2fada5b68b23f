import Marshal.Console.Basic
import Marshal.Plan.Basic

/-! # Requests on the owning side

Declaring types and functions, calling functions by name, and boxing objects.
-/
set_option autoImplicit false
namespace Marshal
namespace Console

def tenthKey (g : Guest) : Option (List Datum) := g.number?.map fun n => [.i64 (n / 10)]

def numberDatum (g : Guest) : Option Datum := g.number?.map .i64

def addNumber : Guest → Datum → Option (Guest × Datum)
  | .number n, .i64 m => some (.number (n + m), .i64 (n + m))
  | _, _ => none

def makeNumber : Datum → Guest
  | .i64 n => .number n
  | _ => .number 0

def exportFor (t : OpaqueType) (what : String) : Step (Owner Guest) Unit :=
  let wire : WireType := .scalar .i64
  let publish := fun (op : Text) => Owner.exportAs (Symbol.ofType t.name op)
  match what with
  | "new" => publish "new" (.construct t wire makeNumber)
  | "get" => publish "get" (.inspect t wire numberDatum)
  | "add" => publish "add" (.amend t wire wire addNumber)
  | "into" => publish "into" (.consume t wire numberDatum)
  | "equal" => publish Symbol.partialEq (.equal t tenthKey)
  | "hash" => publish Symbol.hash (.hash t tenthKey)
  | "const_hash" => publish Symbol.hash (.hash t fun _ => some [])
  | _ => Owner.exportIdentity t tenthKey

def exportEach (t : OpaqueType) : List String → Step (Owner Guest) Unit
  | [] => pure ()
  | what :: rest => do
    exportFor t what
    exportEach t rest

def successor : Export Guest :=
  .function ⟨[.address], some .address⟩ fun
    | [.u32 n] => some (.u32 (n + 1))
    | _ => none

def seven : Export Guest := .function ⟨[.scalar .u64], some (.scalar .u64)⟩ fun _ => some (.u64 7)

def exportNamed (r : Request) : Step (Owner Guest) Unit :=
  match r.function with
  | "addr" => Owner.exportAs r.name successor
  | "u64" => Owner.exportAs r.name seven
  | _ => Owner.exportNothing r.name

/-- Closes the session. Objects that were still borrowed are dropped in no particular order, so the log is
then put in order. -/
def closeSession : Step Console Answer := do
  let isOrdered := (← get).owner.table.store.entries.all fun e => !e.isBorrowed
  onSession Session.close
  if !isOrdered then
    modify fun c => c.setJournal
      (c.owner.table.journal.mergeSort fun a b => Text.le (logLine a) (logLine b))
  return .flag true

def checkManifest (manifest : Text) : Step Console Answer := do
  let owner := (← get).owner
  let checked := do
    let plan ← Plan.build (← Manifest.parse 1 manifest)
    plan.check fun name => (owner.export? name).isSome
  match checked with
  | .ok _ => return .text "complete"
  | .error f => throw (.refused f)

def declarations (r : Request) : Option (Step Console Answer) :=
  match r.verb with
  | "strings" => some (perform (onOwner Owner.exportStrings))
  | "vec" => some (perform (onOwner (Owner.exportVec r.scalar)))
  | "refvec" => some (perform (onOwner (Owner.exportRefVec r.elem)))
  | "export" => some (perform (onOwner (exportNamed r)))
  | "symbols" => some do
    return .list ((Text.sortUnique ((← get).owner.exports.map (·.1))).map .text)
  | "lookup" => some (return .flag ((← get).owner.export? r.name).isSome)
  | "type_id" => some (return .address (← onOwner (Owner.typeId r.name)))
  | "check" => some (checkManifest r.text)
  | "config" => some (return .config (← get).owner.config)
  | "close" => some closeSession
  | "opaque" => some do
    let t ← onOwner (Owner.declare r.name)
    modify fun c => { c with types := t :: c.types }
    onOwner (exportEach t r.exports)
    return .text t.name
  | "call" => some do
    let c ← get
    let f ← require (c.owner.export? r.name)
    match ← onSession (Session.call f (r.values.map c.reader.operand)) with
    | .none => return .done
    | .datum d => keep r (.datum d)
    | .option a => return .aggregate a
  | "set" => some do keep r (.datum ((← get).reader.value r))
  | _ => none

def boxAnswer : Object Guest → Answer
  | .guest (.token name) => .text name
  | _ => .hidden

def typeOf (r : Request) : Step Console OpaqueType := do
  require ((← get).types.find? (·.name = r.type))

def numberAnswer (n : Option Int64) : Step Console Answer := return .number (← require n).toInt

def objects (c : Console) (r : Request) : Option (Step Console Answer) :=
  let addr := c.reader.place r.place
  let store := c.owner.table.store
  match r.verb with
  | "box" => some (keepAddress r (onOwner (Owner.box r.type (.guest (.token r.text)))))
  | "unbox" => some (return boxAnswer (← onOwner (Owner.unbox addr)))
  | "deref" => some (return .found ((store.get? addr).map boxAnswer))
  | "drop" => some (perform (onOwner (Owner.drop addr)))
  | "borrow" => some (perform (onOwner (Owner.onTable (Table.borrow addr r.kind))))
  | "return" => some (return .flag (← onOwner (Owner.onTable (Table.giveBack addr r.kind))))
  | "borrows" => some (return .list [.address (store.borrows addr).1, .flag (store.borrows addr).2])
  | "objects" => some do
    return .list (store.sorted.map fun e => .list [.address e.addr, .address e.typeId])
  | "o_new" => some do
    let t ← typeOf r
    keepAddress r (onOwner (Owner.box t.name (.guest (.number r.number))))
  | "o_get" => some do
    match ← onOwner (Owner.find (← typeOf r) addr) with
    | none => return .found none
    | some g => return .found (some (← numberAnswer g.number?))
  | "o_take" => some do numberAnswer (← onOwner (Owner.take (← typeOf r) addr)).number?
  | "o_free" => some (perform (onOwner (Owner.drop addr)))
  | "fn_box" => some (keepAddress r (onOwner (Owner.box Owner.callbackType (.callback r.text))))
  | _ => none

def underBorrow {α : Type} (r : Request) (body : Step Console α) : Step Console α := do
  let addr := (← get).reader.place r.place
  let n ← onOwner (Owner.enter (← typeOf r) addr r.kind fun o => Owner.guest? o >>= Guest.number?)
  Step.andFinally
    (do
      onOwner (Owner.onTable (Table.setValue addr (.guest (.number (n + r.number)))))
      body)
    (onOwner (Owner.leave addr r.kind))

end Console

end Marshal
