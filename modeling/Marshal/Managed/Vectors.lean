import Marshal.Managed.Strings

/-! # Vectors of the managed side

A witness holds the resolved functions of one vector type and knows how its elements are lifted: scalars
come as optional aggregates, references as nullable addresses that become strings or handles. Pushing a
reference gives up its ownership first.
-/
set_option autoImplicit false
namespace Marshal

inductive ElementForm (V : Type) where
  | scalar (s : Scalar)
  | string (ops : StringOps V)
  | handle (type : HandleType V)

inductive Element (V : Type) where
  | datum (v : Datum)
  | string (s : OwnedString V)
  | handle (h : Handle (Export V))

structure Witness (V : Type) where
  elem : Text
  form : ElementForm V
  new : Export V
  free : Export V
  len : Export V
  push : Export V
  pop : Export V
  get : Export V
  getMut : Export V
  asPtr : Export V

structure OwnedVec (V : Type) where
  witness : Witness V
  handle : Handle (Export V)

structure StringBridge (V : Type) where
  ops : StringOps V
  witness : Witness V

namespace ElementForm

variable {V : Type}

def typeName : ElementForm V → Text
  | scalar s => s.typeName
  | string _ => "*str.String"
  | handle _ => "*handle.Handle"

def witnessName (form : ElementForm V) : Text :=
  "*vec.Witness[" ++
    (match form with
      | scalar s => s.typeName
      | string _ => "*github.com/wippyai/ffi-bridge/str.String"
      | handle _ => "*github.com/wippyai/ffi-bridge/handle.Handle" : Text) ++ "]"

def liftAddress (form : ElementForm V) (addr : UInt32) (mode : Mode) :
    Step (Session V) (Option (Element V)) := do
  if addr = 0 then return none
  match form with
  | scalar _ => Step.crash
  | string ops => return some (.string (← ops.lift addr mode))
  | handle type => return some (.handle (← type.lift addr mode))

def liftReply (form : ElementForm V) (mode : Mode) : Reply → Step (Session V) (Option (Element V))
  | .option a => return a.toOption.map .datum
  | .datum (.u32 addr) => form.liftAddress addr mode
  | _ => Step.crash

end ElementForm

namespace Element

variable {V : Type}

def lower : Element V → Step (Session V) Datum
  | datum v => return v
  | string s => return .u32 (← Session.mustTransfer s.handle)
  | handle h => return .u32 (← Session.mustTransfer h)

end Element

namespace Witness

variable {V : Type}

def typeName (w : Witness V) : Text := vecTypeName w.elem

/-- The functions of a vector type, whose elements go in as `item` and come out as `answer`. -/
def wants (elem : Text) (item answer : WireType) : List (Text × FunctionType) :=
  let want := fun (op : VecOp) => (Symbol.ofVec elem op.name, op.type item answer)
  [want .new, (Symbol.ofVec elem Symbol.free, .destructor), want .len, want .push, want .pop,
    want .get, want .getMut, want .asPtr]

def resolve (elem : Text) (form : ElementForm V) (item answer : WireType) :
    Step (Session V) (Witness V) := do
  match ← Session.resolveAll (wants elem item answer) with
  | [new, free, len, push, pop, get, getMut, asPtr] =>
    return { elem, form, new, free, len, push, pop, get, getMut, asPtr }
  | _ => Step.crash

def ofScalar (s : Scalar) : Step (Session V) (Witness V) :=
  resolve s.name (.scalar s) (.scalar s) (.option s)

def ofHandles (type : HandleType V) : Step (Session V) (Witness V) :=
  resolve type.name (.handle type) .address .address

def ofStrings (ops : StringOps V) : Step (Session V) (Witness V) :=
  resolve Owner.stringType (.string ops) .address .address

end Witness

/-- Resolves the string functions and the vectors of strings; it needs the heap that views point into. -/
def StringBridge.resolve {V : Type} (hasHeap : Bool) : Step (Session V) (StringBridge V) := do
  if !hasHeap then Step.refuse (.notInitialized .bind "heap")
  let ops ← StringOps.resolve
  return ⟨ops, ← Witness.ofStrings ops⟩

namespace OwnedVec

variable {V α : Type}

def addr (v : OwnedVec V) : UInt32 := v.handle.addr

def ofAddress (w : Witness V) (addr : UInt32) (mode : Mode) : Step (Session V) (OwnedVec V) :=
  return ⟨w, ← Session.lift w.typeName addr mode w.free⟩

def create (w : Witness V) : Step (Session V) (OwnedVec V) := do
  ofAddress w (← Session.callAddress w.new []) .owned

def len (v : OwnedVec V) : Step (Session V) UInt64 := Session.callLength v.witness.len [.u32 v.addr]

def asPtr (v : OwnedVec V) : Step (Session V) UInt32 :=
  Session.callAddress v.witness.asPtr [.u32 v.addr]

def requireMutable (v : OwnedVec V) (op : Text) : Step (Session V) Unit := do
  if v.handle.mode = .borrowed then
    Step.trap { phase := .ownership, kind := .aliasing, declType := v.handle.typeName,
                value := .u32 v.addr, detail := op ++ " through a shared borrow" }

def push (v : OwnedVec V) (x : Element V) : Step (Session V) Unit := do
  v.requireMutable "push"
  let item ← x.lower
  let _ ← Session.call v.witness.push [.u32 v.addr, item]

def pop (v : OwnedVec V) : Step (Session V) (Option (Element V)) := do
  v.requireMutable "pop"
  v.witness.form.liftReply .owned (← Session.call v.witness.pop [.u32 v.addr])

def get (v : OwnedVec V) (i : UInt64) : Step (Session V) (Option (Element V)) := do
  v.witness.form.liftReply .borrowed (← Session.call v.witness.get [.u32 v.addr, .usize i])

def getMut (v : OwnedVec V) (i : UInt64) : Step (Session V) (Option (Element V)) := do
  v.requireMutable "get_mut"
  v.witness.form.liftReply .borrowedMut (← Session.call v.witness.getMut [.u32 v.addr, .usize i])

def pushAll (v : OwnedVec V) : List (Element V) → Step (Session V) Unit
  | [] => pure ()
  | x :: rest => do
    v.push x
    v.pushAll rest

def ofList (w : Witness V) (values : List (Element V)) : Step (Session V) (OwnedVec V) := do
  let v ← create w
  v.pushAll values
  return v

def bound (v : OwnedVec V) : Step (Session V) Nat := do
  match (← MonadState.get).owner.table.store.get? v.addr with
  | some (.vector _ buf) => return buf.len.toNat
  | some (.refVector buf) => return buf.len.toNat
  | _ => return 0

/-- The elements from position `i` on, up to the first absent one or `count` of them. -/
def valuesFrom (v : OwnedVec V) (i : UInt64) : Nat → Step (Session V) (List (Element V))
  | 0 => return []
  | count + 1 => do
    match ← v.get i with
    | none => return []
    | some x => return x :: (← v.valuesFrom (i + 1) count)

/-- The elements up to the first absent one, or the first `limit` of them. -/
def values (v : OwnedVec V) (limit : Option Nat) : Step (Session V) (List (Element V)) := do
  let count := (← v.bound) + 1
  v.valuesFrom 0 (match limit with
    | some n => min n count
    | none => count)

def popAll (v : OwnedVec V) : Nat → Step (Session V) (List (Element V))
  | 0 => return []
  | count + 1 => do
    match ← v.pop with
    | none => return []
    | some x => return x :: (← v.popAll count)

def collect (v : OwnedVec V) : Step (Session V) (List (Element V)) := do
  v.popAll ((← v.bound) + 1)

def asRef (v : OwnedVec V) : OwnedVec V := { v with handle := v.handle.asRef }

def asMut (v : OwnedVec V) : Step (Session V) (OwnedVec V) :=
  return { v with handle := ← Session.asMut v.handle }

end OwnedVec

structure WitnessTable (V : Type) where
  entries : List (Text × Witness V) := []

namespace WitnessTable

variable {V : Type}

def register (t : WitnessTable V) (w : Witness V) : Except Failure (WitnessTable V) :=
  if t.entries.any (·.1 = w.elem) then
    .error (.registration .bind w.typeName (.plain "witness already registered"))
  else .ok ⟨(w.elem, w) :: t.entries⟩

def lookup (t : WitnessTable V) (elem : Text) (want : ElementForm V) : Except Report (Witness V) :=
  match t.entries.find? (·.1 = elem) with
  | none => .error (.notFound .bind "witness" elem)
  | some (_, w) =>
    if w.form.typeName = want.typeName then .ok w
    else .error (.typeMismatch .bind [elem] want.typeName w.form.witnessName)

def names (t : WitnessTable V) : List Text := Text.sortUnique (t.entries.map (·.1))

end WitnessTable

end Marshal
