import Marshal.Owner.Basic
import Marshal.Text.Blank

/-! # Calling exported functions

What each exported function does to the owning side. Methods work under a borrow of their object; a rule
of the boundary that is found broken is a trap. The arguments are data of the function's parameter types.
-/
set_option autoImplicit false
namespace Marshal

inductive Reply where
  | none
  | datum (v : Datum)
  | option (a : OptionAggregate)

namespace Owner

variable {V α : Type}

def stringType : Text := "String"
def viewType : Text := "Str"
def callbackType : Text := "FnOnce"

def string? : Object V → Option (UInt32 × UInt32)
  | .string ptr len => some (ptr, len)
  | _ => none

def vector? (elem : Scalar) : Object V → Option Buffer
  | .vector s buf => if s = elem then some buf else none
  | _ => none

def refVector? : Object V → Option Buffer
  | .refVector buf => some buf
  | _ => none

def newString (data : List UInt8) : Step (Owner V) UInt32 := do
  let failed := fun why => Failure.wrap .runtime .allocation why stringType
  let ptr ← Step.trapRefusal failed (onHeap (Heap.allocateBytes data))
  match ← Step.attempt (box stringType (.string ptr data.length.toUInt32)) with
  | .ok addr => return addr
  | .error why =>
    onHeap (Heap.release ptr)
    Step.trapWith (failed why)

def viewBytes (v : View) : Step (Owner V) (List UInt8) :=
  Step.trapRefusal (fun why => .wrap .decode .outOfBounds why "str view")
    (onHeap (Heap.readBytes v.start v.len))

def viewText (v : View) : Step (Owner V) Text := do
  let bytes ← viewBytes v
  if Text.isUtf8 bytes then return bytes
  Step.trap (.invalidUtf8 .decode [viewType] bytes)

/-- The part of a view between the white space at its ends; at the end of the view when there is nothing
else. -/
def trimView (v : View) (data : Text) : View :=
  let left := data.length - (Text.trimLeft data).length
  if left = data.length then ⟨v.start + left.toUInt32, 0⟩
  else ⟨v.start + left.toUInt32, ((Text.trimRight data).length - left).toUInt32⟩

def callString (op : StringOp) (args : List Datum) : Step (Owner V) Reply := do
  match op, args with
  | .new, [] => return .datum (.u32 (← newString []))
  | .newWithStr, [.view start len] => return .datum (.u32 (← newString (← viewText ⟨start, len⟩)))
  | .len, [.u32 addr] =>
    let (_, len) ← mustGet stringType addr string?
    return .datum (.usize len.toUInt64)
  | .asStr, [.u32 addr] =>
    let (ptr, len) ← mustGet stringType addr string?
    return .datum (.view ptr len)
  | .asPtr, [.u32 addr] =>
    let (ptr, _) ← mustGet stringType addr string?
    return .datum (.u32 ptr)
  | .trim, [.u32 addr] =>
    let (ptr, len) ← mustGet stringType addr string?
    let data ← Step.trapRefusal (fun why => .wrap .runtime .outOfBounds why "string buffer")
      (onHeap (Heap.readBytes ptr len))
    let v := trimView ⟨ptr, len⟩ data
    return .datum (.view v.start v.len)
  | .viewEqual, [.view start len, .view start' len'] =>
    let a ← viewBytes ⟨start, len⟩
    let b ← viewBytes ⟨start', len'⟩
    return .datum (.bool (a = b))
  | _, _ => Step.crash

/-- How the operations of a vector type see its objects. -/
structure VecForm (V : Type) where
  type : OpaqueType
  elem : Scalar
  project : Object V → Option Buffer
  inject : Buffer → Object V
  /-- What an element that may be absent is answered as. -/
  answer : Option Datum → Reply
  /-- What must hold before an element goes in. -/
  accept : Datum → Step (Owner V) Unit

namespace VecForm

def scalar (type : OpaqueType) (elem : Scalar) : VecForm V :=
  { type, elem
    project := vector? elem
    inject := .vector elem
    answer := fun v => .option (.ofOption elem v)
    accept := fun _ => pure () }

def acceptLive (elem : OpaqueType) : Datum → Step (Owner V) Unit
  | .u32 addr => do
    if (← get).table.store.typeId? addr ≠ some elem.typeId then
      Step.trap { phase := .container, kind := .notFound, declType := elem.name, value := .u32 addr,
                  detail := "pushed element " ++ Text.hexLiteral addr.toNat ++ " is not a live " ++
                    elem.name }
  | _ => Step.crash

def reference (type elem : OpaqueType) : VecForm V :=
  { type
    elem := .u32
    project := refVector?
    inject := .refVector
    answer := fun v => .datum (v.getD (.u32 0))
    accept := acceptLive elem }

/-- Element `i`; no vector is so long that its positions do not fit 32 bits. -/
def elementAt (form : VecForm V) (addr : UInt32) (i : UInt64) (kind : BorrowKind) :
    Step (Owner V) Reply :=
  mustAccess form.type addr kind form.project fun buf => do
    if i > 0xFFFFFFFF then return form.answer none
    return form.answer (← onHeap (buf.get? form.elem i.toUInt32))

def call (form : VecForm V) (op : VecOp) (args : List Datum) : Step (Owner V) Reply := do
  match op, args with
  | .new, [] => return .datum (.u32 (← mustBox form.type.name (form.inject {})))
  | .len, [.u32 addr] =>
    mustAccess form.type addr .shared form.project fun buf =>
      return .datum (.usize buf.len.toUInt64)
  | .push, [.u32 addr, v] =>
    form.accept v
    mustAccess form.type addr .exclusive form.project fun buf => do
      let buf ← Step.trapRefusal id (onHeap (buf.push form.elem v))
      onTable (Table.setValue addr (form.inject buf))
      return .none
  | .pop, [.u32 addr] =>
    mustAccess form.type addr .exclusive form.project fun buf => do
      let (v, buf) ← onHeap (buf.pop form.elem)
      onTable (Table.setValue addr (form.inject buf))
      return form.answer v
  | .get, [.u32 addr, .usize i] => form.elementAt addr i .shared
  | .getMut, [.u32 addr, .usize i] => form.elementAt addr i .exclusive
  | .asPtr, [.u32 addr] =>
    mustAccess form.type addr .shared form.project fun buf => return .datum (.u32 buf.addr)
  | _, _ => Step.crash

end VecForm

/-- Runs a boxed callback, which is consumed whatever it turns out to be. -/
def callBoxed (addr : UInt32) : Step (Owner V) Unit := do
  match ← Step.attempt (unbox addr) with
  | .error _ => Step.trap (.doubleFree .async addr)
  | .ok (.callback label) => onTable (Table.note (.called (.callback label)))
  | .ok _ => Step.crash

/-- Accepts a call of an asynchronous function; it answers later, through its context. -/
def spawn (symbol : Text) (task : Task) : Step (Owner V) Unit := do
  match (← get).executor.spawn task with
  | .ok executor => modify fun o => { o with executor }
  | .error r => Step.trapWith (.wrap .async r.kind (.report r) symbol)

def keyOf (type : OpaqueType) (addr : UInt32) (key : V → Option (List Datum)) :
    Step (Owner V) (List Datum) :=
  mustAccess type addr .shared (guest? · >>= key) pure

/-- Calls an exported function. Arguments of the wrong types are no call at all. -/
def call (f : Export V) (args : List Datum) : Step (Owner V) Reply := do
  match f, args with
  | .destructor, [.u32 addr] => drop addr; return .none
  | .callBoxed, [.u32 addr] => callBoxed addr; return .none
  | .string _ op, args => callString op args
  | .vec type elem op, args => (VecForm.scalar type elem).call op args
  | .refVec type elem op, args => (VecForm.reference type elem).call op args
  | .construct type _ make, [v] => return .datum (.u32 (← mustBox type.name (.guest (make v))))
  | .inspect type _ f, [.u32 addr] =>
    mustAccess type addr .shared (guest? · >>= f) fun v => return .datum v
  | .amend type _ _ f, [.u32 addr, v] =>
    mustAccess type addr .exclusive (guest? · >>= fun g => f g v) fun (g, answer) => do
      onTable (Table.setValue addr (.guest g))
      return .datum answer
  | .consume type _ f, [.u32 addr] =>
    let g ← Step.trapRefusal (fun why => .wrap .ownership .notOwned why type.name) (take type addr)
    match f g with
    | some answer => return .datum answer
    | none => Step.crash
  | .equal type key, [.u32 a, .u32 b] =>
    if a = b then return .datum (.bool true)
    let ka ← keyOf type a key
    let kb ← keyOf type b key
    return .datum (.bool (Key.equal ka kb))
  | .hash type key, [.u32 addr] => return .datum (.u64 (Key.hash (← keyOf type addr key)))
  | .function _ run, args =>
    match run args with
    | some answer => return .datum answer
    | none => return .none
  | _, _ => Step.crash

def vecOps : List VecOp := [.new, .len, .push, .pop, .get, .getMut, .asPtr]

def exportVec (elem : Scalar) : Step (Owner V) Unit := do
  let type ← declare (vecTypeName elem.name)
  exportAll (vecOps.map fun op => (Symbol.ofVec elem.name op.name, .vec type elem op))

def exportRefVec (elem : Text) : Step (Owner V) Unit := do
  let type ← declare (vecTypeName elem)
  let elemType : OpaqueType := ⟨elem, ← typeId elem⟩
  exportAll (vecOps.map fun op => (Symbol.ofVec elem op.name, .refVec type elemType op))

def exportStrings : Step (Owner V) Unit := do
  let type ← declare stringType
  exportAll ([(Symbol.ofType stringType "new", StringOp.new),
      (Symbol.ofType stringType "new_with_str", .newWithStr),
      (Symbol.ofType stringType "len", .len),
      (Symbol.ofType stringType "as_str", .asStr),
      (Symbol.ofType stringType "as_ptr", .asPtr),
      (Symbol.ofType stringType "trim", .trim),
      (Symbol.ofType viewType Symbol.partialEq, .viewEqual)].map fun (name, op) =>
    (name, .string type op))
  exportRefVec stringType

/-- Publishes equality and hash of an opaque type, both by the same key. -/
def exportIdentity (type : OpaqueType) (key : V → Option (List Datum)) : Step (Owner V) Unit := do
  exportAs (Symbol.ofType type.name Symbol.partialEq) (.equal type key)
  exportAs (Symbol.ofType type.name Symbol.hash) (.hash type key)

def exportAsync (name : Text) (body : AsyncBody) : Step (Owner V) Unit :=
  exportAs (Symbol.ofFunction name) (.async (Symbol.ofFunction name) body)

end Owner

end Marshal
