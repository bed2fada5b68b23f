import Marshal.Managed.Session

/-! # Strings of the managed side

An owned string is a handle to a boxed string; a view is a borrowed part of one. Text goes in through a
temporary buffer, which is freed however the call ends, and must be well-formed UTF-8 in both directions.
-/
set_option autoImplicit false
namespace Marshal

structure StringOps (V : Type) where
  new : Export V
  newWithStr : Export V
  len : Export V
  asStr : Export V
  asPtr : Export V
  trim : Export V
  free : Export V
  viewEqual : Export V

structure OwnedString (V : Type) where
  ops : StringOps V
  handle : Handle (Export V)

namespace StringOps

variable {V : Type}

def wants : List (Text × FunctionType) :=
  [(Symbol.ofType Owner.stringType "new", StringOp.new.type),
    (Symbol.ofType Owner.stringType "new_with_str", StringOp.newWithStr.type),
    (Symbol.ofType Owner.stringType "len", StringOp.len.type),
    (Symbol.ofType Owner.stringType "as_str", StringOp.asStr.type),
    (Symbol.ofType Owner.stringType "as_ptr", StringOp.asPtr.type),
    (Symbol.ofType Owner.stringType "trim", StringOp.trim.type),
    (Symbol.ofType Owner.stringType Symbol.free, .destructor),
    (Symbol.ofType Owner.viewType Symbol.partialEq, StringOp.viewEqual.type)]

def resolve : Step (Session V) (StringOps V) := do
  match ← Session.resolveAll wants with
  | [new, newWithStr, len, asStr, asPtr, trim, free, viewEqual] =>
    return { new, newWithStr, len, asStr, asPtr, trim, free, viewEqual }
  | _ => Step.crash

def lift (ops : StringOps V) (addr : UInt32) (mode : Mode) : Step (Session V) (OwnedString V) :=
  return ⟨ops, ← Session.lift Owner.stringType addr mode ops.free⟩

def create (ops : StringOps V) : Step (Session V) (OwnedString V) := do
  ops.lift (← Session.callAddress ops.new []) .owned

def copyView (ops : StringOps V) (v : View) : Step (Session V) (OwnedString V) := do
  ops.lift (← Session.callAddress ops.newWithStr [.view v.start v.len]) .owned

def ofText (ops : StringOps V) (t : Text) : Step (Session V) (OwnedString V) := do
  if !Text.isUtf8 t then Step.trap (.invalidUtf8 .encode [Owner.stringType] t)
  if t.isEmpty then ops.create
  else
    let ptr ← Step.trapRefusal (fun why => .wrap .encode .allocation why Owner.stringType)
      (Session.onHeap (Heap.allocateBytes t))
    Step.andFinally (ops.copyView ⟨ptr, t.length.toUInt32⟩) (Session.onHeap (Heap.release ptr))

def viewBytes (v : View) : Step (Session V) (List UInt8) :=
  Step.trapRefusal (fun why => .wrap .decode .outOfBounds why Owner.viewType)
    (Session.onHeap (Heap.readBytes v.start v.len))

def viewText (phase : Phase) (v : View) : Step (Session V) Text := do
  let bytes ← viewBytes v
  if Text.isUtf8 bytes then return bytes
  Step.trap (.invalidUtf8 phase [Owner.viewType] bytes)

def ofMemory (ops : StringOps V) (ptr len : UInt32) : Step (Session V) (OwnedString V) := do
  let _ ← viewText .encode ⟨ptr, len⟩
  ops.copyView ⟨ptr, len⟩

def viewsEqual (ops : StringOps V) (a b : View) : Step (Session V) Bool :=
  Session.callBool ops.viewEqual [.view a.start a.len, .view b.start b.len]

end StringOps

namespace OwnedString

variable {V : Type}

def addr (s : OwnedString V) : UInt32 := s.handle.addr

def len (s : OwnedString V) : Step (Session V) UInt64 := Session.callLength s.ops.len [.u32 s.addr]

def asStr (s : OwnedString V) : Step (Session V) View := Session.callView s.ops.asStr [.u32 s.addr]

def trim (s : OwnedString V) : Step (Session V) View := Session.callView s.ops.trim [.u32 s.addr]

def asPtr (s : OwnedString V) : Step (Session V) UInt32 := Session.callAddress s.ops.asPtr [.u32 s.addr]

def text (s : OwnedString V) : Step (Session V) Text := do
  StringOps.viewText .decode (← s.asStr)

def equal (s t : OwnedString V) : Step (Session V) Bool := do
  let a ← s.asStr
  let b ← t.asStr
  s.ops.viewsEqual a b

def asRef (s : OwnedString V) : OwnedString V := { s with handle := s.handle.asRef }

end OwnedString

end Marshal
