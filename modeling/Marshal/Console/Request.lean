import Marshal.Config
import Marshal.Handle
import Marshal.Heap
import Marshal.Object.Store

/-! # Console requests

A console explores a session by requests: a verb, and whatever the verb is about. What a request answers
is plain data, and may be kept in a variable for later requests.
-/
set_option autoImplicit false
namespace Marshal
namespace Console

/-- A value in a request: given, or that of a variable. -/
inductive Operand where
  | given (d : Datum)
  | var (name : String)

/-- An address in a request: given, or that of a variable with an offset. -/
inductive Place where
  | given (addr : UInt32)
  | var (name : String) (plus : UInt32)

/-- A verb and its arguments. A verb looks only at the arguments it needs. -/
structure Request where
  verb : String
  method : String := ""
  /-- The variable a method is called on. -/
  subject : String := ""
  other : String := ""
  /-- The variable the answer is kept in. -/
  keepAs : String := ""
  name : Text := []
  type : Text := []
  elem : Text := []
  text : Text := []
  function : String := ""
  place : Place := .given 0
  first : Place := .given 0
  second : Place := .given 0
  start : Place := .given 0
  target : Place := .given 0
  value : Option Operand := none
  values : List Operand := []
  data : List UInt8 := []
  exports : List String := []
  size : UInt32 := 0
  align : UInt32 := 0
  length : UInt32 := 0
  number : Int64 := 0
  index : UInt64 := 0
  limit : Nat := 0
  mode : Mode := .owned
  exclusive : Bool := false
  flag : Bool := false

inductive Script where
  | request (r : Request) (nested : List Script)

instance : Inhabited Script := ⟨.request { verb := "" } []⟩

/-- The state of the owning side after a request: its heap, its objects, and what was destroyed or called
meanwhile. -/
structure Status where
  heap : HeapStats
  objects : Nat
  log : List Text

inductive Answer where
  | null
  | done
  | flag (b : Bool)
  | number (n : Int)
  | text (t : Text)
  | bytes (bs : List UInt8)
  | datum (d : Datum)
  | aggregate (a : OptionAggregate)
  | pointers (r : PointerResult)
  | handle (kind : String) (typeName : Option Text) (addr : UInt32) (mode : Mode) (owns : Bool)
  | view (v : View)
  | present (a : Answer)
  | absent
  | list (answers : List Answer)
  | hidden
  | config (c : Config)
  | replies (rs : List (Except Stop Answer × Status))

def Request.kind (r : Request) : BorrowKind := if r.exclusive then .exclusive else .shared

def Request.scalar (r : Request) : Scalar := (Scalar.all.find? (·.name = r.elem)).getD .u8

def Answer.address (addr : UInt32) : Answer := .number addr.toNat

def Answer.found (a : Option Answer) : Answer := .list [a.getD .null, .flag a.isSome]

end Console

end Marshal
