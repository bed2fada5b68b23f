import Marshal.Failure
import Marshal.Layout
import Marshal.Slots
import Marshal.Symbol

/-! # Encodings chosen for types

How values of a declared type cross the boundary: which category of encoding is used, the shape in memory,
the number of flat slots and the symbols that the encoding needs. `Decl.select` refuses the types that no
encoding covers.
-/
set_option autoImplicit false
namespace Marshal

/-- The encodings. Codes outside the list occur only in snapshots made elsewhere. -/
inductive Category where
  | unit
  | primitive
  | string
  | object
  | vec
  | optionPrimitive
  | optionRef
  | result
  | tuple
  | unlisted (code : UInt8)
deriving DecidableEq, Repr

namespace Category

def code : Category → UInt8
  | unit => 0
  | primitive => 1
  | string => 2
  | object => 3
  | vec => 4
  | optionPrimitive => 5
  | optionRef => 6
  | result => 7
  | tuple => 8
  | unlisted code => code

def listed : List Category :=
  [unit, primitive, string, object, vec, optionPrimitive, optionRef, result, tuple]

def ofCode (code : UInt8) : Category := (listed.find? (·.code = code)).getD (.unlisted code)

def name : Category → Text
  | unit => "unit"
  | primitive => "primitive"
  | string => "string"
  | object => "opaque"
  | vec => "vec"
  | optionPrimitive => "option_primitive"
  | optionRef => "option_ref"
  | result => "result"
  | tuple => "tuple"
  | unlisted _ => "unknown"

def isElement : Category → Bool
  | primitive | string | object => true
  | _ => false

end Category

/-- The encoding of one type, with those of its parts. -/
structure Selection where
  decl : Text := []
  elem : Text := []
  aggregate : Text := []
  symbols : List Text := []
  children : List Selection := []
  layout : Layout := { size := 0, align := 0 }
  flat : Int := 0
  category : Category := .unit
  borrowed : Bool := false

namespace Selection

def unit : Selection := { decl := "unit" }

def start (t : Decl) (category : Category) : Selection :=
  { decl := t.label, layout := t.layout, flat := t.width, category }

def argument (s : Selection) : Text := if s.category = .unit then "_" else s.decl

/-- An object behind an address: owned ones are destroyed by their own symbol. -/
def ofObject (t : Decl) (named : Option Text) (borrowed : Bool) : Selection :=
  let decl := named.getD t.label
  { start t .object with decl, borrowed, symbols := [Symbol.ofType decl Symbol.free] }

def ofVec (t : Decl) (elem : Selection) : Except Report Selection :=
  if elem.category.isElement then
    .ok { start t .vec with
      elem := elem.decl, children := [elem], symbols := Symbol.vecAll elem.decl }
  else .error (.unsupported .plan ("vector of " ++ elem.decl))

def ofOption (t inner : Decl) (elem : Selection) : Except Report Selection :=
  let s : Selection := { start t .optionRef with
    decl := "option<" ++ elem.decl ++ ">", elem := elem.decl, children := [elem]
    symbols := elem.symbols }
  if elem.category = .primitive then
    .ok { s with category := .optionPrimitive, aggregate := Symbol.optionStruct elem.decl }
  else if inner.isReference then .ok s
  else .error (.unsupported .plan ("option of " ++ elem.decl))

def ofResult (t okType errType : Decl) (ok err : Selection) : Selection :=
  { start t .result with
    decl := "result<" ++ ok.argument ++ ", " ++ err.argument ++ ">"
    children := [ok, err]
    symbols := Text.sortUnique (ok.symbols ++ err.symbols)
    aggregate := if okType.isReference && errType.isReference then Symbol.pointerResult else [] }

def ofTuple (t : Decl) (parts : List Selection) : Selection :=
  { start t .tuple with
    decl := "tuple<" ++ Text.join ", " (parts.map decl) ++ ">"
    children := parts
    symbols := Text.sortUnique (parts.flatMap symbols) }

end Selection

def Decl.name? : Decl → Option Text
  | .defn name _ => name
  | _ => none

mutual
def Decl.select : Decl → Except Report Selection
  | .absent => .ok .unit
  | .prim p => .ok (.start (.prim p) .primitive)
  | .string => .ok { Selection.start .string .string with symbols := Symbol.stringAll }
  | .errorContext => .error (.unsupported .plan ("type " ++ Decl.errorContext.label))
  | .defn name kind => kind.select name

def Kind.select (name : Option Text) : Kind → Except Report Selection
  | .own target => .ok (.ofObject (.defn name (.own target)) target.name? false)
  | .borrow target => .ok (.ofObject (.defn name (.borrow target)) target.name? true)
  | .resource => .ok (.ofObject (.defn name .resource) name false)
  | .list elem => do
    let e ← elem.select
    Selection.ofVec (.defn name (.list elem)) e
  | .option elem => do
    let e ← elem.select
    Selection.ofOption (.defn name (.option elem)) elem e
  | .result ok err => do
    let a ← ok.select
    let b ← err.select
    return .ofResult (.defn name (.result ok err)) ok err a b
  | .tuple elems => do
    let parts ← selectAll elems
    return .ofTuple (.defn name (.tuple elems)) parts
  | .alias target =>
    let t : Decl := .defn name (.alias target)
    if target.isPrimitive then .ok (.start t .primitive)
    else .error (.unsupported .plan ("type " ++ t.label))
  | kind => .error (.unsupported .plan ("type " ++ (Decl.defn name kind).label))

/-- The encodings of several types, in order; the first type that has none decides the failure. -/
def selectAll : List Decl → Except Report (List Selection)
  | [] => .ok []
  | t :: rest => do
    let s ← t.select
    let others ← selectAll rest
    return s :: others
end

end Marshal
