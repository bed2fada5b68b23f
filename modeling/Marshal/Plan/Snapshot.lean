import Marshal.Cbor.Decode
import Marshal.Plan.Basic

/-! # Snapshots of plans

A plan as canonical CBOR, so that equal plans have equal bytes, and back. Fields that may be missing are left
out when they are empty.
-/
set_option autoImplicit false
namespace Marshal

open Cbor

/-- The pairs of a record: names with their items, unset where a field is left out. -/
def recordItem (fields : List (Text × Option Item)) : Item :=
  .map (fields.filterMap fun (name, item) => item.map fun i => (.ofText name, i))

namespace Cbor.Item

def ofTexts (ts : List Text) : Item := .array (ts.map ofText)

def orNull (item : Option Item) : Item := item.getD null

end Cbor.Item

def textUnlessEmpty (t : Text) : Option Item := if t.isEmpty then none else some (.ofText t)

def textsUnlessEmpty (ts : List Text) : Option Item := if ts.isEmpty then none else some (.ofTexts ts)

def Layout.toItem (l : Layout) : Item :=
  recordItem [("FieldOffs", some (.orNull (l.fields.map fun fs =>
      .map (fs.map fun (name, offset) => (.ofText name, .uint offset.toNat))))),
    ("Size", some (.uint l.size.toNat)), ("Align", some (.uint l.align.toNat))]

mutual
def Selection.toItem : Selection → Item
  | ⟨decl, elem, aggregate, symbols, children, layout, flat, category, borrowed⟩ =>
    recordItem [("decl", some (.ofText decl)), ("elem", textUnlessEmpty elem),
      ("aggregate", textUnlessEmpty aggregate), ("symbols", textsUnlessEmpty symbols),
      ("children", if children.isEmpty then none else some (.array (selectionItems children))),
      ("layout", some layout.toItem), ("flat", some (.ofInt flat)),
      ("category", some (.uint category.code.toNat)),
      ("borrowed", if borrowed then some (.ofBool true) else none)]

def selectionItems : List Selection → List Item
  | [] => []
  | s :: rest => s.toItem :: selectionItems rest
end

def ParamPlan.toItem (p : ParamPlan) : Item :=
  recordItem [("name", some (.ofText p.name)), ("selection", some p.selection.toItem)]

def FunctionPlan.toItem (f : FunctionPlan) : Item :=
  recordItem [("result", some f.result.toItem), ("name", some (.ofText f.name)),
    ("symbol", some (.ofText f.symbol)), ("signature", some (.ofText f.signature)),
    ("trampoline", textUnlessEmpty f.trampoline),
    ("params", some (.orNull (f.params.map fun ps => .array (ps.map ParamPlan.toItem)))),
    ("async", some (.ofBool f.async))]

def OpaquePlan.toItem (o : OpaquePlan) : Item :=
  recordItem [("name", some (.ofText o.name)), ("key", textsUnlessEmpty o.key),
    ("symbols", some (.orNull (o.symbols.map .ofTexts))), ("equatable", some (.ofBool o.equatable)),
    ("hashable", some (.ofBool o.hashable)), ("sendable", some (.ofBool o.sendable))]

def Plan.toItem (p : Plan) : Item :=
  recordItem [("name", some (.ofText p.name)),
    ("functions", some (.orNull (p.functions.map fun fs => .array (fs.map FunctionPlan.toItem)))),
    ("opaques", some (.orNull (p.opaques.map fun os => .array (os.map OpaquePlan.toItem)))),
    ("vectors", textsUnlessEmpty p.vectors), ("options", textsUnlessEmpty p.options),
    ("symbols", some (.orNull (p.symbols.map .ofTexts)))]

def Plan.encode (p : Plan) : Text := p.toItem.encode

def Layout.cborMembers : List (Member Layout) :=
  [.of "FieldOffs" (.pairs .word 0) Layout.fields fun fields l => { l with fields },
    .of "Size" .word Layout.size fun size l => { l with size },
    .of "Align" .word Layout.align fun align l => { l with align }]

def Selection.cborMembers (inner : Fill Selection) : List (Member Selection) :=
  [.of "decl" .text Selection.decl fun decl s => { s with decl },
    .of "elem" .text Selection.elem fun elem s => { s with elem },
    .of "aggregate" .text Selection.aggregate fun aggregate s => { s with aggregate },
    .of "symbols" (.plainList .text []) Selection.symbols fun symbols s => { s with symbols },
    .of "children" (.plainList inner {}) Selection.children fun children s => { s with children },
    .of "layout" (.record Layout.cborMembers) Selection.layout fun layout s => { s with layout },
    .of "flat" .int Selection.flat fun flat s => { s with flat },
    .of "category" .byte (·.category.code) fun code s => { s with category := .ofCode code },
    .of "borrowed" .bool Selection.borrowed fun borrowed s => { s with borrowed }]

def Selection.fillWithin : Nat → Fill Selection
  | 0 => fun _ _ => none
  | depth + 1 => .record (cborMembers (fillWithin depth))

def ParamPlan.cborMembers (inner : Fill Selection) : List (Member ParamPlan) :=
  [.of "name" .text ParamPlan.name fun name p => { p with name },
    .of "selection" inner ParamPlan.selection fun selection p => { p with selection }]

def FunctionPlan.cborMembers (inner : Fill Selection) : List (Member FunctionPlan) :=
  [.of "result" inner FunctionPlan.result fun result f => { f with result },
    .of "name" .text FunctionPlan.name fun name f => { f with name },
    .of "symbol" .text FunctionPlan.symbol fun symbol f => { f with symbol },
    .of "signature" .text FunctionPlan.signature fun signature f => { f with signature },
    .of "trampoline" .text FunctionPlan.trampoline fun trampoline f => { f with trampoline },
    .of "params" (.list (.record (ParamPlan.cborMembers inner)) {}) FunctionPlan.params
      fun params f => { f with params },
    .of "async" .bool FunctionPlan.async fun async f => { f with async }]

def OpaquePlan.cborMembers : List (Member OpaquePlan) :=
  [.of "name" .text OpaquePlan.name fun name o => { o with name },
    .of "key" (.plainList .text []) OpaquePlan.key fun key o => { o with key },
    .of "symbols" (.list .text []) OpaquePlan.symbols fun symbols o => { o with symbols },
    .of "equatable" .bool OpaquePlan.equatable fun equatable o => { o with equatable },
    .of "hashable" .bool OpaquePlan.hashable fun hashable o => { o with hashable },
    .of "sendable" .bool OpaquePlan.sendable fun sendable o => { o with sendable }]

def Plan.cborMembers (inner : Fill Selection) : List (Member Plan) :=
  [.of "name" .text Plan.name fun name p => { p with name },
    .of "functions" (.list (.record (FunctionPlan.cborMembers inner)) {}) Plan.functions
      fun functions p => { p with functions },
    .of "opaques" (.list (.record OpaquePlan.cborMembers) {}) Plan.opaques
      fun opaques p => { p with opaques },
    .of "vectors" (.plainList .text []) Plan.vectors fun vectors p => { p with vectors },
    .of "options" (.plainList .text []) Plan.options fun options p => { p with options },
    .of "symbols" (.list .text []) Plan.symbols fun symbols p => { p with symbols }]

/-- The plan that bytes describe within the limits. No item is deep enough to hold a deeper encoding than
is filled. -/
def Plan.decodeWithin (limits : Limits) (t : Text) : Option Plan :=
  (Cbor.decode limits t).bind fun item => Fill.record (cborMembers (Selection.fillWithin limits.depth)) item {}

def Plan.decode (t : Text) : Except Failure Plan :=
  match decodeWithin .standard t with
  | some p => .ok p
  | none => .error (.parseFailed "plan" (.plain "bytes do not describe a plan"))

end Marshal
