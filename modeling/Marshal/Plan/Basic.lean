import Marshal.Binding
import Marshal.Manifest
import Marshal.Selection
import Marshal.Signature

/-! # Plans

The plan of a manifest: for every function the encoding of its parameters and of its result, and over all of
them the element types that need vectors, the optional aggregates in use and the symbols that the other side
has to export. A list that was never filled is unset, which only snapshots show.
-/
set_option autoImplicit false
namespace Marshal

structure ParamPlan where
  name : Text := []
  selection : Selection := {}

/-- The plan of one function. An asynchronous one completes through its trampoline. -/
structure FunctionPlan where
  result : Selection := {}
  name : Text := []
  symbol : Text := []
  signature : Text := []
  trampoline : Text := []
  params : Option (List ParamPlan) := none
  async : Bool := false

structure OpaquePlan where
  name : Text := []
  key : List Text := []
  symbols : Option (List Text) := none
  equatable : Bool := false
  hashable : Bool := false
  sendable : Bool := false

structure Plan where
  name : Text := []
  functions : Option (List FunctionPlan) := none
  opaques : Option (List OpaquePlan) := none
  vectors : List Text := []
  options : List Text := []
  symbols : Option (List Text) := none

mutual
/-- The element types of the vectors in an encoding, at any depth. -/
def Selection.vectors : Selection → List Text
  | ⟨_, elem, _, _, children, _, _, category, _⟩ =>
    (if category = .vec then [elem] else []) ++ childVectors children

def childVectors : List Selection → List Text
  | [] => []
  | s :: rest => s.vectors ++ childVectors rest
end

mutual
/-- The optional aggregates in an encoding, at any depth. -/
def Selection.options : Selection → List Text
  | ⟨_, _, aggregate, _, children, _, _, category, _⟩ =>
    (if category = .optionPrimitive then [aggregate] else []) ++ childOptions children

def childOptions : List Selection → List Text
  | [] => []
  | s :: rest => s.options ++ childOptions rest
end

def unlessEmpty {α : Type} (xs : List α) : Option (List α) := if xs.isEmpty then none else some xs

namespace OpaqueDecl

def symbols (o : OpaqueDecl) : List Text :=
  [Symbol.ofType o.name Symbol.free] ++
    (if o.equatable then [Symbol.ofType o.name Symbol.partialEq] else []) ++
    (if o.hashable then [Symbol.ofType o.name Symbol.hash] else [])

def plan (o : OpaqueDecl) : OpaquePlan :=
  { name := o.name, key := o.key, symbols := some o.symbols, equatable := o.equatable
    hashable := o.hashable, sendable := o.sendable }

end OpaqueDecl

namespace FunctionPlan

def paramList (f : FunctionPlan) : List ParamPlan := f.params.getD []

def selections (f : FunctionPlan) : List Selection := f.paramList.map (·.selection) ++ [f.result]

def symbols (f : FunctionPlan) : List Text := f.symbol :: f.selections.flatMap Selection.symbols

end FunctionPlan

def selectFor (what : Text) (t : Decl) : Except Failure Selection :=
  t.select.mapError fun r => .wrap .plan .unsupported (.report r) what

def Param.plan (function : Text) (p : Param) : Except Failure ParamPlan := do
  return { name := p.name, selection := ← selectFor (function ++ "." ++ p.name) p.type }

def Signature.plan (s : Signature) (declared : FunctionDecl) : Except Failure FunctionPlan := do
  let params ← s.params.mapM (Param.plan s.name)
  let result ← selectFor (s.name ++ " result") s.result
  return { result, name := s.name, symbol := Symbol.ofFunction s.name, signature := declared.signature
           trampoline := if declared.async then Symbol.trampoline s.name else []
           params := unlessEmpty params, async := declared.async }

namespace Plan

def functionList (p : Plan) : List FunctionPlan := p.functions.getD []
def opaqueList (p : Plan) : List OpaquePlan := p.opaques.getD []
def symbolList (p : Plan) : List Text := p.symbols.getD []

/-- Plans the functions in order; `seen` are the names already taken. -/
def functionPlans (names : List Text) : List Text → List FunctionDecl → Except Failure (List FunctionPlan)
  | _, [] => .ok []
  | seen, f :: rest => do
    let signature ← Signature.parse names f.signature
    if seen.contains signature.name then
      throw (.report (.invalidInput .plan ("function " ++ signature.name ++ " declared twice")))
    let plan ← signature.plan f
    let plans ← functionPlans names (signature.name :: seen) rest
    return plan :: plans

def assemble (m : Manifest) (functions : List FunctionPlan) : Plan :=
  let selections := functions.flatMap FunctionPlan.selections
  let vectors := Text.sortUnique
    ((m.opaques.filter (·.vectorizable)).map (·.name) ++ selections.flatMap Selection.vectors)
  { name := m.name
    functions := unlessEmpty functions
    opaques := unlessEmpty (m.opaques.map OpaqueDecl.plan)
    vectors
    options := Text.sortUnique (selections.flatMap Selection.options)
    symbols := unlessEmpty (Text.sortUnique
      (m.opaques.flatMap OpaqueDecl.symbols ++ functions.flatMap FunctionPlan.symbols ++
        vectors.flatMap Symbol.vecAll)) }

def build (m : Manifest) : Except Failure Plan := do
  let functions ← functionPlans (m.opaques.map (·.name)) [] m.functions
  return assemble m functions

def check (p : Plan) (exported : Text → Bool) : Except Failure Unit :=
  match p.symbolList.filter fun name => !exported name with
  | [] => .ok ()
  | missing => .error (.missing missing)

def function? (p : Plan) (name : Text) : Option FunctionPlan := p.functionList.find? (·.name = name)

end Plan

end Marshal
