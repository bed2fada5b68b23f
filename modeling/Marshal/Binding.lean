import Marshal.Scalar
import Marshal.Symbol

/-! # Binding symbols

One side of the boundary looks up the other's functions by name and checks that each has the type it
expects. A binder resolves a group of names and reports every missing one at once.
-/
set_option autoImplicit false
namespace Marshal

/-- The type of a parameter or result of an exported function. Addresses are 32-bit scalars. -/
inductive WireType where
  | scalar (s : Scalar)
  | view
  | option (s : Scalar)
  | completion
deriving DecidableEq

structure FunctionType where
  params : List WireType
  result : Option WireType := none
deriving DecidableEq

def WireType.address : WireType := scalar .u32

def WireType.text : WireType → Text
  | scalar s => s.typeName
  | view => "abi.Str"
  | option s => "abi.Option[" ++ s.typeName ++ "]"
  | completion => "func(uint32, uint32)"

def FunctionType.text (f : FunctionType) : Text :=
  "func(" ++ Text.join ", " (f.params.map WireType.text) ++ ")" ++
    match f.result with
    | none => []
    | some r => " " ++ r.text

structure Symbols (α : Type) where
  lookup : Text → Option α
  typeOf : α → FunctionType

namespace Symbols

variable {α : Type}

def resolve (syms : Option (Symbols α)) (name : Text) (want : FunctionType) : Except Report α :=
  match syms with
  | none => .error (.notInitialized .bind "symbol table")
  | some syms =>
    match syms.lookup name with
    | none => .error (.missingSymbol name)
    | some f =>
      if syms.typeOf f = want then .ok f
      else .error { phase := .bind, kind := .typeMismatch, symbol := name,
                    valueType := (syms.typeOf f).text, detail := "expected " ++ want.text }

end Symbols

structure Binder (α : Type) where
  syms : Option (Symbols α)
  missing : List Text := []
  firstError : Option Report := none

namespace Binder

variable {α : Type}

/-- Resolves a name; a name that is missing is remembered, and so is the first other failure. -/
def bind (b : Binder α) (name : Text) (want : FunctionType) : Option α × Binder α :=
  let isMissing := match b.syms with
    | some syms => (syms.lookup name).isNone
    | none => false
  if isMissing then (none, { b with missing := b.missing ++ [name] })
  else match Symbols.resolve b.syms name want with
    | .ok f => (some f, b)
    | .error r => (none, { b with firstError := some (b.firstError.getD r) })

def failure? (b : Binder α) : Option Failure :=
  if b.missing.isEmpty then b.firstError.map .report else some (.missing b.missing)

def bindAll (b : Binder α) : List (Text × FunctionType) → List (Option α) × Binder α
  | [] => ([], b)
  | (name, want) :: rest =>
    let (f, b) := b.bind name want
    let (fs, b) := b.bindAll rest
    (f :: fs, b)

end Binder

def Symbols.resolveAll {α : Type} (syms : Option (Symbols α)) (wants : List (Text × FunctionType)) :
    Except Failure (List α) :=
  let (fs, b) := ({ syms } : Binder α).bindAll wants
  match b.failure? with
  | some why => .error why
  | none => .ok (fs.filterMap id)

end Marshal
