import Marshal.Decl
import Marshal.Failure

/-! # Type expressions

The textual form of declared types: scalar keywords, `string`, the constructors `list`, `option`, `tuple`,
`result`, `own` and `borrow` with their arguments between angle brackets, and the names of opaque types.
A bare name owns its object, and `_` stands for an absent side of a result. Spaces and tabs may stand
before every token and at the end.
-/
set_option autoImplicit false
namespace Marshal

inductive Former where
  | list
  | option
  | tuple
  | result
  | own
  | borrow
deriving DecidableEq, Repr

namespace Former

def keyword : Former → Text
  | list => "list"
  | option => "option"
  | tuple => "tuple"
  | result => "result"
  | own => "own"
  | borrow => "borrow"

def all : List Former := [list, option, tuple, result, own, borrow]

def ofName? (name : Text) : Option Former := all.find? (·.keyword = name)

end Former

/-- The types that are written as one word, with two older spellings of the floating-point types. -/
def Decl.words : List (Text × Decl) :=
  Primitive.all.map (fun p => (p.keyword, .prim p)) ++
    ([("string", .string), ("error-context", .errorContext), ("float32", .prim .f32),
      ("float64", .prim .f64)] : List (Text × Decl))

def Decl.ofWord? (name : Text) : Option Decl := Decl.words.lookup name

def Decl.resourceNamed (name : Text) : Decl := .defn (some name) .resource

namespace TypeExpr

def isReserved (name : Text) : Bool := (Former.ofName? name).isSome || (Decl.ofWord? name).isSome

/-- What an expression is read against: the opaque types in scope, and the whole expression, which
failures point to. -/
structure Scope where
  names : List Text
  source : Text

namespace Scope

def fault (s : Scope) (detail : Text) : Report := .invalidData .plan [s.source] detail

def offset (s : Scope) (rest : Text) : Text := Text.ofNat (s.source.length - rest.length)

end Scope

def isSpace (b : UInt8) : Bool := b = 32 || b = 9

def skip (t : Text) : Text := t.dropWhile isSpace

def isLetter (b : UInt8) : Bool := b = 95 || b = 45 || (97 ≤ b && b ≤ 122) || (65 ≤ b && b ≤ 90)

def isNameByte (b : UInt8) : Bool := isLetter b || (48 ≤ b && b ≤ 57)

def splitName : Text → Text × Text
  | [] => ([], [])
  | b :: rest =>
    if isLetter b then (b :: rest.takeWhile isNameByte, rest.dropWhile isNameByte) else ([], b :: rest)

def accept (b : UInt8) (t : Text) : Option Text :=
  match skip t with
  | a :: rest => if a = b then some rest else none
  | [] => none

def expect (s : Scope) (b : UInt8) (t : Text) : Except Report Text :=
  match accept b t with
  | some rest => .ok rest
  | none =>
    .error (s.fault ("expected " ++ Text.quoteChar (Char.ofNat b.toNat) ++ " at offset " ++
      s.offset (skip t)))

def endsHole (b : UInt8) : Bool := b = 44 || b = 62 || isSpace b

def startsHole : Text → Bool
  | [95] => true
  | 95 :: b :: _ => endsHole b
  | _ => false

def lookup (s : Scope) (name : Text) : Except Report Decl :=
  if s.names.contains name then .ok (.resourceNamed name)
  else .error (s.fault ("unknown type " ++ Text.quote name))

/-- The type that a constructor makes of its arguments, or what is wrong with them. -/
def applied : Former → List Decl → Except Text Decl
  | .list, [elem] =>
    if elem.isPresent then .ok (.defn none (.list elem)) else .error "list needs an element type"
  | .option, [elem] =>
    if elem.isPresent then .ok (.defn none (.option elem)) else .error "option needs an element type"
  | .tuple, elems =>
    if elems.all Decl.isPresent then .ok (.defn none (.tuple elems))
    else .error "tuple fields cannot be empty"
  | .result, [ok] => .ok (.defn none (.result ok .absent))
  | .result, [ok, err] => .ok (.defn none (.result ok err))
  | _, args => .error ("wrong number of type arguments: " ++ Text.ofNat args.length)

def reference (former : Former) (target : Decl) : Decl :=
  match former with
  | .borrow => .defn none (.borrow target)
  | _ => .defn none (.own target)

def referenceAt (s : Scope) (former : Former) (t : Text) : Except Report (Decl × Text) := do
  let (name, rest) := splitName (skip (← expect s 60 t))
  let target ← lookup s name
  return (reference former target, ← expect s 62 rest)

mutual
/-- Reads one type and returns what follows it. `fuel` bounds the nesting. -/
def typeAt (s : Scope) : Nat → Text → Except Report (Decl × Text)
  | 0, t => .error (s.fault ("expected a type at offset " ++ s.offset (skip t)))
  | fuel + 1, t => do
    let (name, rest) := splitName (skip t)
    if name.isEmpty then
      .error (s.fault ("expected a type at offset " ++ s.offset (skip t)))
    else match Former.ofName? name with
      | none =>
        match Decl.ofWord? name with
        | some word => return (word, rest)
        | none => return (reference .own (← lookup s name), rest)
      | some .own => referenceAt s .own rest
      | some .borrow => referenceAt s .borrow rest
      | some former =>
        if former = .result && (skip rest).head? ≠ some 60 then
          return (.defn none (.result .absent .absent), rest)
        else
          let (args, rest) ← argsAt s fuel (← expect s 60 rest)
          match applied former args with
          | .ok t => return (t, rest)
          | .error detail => .error (s.fault detail)

def argsAt (s : Scope) : Nat → Text → Except Report (List Decl × Text)
  | 0, t => .error (s.fault ("expected a type at offset " ++ s.offset (skip t)))
  | fuel + 1, t => do
    let (arg, rest) ←
      if startsHole (skip t) then Except.ok (Decl.absent, (skip t).drop 1) else typeAt s fuel t
    match accept 62 rest with
    | some rest => return ([arg], rest)
    | none =>
      let (args, rest) ← argsAt s fuel (← expect s 44 rest)
      return (arg :: args, rest)
end

def parse (names : List Text) (source : Text) : Except Report Decl := do
  let s : Scope := { names, source }
  let (t, rest) ← typeAt s (2 * source.length + 1) source
  match skip rest with
  | [] => return t
  | more => .error (s.fault ("unexpected " ++ Text.quote more))

end TypeExpr

end Marshal
