import Marshal.Text.Blank
import Marshal.TypeExpr

/-! # Function signatures

A signature is written `name: func(a: T, b: U) -> R`, with an optional semicolon at the end. Without the
arrow, or with `()` after it, the function has no result. Parameters are separated by the commas that
stand outside all brackets; an empty one is left out.
-/
set_option autoImplicit false
namespace Marshal

structure Param where
  name : Text
  written : Text
  type : Decl

/-- A function with its parameters in order; `result` is absent if it returns nothing. -/
structure Signature where
  name : Text
  params : List Param
  result : Decl
  resultWritten : Text

namespace Signature

structure Shape where
  name : Text
  params : Text
  result : Text

def isGap (b : UInt8) : Bool := b = 9 || b = 10 || b = 12 || b = 13 || b = 32

def skipGap (t : Text) : Text := t.dropWhile isGap

def after? (lead t : Text) : Option Text :=
  if lead.isPrefixOf t then some (t.drop lead.length) else none

def isNameStart (b : UInt8) : Bool := TypeExpr.isLetter b && b ≠ 45

def splitName? : Text → Option (Text × Text)
  | [] => none
  | b :: rest =>
    if isNameStart b then
      some (b :: rest.takeWhile TypeExpr.isNameByte, rest.dropWhile TypeExpr.isNameByte)
    else none

def isEnd (t : Text) : Bool :=
  match skipGap t with
  | [] => true
  | b :: rest => b = 59 && (skipGap rest).isEmpty

/-- The shortest non-empty part of one line after which the signature can end. -/
def upToEnd : Text → Option Text
  | [] => none
  | b :: rest =>
    if b = 10 then none
    else if isEnd rest then some [b]
    else (upToEnd rest).map (b :: ·)

/-- The text of the result type, empty without one. An arrow has to be followed by something on its
line, if only by a blank. -/
def resultText? (t : Text) : Option Text :=
  match after? "->" t with
  | none => if isEnd t then some [] else none
  | some body =>
    match skipGap body with
    | [] => if body.any (· ≠ 10) then some [] else none
    | b :: rest => upToEnd (b :: rest)

def Shape.ofText? (t : Text) : Option Shape := do
  let (name, t) ← splitName? (skipGap t)
  let t ← after? ":" (skipGap t)
  let t ← after? "func" (skipGap t)
  let t ← after? "(" (skipGap t)
  let params := t.takeWhile (· ≠ 41)
  let t ← after? ")" (t.dropWhile (· ≠ 41))
  let result ← resultText? (skipGap t)
  return { name, params, result }

def nesting (c : Char) : Int :=
  if c = '(' || c = '<' then 1 else if c = ')' || c = '>' then -1 else 0

/-- The pieces between the commas at depth zero; never empty. -/
def splitCommas : Int → List Char → List (List Char)
  | _, [] => [[]]
  | depth, c :: rest =>
    if c = ',' && depth = 0 then [] :: splitCommas depth rest
    else
      match splitCommas (depth + nesting c) rest with
      | [] => [[c]]
      | piece :: pieces => (c :: piece) :: pieces

def splitParams (t : Text) : List Text :=
  ((splitCommas 0 (Text.chars t)).map fun piece => Text.trim (Text.ofChars piece)).filter
    fun part => !part.isEmpty

def readType (names : List Text) (what written : Text) : Except Failure Decl :=
  (TypeExpr.parse names written).mapError fun r =>
    .wrap .plan .invalidData (.report r) ("parse " ++ what ++ " type " ++ written)

/-- Reads parameters; `seen` are the names already taken. -/
def readParams (names : List Text) (function : Text) : List Text → List Text → Except Failure (List Param)
  | _, [] => .ok []
  | seen, part :: parts => do
    if part.all (· ≠ 58) then
      throw (.report (.invalidInput .plan ("parameter without a type: " ++ part)))
    let name := Text.trim (part.takeWhile (· ≠ 58))
    let written := Text.trim ((part.dropWhile (· ≠ 58)).drop 1)
    if name.isEmpty || seen.contains name then
      throw (.report (.invalidInput .plan ("bad or duplicate parameter name in " ++ function)))
    let type ← readType names "param" written
    let rest ← readParams names function (name :: seen) parts
    return { name, written, type } :: rest

def readResult (names : List Text) (t : Text) : Except Failure (Decl × Text) := do
  let written := Text.trim t
  if written.isEmpty || written = Text.ofString "()" then return (.absent, [])
  return (← readType names "result" written, written)

def parse (names : List Text) (t : Text) : Except Failure Signature := do
  match Shape.ofText? t with
  | none =>
    .error (.report (.invalidData .plan [] ("not a function signature: " ++ Text.quote t)))
  | some shape =>
    let params ← readParams names shape.name [] (splitParams (Text.trim shape.params))
    let (result, resultWritten) ← readResult names shape.result
    return { name := shape.name, params, result, resultWritten }

end Signature

end Marshal
