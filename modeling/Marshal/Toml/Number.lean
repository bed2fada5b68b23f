import Marshal.Toml.Basic

/-! # Numbers and dates in TOML

Which words are integers, floating-point numbers and dates. Underscores stand only between digits, decimal
numbers have no superfluous leading zero, integers fit 64 bits, and a floating-point number must not round
to infinity.
-/
set_option autoImplicit false
namespace Marshal
namespace Toml

def isOctal (c : Char) : Bool := '0' ≤ c && c ≤ '7'
def isBinary (c : Char) : Bool := c = '0' || c = '1'
def isHex (c : Char) : Bool := c.isDigit || ('a' ≤ c && c ≤ 'f') || ('A' ≤ c && c ≤ 'F')

def digitValue (c : Char) : Nat :=
  if c.isDigit then c.toNat - 48 else if 'a' ≤ c then c.toNat - 87 else c.toNat - 55

def valueInBase (base : Nat) (cs : List Char) : Nat :=
  cs.foldl (fun n c => if c = '_' then n else n * base + digitValue c) 0

def underscoresFit : Bool → List Char → Bool
  | digitBefore, [] => digitBefore
  | digitBefore, c :: rest =>
    if c = '_' then digitBefore && underscoresFit false rest else underscoresFit true rest

def isDigits (cs : List Char) : Bool :=
  cs.all (fun c => c.isDigit || c = '_') && underscoresFit false cs

def hasLeadingZero : List Char → Bool
  | '0' :: _ :: _ => true
  | _ => false

def isUnsigned (cs : List Char) : Bool := isDigits cs && !hasLeadingZero cs

def fitInteger (n : Int) : Except Fault Int :=
  if -0x8000000000000000 ≤ n && n < 0x8000000000000000 then .ok n else .error .outOfRange

def decimalInteger (negative : Bool) (digits : List Char) : Except Fault Int :=
  if isUnsigned digits then
    let n : Int := valueInBase 10 digits
    fitInteger (if negative then -n else n)
  else .error .malformed

def basedInteger (base : Nat) (digits : List Char) : Except Fault Int :=
  if underscoresFit false digits then fitInteger (valueInBase base digits) else .error .malformed

/-- The least real number that rounds to infinity. -/
def floatLimit : Nat := Nat.pow 2 1024 - Nat.pow 2 970

/-- Whether `mantissa · 10 ^ exponent` is below the limit. Exponents far from the limit are decided by the
number of digits alone. -/
def isFinite (mantissa : Nat) (exponent : Int) : Bool :=
  if mantissa = 0 then true
  else
    let digits : Int := (Nat.toDigits 10 mantissa).length
    if digits + exponent > 310 then false
    else if digits + exponent < 300 then true
    else if 0 ≤ exponent then decide (mantissa * Nat.pow 10 exponent.toNat < floatLimit)
    else decide (mantissa < floatLimit * Nat.pow 10 (-exponent).toNat)

def dropSign : List Char → List Char
  | '+' :: rest => rest
  | '-' :: rest => rest
  | cs => cs

def isExponentMark (c : Char) : Bool := c = 'e' || c = 'E'

/-- A word of digits, signs, points, underscores and exponent marks, without its sign, is a number. -/
def checkFloat (cs : List Char) : Except Fault Unit :=
  let significand := cs.takeWhile fun c => !isExponentMark c
  let exponent := (cs.dropWhile fun c => !isExponentMark c).drop 1
  let whole := significand.takeWhile (· ≠ '.')
  let fraction := (significand.dropWhile (· ≠ '.')).drop 1
  let hasPoint := significand.contains '.'
  let hasMark := cs.any isExponentMark
  if isUnsigned whole && (!hasPoint || isDigits fraction) && (!hasMark || isDigits (dropSign exponent)) then
    let size : Int := valueInBase 10 (dropSign exponent)
    let size := if exponent.head? = some '-' then -size else size
    let places : Int := (fraction.filter Char.isDigit).length
    if isFinite (valueInBase 10 (whole ++ fraction)) (size - places) then .ok () else .error .outOfRange
  else .error .malformed

def twoDigits : List Char → Option (Nat × List Char)
  | a :: b :: rest => if a.isDigit && b.isDigit then some (valueInBase 10 [a, b], rest) else none
  | _ => none

def afterChar (c : Char) : List Char → Option (List Char)
  | a :: rest => if a = c then some rest else none
  | [] => none

def daysIn (year month : Nat) : Nat :=
  if month = 2 then
    if year % 4 = 0 && (year % 100 ≠ 0 || year % 400 = 0) then 29 else 28
  else if month = 4 || month = 6 || month = 9 || month = 11 then 30 else 31

def afterDate (cs : List Char) : Option (List Char) := do
  let (century, cs) ← twoDigits cs
  let (inCentury, cs) ← twoDigits cs
  let (month, cs) ← twoDigits (← afterChar '-' cs)
  let (day, cs) ← twoDigits (← afterChar '-' cs)
  if 1 ≤ month && month ≤ 12 && 1 ≤ day && day ≤ daysIn (century * 100 + inCentury) month then some cs
  else none

def afterFraction : List Char → List Char
  | '.' :: c :: rest => if c.isDigit then rest.dropWhile Char.isDigit else '.' :: c :: rest
  | cs => cs

/-- What follows a time of day. The seconds may be left out. -/
def afterTime (cs : List Char) : Option (List Char) := do
  let (hour, cs) ← twoDigits cs
  let (minute, cs) ← twoDigits (← afterChar ':' cs)
  if hour ≥ 24 || minute ≥ 60 then none
  match cs with
  | ':' :: cs =>
    let (second, cs) ← twoDigits cs
    if second ≥ 60 then none else some (afterFraction cs)
  | cs => some cs

/-- What follows the distance from universal time: hours up to 24, minutes up to 60. -/
def afterZone : List Char → Option (List Char)
  | 'Z' :: rest => some rest
  | c :: rest => do
    if c ≠ '+' && c ≠ '-' then none
    let (hour, cs) ← twoDigits rest
    let (minute, cs) ← twoDigits (← afterChar ':' cs)
    if hour > 24 || minute > 60 then none else some cs
  | [] => none

def isDatetime (cs : List Char) : Bool :=
  match afterDate cs with
  | some [] => true
  | some ('T' :: rest) =>
    match afterTime rest with
    | some [] => true
    | some rest => afterZone rest = some []
    | none => false
  | some _ => false
  | none => afterTime cs = some []

end Toml

end Marshal
