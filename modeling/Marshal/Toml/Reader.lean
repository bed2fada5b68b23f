import Marshal.Toml.Number

/-! # Reading TOML

From the characters of a document to its lines: table headers and assignments. Values are read here, but
nothing is said yet about keys that are defined twice. Each reader returns the characters that follow what it
read. Loops carry a `fuel` that is the number of characters
left at their start, which they cannot exceed.
-/
set_option autoImplicit false
namespace Marshal
namespace Toml

inductive Term where
  | text (t : Text)
  | integer (n : Int)
  | boolean (b : Bool)
  | other
  | array (items : List Term)
  | inline (pairs : List (Path × Term))

/-- A line of a document, which may run over several lines of text. -/
inductive Line where
  | table (path : Path)
  | tables (path : Path)
  | assign (path : Path) (value : Term)

def isBlankChar (c : Char) : Bool := c = ' ' || c = '\t'
def isBreak (c : Char) : Bool := c = '\n' || c = '\r'
def isVoid (c : Char) : Bool := isBlankChar c || isBreak c

def skipBlanks (cs : List Char) : List Char := cs.dropWhile isBlankChar

def skipVoid (inComment : Bool) : List Char → List Char
  | [] => []
  | c :: rest =>
    if inComment then skipVoid (!isBreak c) rest
    else if isVoid c then skipVoid false rest
    else if c = '#' then skipVoid true rest
    else c :: rest

def charOfHex (digits : List Char) : Except Fault Char :=
  let n := valueInBase 16 digits
  if digits.all isHex && n.isValidChar then .ok (Char.ofNat n) else .error .malformed

def codePoint (n : Nat) (cs : List Char) : Except Fault (Char × List Char) := do
  if cs.length < n then throw .malformed
  return (← charOfHex (cs.take n), cs.drop n)

def escape : List Char → Except Fault (Char × List Char)
  | 'b' :: rest => .ok ('\x08', rest)
  | 't' :: rest => .ok ('\t', rest)
  | 'n' :: rest => .ok ('\n', rest)
  | 'f' :: rest => .ok ('\x0c', rest)
  | 'r' :: rest => .ok ('\r', rest)
  | 'e' :: rest => .ok ('\x1b', rest)
  | '"' :: rest => .ok ('"', rest)
  | '\\' :: rest => .ok ('\\', rest)
  | 'x' :: rest => codePoint 2 rest
  | 'u' :: rest => codePoint 4 rest
  | 'U' :: rest => codePoint 8 rest
  | _ => .error .malformed

def push (c : Char) (next : Except Fault (List Char × List Char)) :
    Except Fault (List Char × List Char) := do
  let (cs, rest) ← next
  return (c :: cs, rest)

def basicString : Nat → List Char → Except Fault (List Char × List Char)
  | 0, _ => .error .malformed
  | _, [] => .error .malformed
  | fuel + 1, c :: rest =>
    if c = '"' then .ok ([], rest)
    else if c = '\\' then do
      let (e, rest) ← escape rest
      push e (basicString fuel rest)
    else if isBreak c then .error .malformed
    else push c (basicString fuel rest)

def literalString : List Char → Except Fault (List Char × List Char)
  | [] => .error .malformed
  | c :: rest =>
    if c = '\'' then .ok ([], rest)
    else if isBreak c then .error .malformed
    else push c (literalString rest)

def dropBreak : List Char → List Char
  | '\n' :: rest => rest
  | '\r' :: '\n' :: rest => rest
  | cs => cs

/-- The rest of a string between triple single quotes; `run` is how many quotes stand right before. Up to
two quotes may precede the closing ones. -/
def longLiteral (run : Nat) : List Char → Except Fault (List Char × List Char)
  | [] => .error .malformed
  | c :: rest =>
    if c = '\'' then
      match rest with
      | '\'' :: '\'' :: more =>
        if more.head? = some '\'' then
          if run ≥ 2 then .error .malformed else push c (longLiteral (run + 1) rest)
        else .ok ([], more)
      | _ => push c (longLiteral (run + 1) rest)
    else push c (longLiteral 0 rest)

/-- The rest of a string between triple double quotes. A backslash at the end of a line takes with it all
white space up to the next character. `run` is how many quotes stand right before, escaped ones included,
and `slash` whether a backslash stands before them. -/
def longString : Nat → Nat → Bool → List Char → Except Fault (List Char × List Char)
  | 0, _, _, _ => .error .malformed
  | _, _, _, [] => .error .malformed
  | fuel + 1, run, slash, c :: rest =>
    if c = '"' then
      match rest with
      | '"' :: '"' :: more =>
        if more.head? = some '"' then
          if run ≥ 2 && !(run = 2 && slash) then .error .malformed
          else push c (longString fuel (run + 1) slash rest)
        else .ok ([], more)
      | _ => push c (longString fuel (run + 1) slash rest)
    else if c = '\\' then
      if (rest.takeWhile isVoid).any isBreak then longString fuel 0 false (rest.dropWhile isVoid)
      else do
        let (e, more) ← escape rest
        if rest.head? = some '"' then push e (longString fuel 1 true more)
        else push e (longString fuel 0 (rest.head? = some '\\') more)
    else push c (longString fuel 0 false rest)

def keyName : List Char → Except Fault (Text × List Char)
  | [] => .error .malformed
  | '"' :: rest => do
    let (cs, rest) ← basicString (rest.length + 1) rest
    return (Text.ofChars cs, rest)
  | '\'' :: rest => do
    let (cs, rest) ← literalString rest
    return (Text.ofChars cs, rest)
  | c :: rest =>
    if isBare c then .ok (Text.ofChars (c :: rest.takeWhile isBare), rest.dropWhile isBare)
    else .error .malformed

def keyPath (close : Char) : Nat → List Char → Except Fault (Path × List Char)
  | 0, _ => .error .malformed
  | fuel + 1, cs => do
    let (name, rest) ← keyName (skipBlanks cs)
    match skipBlanks rest with
    | [] => .error .malformed
    | c :: rest =>
      if c = close then return ([name], rest)
      else if c = '.' then do
        let (names, rest) ← keyPath close fuel rest
        return (name :: names, rest)
      else .error .malformed

def isFloatChar (c : Char) : Bool :=
  c.isDigit || c = '_' || c = '.' || c = '-' || c = '+' || isExponentMark c

def isDateChar (c : Char) : Bool :=
  c.isDigit || c = '-' || c = ':' || c = 'T' || c = 't' || c = ' ' || c = '.' || c = 'Z' || c = 'z' || c = '+'

def normalDate (cs : List Char) : List Char :=
  (cs.reverse.dropWhile (· = ' ')).reverse.map fun c =>
    if c = 't' || c = ' ' then 'T' else if c = 'z' then 'Z' else c

def decimal (negative : Bool) (cs : List Char) : Except Fault (Term × List Char) := do
  let digits := cs.takeWhile fun c => c.isDigit || c = '_'
  let rest := cs.dropWhile fun c => c.isDigit || c = '_'
  match rest with
  | c :: _ =>
    if c = '.' || isExponentMark c then
      checkFloat (cs.takeWhile isFloatChar)
      return (.other, cs.dropWhile isFloatChar)
    else return (.integer (← decimalInteger negative digits), rest)
  | [] => return (.integer (← decimalInteger negative digits), rest)

def based (base : Nat) (isDigit : Char → Bool) (cs : List Char) : Except Fault (Term × List Char) := do
  let fits := fun c => isDigit c || c = '_'
  return (.integer (← basedInteger base (cs.takeWhile fits)), cs.dropWhile fits)

def numberOrDate (cs : List Char) : Except Fault (Term × List Char) :=
  let rest := cs.dropWhile Char.isDigit
  match cs, rest.head? with
  | '0' :: 'x' :: digits, _ => based 16 isHex digits
  | '0' :: 'o' :: digits, _ => based 8 isOctal digits
  | '0' :: 'b' :: digits, _ => based 2 isBinary digits
  | _, some c =>
    if c = '-' || c = ':' then
      if isDatetime (normalDate (cs.takeWhile isDateChar)) then .ok (.other, cs.dropWhile isDateChar)
      else .error .malformed
    else decimal false cs
  | _, none => decimal false cs

def signedNumber (negative : Bool) : List Char → Except Fault (Term × List Char)
  | 'i' :: 'n' :: 'f' :: rest => .ok (.other, rest)
  | 'n' :: 'a' :: 'n' :: rest => .ok (.other, rest)
  | c :: rest => if c.isDigit then decimal negative (c :: rest) else .error .malformed
  | [] => .error .malformed

def scalar : List Char → Except Fault (Term × List Char)
  | '"' :: '"' :: '"' :: rest => do
    let rest := dropBreak rest
    let (cs, rest) ← longString (rest.length + 1) 0 false rest
    return (.text (Text.ofChars cs), rest)
  | '"' :: rest => do
    let (cs, rest) ← basicString (rest.length + 1) rest
    return (.text (Text.ofChars cs), rest)
  | '\'' :: '\'' :: '\'' :: rest => do
    let (cs, rest) ← longLiteral 0 (dropBreak rest)
    return (.text (Text.ofChars cs), rest)
  | '\'' :: rest => do
    let (cs, rest) ← literalString rest
    return (.text (Text.ofChars cs), rest)
  | 't' :: 'r' :: 'u' :: 'e' :: rest => .ok (.boolean true, rest)
  | 'f' :: 'a' :: 'l' :: 's' :: 'e' :: rest => .ok (.boolean false, rest)
  | 'i' :: 'n' :: 'f' :: rest => .ok (.other, rest)
  | 'n' :: 'a' :: 'n' :: rest => .ok (.other, rest)
  | '+' :: rest => signedNumber false rest
  | '-' :: rest => signedNumber true rest
  | c :: rest => if c.isDigit then numberOrDate (c :: rest) else .error .malformed
  | [] => .error .malformed

mutual
def term : Nat → List Char → Except Fault (Term × List Char)
  | 0, _ => .error .malformed
  | fuel + 1, cs =>
    match skipBlanks cs with
    | '[' :: rest => do
      let (items, rest) ← arrayItems fuel rest
      return (.array items, rest)
    | '\x7b' :: rest => do
      let (pairs, rest) ← inlinePairs fuel rest
      return (.inline pairs, rest)
    | cs => scalar cs

/-- The items of an array up to its closing bracket. A comma may follow the last one. -/
def arrayItems : Nat → List Char → Except Fault (List Term × List Char)
  | 0, _ => .error .malformed
  | fuel + 1, cs =>
    match skipVoid false cs with
    | ']' :: rest => .ok ([], rest)
    | cs => do
      let (item, rest) ← term fuel cs
      match skipVoid false rest with
      | ',' :: rest =>
        let (items, rest) ← arrayItems fuel rest
        return (item :: items, rest)
      | ']' :: rest => return ([item], rest)
      | _ => .error .malformed

def inlinePairs : Nat → List Char → Except Fault (List (Path × Term) × List Char)
  | 0, _ => .error .malformed
  | fuel + 1, cs =>
    match skipVoid false cs with
    | '\x7d' :: rest => .ok ([], rest)
    | cs => do
      let (path, rest) ← keyPath '=' (cs.length + 1) cs
      let (value, rest) ← term fuel rest
      match skipVoid false rest with
      | ',' :: rest =>
        let (pairs, rest) ← inlinePairs fuel rest
        return ((path, value) :: pairs, rest)
      | '\x7d' :: rest => return ([(path, value)], rest)
      | _ => .error .malformed
end

def line : List Char → Except Fault (Line × List Char)
  | '[' :: '[' :: rest => do
    let (path, rest) ← keyPath ']' (rest.length + 1) rest
    match rest with
    | ']' :: rest => return (.tables path, rest)
    | _ => .error .malformed
  | '[' :: rest => do
    let (path, rest) ← keyPath ']' (rest.length + 1) rest
    return (.table path, rest)
  | cs => do
    let (path, rest) ← keyPath '=' (cs.length + 1) cs
    let (value, rest) ← term (2 * rest.length + 2) rest
    return (.assign path value, rest)

def isLineEnd (cs : List Char) : Bool :=
  match skipBlanks cs with
  | [] => true
  | c :: _ => isBreak c || c = '#'

def linesWithin : Nat → List Char → Except Fault (List Line)
  | 0, _ => .error .malformed
  | fuel + 1, cs =>
    match skipVoid false cs with
    | [] => .ok []
    | cs => do
      let (first, rest) ← line cs
      if isLineEnd rest then
        let others ← linesWithin fuel rest
        return first :: others
      else .error .malformed

def dropMark : Text → Text
  | 0xFF :: 0xFE :: rest => rest
  | 0xFE :: 0xFF :: rest => rest
  | 0xEF :: 0xBB :: 0xBF :: rest => rest
  | t => t

/-- No control characters but tabs and line breaks, and a carriage return only before a line feed. -/
def isClean : List Char → Bool
  | [] => true
  | c :: rest =>
    (if c = '\r' then rest.head? = some '\n'
      else c = '\t' || c = '\n' || (0x20 ≤ c.toNat && c.toNat ≠ 0x7F)) && isClean rest

def characters (t : Text) : Except Fault (List Char) :=
  let t := dropMark t
  if Text.isUtf8 t && isClean (Text.chars t) then .ok (Text.chars t) else .error .encoding

def lines (t : Text) : Except Fault (List Line) := do
  let cs ← characters t
  linesWithin (cs.length + 1) cs

end Toml

end Marshal
