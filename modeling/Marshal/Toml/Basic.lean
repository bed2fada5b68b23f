import Marshal.Text.Utf8

/-! # TOML documents

A document is a tree of tables. `rows` is a list of tables that grows by one with every `[[header]]` of its
name; `array` is a list written out as a value. Of floating-point numbers and dates only the presence is
kept.
-/
set_option autoImplicit false
namespace Marshal
namespace Toml

inductive Fault where
  | encoding
  | malformed
  | redefined
  | outOfRange
  | mismatch
deriving DecidableEq, Repr

def Fault.message : Fault → Text
  | encoding => "control character or invalid UTF-8"
  | malformed => "malformed document"
  | redefined => "key has already been defined"
  | outOfRange => "number out of range"
  | mismatch => "value of another type expected"

abbrev Path := List Text

inductive Node where
  | text (t : Text)
  | integer (n : Int)
  | boolean (b : Bool)
  | other
  | array (items : List Node)
  | table (entries : List (Text × Node))
  | rows (tables : List (List (Text × Node)))

abbrev Entries := List (Text × Node)

instance : Inhabited Node := ⟨.other⟩

def isBare (c : Char) : Bool := c.isAlphanum || c = '_' || c = '-'

def escapeInKey (c : Char) : Text :=
  if c = '"' then "\\\"" else if c = '\\' then "\\\\"
  else if c = '\x08' then "\\b" else if c = '\t' then "\\t" else if c = '\n' then "\\n"
  else if c = '\x0c' then "\\f" else if c = '\r' then "\\r"
  else if c.toNat < 0x20 || c.toNat = 0x7F then "\\u" ++ Text.ofBase 16 c.toNat 4
  else Text.ofChar c

def quoteKey (name : Text) : Text :=
  let cs := Text.chars name
  if !cs.isEmpty && cs.all isBare then name else "\"" ++ cs.flatMap escapeInKey ++ "\""

def dotted (path : Path) : Text := Text.join "." (path.map quoteKey)

end Toml

end Marshal
