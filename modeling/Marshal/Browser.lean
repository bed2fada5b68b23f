import Marshal.Plan.Render
import Marshal.Text.Blank
import Marshal.Text.Lower

/-! # Browsing a plan

A browser lists the functions whose name contains the filter text, with one of them selected, or shows the
details of the selected one. Keys go by their names; a key with any other name goes to the component in which the
filter is typed, a line of text as a rule.
-/
set_option autoImplicit false
namespace Marshal

/-- A line of text with a cursor between what stands before and after it. -/
structure InputLine where
  before : List Char := []
  after : List Char := []

namespace InputLine

def chars (l : InputLine) : List Char := l.before ++ l.after

def text (l : InputLine) : Text := Text.ofChars l.chars

/-- What typing a character leaves in the line: blanks stand for tabs and line breaks, and other control
characters are dropped. -/
def typed (c : Char) : List Char :=
  if c = '\t' || c = '\n' || c = '\r' then [' ']
  else if c.toNat < 0x20 || (0x7F ≤ c.toNat && c.toNat < 0xA0) || c = '�' then []
  else [c]

def insert (l : InputLine) (cs : List Char) : InputLine := { l with before := l.before ++ cs.flatMap typed }

def left (l : InputLine) : InputLine :=
  match l.before.getLast? with
  | none => l
  | some c => { before := l.before.dropLast, after := c :: l.after }

def right (l : InputLine) : InputLine :=
  match l.after with
  | [] => l
  | c :: rest => { before := l.before ++ [c], after := rest }

def home (l : InputLine) : InputLine := { after := l.chars }
def finish (l : InputLine) : InputLine := { before := l.chars }
def backspace (l : InputLine) : InputLine := { l with before := l.before.dropLast }
def delete (l : InputLine) : InputLine := { l with after := l.after.drop 1 }

def withoutWord (cs : List Char) : List Char :=
  ((cs.reverse.dropWhile Text.isBlank).dropWhile (!Text.isBlank ·)).reverse

def wordLeft (l : InputLine) : InputLine :=
  let kept := withoutWord l.before
  { before := kept, after := l.before.drop kept.length ++ l.after }

def wordRight (l : InputLine) : InputLine :=
  let rest := (l.after.dropWhile Text.isBlank).dropWhile (!Text.isBlank ·)
  { before := l.before ++ l.after.take (l.after.length - rest.length), after := rest }

/-- Deletes the word before the cursor. A lone blank at the start of the line goes with it. -/
def deleteWordLeft (l : InputLine) : InputLine :=
  match withoutWord l.before with
  | [_] => { l with before := [] }
  | kept => { l with before := kept }

/-- Deletes the character after the cursor, and the word behind it with the blanks in between. -/
def deleteWordRight (l : InputLine) : InputLine :=
  { l with after := ((l.after.drop 1).dropWhile Text.isBlank).dropWhile (!Text.isBlank ·) }

def edits : List (List Text × (InputLine → InputLine)) :=
  [(["backspace", "ctrl+h"], backspace), (["left", "ctrl+b"], left), (["right", "ctrl+f"], right),
    (["home", "ctrl+a"], home), (["delete", "ctrl+d"], delete), (["end", "ctrl+e"], finish),
    (["alt+left", "ctrl+left", "alt+b"], wordLeft), (["alt+right", "ctrl+right", "alt+f"], wordRight),
    (["alt+backspace", "ctrl+w"], deleteWordLeft), (["alt+delete", "alt+d"], deleteWordRight),
    (["ctrl+k"], fun l => { l with after := [] }), (["ctrl+u"], fun l => { l with before := [] }),
    (["ctrl+v", "ctrl+n", "ctrl+p"], id)]

def press (l : InputLine) (key : Text) : InputLine :=
  match edits.find? fun e => e.1.contains key with
  | some e => e.2 l
  | none => l.insert (Text.chars key)

end InputLine

/-- A component in which text is typed: every key has a name, and after any of them there is some text. -/
class TextInput (ι : Type) (κ : outParam Type) where
  keyName : κ → Text
  press : ι → κ → ι
  text : ι → Text

/-- Keys of a line are their names. -/
instance : TextInput InputLine Text where
  keyName := id
  press := InputLine.press
  text := InputLine.text

inductive BrowserMode where
  | browse
  | detail
deriving DecidableEq, Repr

def BrowserMode.name : BrowserMode → Text
  | browse => "browse"
  | detail => "detail"

/-- `visible` are the places, in the plan, of the functions listed, and `selected` a place among them. -/
structure PlanBrowser (ι : Type) where
  plan : Plan
  filter : ι
  visible : List Nat := []
  selected : Nat := 0
  mode : BrowserMode := .browse

namespace PlanBrowser

variable {ι κ : Type} [TextInput ι κ]

def isListed (filter : Text) (f : FunctionPlan) : Bool :=
  (Text.lower f.name).contains (Text.lower (Text.trim filter))

def listed (filter : Text) (index : Nat) : List FunctionPlan → List Nat
  | [] => []
  | f :: rest =>
    if isListed filter f then index :: listed filter (index + 1) rest else listed filter (index + 1) rest

def refilter (b : PlanBrowser ι) : PlanBrowser ι :=
  let visible := listed (TextInput.text b.filter) 0 b.plan.functionList
  { b with visible, selected := min b.selected (visible.length - 1) }

def create (plan : Plan) (filter : ι) : PlanBrowser ι := refilter { plan, filter }

def current? (b : PlanBrowser ι) : Option FunctionPlan := do
  b.plan.functionList[← b.visible[b.selected]?]?

def type (b : PlanBrowser ι) (key : κ) : PlanBrowser ι :=
  match b.mode with
  | .browse => refilter { b with filter := TextInput.press b.filter key }
  | .detail => b

def press (b : PlanBrowser ι) (key : κ) : PlanBrowser ι × Bool :=
  let name := TextInput.keyName ι key
  let browsing := b.mode = .browse
  if name = Text.ofString "ctrl+c" then (b, true)
  else if name = Text.ofString "up" then
    (if browsing then { b with selected := b.selected - 1 } else b, false)
  else if name = Text.ofString "down" then
    (if browsing && b.selected + 1 < b.visible.length then { b with selected := b.selected + 1 } else b, false)
  else if name = Text.ofString "enter" then
    (if browsing && b.current?.isSome then { b with mode := .detail } else b, false)
  else if name = Text.ofString "esc" then
    if browsing then (b, true) else ({ b with mode := .browse }, false)
  else if name = Text.ofString "q" && !browsing then (b, true)
  else (b.type key, false)

/-- A block in one style: tabs are four blanks, and all its lines are as wide as the widest. -/
def block (t : Text) : Text :=
  let cs := (Text.chars t).flatMap fun c => if c = '\t' then [' ', ' ', ' ', ' '] else [c]
  let lines := Text.splitOn 10 (Text.ofChars cs)
  let width := (lines.map fun l => (Text.chars l).length).foldl max 0
  Text.join "\n" (lines.map fun l => l ++ List.replicate (width - (Text.chars l).length) 32)

def listLines (functions : List FunctionPlan) (selected index : Nat) : List Nat → Text
  | [] => []
  | place :: rest =>
    let line := (functions[place]?.getD {}).summary
    (if index = selected then block (">" ++ line.drop 1) else line) ++ "\n" ++
      listLines functions selected (index + 1) rest

def view (b : PlanBrowser ι) (input : Text) : Text :=
  " Bridge plan " ++ (if b.plan.name.isEmpty then [] else " " ++ b.plan.name : Text) ++ "\n\n" ++
    match b.mode with
    | .browse =>
      input ++ "\n\n" ++ (if b.visible.isEmpty then "  no matching functions\n" else [] : Text) ++
        listLines b.plan.functionList b.selected 0 b.visible ++ "\n" ++
        "type to filter • ↑/↓ select • enter details • esc quit"
    | .detail => (b.current?.getD {}).detail ++ "\n" ++ "esc back • q quit"

end PlanBrowser

abbrev Browser := PlanBrowser InputLine

def Browser.create (plan : Plan) : Browser := PlanBrowser.create plan {}

end Marshal
