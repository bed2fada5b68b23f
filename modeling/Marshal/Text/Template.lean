import Marshal.Text.Hole

/-! # Message templates

A template is a text with holes such as `%d` or `%#x`. A hole shows the next datum, or the one that an index
between brackets picks; a star takes its width or precision from the data too. Nothing fails: a hole
without a datum, an index or a width that makes no sense and data left over are all reported inside the
filled text. Left-over data are not reported once an index was used.
-/
set_option autoImplicit false
namespace Marshal
namespace Text

/-- An index between brackets, counted from one; unset if it is no number. -/
abbrev Pick := Option Nat

/-- A hole as written. Its width and precision may be taken from the data; each of these and the datum
itself may be picked by an index. An index that is followed by a number is misplaced. The verb is unset
where the template ends too early. -/
structure Directive where
  hole : Hole := {}
  widthPick : Option Pick := none
  widthTaken : Bool := false
  precisionPick : Option Pick := none
  precisionTaken : Bool := false
  datumPick : Option Pick := none
  misplaced : Bool := false
  verb : Option Char := none

inductive Piece where
  | literal (t : Text)
  | directive (d : Directive)

namespace Directive

/-- The largest width or precision that can be extended by another digit, or taken from the data. -/
def extentLimit : Nat := 1000000

def isDigit : Glyph → Bool
  | .char c => c.isDigit
  | .stray _ => false

def digitValue (g : Glyph) : Nat := g.toChar.toNat - 48

def numberOf : Nat → List Glyph → Option Nat
  | n, [] => some n
  | n, g :: gs => if n > extentLimit then none else numberOf (n * 10 + digitValue g) gs

/-- The number at the start, if there is one. After one that is too large nothing is left to read. -/
def splitNumber (gs : List Glyph) : Option Nat × List Glyph :=
  match gs.takeWhile isDigit with
  | [] => (none, gs)
  | digits =>
    match numberOf 0 digits with
    | some n => (some n, gs.dropWhile isDigit)
    | none => (none, [])

def isClosing (g : Glyph) : Bool := g = .char ']'

/-- The index at the start, if there is one. Without a closing bracket it is malformed and as long as its
opening bracket; so are two brackets at the very end. -/
def splitPick : List Glyph → Option Pick × List Glyph
  | .char '[' :: rest =>
    if rest.length < 2 || !rest.any isClosing then (some none, rest)
    else
      let inside := rest.takeWhile (!isClosing ·)
      let rest := (rest.dropWhile (!isClosing ·)).drop 1
      (some (if inside.isEmpty || !inside.all isDigit then none else numberOf 0 inside), rest)
  | gs => (none, gs)

def splitFlags : Hole → List Glyph → Hole × List Glyph
  | h, .char '#' :: gs => splitFlags { h with sharp := true } gs
  | h, .char '+' :: gs => splitFlags { h with plus := true } gs
  | h, .char '-' :: gs => splitFlags { h with minus := true } gs
  | h, .char '0' :: gs => splitFlags { h with zero := true } gs
  | h, .char ' ' :: gs => splitFlags { h with space := true } gs
  | h, gs => (h, gs)

def follows (p : Option Pick) : Bool := (p.getD none).isSome

def splitWidth (h : Hole) (gs : List Glyph) : Directive × List Glyph :=
  let (pick, gs) := splitPick gs
  match gs with
  | .char '*' :: gs => ({ hole := h, widthPick := pick, widthTaken := true }, gs)
  | gs =>
    let (width, gs) := splitNumber gs
    ({ hole := { h with width }, widthPick := pick, misplaced := follows pick && width.isSome }, gs)

def splitPrecision (d : Directive) : List Glyph → Directive × List Glyph
  | .char '.' :: gs =>
    let d := { d with misplaced := d.misplaced || (follows d.widthPick && !d.widthTaken) }
    let (pick, gs) := splitPick gs
    match gs with
    | .char '*' :: gs => ({ d with precisionPick := pick, precisionTaken := true }, gs)
    | gs =>
      let (precision, gs) := splitNumber gs
      ({ d with hole := { d.hole with precision := some (precision.getD 0) }, precisionPick := pick }, gs)
  | gs => (d, gs)

def isPicked (d : Directive) (hasPrecision : Bool) : Bool :=
  if hasPrecision then follows d.precisionPick && !d.precisionTaken
  else follows d.widthPick && !d.widthTaken

def split (gs : List Glyph) : Directive × List Glyph :=
  let (h, gs) := splitFlags {} gs
  let (d, gs) := splitWidth h gs
  let hasPrecision := gs.head? = some (.char '.')
  let (d, gs) := splitPrecision d gs
  let (pick, gs) := if d.isPicked hasPrecision then (none, gs) else splitPick gs
  let d := { d with datumPick := pick }
  match gs with
  | [] => (d, [])
  | g :: gs => ({ d with verb := some g.toChar }, gs)

end Directive

def isPercent (g : Glyph) : Bool := g = .char '%'

def piecesWithin : Nat → List Glyph → List Piece
  | 0, _ => []
  | _, [] => []
  | fuel + 1, g :: gs =>
    if isPercent g then
      let (d, rest) := Directive.split gs
      .directive d :: piecesWithin fuel rest
    else
      .literal (ofGlyphs (g :: gs.takeWhile (!isPercent ·))) ::
        piecesWithin fuel (gs.dropWhile (!isPercent ·))

def pieces (template : Text) : List Piece := piecesWithin (glyphs template).length (glyphs template)

/-- Which datum comes next, and whether any was picked by an index. -/
structure Cursor where
  next : Nat := 0
  picked : Bool := false

namespace Directive

def follow (count : Nat) (p : Option Pick) (c : Cursor) : Cursor × Bool :=
  match p with
  | none => (c, true)
  | some none => ({ c with picked := true }, false)
  | some (some n) =>
    if 1 ≤ n && n ≤ count then ({ next := n - 1, picked := true }, true)
    else ({ c with picked := true }, false)

def takeExtent (data : List Datum) (c : Cursor) : Option Int × Cursor :=
  match data[c.next]? with
  | none => (none, c)
  | some d => (d.toInt?.filter fun n => n.natAbs ≤ extentLimit, { c with next := c.next + 1 })

/-- A negative width pads on the right. -/
def withWidth (h : Hole) (n : Int) : Hole :=
  if n < 0 then { h with width := some n.natAbs, minus := true, zero := false }
  else { h with width := some n.natAbs }

def resolveWidth (data : List Datum) (d : Directive) (c : Cursor) : Hole × Text × Cursor :=
  if d.widthTaken then
    match takeExtent data c with
    | (some n, c) => (withWidth d.hole n, [], c)
    | (none, c) => (d.hole, "%!(BADWIDTH)", c)
  else (d.hole, [], c)

def resolvePrecision (data : List Datum) (d : Directive) (h : Hole) (c : Cursor) : Hole × Text × Cursor :=
  if d.precisionTaken then
    match takeExtent data c with
    | (some (.ofNat n), c) => ({ h with precision := some n }, [], c)
    | (_, c) => (h, "%!(BADPREC)", c)
  else (h, [], c)

def showDatum (data : List Datum) (h : Hole) (isPick : Bool) (verb : Char) (c : Cursor) : Text × Cursor :=
  if verb = '%' then ([37], c)
  else if !isPick then ("%!" ++ ofChar verb ++ "(BADINDEX)", c)
  else match data[c.next]? with
    | none => ("%!" ++ ofChar verb ++ "(MISSING)", c)
    | some d => (h.fill verb d, { c with next := c.next + 1 })

def fill (data : List Datum) (d : Directive) (c : Cursor) : Text × Cursor :=
  let (c, isWidthPick) := follow data.length d.widthPick c
  let (h, widthNote, c) := d.resolveWidth data c
  let (c, isPrecisionPick) := follow data.length d.precisionPick c
  let (h, precisionNote, c) := d.resolvePrecision data h c
  let (c, isDatumPick) := follow data.length d.datumPick c
  let isPick := isWidthPick && isPrecisionPick && isDatumPick && !d.misplaced
  let (shown, c) := match d.verb with
    | none => (ofString "%!(NOVERB)", c)
    | some verb => showDatum data h isPick verb c
  (widthNote ++ precisionNote ++ shown, c)

end Directive

def leftover : Datum → Text
  | .nil => "<nil>"
  | d => d.typeName ++ "=" ++ d.plain

def leftovers (data : List Datum) (c : Cursor) : Text :=
  match data.drop c.next, c.picked with
  | d :: ds, false => "%!(EXTRA " ++ join ", " ((d :: ds).map leftover) ++ ")"
  | _, _ => []

def fillPieces (data : List Datum) : List Piece → Cursor → Text
  | [], c => leftovers data c
  | .literal t :: ps, c => t ++ fillPieces data ps c
  | .directive d :: ps, c =>
    let (shown, c) := d.fill data c
    shown ++ fillPieces data ps c

def fillTemplate (template : Text) (data : List Datum) : Text := fillPieces data (pieces template) {}

end Text

end Marshal
