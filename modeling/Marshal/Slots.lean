import Marshal.Failure
import Marshal.Layout

/-! # Slot lists

A value passed flat is a list of 64-bit slots. `Decl.width` is the number of slots a type takes,
`Decl.flatten` lowers a datum into that many, and `Decl.unflatten` lifts it back and returns the slots
it did not read.

A tuple or record is its fields in order. An absent option is all zeros; a present one is a one followed
by its value, except that an optional reference is the address itself, null when absent.
-/
set_option autoImplicit false
namespace Marshal

abbrev Slots := List UInt64

mutual
def Decl.width : Decl → Nat
  | .absent => 0
  | .prim _ => 1
  | .string => 2
  | .errorContext => 1
  | .defn _ kind => kind.width

def Kind.width : Kind → Nat
  | .record fields => fieldsWidth fields
  | .tuple elems => elemsWidth elems
  | .option elem => if elem.isReference then 1 else 1 + elem.width
  | .result ok err => 1 + max ok.width err.width
  | .variant cases => 1 + casesWidth cases
  | .alias target => target.width
  | .list _ => 1
  | .own _ => 1
  | .borrow _ => 1
  | .resource => 1
  | .enum _ => 1
  | .flags _ => 1
  | .stream _ => 1
  | .future _ => 1
  | .unspecified => 1

def elemsWidth : List Decl → Nat
  | [] => 0
  | t :: ts => t.width + elemsWidth ts

def fieldsWidth : List (Text × Decl) → Nat
  | [] => 0
  | f :: fs => fieldWidth f + fieldsWidth fs

def casesWidth : List (Text × Decl) → Nat
  | [] => 0
  | c :: cs => max (fieldWidth c) (casesWidth cs)

def fieldWidth : Text × Decl → Nat
  | (_, t) => t.width
end

def boolSlot (b : Bool) : UInt64 := if b then 1 else 0

def Primitive.toSlot? : Primitive → Datum → Option UInt64
  | bool, .bool b => some (boolSlot b)
  | u8, .u8 n => some n.toUInt64
  | u16, .u16 n => some n.toUInt64
  | u32, .u32 n => some n.toUInt64
  | u64, .u64 n => some n
  | s8, .i8 n => some n.toInt64.toUInt64
  | s16, .i16 n => some n.toInt64.toUInt64
  | s32, .i32 n => some n.toInt64.toUInt64
  | s64, .i64 n => some n.toUInt64
  | f32, .f32 bits => some bits.toUInt64
  | f64, .f64 bits => some bits
  | char, .i32 n => some n.toUInt32.toUInt64
  | _, _ => none

/-- The scalar in a slot. Only a truth value can be out of range; other scalars take the low bits. -/
def Primitive.ofSlot (s : UInt64) (path : List Text) : Primitive → Except Report Datum
  | bool =>
    if s > 1 then .error (.invalidData .decode path "bool slot must be 0 or 1")
    else .ok (.bool (s = 1))
  | u8 => .ok (.u8 s.toUInt8)
  | u16 => .ok (.u16 s.toUInt16)
  | u32 => .ok (.u32 s.toUInt32)
  | u64 => .ok (.u64 s)
  | s8 => .ok (.i8 s.toUInt8.toInt8)
  | s16 => .ok (.i16 s.toUInt16.toInt16)
  | s32 => .ok (.i32 s.toUInt32.toInt32)
  | s64 => .ok (.i64 s.toInt64)
  | f32 => .ok (.f32 s.toUInt32)
  | f64 => .ok (.f64 s)
  | char => .ok (.i32 s.toUInt32.toInt32)

def Datum.toAddress? : Datum → Option UInt32
  | .u32 n => some n
  | _ => none

def fieldCountMismatch (path : List Text) (want have_ : Nat) : Report :=
  { phase := .encode, kind := .invalidInput, path,
    detail := "expected " ++ Text.ofNat want ++ " fields, got " ++ Text.ofNat have_ }

def flattenReference (path : List Text) (label : Text) (v : Datum) : Except Report Slots :=
  match v.toAddress? with
  | some a => .ok [a.toUInt64]
  | none => .error (.typeMismatch .encode path v.typeName label)

def someField : Text := "some"

mutual
def Decl.flattenAt (path : List Text) : Decl → Datum → Except Report Slots
  | .prim p, v =>
    match p.toSlot? v with
    | some s => .ok [s]
    | none => .error (.typeMismatch .encode path v.typeName p.label)
  | .string, v =>
    match v with
    | .view start len => .ok [start.toUInt64, len.toUInt64]
    | v => .error (.typeMismatch .encode path v.typeName (Decl.label .string))
  | .defn name kind, v => kind.flattenAt path (kind.labelOr name) v
  | .absent, _ => .error (.unsupported .encode ("flattening " ++ Decl.label .absent))
  | .errorContext, _ => .error (.unsupported .encode ("flattening " ++ Decl.label .errorContext))

def Kind.flattenAt (path : List Text) (label : Text) : Kind → Datum → Except Report Slots
  | .list _, v => flattenReference path label v
  | .own _, v => flattenReference path label v
  | .borrow _, v => flattenReference path label v
  | .resource, v => flattenReference path label v
  | .option elem, v =>
    match v with
    | .nil => .ok (List.replicate (if elem.isReference then 1 else 1 + elem.width) 0)
    | v =>
      if elem.isReference then elem.flattenAt path v
      else (elem.flattenAt (path ++ [someField]) v).map (1 :: ·)
  | .tuple elems, v =>
    match v with
    | .list items =>
      if items.length = elems.length then flattenElems path 0 elems items
      else .error (fieldCountMismatch path elems.length items.length)
    | v => .error (.typeMismatch .encode path v.typeName label)
  | .record fields, v =>
    match v with
    | .list items =>
      if items.length = fields.length then flattenFields path fields items
      else .error (fieldCountMismatch path fields.length items.length)
    | v => .error (.typeMismatch .encode path v.typeName label)
  | .enum cases, v =>
    match v with
    | .u32 n =>
      if n.toNat < cases then .ok [n.toUInt64]
      else .error (.outOfBounds .encode path (Int64.ofNat n.toNat) (Int64.ofNat cases))
    | v => .error (.typeMismatch .encode path v.typeName label)
  | .alias target, v => target.flattenAt path v
  | .result _ _, _ => .error (.unsupported .encode ("flattening " ++ label))
  | .variant _, _ => .error (.unsupported .encode ("flattening " ++ label))
  | .flags _, _ => .error (.unsupported .encode ("flattening " ++ label))
  | .stream _, _ => .error (.unsupported .encode ("flattening " ++ label))
  | .future _, _ => .error (.unsupported .encode ("flattening " ++ label))
  | .unspecified, _ => .error (.unsupported .encode ("flattening " ++ label))

/-- Unnamed fields are reported by their position. -/
def flattenElems (path : List Text) (i : Nat) : List Decl → List Datum → Except Report Slots
  | t :: ts, v :: vs => do
    let first ← t.flattenAt (path ++ [Text.ofNat i]) v
    let rest ← flattenElems path (i + 1) ts vs
    return first ++ rest
  | _, _ => .ok []

def flattenFields (path : List Text) : List (Text × Decl) → List Datum → Except Report Slots
  | f :: fs, v :: vs => do
    let first ← flattenField path f v
    let rest ← flattenFields path fs vs
    return first ++ rest
  | _, _ => .ok []

def flattenField (path : List Text) : Text × Decl → Datum → Except Report Slots
  | (name, t), v => t.flattenAt (path ++ [name]) v
end

def Decl.flatten (t : Decl) (v : Datum) : Except Report Slots := t.flattenAt [] v

def tooFewSlots (path : List Text) (label : Text) (need have_ : Nat) : Report :=
  { phase := .decode, kind := .outOfBounds, path, declType := label,
    detail := "need " ++ Text.ofNat need ++ " slots, have " ++ Text.ofNat have_ }

mutual
def Decl.unflattenAt (path : List Text) : Decl → Slots → Except Report (Datum × Slots)
  | .prim p, slots =>
    match slots with
    | [] => .error (tooFewSlots path p.label 1 0)
    | s :: rest => (p.ofSlot s path).map fun v => (v, rest)
  | .string, slots =>
    match slots with
    | start :: len :: rest => .ok (.view start.toUInt32 len.toUInt32, rest)
    | slots => .error (tooFewSlots path (Decl.label .string) 2 slots.length)
  | .defn name kind, slots =>
    if slots.length < kind.width then
      .error (tooFewSlots path (kind.labelOr name) kind.width slots.length)
    else kind.unflattenAt path (kind.labelOr name) slots
  | .absent, _ => .error (.unsupported .decode ("unflattening " ++ Decl.label .absent))
  | .errorContext, slots =>
    if slots.isEmpty then .error (tooFewSlots path (Decl.label .errorContext) 1 0)
    else .error (.unsupported .decode ("unflattening " ++ Decl.label .errorContext))

/-- Lifts from a slot list that is at least as long as the kind is wide. -/
def Kind.unflattenAt (path : List Text) (label : Text) : Kind → Slots → Except Report (Datum × Slots)
  | .list _, slots => .ok (.u32 (slots.headD 0).toUInt32, slots.drop 1)
  | .own _, slots => .ok (.u32 (slots.headD 0).toUInt32, slots.drop 1)
  | .borrow _, slots => .ok (.u32 (slots.headD 0).toUInt32, slots.drop 1)
  | .resource, slots => .ok (.u32 (slots.headD 0).toUInt32, slots.drop 1)
  | .option elem, slots =>
    if elem.isReference then
      if slots.headD 0 = 0 then .ok (.nil, slots.drop 1) else elem.unflattenAt path slots
    else if slots.headD 0 = 0 then .ok (.nil, slots.drop (1 + elem.width))
    else if slots.headD 0 = 1 then elem.unflattenAt (path ++ [someField]) (slots.drop 1)
    else .error (.invalidData .decode path "option discriminant must be 0 or 1")
  | .tuple elems, slots =>
    (unflattenElems path 0 elems slots).map fun (vs, rest) => (.list vs, rest)
  | .record fields, slots =>
    (unflattenFields path fields slots).map fun (vs, rest) => (.list vs, rest)
  | .enum cases, slots =>
    if (slots.headD 0).toNat < cases then .ok (.u32 (slots.headD 0).toUInt32, slots.drop 1)
    else .error (.outOfBounds .decode path (slots.headD 0).toInt64 (Int64.ofNat cases))
  | .alias target, slots => target.unflattenAt path slots
  | .result _ _, _ => .error (.unsupported .decode ("unflattening " ++ label))
  | .variant _, _ => .error (.unsupported .decode ("unflattening " ++ label))
  | .flags _, _ => .error (.unsupported .decode ("unflattening " ++ label))
  | .stream _, _ => .error (.unsupported .decode ("unflattening " ++ label))
  | .future _, _ => .error (.unsupported .decode ("unflattening " ++ label))
  | .unspecified, _ => .error (.unsupported .decode ("unflattening " ++ label))

def unflattenElems (path : List Text) (i : Nat) :
    List Decl → Slots → Except Report (List Datum × Slots)
  | [], slots => .ok ([], slots)
  | t :: ts, slots => do
    let (v, rest) ← t.unflattenAt (path ++ [Text.ofNat i]) slots
    let (vs, rest) ← unflattenElems path (i + 1) ts rest
    return (v :: vs, rest)

def unflattenFields (path : List Text) :
    List (Text × Decl) → Slots → Except Report (List Datum × Slots)
  | [], slots => .ok ([], slots)
  | f :: fs, slots => do
    let (v, rest) ← unflattenField path f slots
    let (vs, rest) ← unflattenFields path fs rest
    return (v :: vs, rest)

def unflattenField (path : List Text) : Text × Decl → Slots → Except Report (Datum × Slots)
  | (name, t), slots => t.unflattenAt (path ++ [name]) slots
end

/-- Lifts a datum of the type; slots past it are ignored. -/
def Decl.unflatten (t : Decl) (slots : Slots) : Except Report Datum :=
  (t.unflattenAt [] slots).map (·.1)

end Marshal
