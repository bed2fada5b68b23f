import Marshal.Scalar
import Marshal.Slots

/-! # Optional values and outcomes

An outcome holds an ok value, an error value, or neither. It crosses the boundary as a slot list, which
starts with a discriminant and is as wide as the wider of its two sides, or, when both payloads are
references, as a flag and one address.
-/
set_option autoImplicit false
namespace Marshal

def absentOptional : Report :=
  { phase := .decode, kind := .nilPointer, detail := "unwrap of an absent optional" }

def optionText : Option Datum → Text
  | none => "None"
  | some v => "Some(" ++ v.plain ++ ")"

def optionOfAddress {α : Type} (lift : UInt32 → α) (addr : UInt32) : Option α :=
  if addr = 0 then none else some (lift addr)

def optionToAddress {α : Type} (lower : α → UInt32) : Option α → UInt32
  | none => 0
  | some v => lower v

inductive Outcome (α ε : Type) where
  | ok (value : α)
  | err (error : ε)
  | neither

namespace Outcome

variable {α ε : Type}

def isOk : Outcome α ε → Bool
  | ok _ => true
  | _ => false

def isErr : Outcome α ε → Bool
  | err _ => true
  | _ => false

/-- The outcome in words. One that holds nothing shows the text of an absent ok value. -/
def text (showOk : α → Text) (showErr : ε → Text) (absent : Text) : Outcome α ε → Text
  | ok v => "Ok(" ++ showOk v ++ ")"
  | err e => "Err(" ++ showErr e ++ ")"
  | neither => "Ok(" ++ absent ++ ")"

/-- The ok value, or the error as a failure of the domain. The message of an error that is null is not
known. -/
def unpack (message : ε → Option Text) : Outcome α ε → Except Failure α
  | ok v => .ok v
  | err e => .error (.domain (message e))
  | neither =>
    .error (.report (.invalidData .decode [] "result holds neither an ok nor an error value"))

def ofPointers (liftOk : UInt32 → α) (liftErr : UInt32 → ε) (r : PointerResult) : Outcome α ε :=
  if r.isOk then ok (liftOk r.target) else err (liftErr r.target)

def toPointers (lowerOk : Option α → UInt32) (lowerErr : ε → UInt32) : Outcome α ε → PointerResult
  | ok v => ⟨true, lowerOk (some v)⟩
  | err e => ⟨false, lowerErr e⟩
  | neither => ⟨true, lowerOk none⟩

def width (ok err : Decl) : Nat := 1 + max ok.width err.width

def payloadSlots (t : Decl) (v : Datum) : Except Report Slots :=
  if t.isPresent then t.flatten v else .ok []

def pad (width : Nat) (slots : Slots) : Slots := slots ++ List.replicate (width - slots.length) 0

def lowerFlat (okType errType : Decl) : Outcome Datum Datum → Except Report Slots
  | ok v => do return pad (width okType errType) (0 :: (← payloadSlots okType v))
  | err e => do return pad (width okType errType) (1 :: (← payloadSlots errType e))
  | neither => do return pad (width okType errType) (0 :: (← payloadSlots okType .nil))

def payload (t : Decl) (slots : Slots) : Except Report Datum :=
  if t.isPresent then t.unflatten slots else .ok .nil

def liftFlat (okType errType : Decl) (okFrom errFrom : Datum → Except Report Datum) (slots : Slots) :
    Except Report (Outcome Datum Datum) :=
  if slots.length < width okType errType then
    .error { phase := .decode, kind := .outOfBounds, path := ["result"],
             detail := "need " ++ Text.ofNat (width okType errType) ++ " slots, have " ++
               Text.ofNat slots.length }
  else match slots with
    | 0 :: rest => do return ok (← okFrom (← payload okType rest))
    | 1 :: rest => do return err (← errFrom (← payload errType rest))
    | _ => .error (.invalidData .decode ["result"] "result discriminant must be 0 or 1")

end Outcome

end Marshal
