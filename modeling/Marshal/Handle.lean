import Marshal.Failure

/-! # Handles

A handle holds the address of an object on the other side. An owning handle carries a token, and the
object may be freed or handed on by whoever spends that token, which can be done once. Borrowed handles
carry no token and never free.
-/
set_option autoImplicit false
namespace Marshal

inductive Mode where
  | owned
  | borrowed
  | borrowedMut
deriving DecidableEq, Repr

namespace Mode

def name : Mode → Text
  | owned => "owned"
  | borrowed => "borrowed"
  | borrowedMut => "borrowed_mut"

/-- The mode with a number; numbers without a mode of their own mean owned. -/
def ofCode (code : UInt8) : Mode :=
  if code = 1 then borrowed else if code = 2 then borrowedMut else owned

def nameOfCode (code : UInt8) : Text :=
  if code ≤ 2 then (ofCode code).name else "mode(" ++ Text.ofNat code.toNat ++ ")"

end Mode

structure Grant where
  token : Nat
  typeName : Text
  addr : UInt32

structure Tokens where
  next : Nat := 0
  grants : List Grant := []

namespace Tokens

def mint (t : Tokens) (typeName : Text) (addr : UInt32) : Nat × Tokens :=
  (t.next, { next := t.next + 1, grants := ⟨t.next, typeName, addr⟩ :: t.grants })

def isHeld (t : Tokens) (token : Nat) : Bool := t.grants.any (·.token = token)

/-- Spends a token; `none` when it was spent before. -/
def spend? (t : Tokens) (token : Nat) : Option Tokens :=
  if t.isHeld token then some { t with grants := t.grants.filter (·.token ≠ token) } else none

end Tokens

/-- A handle to an object; `δ` is what destroys it. The token is meaningful for owned handles only. -/
structure Handle (δ : Type) where
  typeName : Text
  addr : UInt32
  mode : Mode
  token : Nat := 0
  destructor : Option δ := none

namespace Handle

variable {δ : Type}

def own (typeName : Text) (addr : UInt32) (destructor : Option δ) (t : Tokens) : Handle δ × Tokens :=
  let (token, t) := t.mint typeName addr
  ({ typeName, addr, mode := .owned, token, destructor }, t)

def lift (typeName : Text) (addr : UInt32) (mode : Mode) (destructor : Option δ) (t : Tokens) :
    Handle δ × Tokens :=
  match mode with
  | .owned => own typeName addr destructor t
  | mode => ({ typeName, addr, mode }, t)

def asRef (h : Handle δ) : Handle δ := { typeName := h.typeName, addr := h.addr, mode := .borrowed }

/-- An exclusive borrow of the same object; a shared borrow cannot be upgraded. -/
def asMut (h : Handle δ) : Except Report (Handle δ) :=
  if h.mode = .borrowed then
    .error { phase := .ownership, kind := .aliasing, declType := h.typeName, value := .u32 h.addr,
             detail := "cannot borrow " ++ Text.hexLiteral h.addr.toNat ++
               " mutably through a shared borrow" }
  else .ok { typeName := h.typeName, addr := h.addr, mode := .borrowedMut }

def owns (h : Handle δ) (t : Tokens) : Bool := h.mode = .owned && t.isHeld h.token

def isNull (h : Handle δ) : Bool := h.addr = 0

def spend? (h : Handle δ) (t : Tokens) : Option Tokens :=
  if h.mode = .owned then t.spend? h.token else none

/-- Gives up ownership by freeing: the destructor call that is now due, if any. -/
def free (h : Handle δ) (t : Tokens) : Option (δ × UInt32) × Tokens :=
  match h.spend? t with
  | none => (none, t)
  | some t => (if h.addr = 0 then none else h.destructor.map (·, h.addr), t)

/-- Gives up ownership so that the object can move: its address, and whether it was owned. -/
def transfer (h : Handle δ) (t : Tokens) : (UInt32 × Bool) × Tokens :=
  match h.spend? t with
  | none => ((h.addr, false), t)
  | some t => ((h.addr, true), t)

def mustTransfer (h : Handle δ) (t : Tokens) : Except Report (UInt32 × Tokens) :=
  match h.spend? t with
  | none => .error (.notOwned h.typeName h.addr h.mode.name)
  | some t => .ok (h.addr, t)

def text (h : Handle δ) : Text :=
  h.typeName ++ "(" ++ Text.hexLiteral h.addr.toNat ++ ", " ++ h.mode.name ++ ")"

end Handle

end Marshal
