import Marshal.Managed.Session

/-! # Identity on the managed side

Objects are compared and hashed by the functions their type exports. An identity set keeps elements that
stand for objects in buckets by hash; it holds at most one of any group of equal ones, and does not own them.
-/
set_option autoImplicit false
namespace Marshal

/-- How elements are compared and hashed, in whatever state that needs. -/
structure Hooks (σ α : Type) where
  equal : α → α → Step σ Bool
  hash : α → Step σ UInt64

/-- Elements in buckets by hash, and how many there are. -/
structure IdentitySet (α : Type) where
  buckets : List (UInt64 × List α) := []
  count : Int := 0

namespace IdentitySet

variable {σ α : Type}

def bucket (s : IdentitySet α) (hash : UInt64) : List α :=
  ((s.buckets.find? (·.1 = hash)).map (·.2)).getD []

def dropBucket (s : IdentitySet α) (hash : UInt64) : IdentitySet α :=
  { s with buckets := s.buckets.filter (·.1 ≠ hash) }

def putBucket (s : IdentitySet α) (hash : UInt64) (elements : List α) : IdentitySet α :=
  { s with buckets := (hash, elements) :: (s.dropBucket hash).buckets }

def findEqual (hooks : Hooks σ α) (v : α) : List α → Step σ (Option Nat)
  | [] => return none
  | e :: rest => do
    if ← hooks.equal e v then return some 0
    else return (← findEqual hooks v rest).map (· + 1)

def find (s : IdentitySet α) (hooks : Hooks σ α) (v : α) : Step σ (Option Nat) := do
  findEqual hooks v (s.bucket (← hooks.hash v))

def add (s : IdentitySet α) (hooks : Hooks σ α) (v : α) : Step σ (Bool × IdentitySet α) := do
  let hash ← hooks.hash v
  match ← findEqual hooks v (s.bucket hash) with
  | some _ => return (false, s)
  | none => return (true, { s.putBucket hash (s.bucket hash ++ [v]) with count := s.count + 1 })

def contains (s : IdentitySet α) (hooks : Hooks σ α) (v : α) : Step σ Bool :=
  return (← s.find hooks v).isSome

def get (s : IdentitySet α) (hooks : Hooks σ α) (v : α) : Step σ (Option α) := do
  match ← s.find hooks v with
  | none => return none
  | some i =>
    match (s.bucket (← hooks.hash v))[i]? with
    | some e => return some e
    | none => Step.crash

def eraseAt (s : IdentitySet α) (hash : UInt64) (i : Nat) : IdentitySet α :=
  let rest := (s.bucket hash).eraseIdx i
  { if rest.isEmpty then s.dropBucket hash else s.putBucket hash rest with count := s.count - 1 }

def remove (s : IdentitySet α) (hooks : Hooks σ α) (v : α) : Step σ (Option α × IdentitySet α) := do
  let hash ← hooks.hash v
  match ← findEqual hooks v (s.bucket hash) with
  | none => return (none, s)
  | some i => return ((s.bucket hash)[i]?, s.eraseAt hash i)

def toList (s : IdentitySet α) : List α := s.buckets.flatMap (·.2)

end IdentitySet

structure Adapter (V : Type) where
  typeName : Text
  eq : Export V
  hash : Option (Export V)

namespace Adapter

variable {V : Type}

def resolve (typeName : Text) : Step (Session V) (Adapter V) := do
  let eq ← Session.resolve (Symbol.ofType typeName Symbol.partialEq)
    ⟨[.address, .address], some .bool⟩
  let name := Symbol.ofType typeName Symbol.hash
  if ((← get).symbols.lookup name).isNone then return ⟨typeName, eq, none⟩
  return ⟨typeName, eq, some (← Session.resolve name ⟨[.address], some (.scalar .u64)⟩)⟩

def isHashable (a : Adapter V) : Bool := a.hash.isSome

def notHashable (a : Adapter V) : Report := .unsupported .bind (a.typeName ++ " is not hashable")

def equal (a : Adapter V) (x y : UInt32) : Step (Session V) Bool :=
  Session.callBool a.eq [.u32 x, .u32 y]

def hashOf (a : Adapter V) (x : UInt32) : Step (Session V) UInt64 := do
  match a.hash with
  | none => Step.trap a.notHashable
  | some hash =>
    match ← Session.call hash [.u32 x] with
    | .datum (.u64 h) => return h
    | _ => Step.crash

def hooks {α : Type} (a : Adapter V) (addr : α → UInt32) : Hooks (Session V) α :=
  { equal := fun x y => a.equal (addr x) (addr y), hash := fun x => a.hashOf (addr x) }

def newSet {α : Type} (a : Adapter V) : Except Report (IdentitySet α) :=
  if a.isHashable then .ok {} else .error a.notHashable

end Adapter

end Marshal
