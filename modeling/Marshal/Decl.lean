import Marshal.Text

/-! # Declared types

The types an interface declares for values that cross the boundary. A definition may carry a name, and
its kind may be another type, in which case it is an alias. `Decl.absent` stands where no type is given:
a function without a result, a side of a result without a payload.
-/
set_option autoImplicit false
namespace Marshal

inductive Primitive where
  | bool
  | u8
  | s8
  | u16
  | s16
  | u32
  | s32
  | u64
  | s64
  | f32
  | f64
  | char
deriving DecidableEq, Repr

mutual
inductive Decl where
  | absent
  | prim (p : Primitive)
  | string
  | errorContext
  | defn (name : Option Text) (kind : Kind)

inductive Kind where
  | list (elem : Decl)
  | option (elem : Decl)
  | tuple (elems : List Decl)
  | result (ok err : Decl)
  | own (target : Decl)
  | borrow (target : Decl)
  | resource
  | record (fields : List (Text × Decl))
  | variant (cases : List (Text × Decl))
  | enum (cases : Nat)
  | flags (count : Nat)
  | alias (target : Decl)
  | stream (elem : Decl)
  | future (elem : Decl)
  | unspecified
end

instance : Inhabited Decl := ⟨.absent⟩

namespace Primitive

def label : Primitive → Text
  | bool => "bool"
  | u8 => "u8"
  | s8 => "i8"
  | u16 => "u16"
  | s16 => "i16"
  | u32 => "u32"
  | s32 => "i32"
  | u64 => "u64"
  | s64 => "i64"
  | f32 => "f32"
  | f64 => "f64"
  | char => "char"

def keyword : Primitive → Text
  | s8 => "s8"
  | s16 => "s16"
  | s32 => "s32"
  | s64 => "s64"
  | p => p.label

/-- The number of bytes a scalar takes, which is also its alignment. -/
def size : Primitive → UInt32
  | bool | u8 | s8 => 1
  | u16 | s16 => 2
  | u32 | s32 | f32 | char => 4
  | u64 | s64 | f64 => 8

def all : List Primitive :=
  [bool, u8, s8, u16, s16, u32, s32, u64, s64, f32, f64, char]

end Primitive

def vecTypeName (elem : Text) : Text := "Vec_" ++ elem

mutual
def Decl.label : Decl → Text
  | .absent => "unknown"
  | .prim p => p.label
  | .string => "String"
  | .errorContext => "unknown"
  | .defn name kind => kind.labelOr name

/-- The name of a definition: references are named after what they refer to, and an unnamed alias after
its target. -/
def Kind.labelOr (name : Option Text) : Kind → Text
  | .own .absent => name.getD "unknown"
  | .own target => target.label
  | .borrow .absent => name.getD "unknown"
  | .borrow target => target.label
  | .list elem => vecTypeName elem.label
  | .alias target =>
    match name with
    | some n => n
    | none => target.label
  | _ => name.getD "unknown"
end

mutual
/-- Values of the type cross the boundary as one address of an object owned elsewhere. -/
def Decl.isReference : Decl → Bool
  | .string => true
  | .defn _ kind => kind.isReference
  | _ => false

def Kind.isReference : Kind → Bool
  | .list _ => true
  | .own _ => true
  | .borrow _ => true
  | .resource => true
  | .alias target => target.isReference
  | _ => false
end

mutual
def Decl.isPrimitive : Decl → Bool
  | .prim _ => true
  | .defn _ kind => kind.isPrimitive
  | _ => false

def Kind.isPrimitive : Kind → Bool
  | .alias target => target.isPrimitive
  | _ => false
end

def Decl.isPresent : Decl → Bool
  | .absent => false
  | _ => true

end Marshal
