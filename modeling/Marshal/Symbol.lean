import Marshal.Decl

/-! # Symbol names

The names under which one side of the boundary exports its functions. The parts of a name stand between
dollar signs: a common prefix, the declared type if there is one, and the operation.
-/
set_option autoImplicit false
namespace Marshal
namespace Symbol

def lead : Text := "__bridge__"

def ofType (typeName op : Text) : Text := lead ++ "$" ++ typeName ++ "$" ++ op

def ofFunction (name : Text) : Text := lead ++ "$" ++ name

def ofVec (elem op : Text) : Text := ofType (vecTypeName elem) op

def trampoline (function : Text) : Text := ofFunction function ++ "$complete"

def free : Text := "_free"
def partialEq : Text := "_partial_eq"
def hash : Text := "_hash"

def vecOps : List Text := ["new", free, "len", "push", "pop", "get", "get_mut", "as_ptr"]

def vecAll (elem : Text) : List Text := vecOps.map (ofVec elem)

def stringAll : List Text :=
  ((["new", "new_with_str", "len", "as_str", "as_ptr", "trim", free] : List Text).map
    (ofType "String")) ++ [ofType "Str" partialEq]

def callBoxed : Text := ofFunction "call_boxed_fn_once_no_args_no_return"

def freeBoxed : Text := ofFunction "free_boxed_fn_once_no_args_no_return"

/-- An ASCII letter as a capital; a byte outside ASCII is no character of its own and is replaced. -/
def capital (b : UInt8) : Text :=
  if 97 ≤ b && b ≤ 122 then [b - 32] else if b < 0x80 then [b] else [0xEF, 0xBF, 0xBD]

def optionStruct (elem : Text) : Text :=
  "__private__Option" ++
    match elem with
    | [] => []
    | b :: rest => capital b ++ rest

def pointerResult : Text := "__private__ResultPtrAndPtr"

end Symbol

end Marshal
