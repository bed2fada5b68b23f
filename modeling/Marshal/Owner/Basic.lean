import Marshal.Binding
import Marshal.Config
import Marshal.Key
import Marshal.Owner.Object

/-! # The owning side

The owning side of the boundary has a heap, the objects boxed in it, the symbols it exports, the types it
has declared and an executor. The managed side reaches it through the exported symbols only.
-/
set_option autoImplicit false
namespace Marshal

structure OpaqueType where
  name : Text
  typeId : UInt32

inductive StringOp where
  | new
  | newWithStr
  | len
  | asStr
  | asPtr
  | trim
  | viewEqual
deriving DecidableEq

inductive VecOp where
  | new
  | len
  | push
  | pop
  | get
  | getMut
  | asPtr
deriving DecidableEq

/-- The body of an asynchronous function; one that waits is not ready until the gate is open. -/
structure AsyncBody where
  waits : Bool
  run : UInt32 → UInt32

structure Task where
  body : AsyncBody
  arg : UInt32
  context : UInt32

/-- What a symbol stands for. Methods of opaque types give no answer for a value of a foreign type. -/
inductive Export (V : Type) where
  | destructor
  | callBoxed
  | string (type : OpaqueType) (op : StringOp)
  | vec (type : OpaqueType) (elem : Scalar) (op : VecOp)
  | refVec (type : OpaqueType) (elem : OpaqueType) (op : VecOp)
  | construct (type : OpaqueType) (arg : WireType) (make : Datum → V)
  | inspect (type : OpaqueType) (result : WireType) (f : V → Option Datum)
  | amend (type : OpaqueType) (arg result : WireType) (f : V → Datum → Option (V × Datum))
  | consume (type : OpaqueType) (result : WireType) (f : V → Option Datum)
  | equal (type : OpaqueType) (key : V → Option (List Datum))
  | hash (type : OpaqueType) (key : V → Option (List Datum))
  | async (symbol : Text) (body : AsyncBody)
  | function (type : FunctionType) (run : List Datum → Option Datum)

namespace WireType
def usize : WireType := scalar .usize
def bool : WireType := scalar .bool
end WireType

def StringOp.type : StringOp → FunctionType
  | new => ⟨[], some .address⟩
  | newWithStr => ⟨[.view], some .address⟩
  | len => ⟨[.address], some .usize⟩
  | asStr => ⟨[.address], some .view⟩
  | asPtr => ⟨[.address], some .address⟩
  | trim => ⟨[.address], some .view⟩
  | viewEqual => ⟨[.view, .view], some .bool⟩

def VecOp.type (elem answer : WireType) : VecOp → FunctionType
  | new => ⟨[], some .address⟩
  | len => ⟨[.address], some .usize⟩
  | push => ⟨[.address, elem], none⟩
  | pop => ⟨[.address], some answer⟩
  | get => ⟨[.address, .usize], some answer⟩
  | getMut => ⟨[.address, .usize], some answer⟩
  | asPtr => ⟨[.address], some .address⟩

def VecOp.name : VecOp → Text
  | new => "new"
  | len => "len"
  | push => "push"
  | pop => "pop"
  | get => "get"
  | getMut => "get_mut"
  | asPtr => "as_ptr"

def FunctionType.destructor : FunctionType := ⟨[.address], none⟩

def FunctionType.async : FunctionType := ⟨[.address, .address, .completion], none⟩

def Export.type {V : Type} : Export V → FunctionType
  | destructor => .destructor
  | callBoxed => .destructor
  | string _ op => op.type
  | vec _ elem op => op.type (.scalar elem) (.option elem)
  | refVec _ _ op => op.type .address .address
  | construct _ arg _ => ⟨[arg], some .address⟩
  | inspect _ result _ => ⟨[.address], some result⟩
  | amend _ arg result _ => ⟨[.address, arg], some result⟩
  | consume _ result _ => ⟨[.address], some result⟩
  | equal _ _ => ⟨[.address, .address], some .bool⟩
  | hash _ _ => ⟨[.address], some (.scalar .u64)⟩
  | async _ _ => .async
  | function type _ => type

structure Owner (V : Type) where
  table : Table (Object V)
  exports : List (Text × Export V) := []
  types : List Text := []
  executor : Executor Task
  config : Config
  closed : Bool := false

namespace Owner

variable {V α β : Type}

def onTable (x : Step (Table (Object V)) α) : Step (Owner V) α :=
  Step.within Owner.table (fun table o => { o with table }) x

def onHeap (x : Step Heap α) : Step (Owner V) α := onTable (Table.onHeap x)

def export? (o : Owner V) (name : Text) : Option (Export V) :=
  (o.exports.find? (·.1 = name)).map (·.2)

def symbols (o : Owner V) : Symbols (Export V) := { lookup := o.export?, typeOf := Export.type }

def exportAs (name : Text) (f : Export V) : Step (Owner V) Unit := do
  if ((← get).export? name).isSome then
    Step.refuse { phase := .runtime, kind := .registration, symbol := name,
                  detail := "symbol already exported" }
  modify fun o => { o with exports := o.exports ++ [(name, f)] }

def exportNothing (name : Text) : Step (Owner V) Unit :=
  throw (.refused (.registration .runtime name (.report (.nilPointer .runtime [] "symbol"))))

/-- Publishes the functions in order, up to the first name that is taken. -/
def exportAll : List (Text × Export V) → Step (Owner V) Unit
  | [] => pure ()
  | (name, f) :: rest => do
    exportAs name f
    exportAll rest

def typeId (name : Text) : Step (Owner V) UInt32 := do
  let o ← get
  match o.types.findIdx? (· = name) with
  | some i => return (i + 1).toUInt32
  | none =>
    set { o with types := o.types ++ [name] }
    return (o.types.length + 1).toUInt32

def declare (name : Text) : Step (Owner V) OpaqueType := do
  let type : OpaqueType := ⟨name, ← typeId name⟩
  exportAs (Symbol.ofType name Symbol.free) .destructor
  return type

def box (typeName : Text) (object : Object V) : Step (Owner V) UInt32 := do
  if (← get).closed then Step.refuse Store.closedReport
  let typeId ← typeId typeName
  onTable (Table.insert typeId object)

def destroyer (o : Owner V) : Object V → Step (Table (Object V)) Unit :=
  Object.destroy o.closed (o.table.store.size + 1)

def drop (addr : UInt32) : Step (Owner V) Unit := do
  let destroy := (← get).destroyer
  onTable (Object.dropWith (Table.remove destroy) addr)

def unbox (addr : UInt32) : Step (Owner V) (Object V) := onTable (Table.take addr)

def noLive (typeName : Text) (addr : UInt32) : Report :=
  { phase := .runtime, kind := .notFound, declType := typeName,
    detail := "no live " ++ typeName ++ " at " ++ Text.hexLiteral addr.toNat }

def mustGet (typeName : Text) (addr : UInt32) (project : Object V → Option β) : Step (Owner V) β := do
  let typeId ← typeId typeName
  match (← get).table.getTyped? addr typeId with
  | none => Step.trap { noLive typeName addr with value := .u32 addr }
  | some object =>
    match project object with
    | some b => return b
    | none => Step.crash

def enter (type : OpaqueType) (addr : UInt32) (kind : BorrowKind) (project : Object V → Option β) :
    Step (Owner V) β := do
  match (← get).table.getTyped? addr type.typeId with
  | none => Step.refuse (noLive type.name addr)
  | some object =>
    match project object with
    | none => Step.crash
    | some b =>
      onTable (Table.borrow addr kind)
      return b

def leave (addr : UInt32) (kind : BorrowKind) : Step (Owner V) Unit := do
  let _ ← onTable (Table.giveBack addr kind)

/-- Runs an action under a borrow of an object of the type. The borrow is given back however the action
ends. -/
def access (type : OpaqueType) (addr : UInt32) (kind : BorrowKind) (project : Object V → Option β)
    (body : β → Step (Owner V) α) : Step (Owner V) α := do
  let b ← enter type addr kind project
  Step.andFinally (body b) (leave addr kind)

def mustAccess (type : OpaqueType) (addr : UInt32) (kind : BorrowKind) (project : Object V → Option β)
    (body : β → Step (Owner V) α) : Step (Owner V) α :=
  Step.trapRefusal id (access type addr kind project body)

def mustBox (typeName : Text) (object : Object V) : Step (Owner V) UInt32 :=
  Step.trapRefusal (fun why => .wrap .runtime .allocation why typeName) (box typeName object)

def guest? : Object V → Option V
  | .guest v => some v
  | _ => none

def find (type : OpaqueType) (addr : UInt32) : Step (Owner V) (Option V) := do
  match (← get).table.getTyped? addr type.typeId with
  | none => return none
  | some object =>
    match guest? object with
    | some v => return some v
    | none => Step.crash

def take (type : OpaqueType) (addr : UInt32) : Step (Owner V) V := do
  match ← find type addr with
  | none => Step.refuse (.notFound .runtime type.name "object")
  | some v =>
    let _ ← onTable (Table.take addr)
    return v

def exportBoxed : Step (Owner V) Unit := do
  exportAs Symbol.callBoxed .callBoxed
  exportAs Symbol.freeBoxed .destructor

def create (config : Config) : Except Report (Owner V) := do
  let config := config.withDefaults 1
  let backend ← config.validate
  let o : Owner V :=
    { table := { heap := .create backend config.initialPages config.maxPages }
      executor := .create config.queueDepth
      config }
  return (exportBoxed.run.run o).2

/-- Closes the executor, which runs the tasks it has accepted, and drops every object. -/
def close : Step (Owner V) Unit := do
  if (← get).closed then return
  modify fun o => { o with closed := true, executor := o.executor.close.settle fun _ => true }
  let destroy := (← get).destroyer
  onTable (Table.close destroy)

end Owner

end Marshal
