import Marshal.Console.Basic

/-! # Requests on the managed side

Handles, strings, vectors, identity, callbacks and asynchronous calls.
-/
set_option autoImplicit false
namespace Marshal
namespace Console

def transferAnswer (h : Handle (Export Guest)) : Step Console Answer := do
  let (addr, moved) ← onSession (Session.transfer h)
  return .list [.address addr, .flag moved]

def freeAnswer (h : Handle (Export Guest)) : Step Console Answer := do
  onSession (Session.free h)
  return .flag (h.owns (← tokens))

def handleMethod (r : Request) (h : Handle (Export Guest)) : Step Console Answer := do
  match r.method with
  | "as_ref" => keep r (.handle h.asRef)
  | "as_mut" => keep r (.handle (← onSession (Session.asMut h)))
  | "free" => perform (onSession (Session.free h))
  | "transfer" => transferAnswer h
  | "must_transfer" => return .address (← onSession (Session.mustTransfer h))
  | "is_null" => return .flag h.isNull
  | "text" => return .text h.text
  | _ => keep r (.handle h)

def stringMethod (r : Request) (s : OwnedString Guest) : Step Console Answer := do
  match r.method with
  | "len" => return .number (← onSession s.len).toNat
  | "as_str" => keep r (.view (← onSession s.asStr))
  | "trim" =>
    let v ← onSession s.trim
    let t ← onSession (StringOps.viewText .decode v)
    return .list [← keep r (.view v), .text t]
  | "as_ptr" => keepAddress r (onSession s.asPtr)
  | "text" => return .text (← onSession s.text)
  | "error" => return .text (← onSession s.text)
  | "equal" =>
    match (← get).valueOf? r.other with
    | some (.string t) => return .flag (← onSession (s.equal t))
    | _ => Step.crash
  | "as_ref" => keep r (.string s.asRef)
  | "free" => freeAnswer s.handle
  | "transfer" => transferAnswer s.handle
  | "must_transfer" => keepAddress r (onSession (Session.mustTransfer s.handle))
  | _ => keep r (.string s)

def viewMethod (r : Request) (v : View) : Step Console Answer := do
  match r.method with
  | "bytes" => return .bytes (← onSession (StringOps.viewBytes v))
  | "text" => return .text (← onSession (StringOps.viewText .decode v))
  | _ =>
    let bridge ← require (← get).bridge
    match (← get).valueOf? r.other with
    | some (.view w) => return .flag (← onSession (bridge.ops.viewsEqual v w))
    | _ => Step.crash

def elementVariable : Element Guest → Variable
  | .datum d => .datum d
  | .string s => .string s
  | .handle h => .handle h

def element (c : Console) (operand : Operand) : Element Guest :=
  let named := match operand with
    | .var name => c.valueOf? name
    | .given _ => none
  match named with
  | some (.string s) => .string s
  | some (.handle h) => .handle h
  | _ => .datum (c.reader.operand operand)

def elementsAnswer (es : List (Element Guest)) : Step Console (List Answer) := do
  let t ← tokens
  return es.map fun e => (elementVariable e).answer t

def elementAnswer (r : Request) : Option (Element Guest) → Step Console Answer
  | none => return .absent
  | some e => return .present (← keep r (elementVariable e))

def vecMethod (r : Request) (x : OwnedVec Guest) : Step Console Answer := do
  let values := onSession (x.values (if r.limit = 0 then none else some r.limit))
  match r.method with
  | "push" =>
    let c ← get
    perform (onSession (x.push (c.element (r.value.getD (.given .nil)))))
  | "pop" => elementAnswer r (← onSession x.pop)
  | "get" => elementAnswer r (← onSession (x.get r.index))
  | "get_mut" => elementAnswer r (← onSession (x.getMut r.index))
  | "len" => return .number (← onSession x.len).toNat
  | "as_ptr" => keepAddress r (onSession x.asPtr)
  | "values" => return .list (← elementsAnswer (← values))
  | "all" =>
    let answers ← elementsAnswer (← values)
    return .list (answers.zipIdx.map fun (a, i) => .list [.number i, a])
  | "collect" => return .list (← elementsAnswer (← onSession x.collect))
  | "as_ref" => keep r (.vec x.asRef)
  | "as_mut" => keep r (.vec (← onSession x.asMut))
  | "free" => freeAnswer x.handle
  | "transfer" => transferAnswer x.handle
  | "text" => return .text x.handle.text
  | _ => keep r (.vec x)

def setMethod (r : Request) (a : Adapter Guest) (s : IdentitySet UInt32) : Step Console Answer := do
  let addr := (← get).reader.place r.first
  let hooks := a.hooks id
  let save := fun s => setVariable r.subject (.set a s)
  let stored := fun (e : Option UInt32) => (e.map Answer.address).getD .null
  match r.method with
  | "add" =>
    let (added, s) ← onSession (s.add hooks addr)
    save s
    return .flag added
  | "contains" => return .flag (← onSession (s.contains hooks addr))
  | "get" => return stored (← onSession (s.get hooks addr))
  | "remove" =>
    let (removed, s) ← onSession (s.remove hooks addr)
    save s
    return stored removed
  | "len" => return .number s.count
  | _ =>
    let all := s.toList.mergeSort (· ≤ ·)
    if r.limit = 1 && !all.isEmpty then return .number 1
    return .list (all.map .address)

def strings (c : Console) (r : Request) : Option (Step Console Answer) :=
  let addr := c.reader.place r.place
  let lifted := fun (f : StringOps Guest → Step (Session Guest) (OwnedString Guest)) => some do
    let bridge ← require c.bridge
    keep r (.string (← onSession (f bridge.ops)))
  match r.verb with
  | "s_bind" => some do
    let bridge ← onSession (StringBridge.resolve (!r.flag))
    modify fun c => { c with bridge := some bridge }
    return .done
  | "s_new" => lifted fun ops => ops.create
  | "s_from" => lifted fun ops => ops.ofText r.text
  | "s_from_bytes" => lifted fun ops => ops.ofMemory addr r.length
  | "s_lift" => lifted fun ops => ops.lift addr r.mode
  | "s_view" => some (keep r (.view ⟨addr, r.length⟩))
  | _ => none

def bindings (c : Console) (r : Request) : Option (Step Console Answer) :=
  match r.verb with
  | "h_resolve" => some do keep r (.type (← onSession (HandleType.resolve r.type)))
  | "w_bind" => some do
    let w ←
      if r.elem = Owner.stringType then pure (← require c.bridge).witness
      else match c.valueOf? r.subject with
        | some (.type t) => onSession (Witness.ofHandles t)
        | _ => onSession (Witness.ofScalar r.scalar)
    keep r (.witness w)
  | "w_lookup" => some do
    let form : ElementForm Guest :=
      match Scalar.all.find? (·.name = r.type) with
      | some s => .scalar s
      | none => .handle ⟨[], .destructor⟩
    return .text (← Step.ofExcept (c.witnesses.lookup r.elem form)).typeName
  | "w_names" => some (return .list (c.witnesses.names.map .text))
  | "i_bind" => some do keep r (.adapter (← onSession (Adapter.resolve r.type)))
  | "i_same" => some (return .flag (c.reader.place r.first = c.reader.place r.second))
  | "fn_bind" => some do keep r (.callbacks (← onSession Callbacks.resolve))
  | "a_bind" => some do keep r (.function (← onSession (AsyncFunction.resolve r.name)))
  | "a_export" => some <| perform <| onOwner <|
    let waits := r.function = "gate"
    Owner.exportAsync r.name ⟨waits, fun x => if waits then x + 1 else x * 2⟩
  | "a_open" => some (perform (onSession Session.openGate))
  | "a_pending" => some (return .number c.session.registry.pending.length)
  | _ => none

def methods (c : Console) (r : Request) : Option (Step Console Answer) :=
  let addr := c.reader.place r.place
  match r.verb, c.valueOf? r.subject with
  | "h", some (.handle h) => some (handleMethod r h)
  | "s", some (.string s) => some (stringMethod r s)
  | "v", some (.view v) => some (viewMethod r v)
  | "x", some (.vec x) => some (vecMethod r x)
  | "set_op", some (.set a s) => some (setMethod r a s)
  | "h_owned", some (.type t) => some do keep r (.handle (← onSession (t.owned addr)))
  | "h_lift", some (.type t) => some do keep r (.handle (← onSession (t.lift addr r.mode)))
  | "h_tfree", some (.type t) => some (perform (onSession (t.free addr)))
  | "w_register", some (.witness w) => some <|
    match c.witnesses.register w with
    | .ok witnesses => perform (modify fun c => { c with witnesses })
    | .error why => throw (.refused why)
  | "x_new", some (.witness w) => some do keep r (.vec (← onSession (OwnedVec.create w)))
  | "x_from", some (.witness w) => some do
    keep r (.vec (← onSession (OwnedVec.ofList w (r.values.map c.element))))
  | "x_addr", some (.witness w) => some do
    keep r (.vec (← onSession (OwnedVec.ofAddress w addr r.mode)))
  | "i_equal", some (.adapter a) => some do
    return .flag (← onSession (a.equal (c.reader.place r.first) (c.reader.place r.second)))
  | "i_hash", some (.adapter a) => some do
    return .text (Text.ofBase 16 (← onSession (a.hashOf (c.reader.place r.first))).toNat 16)
  | "set_new", some (.adapter a) => some do keep r (.set a (← Step.ofExcept a.newSet))
  | "fn_lift", some (.callbacks f) => some do keep r (.callback (← onSession (f.lift addr)))
  | "fn", some (.callback f) => some do
    onSession (if r.method = "call" then f.run else Session.free f.handle)
    return .flag (f.handle.owns (← tokens))
  | "a_start", some (.function f) => some do
    let _ ← keep r (.future (← onSession (f.start r.size)))
    return .address (← get).session.registry.last
  | "a_call", some (.function f) => some do
    return .address (← onSession (AsyncFunction.await (← onSession (f.start r.size))))
  | "a_await", some (.future i) => some do
    return .list [.address (← onSession (AsyncFunction.await i)), .flag true]
  | _, _ => none

end Console

end Marshal
