import Marshal.Console.Request

/-! # Requests on memory

Allocation, raw bytes, scalars and aggregates in a heap.
-/
set_option autoImplicit false
namespace Marshal
namespace Console

structure Reader where
  place : Place → UInt32
  operand : Operand → Datum

def Reader.plain : Reader :=
  { place := fun
      | .given addr => addr
      | .var _ plus => plus
    operand := fun
      | .given d => d
      | .var _ => .nil }

def Reader.value (rd : Reader) (r : Request) : Datum := (r.value.map rd.operand).getD .nil

def look {α : Type} (f : Memory → Except Report α) (shown : α → Answer) : Option (Step Heap Answer) :=
  some (return shown (← Heap.inspect f))

def put (x : Step Memory Unit) : Option (Step Heap Answer) :=
  some do
    Heap.onMemory x
    return .done

def typedMemory (rd : Reader) (r : Request) : Option (Step Heap Answer) :=
  let addr := rd.place r.place
  match r.verb with
  | "store" => put (Memory.change fun m => m.store r.scalar addr (rd.value r))
  | "load" => look (fun m => m.load r.scalar addr) .datum
  | "write_opt" => put (Memory.writeOption r.scalar addr (.ofOption r.scalar (r.value.map rd.operand)))
  | "read_opt" =>
    look (fun m => m.readOption r.scalar addr) fun a =>
      match a.toOption with
      | some v => .present (.datum v)
      | none => .absent
  | "write_agg" => put (Memory.writeOption r.scalar addr ⟨rd.value r, r.flag⟩)
  | "read_agg" => look (fun m => m.readOption r.scalar addr) .aggregate
  | "store_addr" => put (Memory.change fun m => m.storeAddress addr (rd.place r.target))
  | "load_addr" => look (fun m => m.loadAddress addr) .address
  | "write_str" => put (Memory.writeView addr ⟨rd.place r.start, r.length⟩)
  | "read_str" => look (fun m => m.readView addr) fun v => .datum (.view v.start v.len)
  | "write_result" => put (Memory.writePointerResult addr ⟨r.flag, rd.place r.target⟩)
  | "read_result" => look (fun m => m.readPointerResult addr) .pointers
  | _ => none

def memory (rd : Reader) (r : Request) : Option (Step Heap Answer) :=
  let addr := rd.place r.place
  match r.verb with
  | "alloc" => some (return .address (← Heap.allocate r.size r.align))
  | "mfree" => some do
    Heap.release addr
    return .null
  | "live" => some (return .flag ((← get).isLive addr))
  | "size_of" => some do
    let block := (← get).block? addr
    return .list [.address ((block.map (·.size)).getD 0), .flag block.isSome]
  | "alloc_bytes" => some (return .address (← Heap.allocateBytes r.data))
  | "read_bytes" => some (return .bytes (← Heap.readBytes addr r.length))
  | "read_string" => some (return .text (← Heap.readText addr r.length))
  | "read" => look (fun m => m.read addr r.length) .bytes
  | "write" => put (Memory.change fun m => m.write addr r.data)
  | "grow" => some do
    let (previous, granted) ← Heap.growPages r.size
    return .list [.address previous, .flag granted]
  | "size" => some (return .address (← get).memory.size)
  | _ => typedMemory rd r

end Console

end Marshal
