import Marshal.Proofs.Object.Sequence
import Marshal.Proofs.Owner.Lodging
import Marshal.Proofs.Owner.Vectors

/-! # Vectors as lists

Seen from outside, a vector of scalars is a list at an address. The shelf has the lists of all vectors; a call
that returns changes at most the list at its address, as its name says, and one that stops changes none. That an
owner keeps to its shelf whatever is called, and whatever else happens in the heap, is what its buffers being
blocks of their own is for.
-/
set_option autoImplicit false
namespace Marshal

open Step

structure Series where
  elem : Scalar
  items : List Datum

abbrev Shelf := UInt32 → Option Series

inductive ShelfCall where
  | new (s : Scalar)
  | push (s : Scalar) (addr : UInt32) (v : Datum)
  | pop (s : Scalar) (addr : UInt32)
  | get (s : Scalar) (addr : UInt32) (i : UInt64)
  | getMut (s : Scalar) (addr : UInt32) (i : UInt64)
  | len (s : Scalar) (addr : UInt32)
  | asPtr (s : Scalar) (addr : UInt32)
  | free (typeName : Text) (addr : UInt32)
  | newString
  | newText (start length : UInt32)
  | heap (use : HeapUse)

namespace Shelf

def set (l : Shelf) (addr : UInt32) (x : Option Series) : Shelf := fun a => if a = addr then x else l a

@[simp] theorem set_self (l : Shelf) (addr : UInt32) (x : Option Series) : l.set addr x addr = x := if_pos rfl

theorem set_of_ne (l : Shelf) {addr a : UInt32} (x : Option Series) (hNe : a ≠ addr) : l.set addr x a = l a :=
  if_neg hNe

theorem set_set (l : Shelf) (addr : UInt32) (x y : Option Series) : (l.set addr x).set addr y = l.set addr y := by
  funext a
  by_cases hEq : a = addr
  · rw [hEq, set_self, set_self]
  · rw [set_of_ne _ y hEq, l.set_of_ne x hEq, l.set_of_ne y hEq]

theorem set_same {l : Shelf} {addr : UInt32} {x : Option Series} (hSame : l addr = x) : l.set addr x = l := by
  funext a
  by_cases hEq : a = addr
  · rw [hEq, set_self, hSame]
  · exact l.set_of_ne x hEq

def next (l : Shelf) : ShelfCall → Except Stop Reply → Shelf
  | .new s, .ok (.datum (.u32 addr)) => l.set addr (some ⟨s, []⟩)
  | .push _ addr v, .ok _ => l.set addr ((l addr).map fun x => { x with items := x.items ++ [v] })
  | .pop _ addr, .ok _ => l.set addr ((l addr).map fun x => { x with items := x.items.dropLast })
  | .free _ addr, .ok _ => l.set addr none
  | _, _ => l

theorem next_error (l : Shelf) (c : ShelfCall) (stop : Stop) : l.next c (.error stop) = l := by
  cases c <;> rfl

def after : List (ShelfCall × Except Stop Reply) → Shelf
  | [] => fun _ => none
  | (c, r) :: earlier => (after earlier).next c r

end Shelf

namespace Owner

variable {V : Type}

def invoke (symbol : Text) (args : List Datum) : Step (Owner V) Reply := do
  match (← get).export? symbol with
  | some f => call f args
  | none => Step.crash

/-- The vectors of the element type are published. -/
def Hosts (o : Owner V) (s : Scalar) : Prop :=
  ∀ op : VecOp, ∃ type, o.export? (Symbol.ofVec s.name op.name) = some (.vec type s op)

def buffers (o : Owner V) : List Block :=
  o.table.heap.live.filter fun b => o.table.store.entries.any fun e =>
    match e.value with
    | .vector _ buf => buf.addr = b.addr
    | _ => false

def Full (o : Owner V) (s : Scalar) (addr : UInt32) : Prop :=
  ∃ buf, o.table.store.get? addr = some (.vector s buf) ∧ buf.len = buf.cap ∧ buf.Stuck o.table.heap s

end Owner

namespace ShelfCall

variable {V : Type}

def perform : ShelfCall → Step (Owner V) Reply
  | new s => Owner.invoke (Symbol.ofVec s.name VecOp.new.name) []
  | push s addr v => Owner.invoke (Symbol.ofVec s.name VecOp.push.name) [.u32 addr, v]
  | pop s addr => Owner.invoke (Symbol.ofVec s.name VecOp.pop.name) [.u32 addr]
  | get s addr i => Owner.invoke (Symbol.ofVec s.name VecOp.get.name) [.u32 addr, .usize i]
  | getMut s addr i => Owner.invoke (Symbol.ofVec s.name VecOp.getMut.name) [.u32 addr, .usize i]
  | len s addr => Owner.invoke (Symbol.ofVec s.name VecOp.len.name) [.u32 addr]
  | asPtr s addr => Owner.invoke (Symbol.ofVec s.name VecOp.asPtr.name) [.u32 addr]
  | free typeName addr => Owner.invoke (Symbol.ofType typeName Symbol.free) [.u32 addr]
  | newString => Owner.invoke (Symbol.ofType Owner.stringType "new") []
  | newText start length => Owner.invoke (Symbol.ofType Owner.stringType "new_with_str") [.view start length]
  | heap use => do
    Owner.onHeap use.perform
    return .none

def target? : ShelfCall → Option (Scalar × UInt32)
  | push s addr _ | pop s addr | get s addr _ | getMut s addr _ | len s addr | asPtr s addr => some (s, addr)
  | _ => none

/-- What callers keep to. The functions are those of vectors of scalars, and what is pushed is of the element
type. Nobody writes into a vector's buffer or frees a block that an object lives in. -/
def Permitted (o : Owner V) : ShelfCall → Prop
  | new s | pop s _ | get s _ _ | getMut s _ _ | len s _ | asPtr s _ => o.Hosts s
  | push s _ v => o.Hosts s ∧ s.holds v = true
  | free .. | newString | newText .. => True
  | heap use => use.Spares o.buffers ∧
    ∀ addr, use = .free addr → addr ∉ Entries.blocks o.table.store.entries

theorem permitted_free {o : Owner V} {addr : UInt32}
    (h : (∀ b ∈ o.buffers, b.addr ≠ addr) ∧ addr ∉ Entries.blocks o.table.store.entries) :
    (heap (.free addr)).Permitted o := by
  refine ⟨h.1, ?_⟩
  rintro _ ⟨⟩
  exact h.2

end ShelfCall

/-- The calls that led from one owner to another with their answers, the newest first. -/
inductive ShelfRun {V : Type} (o : Owner V) : List (ShelfCall × Except Stop Reply) → Owner V → Prop
  | nil : ShelfRun o [] o
  | cons {trace : List (ShelfCall × Except Stop Reply)} {o' : Owner V} (c : ShelfCall) (hRun : ShelfRun o trace o')
      (hPermitted : c.Permitted o') : ShelfRun o ((c, (exec c.perform o').1) :: trace) (exec c.perform o').2

namespace Owner

variable {V : Type} {o o' : Owner V} {l : Shelf}

def Shows (types : List Text) (h : Heap) (x : Series) (e : Entry (Object V)) : Prop :=
  ∃ buf, e.value = .vector x.elem buf ∧ e.typeId = typeNumber types (vecTypeName x.elem.name) ∧
    buf.Stores h x.elem x.items

/-- The objects are strings and the vectors on the shelf, each in blocks of its own. -/
structure Shelves (o : Owner V) (l : Shelf) : Prop where
  declared : Declared o.types o.exports
  lodges : o.Lodges
  unborrowed : ∀ e ∈ o.table.store.entries, e.shared = 0 ∧ e.exclusive = false
  hosted : ∀ addr x, l addr = some x → o.Hosts x.elem
  strings : ∀ e ∈ o.table.store.entries, l e.addr = none → ∃ ptr len, e.value = .string ptr len
  shown : ∀ addr x, l addr = some x →
    ∃ e ∈ o.table.store.entries, e.addr = addr ∧ Shows o.types o.table.heap x e

structure Becomes (o : Owner V) (l : Shelf) (o' : Owner V) : Prop where
  shelves : o'.Shelves l
  types_eq : o'.types = o.types
  exports_eq : o'.exports = o.exports

theorem Shelves.becomes (hs : o.Shelves l) : o.Becomes l o := ⟨hs, rfl, rfl⟩

theorem Becomes.trans {l' : Shelf} {o₂ : Owner V} (hb : o.Becomes l o') (hb' : o'.Becomes l' o₂) : o.Becomes l' o₂ :=
  ⟨hb'.shelves, hb'.types_eq.trans hb.types_eq, hb'.exports_eq.trans hb.exports_eq⟩

theorem Becomes.export?_eq (hb : o.Becomes l o') : o'.export? = o.export? := by
  funext symbol
  rw [export?, export?, hb.exports_eq]

theorem Becomes.hosts {s : Scalar} (hb : o.Becomes l o') (hHosts : o.Hosts s) : o'.Hosts s := by
  intro op
  rw [hb.export?_eq]
  exact hHosts op

theorem Shows.kept {types : List Text} {h h' : Heap} {x : Series} {e : Entry (Object V)} (hx : Shows types h x e)
    (hKept : ∀ c ∈ h.live, c.addr ∈ e.value.blocks →
      c ∈ h'.live ∧ ∀ i, c.extent.Has i → h'.memory.byte i = h.memory.byte i) (hv : h.Valid) :
    Shows types h' x e := by
  obtain ⟨buf, hValue, hType, hStores⟩ := hx
  refine ⟨buf, hValue, hType, hStores.kept fun c hc hAddr => hKept c hc ?_⟩
  rw [hValue, Object.blocks, Buffer.blocks_of_ne (hAddr ▸ hv.live_addr_ne_zero hc), hAddr]
  exact List.mem_cons_self

namespace Shelves

theorem nodup (hs : o.Shelves l) : (Entries.addrs o.table.store.entries).Nodup := hs.lodges.lodged.addrs_nodup

theorem valid (hs : o.Shelves l) : o.table.heap.Valid := hs.lodges.lodged.valid

theorem shows_of_mem (hs : o.Shelves l) {e : Entry (Object V)} (he : e ∈ o.table.store.entries) {x : Series}
    (hx : l e.addr = some x) : Shows o.types o.table.heap x e := by
  obtain ⟨e', he', hAddr, hShows⟩ := hs.shown e.addr x hx
  obtain rfl : e' = e := List.inj_on_of_nodup_map hs.nodup he' he hAddr
  exact hShows

theorem cases_of_mem (hs : o.Shelves l) {e : Entry (Object V)} (he : e ∈ o.table.store.entries) :
    (l e.addr = none ∧ ∃ ptr len, e.value = .string ptr len) ∨
      ∃ x, l e.addr = some x ∧ Shows o.types o.table.heap x e := by
  cases hx : l e.addr with
  | none => exact .inl ⟨rfl, hs.strings e he hx⟩
  | some x => exact .inr ⟨x, rfl, hs.shows_of_mem he hx⟩

theorem isPlain (hs : o.Shelves l) {e : Entry (Object V)} (he : e ∈ o.table.store.entries) : e.value.IsPlain := by
  rcases hs.cases_of_mem he with ⟨-, ptr, len, hValue⟩ | ⟨x, -, buf, hValue, -⟩ <;> rw [hValue] <;> trivial

theorem idle (hs : o.Shelves l) : o.Idle := by
  refine ⟨hs.valid, hs.nodup, hs.unborrowed, fun e he => ?_⟩
  rcases hs.cases_of_mem he with ⟨-, ptr, len, hValue⟩ | ⟨x, -, buf, hValue, -, hStores⟩
  · rw [hValue]
    trivial
  · rw [hValue]
    exact hStores.fits

theorem turned {h : Heap} {es : Entries V} {l' : Shelf} (hs : o.Shelves l) (ht : o.Turned h es o')
    (hLodged : es.Lodged h) (hFree : ∀ e ∈ es, e.shared = 0 ∧ e.exclusive = false)
    (hHosted : ∀ addr x, l' addr = some x → o.Hosts x.elem)
    (hStrings : ∀ e ∈ es, l' e.addr = none → ∃ ptr len, e.value = .string ptr len)
    (hShown : ∀ addr x, l' addr = some x → ∃ e ∈ es, e.addr = addr ∧ Shows o.types h x e) : o.Becomes l' o' := by
  have hEntries : ∀ {e}, e ∈ o'.table.store.entries ↔ e ∈ es := ht.table.entries.mem_iff
  refine ⟨⟨?_, ⟨?_, ?_⟩, fun e he => hFree e (hEntries.mp he), ?_, fun e he => hStrings e (hEntries.mp he), ?_⟩,
    ht.types_eq, ht.exports_eq⟩
  · rw [ht.types_eq, ht.exports_eq]
    exact hs.declared
  · rw [ht.closed_eq, ht.table.closed.1, ht.table.closed.2]
    exact hs.lodges.isOpen
  · rw [ht.table.heap]
    exact hLodged.perm ht.table.entries.symm
  · intro addr x hx op
    rw [export?, ht.exports_eq]
    exact hHosted addr x hx op
  · rw [ht.types_eq, ht.table.heap]
    intro addr x hx
    obtain ⟨e, he, hShows⟩ := hShown addr x hx
    exact ⟨e, hEntries.mpr he, hShows⟩

theorem unchanged (hs : o.Shelves l) (ht : o.Turned o.table.heap o.table.store.entries o') : o.Becomes l o' :=
  hs.turned ht hs.lodges.lodged hs.unborrowed hs.hosted hs.strings hs.shown

theorem used (hs : o.Shelves l) (use : HeapUse) (hPermitted : (ShelfCall.heap use).Permitted o) :
    o.Becomes l (o.withHeap (exec use.perform o.table.heap).2) := by
  have hKeeps := Heap.keeps_use hs.valid hPermitted.1
  refine hs.turned (turned_withHeap o _) (hs.lodges.lodged.use use hPermitted.2) hs.unborrowed hs.hosted hs.strings ?_
  intro addr x hx
  obtain ⟨e, he, hAddr, hShows⟩ := hs.shown addr x hx
  refine ⟨e, he, hAddr, hShows.kept (fun c hc hBlock => ?_) hs.valid⟩
  -- a block of a vector besides its cell is its buffer
  have hBuffer : c ∈ o.buffers := by
    obtain ⟨buf, hValue, -⟩ := hShows
    refine List.mem_filter.mpr ⟨hc, List.any_eq_true.mpr ⟨e, he, ?_⟩⟩
    rw [hValue] at hBlock ⊢
    have hNull : buf.addr ≠ 0 := by
      intro hZero
      rw [Object.blocks, Buffer.blocks, Heap.blockAt, if_pos hZero] at hBlock
      cases hBlock
    rw [Object.blocks, Buffer.blocks_of_ne hNull, List.mem_singleton] at hBlock
    simpa using hBlock.symm
  exact ⟨hKeeps.live c hBuffer hc, hKeeps.bytes c hBuffer hc⟩

variable {h : Heap} {addr : UInt32} {y : Option Series} {rest : Entries V} {old new : List UInt32}

theorem changed (hs : o.Shelves l) (gone come : Entries V) (same : List UInt32)
    (hAt : o.table.store.entries.Perm (gone ++ rest)) (ht : o.Turned h (come ++ rest) o')
    (hr : Heap.Replaced o.table.heap old new h)
    (hGone : gone.blocks.Perm (old ++ same)) (hCome : come.blocks.Perm (new ++ same))
    (hRest : ∀ e ∈ rest, e.addr ≠ addr) (hAddr : ∀ e ∈ gone ++ come, e.addr = addr)
    (hFree : ∀ e ∈ come, e.shared = 0 ∧ e.exclusive = false)
    (hString : y = none → ∀ e ∈ come, ∃ ptr len, e.value = .string ptr len)
    (hShows : ∀ x, y = some x → o.Hosts x.elem ∧ ∃ e ∈ come, Shows o.types h x e) : o.Becomes (l.set addr y) o' := by
  have hBefore : (gone ++ rest).blocks.Perm (old ++ (same ++ rest.blocks)) := by
    rw [Entries.blocks, List.flatMap_append, ← List.append_assoc]
    exact hGone.append_right _
  have hAfter : (come ++ rest).blocks.Perm (new ++ (same ++ rest.blocks)) := by
    rw [Entries.blocks, List.flatMap_append, ← List.append_assoc]
    exact hCome.append_right _
  have hLodged := hs.lodges.lodged.perm hAt
  have hOnce := hBefore.nodup_iff.mp hLodged.blocks_nodup
  have hOther : ∀ e ∈ rest, e ∈ o.table.store.entries := fun e he => hAt.mem_iff.mpr (List.mem_append_right _ he)
  refine hs.turned ht (hLodged.exchange hr hBefore hAfter) ?_ ?_ ?_ ?_
  · intro e he
    exact (List.mem_append.mp he).elim (hFree e) fun he => hs.unborrowed e (hOther e he)
  · intro a x hx
    by_cases hEq : a = addr
    · rw [hEq, Shelf.set_self] at hx
      exact (hShows x hx).1
    · exact hs.hosted a x (l.set_of_ne y hEq ▸ hx)
  · intro e he hNone
    rcases List.mem_append.mp he with he | he
    · rw [hAddr e (List.mem_append_right _ he), Shelf.set_self] at hNone
      exact hString hNone e he
    · exact hs.strings e (hOther e he) (l.set_of_ne y (hRest e he) ▸ hNone)
  · intro a x hx
    by_cases hEq : a = addr
    · rw [hEq, Shelf.set_self] at hx
      obtain ⟨e, he, hShown⟩ := (hShows x hx).2
      exact ⟨e, List.mem_append_left _ he, hEq ▸ hAddr e (List.mem_append_right _ he), hShown⟩
    · obtain ⟨e, he, rfl, hShown⟩ := hs.shown a x (l.set_of_ne y hEq ▸ hx)
      have hMem : e ∈ rest := (List.mem_append.mp (hAt.mem_iff.mp he)).resolve_left fun hGone =>
        hEq (hAddr e (List.mem_append_left _ hGone))
      refine ⟨e, List.mem_append_right _ hMem, rfl, hShown.kept (fun c hc hBlock => hr.kept c hc ?_) hs.valid⟩
      -- its blocks are not among those that were given up
      intro hOld
      have hKept : c.addr ∈ same ++ rest.blocks :=
        List.mem_append_right _ (List.mem_flatMap.mpr ⟨e, hMem, List.mem_cons_of_mem _ hBlock⟩)
      exact (List.nodup_append.mp hOnce).2.2 _ hOld _ hKept rfl

variable {e : Entry (Object V)}

theorem addr_ne_of_perm (hs : o.Shelves l) (hAt : o.table.store.entries.Perm (e :: rest)) :
    ∀ e' ∈ rest, e'.addr ≠ e.addr := by
  intro e' he' hEq
  have hNodup := (hAt.map Entry.addr).nodup_iff.mp hs.nodup
  exact (List.nodup_cons.mp hNodup).1 (hEq ▸ List.mem_map_of_mem he')

theorem revalued {s : Scalar} {xs ys : List Datum} {buf buf' : Buffer} (hs : o.Shelves l)
    (hx : l e.addr = some ⟨s, xs⟩) (hAt : o.table.store.entries.Perm (e :: rest)) (hValue : e.value = .vector s buf)
    (ht : o.Turned h ({ e with value := .vector s buf' } :: rest) o')
    (hr : Heap.Replaced o.table.heap buf.blocks buf'.blocks h) (hStores : buf'.Stores h s ys) :
    o.Becomes (l.set e.addr (some ⟨s, ys⟩)) o' := by
  have he : e ∈ o.table.store.entries := hAt.mem_iff.mpr List.mem_cons_self
  obtain ⟨-, -, hType, -⟩ := hs.shows_of_mem he hx
  have hHosts : o.Hosts s := hs.hosted e.addr ⟨s, xs⟩ hx
  refine hs.changed [e] [{ e with value := .vector s buf' }] [e.addr] hAt ht hr ?_ ?_
    (hs.addr_ne_of_perm hAt) (by simp) ?_ (fun hNone => nomatch hNone) ?_
  · rw [Entries.blocks, List.flatMap_singleton, hValue]
    exact (List.perm_append_singleton e.addr buf.blocks).symm
  · rw [Entries.blocks, List.flatMap_singleton]
    exact (List.perm_append_singleton e.addr buf'.blocks).symm
  · simpa using hs.unborrowed e he
  · rintro x ⟨⟩
    exact ⟨hHosts, _, List.mem_cons_self, buf', rfl, hType, hStores⟩

theorem added (hs : o.Shelves l) (ht : o.Turned h (e :: o.table.store.entries) o')
    (hr : Heap.Replaced o.table.heap [] (e.addr :: e.value.blocks) h) (hFree : e.shared = 0 ∧ e.exclusive = false)
    (hString : y = none → ∃ ptr len, e.value = .string ptr len)
    (hShows : ∀ x, y = some x → o.Hosts x.elem ∧ Shows o.types h x e) :
    l e.addr = none ∧ o.Becomes (l.set e.addr y) o' := by
  have hFresh : ∀ e' ∈ o.table.store.entries, e'.addr ≠ e.addr := by
    intro e' he' hEq
    exact hr.not_mem_new (hs.lodges.lodged.addr_live he') (by simp) (hEq ▸ List.mem_cons_self)
  constructor
  · refine Option.eq_none_iff_forall_ne_some.mpr fun x hx => ?_
    obtain ⟨e', he', hAddr, -⟩ := hs.shown e.addr x hx
    exact hFresh e' he' hAddr
  · refine hs.changed [] [e] [] (.refl _) ht hr (.refl _) ?_ hFresh (by simp)
      (by simpa using hFree) (by simpa using hString) (by simpa using hShows)
    rw [Entries.blocks, List.flatMap_singleton, List.append_nil]

theorem removed (hs : o.Shelves l) (hAt : o.table.store.entries.Perm (e :: rest)) (ht : o.Turned h rest o')
    (hr : Heap.Replaced o.table.heap (e.addr :: e.value.blocks) [] h) : o.Becomes (l.set e.addr none) o' := by
  refine hs.changed [e] [] [] hAt ht hr ?_ (.refl _) (hs.addr_ne_of_perm hAt)
    (by simp) (by simp) (by simp) (by simp)
  rw [Entries.blocks, List.flatMap_singleton, List.append_nil]

end Shelves

end Owner

end Marshal
