import Mathlib.Algebra.GroupWithZero.Nat
import Marshal.Proofs.Heap.Steps

/-! # The heap as independent blocks

A ledger is what the callers of a heap know: for each block they hold, its address, the size they asked for
and the bytes they put there. It is kept from the calls and their answers alone, so a write touches one
entry and nothing else ever changes one. Every run of calls that stay inside live blocks leaves a heap
whose own view of its blocks is that ledger.
-/
set_option autoImplicit false
namespace Marshal

open Step

structure Parcel where
  addr : UInt32
  size : UInt32
  bytes : List UInt8

structure Ledger where
  parcels : List Parcel := []
  allocs : Nat := 0
  frees : Nat := 0

/-- A call on the heap. Reads and writes name the block they are for and a position in it. -/
inductive HeapCall where
  | alloc (size align : UInt32)
  | free (addr : UInt32)
  | write (addr offset : UInt32) (data : List UInt8)
  | read (addr offset length : UInt32)

inductive HeapAnswer where
  | address (addr : UInt32)
  | done
  | bytes (bs : List UInt8)

namespace HeapCall

def perform : HeapCall → Step Heap HeapAnswer
  | .alloc size align => .address <$> Heap.allocate size align
  | .free addr => (fun _ => .done) <$> Heap.release addr
  | .write addr offset data => (fun _ => .done) <$> Heap.change fun m => m.write (addr + offset) data
  | .read addr offset length => .bytes <$> Heap.readBytes (addr + offset) length

def Inside (h : Heap) (addr offset : UInt32) (length : Nat) : Prop :=
  ∃ b ∈ h.live, b.addr = addr ∧ offset.toNat + length ≤ b.capacity.toNat

/-- Reads and writes stay inside a live block; nothing is asked of the other calls. -/
def Confined (h : Heap) : HeapCall → Prop
  | .alloc .. => True
  | .free _ => True
  | .write addr offset data => Inside h addr offset data.length
  | .read addr offset length => Inside h addr offset length.toNat

end HeapCall

namespace Parcel

def put (p : Parcel) (offset : Nat) (data : List UInt8) : Parcel :=
  { p with bytes := p.bytes.take offset ++ data ++ p.bytes.drop (offset + data.length) }

end Parcel

namespace Ledger

/-- The ledger after a call and its answer. A call that failed leaves it as it is. -/
def record (l : Ledger) : HeapCall → Except Stop HeapAnswer → Ledger
  | .alloc size _, .ok (.address addr) =>
    { l with
      parcels := ⟨addr, Heap.asked size, List.replicate (Heap.sizeClass (Heap.asked size)).toNat 0⟩ :: l.parcels
      allocs := l.allocs + 1 }
  | .free addr, .ok _ =>
    if addr = 0 then l
    else { l with parcels := l.parcels.filter (·.addr ≠ addr), frees := l.frees + 1 }
  | .write addr offset data, .ok _ =>
    { l with parcels := l.parcels.map fun p => if p.addr = addr then p.put offset.toNat data else p }
  | _, _ => l

def ofTrace : List (HeapCall × Except Stop HeapAnswer) → Ledger
  | [] => {}
  | (c, answer) :: earlier => (ofTrace earlier).record c answer

end Ledger

/-- The calls made on a new heap over the memory, newest first and with their answers, and the heap they
leave. -/
inductive HeapRun (m : Memory) : List (HeapCall × Except Stop HeapAnswer) → Heap → Prop
  | start : HeapRun m [] { memory := m }
  | call {trace : List (HeapCall × Except Stop HeapAnswer)} {h h' : Heap} {c : HeapCall}
      {answer : Except Stop HeapAnswer} (hRun : HeapRun m trace h) (hConfined : c.Confined h)
      (hExec : exec c.perform h = (answer, h')) : HeapRun m ((c, answer) :: trace) h'

namespace Heap

def contents (h : Heap) (b : Block) : List UInt8 := h.memory.slice b.addr.toNat b.capacity.toNat

def parcel (h : Heap) (b : Block) : Parcel := ⟨b.addr, b.size, h.contents b⟩

def ledger (h : Heap) : Ledger := ⟨h.live.map h.parcel, h.allocs, h.frees⟩

variable {h h' : Heap}

variable {answer : Except Stop HeapAnswer} {b : Block} {data : List UInt8} {offset : UInt32}

theorem contents_congr (hKept : ∀ i, b.extent.Has i → h'.memory.byte i = h.memory.byte i) :
    h'.contents b = h.contents b :=
  Memory.slice_congr fun i hLow hHigh => hKept i ⟨hLow, hHigh⟩

variable {size align addr : UInt32}

theorem Allocated.contents_new (ha : Allocated h size align addr h') :
    h'.contents ⟨addr, sizeClass (asked size), asked size⟩ =
      List.replicate (sizeClass (asked size)).toNat 0 := by
  refine List.eq_replicate_iff.mpr ⟨Memory.length_slice .., ?_⟩
  intro x hx
  obtain ⟨i, hi, rfl⟩ := List.mem_map.mp hx
  have hLt := List.mem_range.mp hi
  exact ha.cleared _ ⟨Nat.le_add_right .., Nat.add_lt_add_left hLt _⟩

theorem Allocated.contents_kept (ha : Allocated h size align addr h')
    (hb : b ∈ h.live) : h'.contents b = h.contents b :=
  contents_congr (ha.kept b hb)

theorem Freed.contents_kept (hf : Freed h b h') (c : Block) : h'.contents c = h.contents c := by
  rw [contents, hf.memory, contents]

def written (h : Heap) (b : Block) (offset : UInt32) (data : List UInt8) : Heap :=
  { h with memory := h.memory.overwrite (b.addr.toNat + offset.toNat) data.toArray }

theorem contents_written_self (hFits : offset.toNat + data.length ≤ b.capacity.toNat) :
    (h.written b offset data).contents b =
      (h.contents b).take offset.toNat ++ data ++ (h.contents b).drop (offset.toNat + data.length) :=
  Memory.slice_overwrite_within _ hFits

theorem contents_written_apart {b c : Block}
    (hFits : offset.toNat + data.length ≤ b.capacity.toNat) (hApart : c.extent.Apart b.extent) :
    (h.written b offset data).contents c = h.contents c := by
  refine Memory.slice_overwrite_apart _ ?_
  simp only [Extent.Apart, Block.extent] at hApart
  omega

/-! ## One call -/

theorem ledger_alloc (hv : h.Valid) {size align : UInt32}
    (hExec : exec (HeapCall.alloc size align).perform h = (answer, h')) :
    h'.Valid ∧ h'.ledger = h.ledger.record (.alloc size align) answer := by
  rw [HeapCall.perform, exec_map] at hExec
  rcases exec_allocate_cases hv size align with ⟨r, hRun⟩ | ⟨addr, h₁, hRun, ha⟩
  · rw [hRun] at hExec
    cases hExec
    exact ⟨hv, rfl⟩
  · rw [hRun] at hExec
    cases hExec
    refine ⟨ha.valid, ?_⟩
    have hOld : h.live.map h₁.parcel = h.live.map h.parcel := by
      apply List.map_congr_left
      intro b hb
      rw [parcel, ha.contents_kept hb, parcel]
    simp only [ledger, ha.live, ha.allocs, ha.frees, List.map_cons, hOld, parcel, ha.contents_new]
    rfl

theorem ledger_free (hv : h.Valid) {addr : UInt32} (hExec : exec (HeapCall.free addr).perform h = (answer, h')) :
    h'.Valid ∧ h'.ledger = h.ledger.record (.free addr) answer := by
  rw [HeapCall.perform, exec_map] at hExec
  by_cases hNull : addr = 0
  · subst hNull
    rw [exec_release_null] at hExec
    cases hExec
    exact ⟨hv, rfl⟩
  · cases hLive : h.isLive addr with
    | false =>
      rw [exec_release_dead hNull hLive] at hExec
      cases hExec
      exact ⟨hv, rfl⟩
    | true =>
      obtain ⟨b, hb, rfl⟩ := isLive_iff.mp hLive
      obtain ⟨h₁, hRun, hf⟩ := exec_release_live hv hb
      rw [hRun] at hExec
      cases hExec
      refine ⟨hf.valid, ?_⟩
      have hParcel : h₁.parcel = h.parcel := by
        funext c
        rw [parcel, hf.contents_kept, parcel]
      simp only [ledger, hf.live, hf.allocs, hf.frees, hParcel, Ledger.record, Except.map, if_neg hNull,
        List.filter_map]
      rfl

theorem exec_write_block (hv : h.Valid) (hb : b ∈ h.live) (hFits : offset.toNat + data.length ≤ b.capacity.toNat) :
    exec (HeapCall.write b.addr offset data).perform h = (.ok .done, h.written b offset data) := by
  have hAt := hv.offset_toNat hb offset (by omega)
  have hBytes := hv.live_bytes hb
  rw [HeapCall.perform, exec_map, exec_write (by rw [hAt]; omega), hAt]
  rfl

theorem ledger_write (hv : h.Valid) {addr offset : UInt32} (hInside : HeapCall.Inside h addr offset data.length)
    (hExec : exec (HeapCall.write addr offset data).perform h = (answer, h')) :
    h'.Valid ∧ h'.ledger = h.ledger.record (.write addr offset data) answer := by
  obtain ⟨b, hb, rfl, hFits⟩ := hInside
  rw [exec_write_block hv hb hFits] at hExec
  cases hExec
  refine ⟨hv.setMemory rfl rfl, ?_⟩
  simp only [ledger, Ledger.record, List.map_map]
  congr 1
  apply List.map_congr_left
  intro c hc
  show (h.written b offset data).parcel c =
    if c.addr = b.addr then (h.parcel c).put offset.toNat data else h.parcel c
  split
  · rename_i hEq
    rw [hv.live_ext hc hb hEq, parcel, contents_written_self hFits]
    rfl
  · rename_i hNe
    rw [parcel, contents_written_apart hFits (hv.apart_of_ne hc hb hNe), parcel]

theorem exec_read (hv : h.Valid) (hb : b ∈ h.live) {offset length : UInt32}
    (hFits : offset.toNat + length.toNat ≤ b.capacity.toNat) :
    exec (HeapCall.read b.addr offset length).perform h =
      (.ok (.bytes (((h.contents b).drop offset.toNat).take length.toNat)), h) := by
  have hAt := hv.offset_toNat hb offset (by omega)
  have hBytes := hv.live_bytes hb
  rw [HeapCall.perform, exec_map, exec_readBytes (by rw [hAt]; omega), hAt]
  rw [Memory.slice_part _ hFits]
  rfl

theorem contents_unchanged (hv : h.Valid) {c : HeapCall}
    (hConfined : c.Confined h) (hExec : exec c.perform h = (answer, h')) (hb : b ∈ h.live)
    (hOther : ∀ offset data, c ≠ .write b.addr offset data) : h'.contents b = h.contents b := by
  cases c with
  | alloc size align =>
    rw [HeapCall.perform, exec_map] at hExec
    rcases exec_allocate_cases hv size align with ⟨r, hRun⟩ | ⟨addr, h₁, hRun, ha⟩ <;>
      rw [hRun] at hExec <;> cases hExec
    · rfl
    · exact ha.contents_kept hb
  | free addr =>
    rw [HeapCall.perform, exec_map, exec_release] at hExec
    cases hFree : h.free? addr <;> rw [hFree] at hExec <;> cases hExec
    · rfl
    · rw [contents, free?_memory hFree, contents]
  | write addr offset data =>
    obtain ⟨d, hd, rfl, hFits⟩ := hConfined
    have hNe : b.addr ≠ d.addr := fun hEq => hOther offset data (by rw [hEq])
    rw [exec_write_block hv hd hFits] at hExec
    cases hExec
    exact contents_written_apart hFits (hv.apart_of_ne hb hd hNe)
  | read addr offset length =>
    obtain ⟨d, hd, rfl, hFits⟩ := hConfined
    rw [exec_read hv hd hFits] at hExec
    cases hExec
    rfl

/-- A confined call keeps the heap valid and does to its blocks what the ledger says. -/
theorem ledger_call (hv : h.Valid) {c : HeapCall}
    (hConfined : c.Confined h) (hExec : exec c.perform h = (answer, h')) :
    h'.Valid ∧ h'.ledger = h.ledger.record c answer := by
  cases c with
  | alloc size align => exact ledger_alloc hv hExec
  | free addr => exact ledger_free hv hExec
  | write addr offset data => exact ledger_write hv hConfined hExec
  | read addr offset length =>
    obtain ⟨b, hb, rfl, hFits⟩ := hConfined
    rw [exec_read hv hb hFits] at hExec
    cases hExec
    exact ⟨hv, rfl⟩

end Heap

/-! ## Every run -/

variable {trace : List (HeapCall × Except Stop HeapAnswer)}

theorem HeapRun.ledger_eq {m : Memory} (hPages : m.pages ≤ m.maxPages) (hLimit : m.maxPages ≤ 65535)
    {h : Heap} (hRun : HeapRun m trace h) :
    h.Valid ∧ h.ledger = Ledger.ofTrace trace := by
  induction hRun with
  | start => exact ⟨.of_memory hPages hLimit, rfl⟩
  | call hRun hConfined hExec ih =>
    obtain ⟨hv, hLedger⟩ := ih
    obtain ⟨hv', hLedger'⟩ := Heap.ledger_call hv hConfined hExec
    exact ⟨hv', by rw [hLedger', hLedger, Ledger.ofTrace]⟩

/-- What the callers of a heap with that ledger may rely on. -/
structure Heap.Serves (h : Heap) (l : Ledger) : Prop where
  /-- Every block holds what was put there, whatever was done with the others. -/
  ledger : h.ledger = l
  placed : ∀ b ∈ h.live, 16 ≤ b.addr.toNat ∧ b.capacity = sizeClass b.size ∧
    b.addr.toNat + b.capacity.toNat ≤ h.memory.bytes
  apart : h.live.Pairwise Block.Apart
  waiting_apart : ∀ b ∈ h.live, ∀ c, ∀ a ∈ h.free c, b.extent.Apart (place a c)
  waiting_once : ∀ c, (h.free c).Nodup ∧ ∀ a ∈ h.free c, h.isLive a = false ∧ ∀ c', a ∈ h.free c' → c' = c
  alloc : ∀ size align addr h', exec (allocate size align) h = (.ok addr, h') →
    16 ≤ addr.toNat ∧ (askedAlign align).toNat ∣ addr.toNat ∧
      addr.toNat + (sizeClass (asked size)).toNat ≤ h'.memory.bytes ∧
      (∀ b ∈ h.live, b.extent.Apart (place addr (sizeClass (asked size)))) ∧
      (∀ c, ∀ a ∈ h'.free c, (place addr (sizeClass (asked size))).Apart (place a c)) ∧
      h'.memory.slice addr.toNat (sizeClass (asked size)).toNat =
        List.replicate (sizeClass (asked size)).toNat 0
  unchanged : ∀ (c : HeapCall) answer h', c.Confined h → exec c.perform h = (answer, h') →
    ∀ b ∈ h.live, (∀ offset data, c ≠ .write b.addr offset data) → h'.contents b = h.contents b
  read : ∀ b ∈ h.live, ∀ offset length : UInt32, offset.toNat + length.toNat ≤ b.capacity.toNat →
    exec (HeapCall.read b.addr offset length).perform h =
      (.ok (.bytes (((h.contents b).drop offset.toNat).take length.toNat)), h)
  free_live : ∀ b ∈ h.live, ∃ h', exec (release b.addr) h = (.ok (), h') ∧ h'.isLive b.addr = false
  free_dead : ∀ addr, addr ≠ 0 → h.isLive addr = false →
    exec (release addr) h = (.error (.trapped (.report (.doubleFree .heap addr))), h)
  counted : h.stats.allocs = h.stats.frees + h.stats.live
  counters : h.stats.allocs = l.allocs ∧ h.stats.frees = l.frees ∧ h.stats.live = l.parcels.length
  liveBytes : h.stats.liveBytes = (l.parcels.map fun p => p.size.toNat).sum

theorem Heap.stats_liveBytes (h : Heap) :
    h.stats.liveBytes = (h.ledger.parcels.map fun p => p.size.toNat).sum := by
  show h.live.foldl (fun n b => n + b.size.toNat) 0 = _
  rw [Heap.ledger, List.map_map, List.sum_eq_foldl, List.foldl_map]
  rfl

/-- After every run of confined calls on a new heap, the heap serves its callers as if each of their blocks
were a memory of its own. -/
theorem HeapRun.serves {m : Memory} (hPages : m.pages ≤ m.maxPages) (hLimit : m.maxPages ≤ 65535)
    {trace : List (HeapCall × Except Stop HeapAnswer)} {h : Heap} (hRun : HeapRun m trace h) :
    h.Serves (Ledger.ofTrace trace) := by
  obtain ⟨hv, hLedger⟩ := hRun.ledger_eq hPages hLimit
  refine ⟨hLedger, ?_, hv.live_apart, hv.live_free_apart, ?_, ?_, ?_, ?_, ?_, ?_, hv.counted, ?_, ?_⟩
  · intro b hb
    exact ⟨(hv.live_within b hb).1, (hv.sized b hb).1, hv.live_bytes hb⟩
  · intro c
    refine ⟨hv.free_nodup c, ?_⟩
    intro a ha
    refine ⟨?_, fun c' ha' => hv.free_class_unique ha' ha⟩
    rw [← Bool.not_eq_true, Heap.isLive_iff]
    rintro ⟨b, hb, rfl⟩
    exact hv.live_not_free hb c ha
  · intro size align addr h' hExec
    rcases Heap.exec_allocate_cases hv size align with ⟨r, hRefused⟩ | ⟨addr', h₁, hOk, ha⟩
    · rw [hRefused] at hExec
      cases hExec
    · rw [hOk] at hExec
      cases hExec
      have hNew : ⟨addr, Heap.sizeClass (Heap.asked size), Heap.asked size⟩ ∈ h'.live := by
        rw [ha.live]
        exact List.mem_cons_self
      have hApart := ha.valid.live_apart
      rw [ha.live, List.pairwise_cons] at hApart
      exact ⟨(ha.valid.live_within _ hNew).1, ha.aligned, ha.valid.live_bytes hNew,
        fun b hb => (hApart.1 b hb).symm, ha.valid.live_free_apart _ hNew, ha.contents_new⟩
  · intro c answer h' hConfined hExec b hb hOther
    exact Heap.contents_unchanged hv hConfined hExec hb hOther
  · intro b hb offset length hFits
    exact Heap.exec_read hv hb hFits
  · intro b hb
    obtain ⟨h', hExec, hf⟩ := Heap.exec_release_live hv hb
    refine ⟨h', hExec, ?_⟩
    rw [← Bool.not_eq_true, Heap.isLive_iff, hf.live]
    rintro ⟨c, hc, hEq⟩
    simp [hEq] at hc
  · intro addr hNull hDead
    exact Heap.exec_release_dead hNull hDead
  · rw [← hLedger]
    exact ⟨rfl, rfl, (List.length_map ..).symm⟩
  · rw [← hLedger]
    exact h.stats_liveBytes

theorem HeapRun.next {m : Memory} {h : Heap} (hRun : HeapRun m trace h) (c : HeapCall) (hConfined : c.Confined h) :
    HeapRun m ((c, (exec c.perform h).1) :: trace) (exec c.perform h).2 :=
  hRun.call hConfined rfl

/-- A block is freed after a write and handed out again for a smaller request. -/
theorem HeapRun.serves_reused :
    ∃ trace h, HeapRun { pages := 1, maxPages := 65535, byte := fun _ => 9 } trace h ∧
      trace.map Prod.fst = [.alloc 3 8, .free 16, .free 16, .write 16 1 [7], .alloc 5 0] ∧
      h.live = [⟨16, 8, 3⟩] ∧ h.Serves (Ledger.ofTrace trace) := by
  have hFirst := HeapRun.start (m := { pages := 1, maxPages := 65535, byte := fun _ => 9 }).next
    (.alloc 5 0) trivial
  have hWritten := hFirst.next (.write 16 1 [7]) ⟨⟨16, 8, 5⟩, by decide, rfl, by decide⟩
  have hFreed := hWritten.next (.free 16) trivial
  have hRun := (hFreed.next (.free 16) trivial).next (.alloc 3 8) trivial
  exact ⟨_, _, hRun, rfl, by decide, hRun.serves (by decide) (by decide)⟩

end Marshal
