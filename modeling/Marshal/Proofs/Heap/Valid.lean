import Mathlib.Data.List.Nodup
import Mathlib.Data.List.Pairwise
import Marshal.Proofs.Align

/-! # Valid heaps

The blocks of a heap are those that are live and those that wait on a free list. In a valid heap they lie
between the reserved bytes and the end of what has been cut, no two of them overlap, and none waits twice.
Allocating and freeing keep a heap valid; what an allocation does to the live blocks and to the bytes is
said once, in `Allocated`, and everything else about it follows from there.

The page limit is at most 65535, so that rounding an address up never wraps.
-/
set_option autoImplicit false
namespace Marshal

structure Extent where
  start : Nat
  size : Nat

namespace Extent

def Apart (e f : Extent) : Prop := e.start + e.size ≤ f.start ∨ f.start + f.size ≤ e.start

theorem Apart.symm {e f : Extent} (h : e.Apart f) : f.Apart e := Or.symm h

def Has (e : Extent) (i : Nat) : Prop := e.start ≤ i ∧ i < e.start + e.size

theorem Apart.not_has {e f : Extent} (h : e.Apart f) {i : Nat} (hi : e.Has i) : ¬ f.Has i := by
  unfold Apart Has at *
  omega

theorem Apart.start_ne {e f : Extent} (h : e.Apart f) (he : 0 < e.size) (hf : 0 < f.size) :
    e.start ≠ f.start := by
  unfold Apart at h
  omega

end Extent

namespace Block

def extent (b : Block) : Extent := ⟨b.addr.toNat, b.capacity.toNat⟩

def Apart (b c : Block) : Prop := b.extent.Apart c.extent

instance : Std.Symm Apart := ⟨fun _ _ h => Extent.Apart.symm h⟩

end Block

namespace Heap

def place (addr cls : UInt32) : Extent := ⟨addr.toNat, cls.toNat⟩

def Within (h : Heap) (e : Extent) : Prop := 16 ≤ e.start ∧ 0 < e.size ∧ e.start + e.size ≤ h.next.toNat

structure Valid (h : Heap) : Prop where
  pages_le : h.memory.pages ≤ h.memory.maxPages
  maxPages_le : h.memory.maxPages ≤ 65535
  next_low : 16 ≤ h.next.toNat
  next_high : h.next.toNat ≤ max 16 h.memory.bytes
  live_within : ∀ b ∈ h.live, h.Within b.extent
  free_within : ∀ c, ∀ a ∈ h.free c, h.Within (place a c)
  live_apart : h.live.Pairwise Block.Apart
  free_nodup : ∀ c, (h.free c).Nodup
  free_apart : ∀ c, ∀ a ∈ h.free c, ∀ c', ∀ a' ∈ h.free c', c ≠ c' ∨ a ≠ a' →
    (place a c).Apart (place a' c')
  live_free_apart : ∀ b ∈ h.live, ∀ c, ∀ a ∈ h.free c, b.extent.Apart (place a c)
  sized : ∀ b ∈ h.live, b.capacity = sizeClass b.size ∧ 0 < b.size.toNat ∧ b.size.toNat ≤ 2 ^ 30
  counted : h.allocs = h.frees + h.live.length

namespace Valid

variable {h : Heap}

theorem bytes_le (hv : h.Valid) : h.memory.bytes ≤ 65535 * 65536 := by
  have := hv.pages_le
  have := hv.maxPages_le
  exact Nat.mul_le_mul_right 65536 (by omega)

theorem memory_size (hv : h.Valid) : h.memory.size.toNat = h.memory.bytes := by
  have := hv.bytes_le
  have hMin : min h.memory.bytes 0xFFFFFFFF = h.memory.bytes := Nat.min_eq_left (by omega)
  rw [Memory.size, hMin]
  exact UInt32.toNat_ofNat_of_lt' (show _ < 2 ^ 32 by omega)

theorem within_bytes (hv : h.Valid) {e : Extent} (he : h.Within e) : e.start + e.size ≤ h.memory.bytes := by
  have := hv.next_high
  obtain ⟨hLow, hSize, hHigh⟩ := he
  omega

theorem live_bytes (hv : h.Valid) {b : Block} (hb : b ∈ h.live) :
    b.addr.toNat + b.capacity.toNat ≤ h.memory.bytes :=
  hv.within_bytes (hv.live_within b hb)

theorem live_addr_ne_zero (hv : h.Valid) {b : Block} (hb : b ∈ h.live) : b.addr ≠ 0 := by
  intro hZero
  have hLow : 16 ≤ b.addr.toNat := (hv.live_within b hb).1
  rw [hZero] at hLow
  exact absurd hLow (by decide)

theorem live_addr_nodup (hv : h.Valid) : (h.live.map Block.addr).Nodup := by
  rw [List.Nodup, List.pairwise_map]
  refine List.Pairwise.imp_of_mem ?_ hv.live_apart
  intro b c hb hc hApart hEq
  exact hApart.start_ne (hv.live_within b hb).2.1 (hv.live_within c hc).2.1 (congrArg UInt32.toNat hEq)

theorem live_ext (hv : h.Valid) {b c : Block} (hb : b ∈ h.live) (hc : c ∈ h.live)
    (hEq : b.addr = c.addr) : b = c :=
  List.inj_on_of_nodup_map hv.live_addr_nodup hb hc hEq

theorem apart_of_ne (hv : h.Valid) {b c : Block} (hb : b ∈ h.live) (hc : c ∈ h.live)
    (hNe : b.addr ≠ c.addr) : b.extent.Apart c.extent :=
  hv.live_apart.forall hb hc fun hEq => hNe (congrArg Block.addr hEq)

theorem live_not_free (hv : h.Valid) {b : Block} (hb : b ∈ h.live) (c : UInt32) : b.addr ∉ h.free c := by
  intro hFree
  exact (hv.live_free_apart b hb c b.addr hFree).start_ne (hv.live_within b hb).2.1
    (hv.free_within c b.addr hFree).2.1 rfl

theorem free_class_unique (hv : h.Valid) {c c' a : UInt32} (ha : a ∈ h.free c) (ha' : a ∈ h.free c') :
    c = c' := by
  apply Classical.byContradiction
  intro hNe
  exact (hv.free_apart c a ha c' a ha' (.inl hNe)).start_ne (hv.free_within c a ha).2.1
    (hv.free_within c' a ha').2.1 rfl

theorem of_memory {m : Memory} (hPages : m.pages ≤ m.maxPages) (hLimit : m.maxPages ≤ 65535) :
    ({ memory := m } : Heap).Valid where
  pages_le := hPages
  maxPages_le := hLimit
  next_low := Nat.le_refl 16
  next_high := Nat.le_max_left ..
  live_within := by simp
  free_within := by simp
  live_apart := .nil
  free_nodup := by simp
  free_apart := by simp
  live_free_apart := by simp
  sized := by simp
  counted := rfl

end Valid

theorem block?_eq_some {h : Heap} {addr : UInt32} {b : Block} (hb : h.block? addr = some b) :
    b ∈ h.live ∧ b.addr = addr :=
  ⟨List.mem_of_find?_eq_some hb, by simpa using List.find?_some hb⟩

theorem block?_of_mem {h : Heap} (hv : h.Valid) {b : Block} (hb : b ∈ h.live) :
    h.block? b.addr = some b := by
  cases hFound : h.block? b.addr with
  | none => simpa using List.find?_eq_none.mp hFound b hb
  | some c =>
    obtain ⟨hc, hAddr⟩ := block?_eq_some hFound
    rw [hv.live_ext hc hb hAddr]

theorem isLive_iff {h : Heap} {addr : UInt32} : h.isLive addr = true ↔ ∃ b ∈ h.live, b.addr = addr := by
  simp [isLive, block?]

end Heap

end Marshal
