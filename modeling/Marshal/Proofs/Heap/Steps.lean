import Marshal.Proofs.Heap.Allocate
import Marshal.Proofs.Step

/-! # Steps on a valid heap

What the heap's steps do when they run: an allocation is refused and changes nothing, or gives a block as
`Allocated` says; a release succeeds exactly on live addresses; reads and writes inside the memory succeed.
-/
set_option autoImplicit false
namespace Marshal
namespace Heap

open Step

def Refuses (h : Heap) (size align : UInt32) : Prop :=
  ∃ r, exec (allocate size align) h = (.error (.refused (.report r)), h)

variable {h : Heap}

theorem exec_allocate_cases (hv : h.Valid) (size align : UInt32) : h.Refuses size align ∨
      ∃ addr h', exec (allocate size align) h = (.ok addr, h') ∧ Allocated h size align addr h' := by
  unfold Refuses
  rw [allocate, exec_update]
  cases hAlloc : h.alloc? size align with
  | error r => exact .inl ⟨r, rfl⟩
  | ok found => exact .inr ⟨found.1, found.2, rfl, alloc?_allocated hv hAlloc⟩

theorem exec_release (h : Heap) (addr : UInt32) :
    exec (release addr) h = match h.free? addr with
      | .ok h' => (.ok (), h')
      | .error r => (.error (.trapped (.report r)), h) := by
  rw [release, exec_bind_ok (exec_get h)]
  cases h.free? addr <;> rfl

@[simp] theorem exec_release_null (h : Heap) : exec (release 0) h = (.ok (), h) := by
  rw [exec_release]
  rfl

theorem exec_release_live (hv : h.Valid) {b : Block} (hb : b ∈ h.live) :
    ∃ h', exec (release b.addr) h = (.ok (), h') ∧ Freed h b h' := by
  obtain ⟨h', hFree, hFreed⟩ := free?_of_live hv hb
  exact ⟨h', by rw [exec_release, hFree], hFreed⟩

theorem exec_release_dead {addr : UInt32} (hNull : addr ≠ 0) (hDead : h.isLive addr = false) :
    exec (release addr) h = (.error (.trapped (.report (.doubleFree .heap addr))), h) := by
  rw [exec_release, free?_of_not_live hNull hDead]

theorem exec_change (f : Memory → Except Report Memory) (h : Heap) :
    exec (change f) h = match f h.memory with
      | .ok m => (.ok (), { h with memory := m })
      | .error r => (.error (.refused (.report r)), h) := by
  rw [change, onMemory, exec_within, Memory.change, exec_update]
  cases f h.memory <;> rfl

theorem exec_write {offset : UInt32} {data : List UInt8} (hFits : offset.toNat + data.length ≤ h.memory.bytes) :
    exec (change fun m => m.write offset data) h =
      (.ok (), { h with memory := h.memory.overwrite offset.toNat data.toArray }) := by
  rw [exec_change, Memory.write_of_fits hFits]

theorem exec_inspect {α : Type} (f : Memory → Except Report α) (h : Heap) :
    exec (inspect f) h = ((f h.memory).mapError fun r => .refused (.report r), h) := by
  rw [inspect, exec_bind_ok (exec_get h), exec_ofExcept]

theorem exec_readBytes {addr length : UInt32} (hFits : addr.toNat + length.toNat ≤ h.memory.bytes) :
    exec (readBytes addr length) h = (.ok (h.memory.slice addr.toNat length.toNat), h) := by
  unfold readBytes
  split
  · rename_i hZero
    rw [hZero]
    rfl
  · rw [exec_inspect, Memory.read_of_fits hFits]
    rfl

theorem exec_readBytes_cases (h : Heap) (addr length : UInt32) :
    (∃ r, exec (readBytes addr length) h = (.error (.refused (.report r)), h)) ∨
      ∃ bytes, exec (readBytes addr length) h = (.ok bytes, h) := by
  unfold readBytes
  split
  · exact .inr ⟨[], rfl⟩
  · rw [exec_inspect]
    cases h.memory.read addr length with
    | error r => exact .inl ⟨r, rfl⟩
    | ok bytes => exact .inr ⟨bytes, rfl⟩

theorem Valid.offset_toNat (hv : h.Valid) {b : Block} (hb : b ∈ h.live) (offset : UInt32)
    (hOffset : offset.toNat ≤ b.capacity.toNat) : (b.addr + offset).toNat = b.addr.toNat + offset.toNat := by
  have hBytes := hv.live_bytes hb
  have hLimit := hv.bytes_le
  rw [UInt32.toNat_add]
  exact Nat.mod_eq_of_lt (by omega)

end Heap

end Marshal
