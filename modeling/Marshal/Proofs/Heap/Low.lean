import Marshal.Proofs.Heap.Shared

/-! # What any use of a heap preserves

Whoever copies bytes into the heap uses it in no other way than anybody else: by allocating, freeing and writing. So
what survives every such use survives theirs. One such property holds in a memory of any size, even where blocks
overlap: no block reaches past 32 bits.
-/
set_option autoImplicit false
namespace Marshal

open Step

namespace Heap

/-- The property survives whatever is done with the heap. -/
def Steady (P : Heap → Prop) : Prop := ∀ c : HeapUse, Step.Keeps P c.perform

namespace Steady

variable {P : Heap → Prop}

theorem allocate (hp : Steady P) (size align : UInt32) : Step.Keeps P (allocate size align) := by
  intro h hh
  have hUse := hp (.alloc size align) h hh
  rwa [HeapUse.perform, exec_map] at hUse

theorem release (hp : Steady P) (addr : UInt32) : Step.Keeps P (release addr) := hp (.free addr)

theorem write (hp : Steady P) (offset : UInt32) (data : List UInt8) :
    Step.Keeps P (change fun m => m.write offset data) :=
  hp (.write offset data)

theorem giveUp (hp : Steady P) {α : Type} (addr : UInt32) (stop : Stop) :
    Step.Keeps P (do Heap.release addr; throw stop : Step Heap α) :=
  Step.Keeps.bind (hp.release addr) fun _ => Step.Keeps.throw stop

theorem allocateBytes (hp : Steady P) (data : List UInt8) : Step.Keeps P (allocateBytes data) := by
  unfold Heap.allocateBytes
  split
  · exact Step.Keeps.pure _
  · apply Step.Keeps.bind (hp.allocate _ _)
    intro addr
    exact Step.Keeps.bind (Step.Keeps.tryCatch (hp.write addr data) (hp.giveUp addr)) fun _ => Step.Keeps.pure addr

end Steady

theorem steady_valid : Steady Valid := by
  intro c h hv
  have hSpares : c.Spares [] := by
    cases c with
    | alloc size align => trivial
    | free addr => exact List.forall_mem_nil _
    | write offset data => exact List.forall_mem_nil _
    | grow delta => trivial
  exact (keeps_use hv hSpares).valid

/-! ## Low blocks -/

/-- No block, live or waiting, reaches past 32 bits. -/
structure Low (h : Heap) : Prop where
  live : ∀ b ∈ h.live, b.addr.toNat + b.capacity.toNat < 2 ^ 32
  free : ∀ c, ∀ a ∈ h.free c, a.toNat + c.toNat < 2 ^ 32

variable {h h' : Heap} {size align addr : UInt32}

theorem low_start (m : Memory) : Low { memory := m } := ⟨List.forall_mem_nil _, fun _ => List.forall_mem_nil _⟩

theorem Low.setMemory (hl : h.Low) (m : Memory) : Low { h with memory := m } := ⟨hl.live, hl.free⟩

theorem Low.find {cls : UInt32} (hl : h.Low) (hFind : h.find cls align = .ok (addr, h')) :
    h'.Low ∧ addr.toNat + cls.toNat < 2 ^ 32 := by
  rcases find_eq_ok hFind with ⟨hFree, rfl⟩ | ⟨hLow, m, next, -, rfl⟩
  · refine ⟨⟨hl.live, fun c x hx => hl.free c x ?_⟩, hl.free cls addr hFree⟩
    change x ∈ (if c = cls then (h.free cls).erase addr else h.free c) at hx
    split at hx
    · rename_i hEq
      exact hEq ▸ List.mem_of_mem_erase hx
    · exact hx
  · exact ⟨⟨hl.live, hl.free⟩, by omega⟩

theorem Low.alloc? (hl : h.Low) (hAlloc : h.alloc? size align = .ok (addr, h')) :
    h'.Low ∧ addr.toNat + size.toNat < 2 ^ 32 := by
  obtain ⟨-, hSize, h₁, hFind, hOut⟩ := alloc?_eq_ok hAlloc
  obtain ⟨k, -, -, hCls, hHolds⟩ := sizeClass_toNat (asked_le hSize)
  have hAsked := le_asked size
  obtain ⟨hl₁, hLow⟩ := hl.find hFind
  obtain ⟨-, m, -, rfl⟩ := handOut_eq_ok hOut
  refine ⟨⟨List.forall_mem_cons.mpr ⟨hLow, fun b hb => ?_⟩, hl₁.free⟩, by omega⟩
  exact hl₁.live b (List.mem_filter.mp hb).1

theorem steady_low : Steady Low := by
  intro c h hl
  cases c with
  | alloc size align =>
    rw [HeapUse.perform, exec_map, allocate, exec_update]
    cases hAlloc : h.alloc? size align with
    | error r => exact hl
    | ok found => exact (hl.alloc? hAlloc).1
  | free addr =>
    rw [HeapUse.perform, exec_release]
    cases hFree : h.free? addr with
    | error r => exact hl
    | ok h' =>
      unfold free? at hFree
      split at hFree
      · cases hFree
        exact hl
      · split at hFree <;> cases hFree
        rename_i b hBlock
        obtain ⟨hb, rfl⟩ := block?_eq_some hBlock
        refine ⟨fun x hx => hl.live x (List.mem_filter.mp hx).1, fun c a ha => ?_⟩
        change a ∈ (if c = b.capacity then b.addr :: h.free c else h.free c) at ha
        split at ha
        · rename_i hEq
          rcases List.mem_cons.mp ha with rfl | ha
          · exact hEq ▸ hl.live b hb
          · exact hl.free c a ha
        · exact hl.free c a ha
  | write offset data =>
    rw [HeapUse.perform, exec_change]
    cases h.memory.write offset data with
    | error r => exact hl
    | ok m => exact hl.setMemory m
  | grow delta =>
    rw [HeapUse.perform, exec_map, growPages, exec_bind_ok (exec_get h)]
    rcases h.memory.grow delta with ⟨_ | m, previous⟩
    · exact hl
    · exact hl.setMemory m

theorem Low.allocateBytes (hl : h.Low) {data : List UInt8} {ptr : UInt32}
    (hExec : exec (allocateBytes data) h = (.ok ptr, h')) :
    ptr.toNat + data.length.toUInt32.toNat ≤ h'.memory.bytes ∧ ptr.toNat + data.length.toUInt32.toNat < 2 ^ 32 := by
  unfold Heap.allocateBytes at hExec
  split at hExec
  · rename_i hEmpty
    obtain rfl := List.isEmpty_iff.mp hEmpty
    cases hExec
    exact ⟨Nat.zero_le _, by decide⟩
  · have hLength : data.length.toUInt32.toNat ≤ data.length := Nat.mod_le _ _
    cases hAlloc : h.alloc? data.length.toUInt32 1 with
    | error r =>
      rw [exec_bind_error (by rw [allocate, exec_update, hAlloc])] at hExec
      cases hExec
    | ok found =>
      obtain ⟨addr, h₁⟩ := found
      rw [exec_bind_ok (by rw [allocate, exec_update, hAlloc])] at hExec
      by_cases hFits : addr.toNat + data.length ≤ h₁.memory.bytes
      · rw [exec_bind_ok (exec_tryCatch_ok (exec_write hFits))] at hExec
        cases hExec
        exact ⟨Nat.le_trans (Nat.add_le_add_left hLength _) hFits, (hl.alloc? hAlloc).2⟩
      · -- a copy that does not fit is given up
        have hWrite : exec (change fun m => m.write addr data) h₁ =
            (.error (.refused (.report (Memory.outOfBounds "write" addr data.length.toUInt32))), h₁) := by
          rw [exec_change, Memory.write, if_neg hFits]
        rw [exec_bind, exec_tryCatch_error hWrite, exec_bind] at hExec
        generalize exec (release addr) h₁ = out at hExec
        rcases out with ⟨_ | _, _⟩ <;> cases hExec

end Heap

end Marshal
