import Marshal.Proofs.Heap.Low

/-! # The classes of blocks

A block is cut with a class and keeps it for good: while it is live, and while it waits on the free list of that class.
So blocks of different classes never overlap, whatever has been freed and handed out in between, and an allocation
leaves alone what lies in a block of another class, even if that block has been freed.
-/
set_option autoImplicit false
namespace Marshal

open Step

namespace Heap

/-- A block of the class was cut at the address. It is live or waits. -/
def Cut (h : Heap) (addr cls : UInt32) : Prop :=
  (∃ b ∈ h.live, b.addr = addr ∧ b.capacity = cls) ∨ addr ∈ h.free cls

variable {h h' h₁ : Heap} {size align addr cls a c : UInt32}

theorem cut_of_mem {b : Block} (hb : b ∈ h.live) : h.Cut b.addr b.capacity := .inl ⟨b, hb, rfl, rfl⟩

theorem Cut.within (hc : h.Cut addr cls) (hv : h.Valid) : h.Within (place addr cls) := by
  rcases hc with ⟨b, hb, rfl, rfl⟩ | hFree
  · exact hv.live_within b hb
  · exact hv.free_within cls addr hFree

theorem Cut.apart (hc : h.Cut addr cls) (hv : h.Valid) {b : Block} (hb : b ∈ h.live) (hNe : b.capacity ≠ cls) :
    b.extent.Apart (place addr cls) := by
  rcases hc with ⟨d, hd, rfl, rfl⟩ | hFree
  · refine hv.apart_of_ne hb hd fun hEq => hNe ?_
    rw [hv.live_ext hb hd hEq]
  · exact hv.live_free_apart b hb cls addr hFree

/-! ## Blocks keep their class -/

theorem mem_free_of_find (hFind : h.find cls align = .ok (addr, h₁)) (ha : a ∈ h.free c) :
    a ∈ h₁.free c ∨ a = addr ∧ c = cls := by
  rcases find_eq_ok hFind with ⟨-, rfl⟩ | ⟨-, m, next, -, rfl⟩
  · show a ∈ (if c = cls then (h.free cls).erase addr else h.free c) ∨ _
    split
    · rename_i hEq
      rcases eq_or_ne a addr with hAddr | hAddr
      · exact .inr ⟨hAddr, hEq⟩
      · exact .inl ((List.mem_erase_of_ne hAddr).mpr (hEq ▸ ha))
    · exact .inl ha
  · exact .inl ha

theorem Cut.alloc? (hc : h.Cut a c) (hv : h.Valid) (hAlloc : h.alloc? size align = .ok (addr, h')) : h'.Cut a c := by
  have hLive := (alloc?_allocated hv hAlloc).live
  rcases hc with ⟨b, hb, hAddr, hClass⟩ | hFree
  · exact .inl ⟨b, hLive ▸ List.mem_cons_of_mem _ hb, hAddr, hClass⟩
  · obtain ⟨-, -, h₁, hFind, hOut⟩ := alloc?_eq_ok hAlloc
    obtain ⟨-, m, -, rfl⟩ := handOut_eq_ok hOut
    rcases mem_free_of_find hFind hFree with hFree | ⟨rfl, rfl⟩
    · exact .inr hFree
    · exact .inl ⟨_, List.mem_cons_self, rfl, rfl⟩

theorem Cut.free? (hc : h.Cut a c) (hv : h.Valid) (hFreed : h.free? addr = .ok h') : h'.Cut a c := by
  unfold Heap.free? at hFreed
  split at hFreed
  · cases hFreed
    exact hc
  · split at hFreed <;> cases hFreed
    rename_i d hBlock
    obtain ⟨hd, rfl⟩ := block?_eq_some hBlock
    have hMore : ∀ x ∈ h.free c, x ∈ (if c = d.capacity then d.addr :: h.free c else h.free c) := by
      intro x hx
      split
      · exact List.mem_cons_of_mem _ hx
      · exact hx
    rcases hc with ⟨b, hb, rfl, rfl⟩ | hFree
    · rcases eq_or_ne b.addr d.addr with hEq | hNe
      · obtain rfl := hv.live_ext hb hd hEq
        exact .inr (by simp)
      · exact .inl ⟨b, List.mem_filter.mpr ⟨hb, by simpa using hNe⟩, rfl, rfl⟩
    · exact .inr (hMore a hFree)

theorem Cut.setMemory (hc : h.Cut a c) (m : Memory) : Cut { h with memory := m } a c := hc

/-- Whatever is done with a valid heap, its blocks stay blocks of their classes. -/
theorem steady_cut (a c : UInt32) : Steady fun h => h.Valid ∧ h.Cut a c := by
  rintro use h ⟨hv, hc⟩
  refine ⟨steady_valid use h hv, ?_⟩
  cases use with
  | alloc size align =>
    rw [HeapUse.perform, exec_map, allocate, exec_update]
    cases hAlloc : h.alloc? size align with
    | error r => exact hc
    | ok found => exact hc.alloc? hv hAlloc
  | free addr =>
    rw [HeapUse.perform, exec_release]
    cases hFree : h.free? addr with
    | error r => exact hc
    | ok h' => exact hc.free? hv hFree
  | write offset data =>
    rw [HeapUse.perform, exec_change]
    cases h.memory.write offset data with
    | error r => exact hc
    | ok m => exact hc.setMemory m
  | grow delta =>
    rw [HeapUse.perform, exec_map, growPages, exec_bind_ok (exec_get h)]
    rcases h.memory.grow delta with ⟨_ | m, previous⟩
    · exact hc
    · exact hc.setMemory m

/-! ## Their bytes -/

theorem alloc?_outside (hv : h.Valid) (hAlloc : h.alloc? size align = .ok (addr, h')) {i : Nat}
    (hIn : i < h.memory.bytes) (hOut : ¬ (place addr (sizeClass (asked size))).Has i) :
    h'.memory.byte i = h.memory.byte i := by
  obtain ⟨⟨k, hk, hAlign⟩, hSize, h₁, hFind, hHand⟩ := alloc?_eq_ok hAlloc
  obtain ⟨j, -, -, hCls, -⟩ := sizeClass_toNat (asked_le hSize)
  have hFound := (find_found hv hCls hAlign hk hFind).1
  obtain ⟨-, m, hClear, rfl⟩ := handOut_eq_ok hHand
  obtain ⟨-, -, -, hOutside⟩ := Memory.clear_eq_ok hClear
  simp only [Extent.Has, place] at hOut
  exact (hOutside i (by omega)).trans (hFound.kept i hIn)

/-- The block at the address is one of the class and has the bytes of the memory. -/
structure Retains (m : Memory) (addr cls : UInt32) (h : Heap) : Prop where
  valid : h.Valid
  cut : h.Cut addr cls
  bytes : ∀ i, (place addr cls).Has i → h.memory.byte i = m.byte i

variable {m : Memory}

theorem retains_release (m : Memory) (a c addr : UInt32) : Step.Keeps (Retains m a c) (release addr) := by
  intro h hr
  obtain ⟨hv, hc⟩ := (steady_cut a c).release addr h ⟨hr.valid, hr.cut⟩
  refine ⟨hv, hc, ?_⟩
  rw [exec_release]
  cases hFree : h.free? addr with
  | error r => exact hr.bytes
  | ok h' =>
    rw [show h'.memory = h.memory from free?_memory hFree]
    exact hr.bytes

theorem Retains.allocate (hr : Retains m a c h) (hClass : sizeClass (asked size) ≠ c) :
    (∃ r, exec (allocate size align) h = (.error (.refused (.report r)), h)) ∨
      ∃ addr h', exec (allocate size align) h = (.ok addr, h') ∧ Allocated h size align addr h' ∧
        Retains m a c h' := by
  rw [Heap.allocate, exec_update]
  cases hAlloc : h.alloc? size align with
  | error r => exact .inl ⟨r, rfl⟩
  | ok found =>
    obtain ⟨addr, h'⟩ := found
    have ha := alloc?_allocated hr.valid hAlloc
    have hc := hr.cut.alloc? hr.valid hAlloc
    have hApart := hc.apart ha.valid (b := ⟨addr, sizeClass (asked size), asked size⟩)
      (ha.live ▸ List.mem_cons_self) hClass
    refine .inr ⟨addr, h', rfl, ha, ha.valid, hc, fun i hi => ?_⟩
    have hIn : i < h.memory.bytes := Nat.lt_of_lt_of_le hi.2 (hr.valid.within_bytes (hr.cut.within hr.valid))
    rw [alloc?_outside hr.valid hAlloc hIn (hApart.symm.not_has hi), hr.bytes i hi]

theorem Retains.write (hr : Retains m a c h) {b : Block} (hb : b ∈ h.live) (hClass : b.capacity ≠ c)
    {data : List UInt8} (hRoom : data.length ≤ b.capacity.toNat) :
    Retains m a c (exec (change fun m => m.write b.addr data) h).2 := by
  have hFits : b.addr.toNat + data.length ≤ h.memory.bytes := by
    have hBytes := hr.valid.live_bytes hb
    omega
  have hApart := hr.cut.apart hr.valid hb hClass
  rw [exec_write hFits]
  refine ⟨hr.valid.setMemory rfl rfl, hr.cut, fun i hi => ?_⟩
  have hOut := hApart.symm.not_has hi
  simp only [Extent.Has, Block.extent] at hOut
  exact (Memory.overwrite_outside _ (by omega)).trans (hr.bytes i hi)

end Heap

end Marshal
