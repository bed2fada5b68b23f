import Marshal.Proofs.Heap.Shared

/-! # Fresh addresses

Whatever the size of the memory, an address that is handed out is not live, as long as rounding the end of what has
been cut up to the next block does not wrap. For a block of eight bytes it never does.
-/
set_option autoImplicit false
namespace Marshal

open Step

namespace Heap

/-- Addresses are live, or wait on one free list, or lie ahead. -/
structure Numbered (h : Heap) : Prop where
  aligned : 8 ∣ h.next.toNat
  live_lt : ∀ a ∈ h.addrs, a.toNat < h.next.toNat
  free_lt : ∀ c, ∀ a ∈ h.free c, a.toNat < h.next.toNat
  free_dead : ∀ c, ∀ a ∈ h.free c, a ∉ h.addrs
  free_apart : ∀ c c' a, a ∈ h.free c → a ∈ h.free c' → c = c'
  free_nodup : ∀ c, (h.free c).Nodup

/-- Rounding the end up to a block of the class does not wrap. -/
def Room (h : Heap) (cls align : UInt32) : Prop := h.next.toNat + (max align (min cls 16)).toNat ≤ 2 ^ 32

namespace Numbered

variable {h h' h₁ : Heap} {cls size align addr : UInt32}

theorem start (m : Memory) : Numbered { memory := m } where
  aligned := show 8 ∣ (16 : UInt32).toNat by decide
  live_lt := List.forall_mem_nil _
  free_lt := fun _ => List.forall_mem_nil _
  free_dead := fun _ => List.forall_mem_nil _
  free_apart := fun _ _ _ hFree => nomatch hFree
  free_nodup := fun _ => List.nodup_nil

theorem setMemory (hn : h.Numbered) (m : Memory) : Numbered { h with memory := m } :=
  ⟨hn.aligned, hn.live_lt, hn.free_lt, hn.free_dead, hn.free_apart, hn.free_nodup⟩

theorem room_cell (hn : h.Numbered) : h.Room (sizeClass (asked 8)) (askedAlign 8) := by
  have hNext := h.next.toNat_lt
  have hAligned := hn.aligned
  have hStep : (max (askedAlign 8) (min (sizeClass (asked 8)) 16)).toNat = 8 := by decide
  rw [Room, hStep]
  omega

/-! ## Allocating -/

/-- An address has been found that is neither live nor waiting; the heap around it is `h₁`. -/
structure Fresh (h : Heap) (addr : UInt32) (h₁ : Heap) : Prop where
  numbered : h₁.Numbered
  live : h₁.live = h.live
  lt : addr.toNat < h₁.next.toNat
  dead : addr ∉ h.addrs
  taken : ∀ c, addr ∉ h₁.free c

theorem fresh_takeFree? (hn : h.Numbered) (hTake : h.takeFree? cls align = some (addr, h₁)) : Fresh h addr h₁ := by
  obtain ⟨free, rfl, hWaits, -, hNodup, hRest⟩ := takeFree?_eq_some hn.free_nodup hTake
  refine ⟨⟨hn.aligned, hn.live_lt, ?_, ?_, ?_, hNodup⟩, rfl, hn.free_lt cls addr hWaits,
    hn.free_dead cls addr hWaits, ?_⟩
  · intro c x hx
    exact hn.free_lt c x (hRest c x hx).1
  · intro c x hx
    exact hn.free_dead c x (hRest c x hx).1
  · intro c c' x hx hx'
    exact hn.free_apart c c' x (hRest c x hx).1 (hRest c' x hx').1
  · intro c hx
    obtain ⟨hOld, hNe⟩ := hRest c addr hx
    exact hNe.elim (· (hn.free_apart c cls addr hOld hWaits)) (· rfl)

theorem fresh_bump {i j : Nat} (hn : h.Numbered) (hCls : cls.toNat = 2 ^ j) (hLeast : 3 ≤ j)
    (hAlign : align.toNat = 2 ^ i) (hRoom : h.Room cls align) (hBump : h.bump cls align = .ok (addr, h₁)) :
    Fresh h addr h₁ := by
  have hRound := Align.roundUp_toNat (Align.step_toNat hCls hAlign) hRoom
  have hNext := (Align.roundUp_bounds h.next.toNat (max i (min j 4))).1
  have hEight : 8 ∣ 2 ^ max i (min j 4) := Nat.pow_dvd_pow 2 (show 3 ≤ max i (min j 4) by omega)
  have hEightCls : 8 ∣ cls.toNat := hCls ▸ Nat.pow_dvd_pow 2 hLeast
  have hPos : 0 < cls.toNat := hCls ▸ Nat.two_pow_pos j
  unfold bump at hBump
  simp only at hBump
  split at hBump
  · cases hBump
  rename_i hStop
  generalize (h.next + max align (min cls 16) - 1) &&& ~~~(max align (min cls 16) - 1) = start at *
  rw [← hRound] at hNext
  have hAligned : 8 ∣ start.toNat := hRound ▸ Nat.dvd_mul_left_of_dvd hEight _
  have hEnd : ((start.toNat + cls.toNat).toUInt32).toNat = start.toNat + cls.toNat :=
    UInt32.toNat_ofNat_of_lt' (show _ < 2 ^ 32 by omega)
  cases hReach : h.reach (start.toNat + cls.toNat) (Report.allocationFailed .heap cls align) with
  | error r =>
    rw [hReach] at hBump
    cases hBump
  | ok h₂ =>
    rw [hReach] at hBump
    cases hBump
    obtain ⟨m, rfl, -⟩ := reach_grows hReach
    refine ⟨⟨?_, ?_, ?_, hn.free_dead, hn.free_apart, hn.free_nodup⟩, rfl, ?_, ?_, ?_⟩
    · rw [hEnd]
      omega
    · intro a ha
      have := hn.live_lt a ha
      rw [hEnd]
      omega
    · intro c a ha
      have := hn.free_lt c a ha
      rw [hEnd]
      omega
    · rw [hEnd]
      omega
    · intro hLive
      have := hn.live_lt addr hLive
      omega
    · intro c hFree
      have := hn.free_lt c addr hFree
      omega

theorem handOut {a : UInt32} (hf : Fresh h addr h₁) (hOut : h₁.handOut addr cls size = .ok (a, h')) :
    a = addr ∧ h'.Numbered ∧ h'.addrs = addr :: h.addrs := by
  cases hClear : h₁.memory.clear addr cls with
  | error r =>
    simp only [Heap.handOut, hClear] at hOut
    cases hOut
  | ok m =>
    simp only [Heap.handOut, hClear] at hOut
    cases hOut
    have hn := hf.numbered
    have hOthers : h₁.live.filter (·.addr ≠ addr) = h.live := by
      rw [hf.live, List.filter_eq_self]
      intro b hb
      have hNe : b.addr ≠ addr := fun hEq => hf.dead (hEq ▸ List.mem_map_of_mem hb)
      simpa using hNe
    have hAddrs : h₁.addrs = h.addrs := by rw [addrs, hf.live]; rfl
    have hNew : addrs { h₁ with
        memory := m
        live := ⟨addr, cls, size⟩ :: h₁.live.filter (·.addr ≠ addr)
        allocs := h₁.allocs + 1 } = addr :: h.addrs := by
      simp only [hOthers, addrs, List.map_cons]
    refine ⟨rfl, ⟨hn.aligned, ?_, hn.free_lt, ?_, hn.free_apart, hn.free_nodup⟩, hNew⟩
    · rw [hNew]
      intro a ha
      rcases List.mem_cons.mp ha with rfl | ha
      · exact hf.lt
      · exact hn.live_lt a (hAddrs ▸ ha)
    · intro c a ha
      rw [hNew]
      intro hLive
      rcases List.mem_cons.mp hLive with rfl | hLive
      · exact hf.taken c ha
      · exact hn.free_dead c a ha (hAddrs ▸ hLive)

theorem alloc? (hn : h.Numbered)
    (hRoom : askedAlign align ≤ maxAlign → h.Room (sizeClass (asked size)) (askedAlign align))
    (hAlloc : h.alloc? size align = .ok (addr, h')) :
    h'.Numbered ∧ addr ∉ h.addrs ∧ h'.addrs = addr :: h.addrs := by
  rw [alloc?_eq] at hAlloc
  split at hAlloc
  · cases hAlloc
  rename_i hGood
  split at hAlloc
  · cases hAlloc
  rename_i hSmall
  have hSize : size.toNat ≤ 2 ^ 30 := Nat.le_of_not_lt hSmall
  simp only [ne_eq, Bool.or_eq_true, decide_eq_true_eq, not_or, Decidable.not_not] at hGood
  obtain ⟨hMask, hMax⟩ := hGood
  have hPos : askedAlign align ≠ 0 := by
    unfold askedAlign
    split
    · decide
    · assumption
  obtain ⟨i, hAlign⟩ := Align.exists_two_pow hPos hMask
  obtain ⟨j, hLeast, -, hCls, -⟩ := sizeClass_toNat (asked_le hSize)
  cases hFind : h.find (sizeClass (asked size)) (askedAlign align) with
  | error r =>
    rw [hFind] at hAlloc
    cases hAlloc
  | ok found =>
    obtain ⟨a, h₁⟩ := found
    have hFresh : Fresh h a h₁ := by
      unfold find at hFind
      split at hFind
      · rename_i hTake
        cases hFind
        exact hn.fresh_takeFree? hTake
      · exact hn.fresh_bump hCls hLeast hAlign (hRoom (Nat.le_of_not_lt hMax)) hFind
    rw [hFind] at hAlloc
    obtain ⟨rfl, hNumbered, hAddrs⟩ := handOut hFresh hAlloc
    exact ⟨hNumbered, hFresh.dead, hAddrs⟩

theorem exec_allocate (hn : h.Numbered) (size align : UInt32)
    (hRoom : askedAlign align ≤ maxAlign → h.Room (sizeClass (asked size)) (askedAlign align)) :
    h.Refuses size align ∨ ∃ addr h', exec (allocate size align) h = (.ok addr, h') ∧ h'.Numbered ∧
      addr ∉ h.addrs ∧ h'.addrs = addr :: h.addrs := by
  unfold Refuses
  rw [allocate, exec_update]
  cases hAlloc : h.alloc? size align with
  | error r => exact .inl ⟨r, rfl⟩
  | ok found => exact .inr ⟨found.1, found.2, rfl, hn.alloc? hRoom hAlloc⟩

/-! ## Freeing -/

theorem free? (hn : h.Numbered) (hFree : h.free? addr = .ok h') :
    h'.Numbered ∧ ∀ a ∈ h.addrs, a ≠ addr → a ∈ h'.addrs := by
  unfold Heap.free? at hFree
  split at hFree
  · cases hFree
    exact ⟨hn, fun a ha _ => ha⟩
  · split at hFree
    · cases hFree
    rename_i b hFound
    cases hFree
    have hb : b ∈ h.live := List.mem_of_find?_eq_some hFound
    have hAddr : b.addr = addr := by simpa using List.find?_some hFound
    subst hAddr
    have hLive : b.addr ∈ h.addrs := List.mem_map_of_mem hb
    have hWaits : ∀ c, ∀ a ∈ (if c = b.capacity then b.addr :: h.free c else h.free c),
        (a = b.addr ∧ c = b.capacity) ∨ a ∈ h.free c := by
      intro c a ha
      split at ha
      · rcases List.mem_cons.mp ha with rfl | ha
        · exact .inl ⟨rfl, ‹_›⟩
        · exact .inr ha
      · exact .inr ha
    refine ⟨⟨hn.aligned, ?_, ?_, ?_, ?_, ?_⟩, ?_⟩
    · intro a ha
      obtain ⟨c, hc, rfl⟩ := mem_addrs_iff.mp ha
      exact hn.live_lt _ (List.mem_map_of_mem (List.mem_filter.mp hc).1)
    · intro c a ha
      rcases hWaits c a ha with ⟨rfl, -⟩ | ha
      · exact hn.live_lt _ hLive
      · exact hn.free_lt c a ha
    · intro c a ha hStill
      obtain ⟨d, hd, rfl⟩ := mem_addrs_iff.mp hStill
      obtain ⟨hd, hNe⟩ := List.mem_filter.mp hd
      rcases hWaits c _ ha with ⟨hEq, -⟩ | ha
      · exact of_decide_eq_true hNe hEq
      · exact hn.free_dead c _ ha (List.mem_map_of_mem hd)
    · intro c c' a ha ha'
      rcases hWaits c a ha with ⟨rfl, hc⟩ | hOld <;> rcases hWaits c' _ ha' with ⟨hEq, hc'⟩ | hOld'
      · rw [hc, hc']
      · exact absurd hLive (hn.free_dead c' _ hOld')
      · exact absurd hLive (hn.free_dead c _ (hEq ▸ hOld))
      · exact hn.free_apart c c' a hOld hOld'
    · intro c
      show (if c = b.capacity then b.addr :: h.free c else h.free c).Nodup
      split
      · exact List.nodup_cons.mpr ⟨fun hFree => hn.free_dead c _ hFree hLive, hn.free_nodup c⟩
      · exact hn.free_nodup c
    · intro a ha hNe
      obtain ⟨c, hc, rfl⟩ := mem_addrs_iff.mp ha
      exact List.mem_map_of_mem (List.mem_filter.mpr ⟨hc, by simpa using hNe⟩)

theorem exec_release_live (hn : h.Numbered) (hLive : addr ∈ h.addrs) :
    ∃ h', exec (release addr) h = (.ok (), h') ∧ h'.Numbered ∧ ∀ a ∈ h.addrs, a ≠ addr → a ∈ h'.addrs := by
  by_cases hNull : addr = 0
  · rw [hNull]
    exact ⟨h, exec_release_null h, hn, fun a ha _ => ha⟩
  · obtain ⟨b, hb, hAddr⟩ := mem_addrs_iff.mp hLive
    have hFound : (h.block? addr).isSome := List.find?_isSome.mpr ⟨b, hb, by simpa using hAddr⟩
    obtain ⟨c, hBlock⟩ := Option.isSome_iff_exists.mp hFound
    rw [exec_release]
    cases hFree : h.free? addr with
    | ok h' => exact ⟨h', rfl, hn.free? hFree⟩
    | error r => simp [Heap.free?, hNull, hBlock] at hFree

end Numbered

end Heap

/-- If the use is an allocation, rounding does not wrap. -/
def HeapUse.Fits (h : Heap) : HeapUse → Prop
  | .alloc size align => Heap.askedAlign align ≤ Heap.maxAlign →
      h.Room (Heap.sizeClass (Heap.asked size)) (Heap.askedAlign align)
  | _ => True

theorem Heap.Numbered.use {h : Heap} {u : HeapUse} {blocks : List Block} (hn : h.Numbered) (hFits : u.Fits h)
    (hSpares : u.Spares blocks) :
    (exec u.perform h).2.Numbered ∧ ∀ b ∈ blocks, b.addr ∈ h.addrs → b.addr ∈ (exec u.perform h).2.addrs := by
  cases u with
  | alloc size align =>
    rw [HeapUse.perform, exec_map]
    rcases hn.exec_allocate size align hFits with ⟨r, hExec⟩ | ⟨addr, h', hExec, hn', -, hAddrs⟩
    · rw [hExec]
      exact ⟨hn, fun _ _ hLive => hLive⟩
    · rw [hExec]
      refine ⟨hn', fun b _ hLive => ?_⟩
      show b.addr ∈ h'.addrs
      rw [hAddrs]
      exact List.mem_cons_of_mem addr hLive
  | free addr =>
    rw [HeapUse.perform, Heap.exec_release]
    cases hFree : h.free? addr with
    | ok h' =>
      obtain ⟨hn', hKept⟩ := hn.free? hFree
      exact ⟨hn', fun b hb hLive => hKept b.addr hLive (hSpares b hb)⟩
    | error r => exact ⟨hn, fun _ _ hLive => hLive⟩
  | write offset data =>
    rw [HeapUse.perform, Heap.exec_change]
    cases h.memory.write offset data with
    | ok m => exact ⟨hn.setMemory m, fun _ _ hLive => hLive⟩
    | error r => exact ⟨hn, fun _ _ hLive => hLive⟩
  | grow delta =>
    rw [HeapUse.perform, exec_map, Heap.growPages, exec_bind_ok (exec_get h)]
    rcases h.memory.grow delta with ⟨_ | m, previous⟩
    · exact ⟨hn, fun _ _ hLive => hLive⟩
    · exact ⟨hn.setMemory m, fun _ _ hLive => hLive⟩

end Marshal
