import Marshal.Proofs.Heap.Numbered
import Marshal.Proofs.Layout.Outline

/-! # When an allocation fails

A request that no waiting block suits is met at the end, where the memory grows up to its limit. Up to 65535 pages the
start of the new block is the end rounded up, and the request is refused exactly when the block would reach past the
limit. In a memory of all 65536 pages the sum behind the rounding can exceed 32 bits; then the start is the null address
and the end falls back to the size of the block.
-/
set_option autoImplicit false
namespace Marshal

open Step

namespace Memory

/-- The memory has as few more pages as hold the bytes up to `stop`, and the new pages are cleared. -/
structure Extended (m : Memory) (stop : Nat) (m' : Memory) : Prop where
  pages : m'.pages = max m.pages ((stop + pageSize - 1) / pageSize)
  maxPages : m'.maxPages = m.maxPages
  kept : ∀ i < m.bytes, m'.byte i = m.byte i
  cleared : ∀ i, m.bytes ≤ i → i < m'.bytes → m'.byte i = 0

theorem size_toNat (m : Memory) : m.size.toNat = min m.bytes 0xFFFFFFFF := by
  rw [size, UInt32.toNat_ofNat_of_lt']
  exact Nat.lt_of_le_of_lt (Nat.min_le_right ..) (by decide)

end Memory

theorem pages_toNat (n : Nat) : (n + pageSize - 1) / pageSize = (n + 65535) / 65536 := by
  rw [show pageSize = 65536 from rfl, Nat.add_sub_assoc (by decide)]

namespace Heap

variable {h : Heap} {cls align : UInt32} {i j : Nat}

/-! ## Reaching an end -/

theorem reach_cases (hPages : h.memory.pages ≤ h.memory.maxPages) (hLimit : h.memory.maxPages ≤ 65536) {stop : Nat}
    (hStop : stop ≤ 0xFFFFFFFF) (failed : Report) :
    (h.memory.maxPages * pageSize < stop ∧ h.reach stop failed = .error failed) ∨
      (stop ≤ h.memory.maxPages * pageSize ∧
        ∃ m, h.reach stop failed = .ok { h with memory := m } ∧ h.memory.Extended stop m) := by
  have hBytes : h.memory.bytes = h.memory.pages * 65536 := rfl
  have hSize := h.memory.size_toNat
  have hMost : h.memory.maxPages * pageSize = h.memory.maxPages * 65536 := rfl
  have hUp := pages_toNat stop
  unfold reach
  by_cases hIn : stop ≤ h.memory.size.toNat
  · refine .inr ⟨by omega, h.memory, if_pos hIn, ?_, rfl, fun _ _ => rfl, fun i hLow hHigh => by omega⟩
    omega
  · -- the memory is not full, so that its size is exact
    have hDelta : (((stop - h.memory.size.toNat + pageSize - 1) / pageSize).toUInt32).toNat =
        (stop - h.memory.bytes + 65535) / 65536 := by
      rw [hSize, Nat.min_eq_left (by omega), pages_toNat, UInt32.toNat_ofNat_of_lt' (show _ < 2 ^ 32 by omega)]
    rw [if_neg hIn, Memory.grow, hDelta]
    by_cases hFits : h.memory.pages + (stop - h.memory.bytes + 65535) / 65536 ≤ h.memory.maxPages
    · rw [if_pos hFits]
      refine .inr ⟨by omega, _, rfl, ?_, rfl, fun i hi => if_pos hi, fun i hLow _ => if_neg (by omega)⟩
      show h.memory.pages + (stop - h.memory.bytes + 65535) / 65536 = _
      omega
    · rw [if_neg hFits]
      exact .inl ⟨by omega, rfl⟩

/-! ## Cutting a block -/

/-- Where a block of the class starts when it is cut behind everything cut so far: at the next multiple of the
alignment and of the class, sixteen at most. -/
def cutAt (h : Heap) (cls align : UInt32) : Nat := roundUp h.next.toNat (max align.toNat (min cls.toNat 16))

theorem cutAt_eq (hCls : cls.toNat = 2 ^ j) (hAlign : align.toNat = 2 ^ i) :
    h.cutAt cls align = (h.next.toNat + 2 ^ max i (min j 4) - 1) / 2 ^ max i (min j 4) * 2 ^ max i (min j 4) := by
  rw [cutAt, roundUp, ← Align.step_toNat hCls hAlign, UInt32.toNat_max, UInt32.toNat_min]
  rfl

theorem dvd_cutAt (hCls : cls.toNat = 2 ^ j) (hAlign : align.toNat = 2 ^ i) : align.toNat ∣ h.cutAt cls align := by
  rw [cutAt_eq hCls hAlign, hAlign]
  exact Nat.dvd_mul_left_of_dvd (Nat.pow_dvd_pow 2 (Nat.le_max_left ..)) _

theorem next_le_cutAt (hAlign : align.toNat = 2 ^ i) : h.next.toNat ≤ h.cutAt cls align := by
  have hPos : 0 < align.toNat := hAlign ▸ Nat.two_pow_pos i
  exact le_roundUp (by omega)

theorem bump_of_room (hPages : h.memory.pages ≤ h.memory.maxPages) (hLimit : h.memory.maxPages ≤ 65536)
    (hCls : cls.toNat = 2 ^ j) (hAlign : align.toNat = 2 ^ i) (hRoom : h.Room cls align) :
    (min (h.memory.maxPages * pageSize) 0xFFFFFFFF < h.cutAt cls align + cls.toNat ∧
        h.bump cls align = .error (.allocationFailed .heap cls align)) ∨
      (h.cutAt cls align + cls.toNat ≤ min (h.memory.maxPages * pageSize) 0xFFFFFFFF ∧
        ∃ addr m, h.bump cls align = .ok (addr, { h with memory := m, next := addr + cls }) ∧
          addr.toNat = h.cutAt cls align ∧ (addr + cls).toNat = addr.toNat + cls.toNat ∧
          h.memory.Extended (addr.toNat + cls.toNat) m) := by
  have hAddr := Align.roundUp_toNat (Align.step_toNat hCls hAlign) hRoom
  rw [← cutAt_eq hCls hAlign] at hAddr
  unfold bump
  simp only
  generalize (h.next + max align (min cls 16) - 1) &&& ~~~(max align (min cls 16) - 1) = addr at *
  rw [← hAddr]
  by_cases hEnd : addr.toNat + cls.toNat > 0xFFFFFFFF
  · rw [if_pos hEnd]
    exact .inl ⟨Nat.lt_of_le_of_lt (Nat.min_le_right ..) hEnd, rfl⟩
  · rw [if_neg hEnd]
    have hStop : addr.toNat + cls.toNat ≤ 0xFFFFFFFF := by omega
    have hSum : (addr + cls).toNat = addr.toNat + cls.toNat := by
      rw [UInt32.toNat_add]
      exact Nat.mod_eq_of_lt (by omega)
    have hNext : (addr.toNat + cls.toNat).toUInt32 = addr + cls := by
      rw [← hSum]
      exact UInt32.ofNat_toNat
    rcases reach_cases hPages hLimit hStop (.allocationFailed .heap cls align) with
      ⟨hPast, hReach⟩ | ⟨hIn, m, hReach, hm⟩
    · rw [hReach]
      exact .inl ⟨Nat.lt_of_le_of_lt (Nat.min_le_left ..) hPast, rfl⟩
    · rw [hReach, hNext]
      exact .inr ⟨Nat.le_min.mpr ⟨hIn, hStop⟩, addr, m, rfl, rfl, hSum, hm⟩

theorem bump_of_not_room (hNext : h.next.toNat ≤ h.memory.bytes) (hCls : cls.toNat = 2 ^ j) (hLarge : j ≤ 30)
    (hAlign : align.toNat = 2 ^ i) (hMax : i ≤ 16) (hRoom : ¬ h.Room cls align) :
    h.bump cls align = .ok (0, { h with next := cls }) := by
  have hStep := Align.step_toNat hCls hAlign
  rw [Room, Nat.not_le] at hRoom
  have hSmall : 2 ^ max i (min j 4) ≤ 2 ^ 16 := Nat.pow_le_pow_right (by decide) (by omega)
  have hClsLe : 2 ^ j ≤ 2 ^ 30 := Nat.pow_le_pow_right (by decide) hLarge
  have hBytes : h.memory.bytes = h.memory.pages * 65536 := rfl
  have hFull : h.memory.size.toNat = 0xFFFFFFFF := by
    have hSize := h.memory.size_toNat
    omega
  unfold bump
  simp only
  rw [Align.roundUp_wraps hStep hRoom, show (0 : UInt32).toNat = 0 from rfl, Nat.zero_add, if_neg (by omega), reach,
    if_pos (by omega), show cls.toNat.toUInt32 = cls from UInt32.ofNat_toNat]
  rfl

/-- While rounding does not wrap, a block is cut behind everything cut so far, or nothing is; when it wraps, the null
address is handed out. -/
theorem bump_cuts (hPages : h.memory.pages ≤ h.memory.maxPages) (hLimit : h.memory.maxPages ≤ 65536)
    (hLow : 16 ≤ h.next.toNat) (hHigh : h.next.toNat ≤ h.memory.bytes) (hCls : cls.toNat = 2 ^ j) (hLarge : j ≤ 30)
    (hAlign : align.toNat = 2 ^ i) (hMax : i ≤ 16) :
    (h.Room cls align →
      (min (h.memory.maxPages * pageSize) 0xFFFFFFFF < h.cutAt cls align + cls.toNat ∧
          h.bump cls align = .error (.allocationFailed .heap cls align)) ∨
        ∃ addr m, h.bump cls align = .ok (addr, { h with memory := m, next := addr + cls }) ∧
          align.toNat ∣ addr.toNat ∧ h.next.toNat ≤ addr.toNat ∧ addr ≠ 0 ∧
          (addr + cls).toNat = addr.toNat + cls.toNat ∧ (∀ e, h.Within e → e.Apart (place addr cls)) ∧
          h.memory.Extended (addr.toNat + cls.toNat) m) ∧
      (¬ h.Room cls align → h.bump cls align = .ok (0, { h with next := cls })) := by
  refine ⟨fun hRoom => ?_, bump_of_not_room hHigh hCls hLarge hAlign hMax⟩
  rcases bump_of_room hPages hLimit hCls hAlign hRoom with hRefused | ⟨-, addr, m, hBump, hAddr, hSum, hm⟩
  · exact .inl hRefused
  · have hNext : h.next.toNat ≤ addr.toNat := hAddr ▸ next_le_cutAt hAlign
    refine .inr ⟨addr, m, hBump, hAddr ▸ dvd_cutAt hCls hAlign, hNext, ?_, hSum, ?_, hm⟩
    · rintro rfl
      exact absurd (Nat.le_trans hLow hNext) (by decide)
    · intro e he
      exact .inl (Nat.le_trans he.2.2 hNext)

/-- The last page of a full memory: the sum behind the rounding is 2^32. -/
theorem bump_cuts_lastPage :
    let h : Heap := { memory := { pages := 65536, maxPages := 65536 }, next := 0xFFFF0000 }
    h.Room 32768 65536 ∧ ∃ addr m, h.bump 32768 65536 = .ok (addr, { h with memory := m, next := addr + 32768 }) ∧
      h.next.toNat ≤ addr.toNat ∧ addr ≠ 0 := by
  intro h
  have hRoom : h.Room 32768 65536 := by unfold Room; decide
  refine ⟨hRoom, ?_⟩
  have hCls : (32768 : UInt32).toNat = 2 ^ 15 := rfl
  have hAlign : (65536 : UInt32).toNat = 2 ^ 16 := rfl
  have hCuts := (bump_cuts (h := h) (by decide) (by decide) (by decide) (by decide) hCls (by decide) hAlign
    (by decide)).1 hRoom
  rcases hCuts with ⟨hPast, -⟩ | ⟨addr, m, hBump, -, hNext, hNull, -⟩
  · exact absurd hPast (by decide)
  · exact ⟨addr, m, hBump, hNext, hNull⟩

theorem Used.allocs {h₀ : Heap} {blocks : List Block} (hUsed : Used blocks h₀ h) (sizes : List UInt32) :
    Used blocks h₀ (sizes.foldl (fun h size => (exec (HeapUse.alloc size 1).perform h).2) h) := by
  induction sizes generalizing h with
  | nil => exact hUsed
  | cons size rest ih => exact ih (.use (.alloc size 1) hUsed trivial)

/-- With less than a page left of a full memory, a block at a multiple of a page gets the null address. -/
theorem bump_cuts_null :
    ∃ h, Used [] (create .linear 65536 65536) h ∧ 16 ≤ h.next.toNat ∧ h.next.toNat ≤ h.memory.bytes ∧
      h.bump 8 65536 = .ok (0, { h with next := 8 }) ∧ (exec (allocate 1 65536) h).1.toOption = some 0 := by
  let largest : UInt32 := 0x40000000
  let sizes := [largest, largest] ++ (List.range 15).map fun i => largest >>> i.toUInt32
  have hUsed : Used [] (create .linear 65536 65536) _ := Used.refl.allocs sizes
  generalize hEnd : sizes.foldl (fun h size => (exec (HeapUse.alloc size 1).perform h).2) _ = h at hUsed
  have hFacts : h.next = 0xFFFF0010 ∧ h.memory.pages = 65536 ∧ (exec (allocate 1 65536) h).1.toOption = some 0 := by
    subst hEnd
    decide +kernel
  obtain ⟨hNext, hPages, hNull⟩ := hFacts
  have hBytes : h.next.toNat ≤ h.memory.bytes := by
    rw [Memory.bytes, hNext, hPages]
    decide
  refine ⟨h, hUsed, by rw [hNext]; decide, hBytes, ?_, hNull⟩
  refine bump_of_not_room (i := 16) (j := 3) hBytes rfl (by decide) rfl (by decide) ?_
  rw [Room, hNext]
  decide

/-! ## Refusing a request -/

theorem takeFree?_eq_none_iff : h.takeFree? cls align = none ↔ ∀ a ∈ h.free cls, ¬ align.toNat ∣ a.toNat := by
  have hDvd : ∀ a : UInt32, a % align = 0 ↔ align.toNat ∣ a.toNat := by
    intro a
    rw [Nat.dvd_iff_mod_eq_zero, ← UInt32.toNat_mod, ← UInt32.toNat_inj]
    rfl
  have hNone : h.takeFree? cls align = none ↔ (h.free cls).find? (· % align = 0) = none := by
    unfold takeFree?
    cases (h.free cls).find? (· % align = 0) <;> simp
  simp [hNone, List.find?_eq_none, hDvd]

theorem find_eq_error_iff (hv : h.Valid) (hCls : cls.toNat = 2 ^ j) (hAlign : align.toNat = 2 ^ i) (hMax : i ≤ 16) :
    (∃ r, h.find cls align = .error r) ↔ (∀ a ∈ h.free cls, ¬ align.toNat ∣ a.toNat) ∧
      h.memory.maxPages * pageSize < h.cutAt cls align + cls.toNat := by
  have hLimit := hv.maxPages_le
  have hMost : h.memory.maxPages * pageSize ≤ 65535 * 65536 := Nat.mul_le_mul_right 65536 hLimit
  have hRoom : h.Room cls align := by
    have hSmall : 2 ^ max i (min j 4) ≤ 2 ^ 16 := Nat.pow_le_pow_right (by decide) (by omega)
    have hNext := hv.next_high
    have hBytes := hv.bytes_le
    rw [Room, Align.step_toNat hCls hAlign]
    omega
  have hBump := bump_of_room hv.pages_le (by omega) hCls hAlign hRoom
  rw [Nat.min_eq_left (by omega)] at hBump
  unfold find
  cases hTake : h.takeFree? cls align with
  | some found =>
    have hWaits : ¬ ∀ a ∈ h.free cls, ¬ align.toNat ∣ a.toNat := by
      rw [← takeFree?_eq_none_iff, hTake]
      simp
    simp [hWaits]
  | none =>
    rw [takeFree?_eq_none_iff] at hTake
    rcases hBump with ⟨hPast, hBump⟩ | ⟨hIn, addr, m, hBump, -⟩
    · exact ⟨fun _ => ⟨hTake, hPast⟩, fun _ => ⟨_, hBump⟩⟩
    · constructor
      · rintro ⟨r, hError⟩
        cases hBump.symm.trans hError
      · rintro ⟨-, hPast⟩
        exact absurd hIn (Nat.not_le.mpr hPast)

theorem handOut_of_find (hv : h.Valid) {size addr : UInt32} {h₁ : Heap} (hSize : size.toNat ≤ 2 ^ 30)
    (hAlign : ∃ k ≤ 16, (askedAlign align).toNat = 2 ^ k)
    (hFind : h.find (sizeClass (asked size)) (askedAlign align) = .ok (addr, h₁)) :
    ∃ h', h₁.handOut addr (sizeClass (asked size)) (asked size) = .ok (addr, h') := by
  obtain ⟨i, hMax, hi⟩ := hAlign
  obtain ⟨j, -, -, hCls, -⟩ := sizeClass_toNat (asked_le hSize)
  obtain ⟨hFound, hDvd⟩ := find_found hv hCls hi hMax hFind
  obtain ⟨h', hOut, -⟩ := handOut_allocated hv hFound hDvd hSize
  exact ⟨h', hOut⟩

theorem alloc?_eq_error_iff (hv : h.Valid) (size align : UInt32) :
    (∃ r, h.alloc? size align = .error r) ↔
      (¬ ∃ k ≤ 16, (askedAlign align).toNat = 2 ^ k) ∨ 2 ^ 30 < size.toNat ∨
        ((∀ a ∈ h.free (sizeClass (asked size)), ¬ (askedAlign align).toNat ∣ a.toNat) ∧
          h.memory.maxPages * pageSize <
            h.cutAt (sizeClass (asked size)) (askedAlign align) + (sizeClass (asked size)).toNat) := by
  have hSuits := align_suits_iff (askedAlign_ne_zero align)
  rw [alloc?_eq]
  by_cases hAlign : ∃ k ≤ 16, (askedAlign align).toNat = 2 ^ k
  · rw [if_neg (Bool.eq_false_iff.mp (hSuits.mpr hAlign))]
    by_cases hLarge : size > (1 : UInt32) <<< 30
    · have hLargeNat : 2 ^ 30 < size.toNat := hLarge
      rw [if_pos hLarge]
      exact ⟨fun _ => .inr (.inl hLargeNat), fun _ => ⟨_, rfl⟩⟩
    · have hSize : size.toNat ≤ 2 ^ 30 := Nat.le_of_not_lt hLarge
      obtain ⟨i, hMax, hi⟩ := hAlign
      obtain ⟨j, -, -, hCls, -⟩ := sizeClass_toNat (asked_le hSize)
      rw [if_neg hLarge]
      have hNotLarge : ¬ 2 ^ 30 < size.toNat := Nat.not_lt.mpr hSize
      simp only [not_true_eq_false, hNotLarge, false_or, show (∃ k ≤ 16, (askedAlign align).toNat = 2 ^ k) from
        ⟨i, hMax, hi⟩, ← find_eq_error_iff hv hCls hi hMax]
      cases hFind : h.find (sizeClass (asked size)) (askedAlign align) with
      | error r => exact ⟨fun _ => ⟨r, rfl⟩, fun _ => ⟨r, rfl⟩⟩
      | ok found =>
        obtain ⟨h', hOut⟩ := handOut_of_find hv hSize ⟨i, hMax, hi⟩ hFind
        constructor
        · rintro ⟨r, hError⟩
          cases hOut.symm.trans hError
        · rintro ⟨r, hError⟩
          cases hError
  · rw [if_pos (Bool.of_not_eq_false fun hFalse => hAlign (hSuits.mp hFalse))]
    exact ⟨fun _ => .inl hAlign, fun _ => ⟨_, rfl⟩⟩

/-- Whatever has been done with a heap, a request is refused exactly when its alignment or size is, or when no waiting
block suits it and a new one would reach past the limit. A refused request has changed nothing: no range has been found
for it, since one that is found is handed out. -/
theorem Used.refuses_iff {m : Memory} (hPages : m.pages ≤ m.maxPages) (hLimit : m.maxPages ≤ 65535)
    (hUsed : Used [] { memory := m } h) (size align : UInt32) :
    let cls := sizeClass (asked size)
    let align' := askedAlign align
    ((∃ stop h', exec (allocate size align) h = (.error stop, h')) ↔
        (¬ ∃ k ≤ 16, align'.toNat = 2 ^ k) ∨ 2 ^ 30 < size.toNat ∨
          ((∀ a ∈ h.free cls, ¬ align'.toNat ∣ a.toNat) ∧ m.maxPages * pageSize < h.cutAt cls align' + cls.toNat)) ∧
      (∀ stop h', exec (allocate size align) h = (.error stop, h') → h' = h) ∧
      (size.toNat ≤ 2 ^ 30 → (∃ k ≤ 16, align'.toNat = 2 ^ k) → ∀ addr h₁, h.find cls align' = .ok (addr, h₁) →
        ∃ h', h₁.handOut addr cls (asked size) = .ok (addr, h')) := by
  have hv : h.Valid := (hUsed.keeps (Valid.of_memory hPages hLimit)).valid
  have hMax : h.memory.maxPages = m.maxPages := hUsed.grows.maxPages_eq
  intro cls align'
  rw [← hMax, ← alloc?_eq_error_iff hv, allocate, exec_update]
  refine ⟨?_, ?_, fun hSize hAlign addr h₁ => handOut_of_find hv hSize hAlign⟩
  · cases h.alloc? size align with
    | error r => exact ⟨fun _ => ⟨r, rfl⟩, fun _ => ⟨_, _, rfl⟩⟩
    | ok found =>
      constructor
      · rintro ⟨stop, h', hError⟩
        cases hError
      · rintro ⟨r, hError⟩
        cases hError
  · intro stop h' hError
    cases hAlloc : h.alloc? size align <;> rw [hAlloc] at hError <;> cases hError
    rfl

/-- One page with a block at its start: another may end with the page, and none may reach past it. -/
theorem Used.refuses_iff_lastHalf :
    let m : Memory := { pages := 1, maxPages := 1 }
    ∃ h, Used [] { memory := m } h ∧ (∃ stop h', exec (allocate 32768 65536) h = (.error stop, h')) ∧
      ¬ ∃ stop h', exec (allocate 32768 32768) h = (.error stop, h') := by
  intro m
  have hUsed : Used [] { memory := m } _ := Used.refl.allocs [100]
  generalize hEnd : [100].foldl (fun h size => (exec (HeapUse.alloc size 1).perform h).2) _ = h at hUsed
  have hFacts : h.next = 144 ∧ h.free 32768 = [] := by
    subst hEnd
    decide +kernel
  obtain ⟨hNext, hFree⟩ := hFacts
  have hPast := (hUsed.refuses_iff (by decide) (by decide) 32768 65536).1
  have hEnds := (hUsed.refuses_iff (by decide) (by decide) 32768 32768).1
  have hCls : sizeClass (asked 32768) = 32768 := by decide
  rw [hCls, hFree, cutAt, hNext] at hPast hEnds
  refine ⟨h, hUsed, hPast.mpr (.inr (.inr ⟨List.forall_mem_nil _, by decide⟩)), fun hRefused => ?_⟩
  rcases hEnds.mp hRefused with hAlign | hSize | ⟨-, hOver⟩
  · exact hAlign ⟨15, by decide, rfl⟩
  · exact absurd hSize (by decide)
  · exact absurd hOver (by decide)

end Heap

end Marshal
