import Marshal.Proofs.Heap.Valid
import Marshal.Proofs.Memory

/-! # Allocating and freeing

One lemma for each stage of an allocation: taking a waiting block, cutting a new one, handing it out. The
first two meet in `Found`: the range is inside the memory, no block of the heap overlaps it, and nothing
else has changed. `Allocated` is what a caller may rely on.
-/
set_option autoImplicit false
namespace Marshal
namespace Heap

def asked (size : UInt32) : UInt32 := if size = 0 then 1 else size

def askedAlign (align : UInt32) : UInt32 := if align = 0 then 1 else align

theorem asked_pos (size : UInt32) : 0 < (asked size).toNat := by
  unfold asked
  split
  · decide
  · rename_i hNe
    exact Nat.pos_of_ne_zero fun h => hNe (UInt32.toNat_inj.mp h)

theorem le_asked (size : UInt32) : size.toNat ≤ (asked size).toNat := by
  unfold asked
  split
  · rename_i hZero
    rw [hZero]
    decide
  · exact Nat.le_refl _

theorem asked_le {size : UInt32} (hSize : size.toNat ≤ 2 ^ 30) : (asked size).toNat ≤ 2 ^ 30 := by
  unfold asked
  split
  · decide
  · exact hSize

theorem askedAlign_ne_zero (align : UInt32) : askedAlign align ≠ 0 := by
  unfold askedAlign
  split
  · decide
  · assumption

theorem align_suits_iff {align : UInt32} (hPos : align ≠ 0) :
    (align &&& (align - 1) ≠ 0 || align > maxAlign) = false ↔ ∃ k ≤ 16, align.toNat = 2 ^ k := by
  have hNat : align.toNat ≠ 0 := fun hZero => hPos (UInt32.toNat_inj.mp hZero)
  have hOne : (1 : UInt32) ≤ align := by
    rw [UInt32.le_iff_toNat_le]
    exact Nat.one_le_iff_ne_zero.mpr hNat
  have hMask : align &&& (align - 1) = 0 ↔ ∃ k, align.toNat = 2 ^ k := by
    refine ⟨Align.exists_two_pow hPos, fun hPow => UInt32.toNat_inj.mp ?_⟩
    rw [UInt32.toNat_and, UInt32.toNat_sub_of_le _ _ hOne]
    exact (Nat.and_sub_one_eq_zero_iff_isPowerOfTwo hNat).mpr hPow
  have hMost : ¬ align > maxAlign ↔ align.toNat ≤ 2 ^ 16 := Nat.not_lt
  rw [Bool.or_eq_false_iff, decide_eq_false_iff_not, decide_eq_false_iff_not, Decidable.not_not, hMask, hMost]
  constructor
  · rintro ⟨⟨k, hk⟩, hLe⟩
    exact ⟨k, (Nat.pow_le_pow_iff_right (by decide)).mp (hk ▸ hLe), hk⟩
  · rintro ⟨k, hLe, hk⟩
    exact ⟨⟨k, hk⟩, hk ▸ Nat.pow_le_pow_right (by decide) hLe⟩

/-- A range for a block of the class has been found; the heap around it is `h₁`. -/
structure Found (h : Heap) (cls addr : UInt32) (h₁ : Heap) : Prop where
  valid : h₁.Valid
  within : h₁.Within (place addr cls)
  live : h₁.live = h.live
  allocs : h₁.allocs = h.allocs
  frees : h₁.frees = h.frees
  apart_live : ∀ b ∈ h.live, b.extent.Apart (place addr cls)
  apart_free : ∀ c, ∀ a ∈ h₁.free c, (place addr cls).Apart (place a c)
  bytes_le : h.memory.bytes ≤ h₁.memory.bytes
  kept : ∀ i < h.memory.bytes, h₁.memory.byte i = h.memory.byte i

variable {cls align addr : UInt32} {h h₁ : Heap}

theorem takeFree?_eq_some (hNodup : ∀ c, (h.free c).Nodup) (hTake : h.takeFree? cls align = some (addr, h₁)) :
    ∃ free, h₁ = { h with free } ∧ addr ∈ h.free cls ∧ addr % align = 0 ∧ (∀ c, (free c).Nodup) ∧
      ∀ c, ∀ x ∈ free c, x ∈ h.free c ∧ (c ≠ cls ∨ x ≠ addr) := by
  unfold takeFree? at hTake
  cases hFound : (h.free cls).find? (· % align = 0) with
  | none => simp [hFound] at hTake
  | some a =>
    simp only [hFound, Option.some.injEq, Prod.mk.injEq] at hTake
    obtain ⟨rfl, rfl⟩ := hTake
    refine ⟨_, rfl, List.mem_of_find?_eq_some hFound, by simpa using List.find?_some hFound, ?_, ?_⟩
    · intro c
      split
      · exact (hNodup cls).erase a
      · exact hNodup c
    · intro c x hx
      split at hx
      · subst c
        exact ⟨List.mem_of_mem_erase hx, .inr ((hNodup cls).mem_erase_iff.mp hx).1⟩
      · exact ⟨hx, .inl ‹_›⟩

theorem takeFree?_found (hv : h.Valid)
    (hTake : h.takeFree? cls align = some (addr, h₁)) : Found h cls addr h₁ ∧ addr % align = 0 := by
  obtain ⟨free, rfl, hMem, hAligned, hNodup, hRest⟩ := takeFree?_eq_some hv.free_nodup hTake
  refine ⟨⟨⟨hv.pages_le, hv.maxPages_le, hv.next_low, hv.next_high, hv.live_within, ?_, hv.live_apart,
    hNodup, ?_, ?_, hv.sized, hv.counted⟩, hv.free_within cls addr hMem, rfl, rfl, rfl, ?_, ?_, Nat.le_refl _,
    fun _ _ => rfl⟩, hAligned⟩
  · intro c x hx
    exact hv.free_within c x (hRest c x hx).1
  · intro c x hx c' x' hx' hNe
    exact hv.free_apart c x (hRest c x hx).1 c' x' (hRest c' x' hx').1 hNe
  · intro b hb c x hx
    exact hv.live_free_apart b hb c x (hRest c x hx).1
  · intro b hb
    exact hv.live_free_apart b hb cls addr hMem
  · intro c x hx
    obtain ⟨hOld, hNe⟩ := hRest c x hx
    exact hv.free_apart cls addr hMem c x hOld (hNe.imp Ne.symm Ne.symm)

theorem reach_eq_ok {stop : Nat} {failed : Report} (hv : h.Valid) (hStop : stop ≤ 0xFFFFFFFF)
    (hReach : h.reach stop failed = .ok h₁) :
    ∃ m : Memory, h₁ = { h with memory := m } ∧ m.pages ≤ m.maxPages ∧ m.maxPages ≤ 65535 ∧
      stop ≤ m.bytes ∧ h.memory.bytes ≤ m.bytes ∧ ∀ i < h.memory.bytes, m.byte i = h.memory.byte i := by
  unfold reach at hReach
  rw [hv.memory_size] at hReach
  split at hReach
  · cases hReach
    exact ⟨h.memory, rfl, hv.pages_le, hv.maxPages_le, ‹_›, Nat.le_refl _, fun _ _ => rfl⟩
  · split at hReach
    · rename_i hShort m previous hGrow
      cases hReach
      obtain ⟨hFits, hPages, hMax, hKept⟩ := Memory.grow_eq_some hGrow
      have hLimit := hv.maxPages_le
      have hDelta : (((stop - h.memory.bytes + pageSize - 1) / pageSize).toUInt32).toNat =
          (stop - h.memory.bytes + 65535) / 65536 := by
        have hSteps : stop - h.memory.bytes + pageSize - 1 = stop - h.memory.bytes + 65535 := by
          unfold pageSize
          omega
        rw [hSteps, show pageSize = 65536 from rfl, UInt32.toNat_ofNat_of_lt' (show _ < 2 ^ 32 by omega)]
      rw [hDelta] at hFits hPages
      have hBytes : m.bytes = h.memory.bytes + (stop - h.memory.bytes + 65535) / 65536 * 65536 := by
        rw [Memory.bytes, hPages, Nat.add_mul]
        rfl
      exact ⟨m, rfl, by omega, by omega, by omega, by omega, hKept⟩
    · cases hReach

theorem reach_grows {stop : Nat} {failed : Report} (hReach : h.reach stop failed = .ok h₁) :
    ∃ m : Memory, h₁ = { h with memory := m } ∧ h.memory.Grows m := by
  unfold reach at hReach
  split at hReach
  · cases hReach
    exact ⟨h.memory, rfl, .refl _⟩
  · split at hReach
    · rename_i m previous hGrow
      cases hReach
      exact ⟨m, rfl, Memory.grows_grow hGrow⟩
    · cases hReach

theorem cut_addr {i j : Nat} (hv : h.Valid) (hCls : cls.toNat = 2 ^ j)
    (hAlign : align.toNat = 2 ^ i) (hMax : i ≤ 16) :
    let step := max align (min cls 16)
    let addr := (h.next + step - 1) &&& ~~~(step - 1)
    h.next.toNat ≤ addr.toNat ∧ 2 ^ i ∣ addr.toNat := by
  intro step addr
  have hStep : step.toNat = 2 ^ max i (min j 4) := Align.step_toNat hCls hAlign
  have hSmall : 2 ^ max i (min j 4) ≤ 2 ^ 16 := Nat.pow_le_pow_right (by decide) (by omega)
  have hNext := hv.next_high
  have hBytes := hv.bytes_le
  have hRound : addr.toNat = _ := Align.roundUp_toNat hStep (by omega)
  rw [hRound]
  refine ⟨(Align.roundUp_bounds _ _).1, Nat.dvd_mul_left_of_dvd ?_ _⟩
  exact Nat.pow_dvd_pow 2 (Nat.le_max_left ..)

theorem bump_found {i j : Nat} (hv : h.Valid)
    (hCls : cls.toNat = 2 ^ j) (hAlign : align.toNat = 2 ^ i) (hMax : i ≤ 16)
    (hBump : h.bump cls align = .ok (addr, h₁)) : Found h cls addr h₁ ∧ 2 ^ i ∣ addr.toNat := by
  obtain ⟨hNext, hDvd⟩ := cut_addr hv hCls hAlign hMax
  unfold bump at hBump
  simp only at hBump
  split at hBump
  · cases hBump
  · rename_i hStop
    cases hReach : h.reach _ _ with
    | error r =>
      rw [hReach] at hBump
      cases hBump
    | ok h₂ =>
      rw [hReach] at hBump
      cases hBump
      obtain ⟨m, rfl, hPages, hLimit, hEnd, hBytes, hKept⟩ := reach_eq_ok hv (Nat.le_of_not_lt hStop) hReach
      generalize (h.next + max align (min cls 16) - 1) &&& ~~~(max align (min cls 16) - 1) = addr at *
      have hEndNat : ((addr.toNat + cls.toNat).toUInt32).toNat = addr.toNat + cls.toNat :=
        UInt32.toNat_ofNat_of_lt' (show _ < 2 ^ 32 by omega)
      have hLow := hv.next_low
      have hPos : 0 < cls.toNat := hCls ▸ Nat.two_pow_pos j
      have hWithin : ∀ e, h.Within e → e.Apart (place addr cls) := by
        intro e he
        exact .inl (Nat.le_trans he.2.2 hNext)
      have hMore : ∀ e, h.Within e →
          Within { h with memory := m, next := (addr.toNat + cls.toNat).toUInt32 } e := by
        intro e he
        exact ⟨he.1, he.2.1, by rw [hEndNat]; have := he.2.2; omega⟩
      refine ⟨⟨⟨hPages, hLimit, ?_, ?_, ?_, ?_, hv.live_apart, hv.free_nodup, hv.free_apart,
        hv.live_free_apart, hv.sized, hv.counted⟩, ⟨?_, hPos, ?_⟩, rfl, rfl, rfl, ?_, ?_, hBytes, hKept⟩, hDvd⟩
      · rw [hEndNat]
        omega
      · rw [hEndNat]
        exact Nat.le_trans hEnd (Nat.le_max_right ..)
      · intro b hb
        exact hMore _ (hv.live_within b hb)
      · intro c a ha
        exact hMore _ (hv.free_within c a ha)
      · exact Nat.le_trans hLow hNext
      · exact Nat.le_of_eq hEndNat.symm
      · intro b hb
        exact hWithin _ (hv.live_within b hb)
      · intro c a ha
        exact (hWithin _ (hv.free_within c a ha)).symm

/-- What an allocation of `size` bytes at a multiple of `align` gives. -/
structure Allocated (h : Heap) (size align addr : UInt32) (h' : Heap) : Prop where
  valid : h'.Valid
  live : h'.live = ⟨addr, sizeClass (asked size), asked size⟩ :: h.live
  aligned : (askedAlign align).toNat ∣ addr.toNat
  allocs : h'.allocs = h.allocs + 1
  frees : h'.frees = h.frees
  holds : (asked size).toNat ≤ (sizeClass (asked size)).toNat
  bytes_le : h.memory.bytes ≤ h'.memory.bytes
  cleared : ∀ i, (place addr (sizeClass (asked size))).Has i → h'.memory.byte i = 0
  kept : ∀ b ∈ h.live, ∀ i, b.extent.Has i → h'.memory.byte i = h.memory.byte i

theorem handOut_allocated {size align addr : UInt32} (hv : h.Valid)
    (hFound : Found h (sizeClass (asked size)) addr h₁) (hAligned : (askedAlign align).toNat ∣ addr.toNat)
    (hSize : size.toNat ≤ 2 ^ 30) :
    ∃ h', h₁.handOut addr (sizeClass (asked size)) (asked size) = .ok (addr, h') ∧
      Allocated h size align addr h' := by
  have hv₁ := hFound.valid
  have hAsked := asked_le hSize
  obtain ⟨k, _, _, _, hHolds⟩ := sizeClass_toNat hAsked
  obtain ⟨m, hClear⟩ := Memory.clear_of_fits (hv₁.within_bytes hFound.within)
  obtain ⟨hPages, hMaxPages, hCleared, hOutside⟩ := Memory.clear_eq_ok hClear
  have hBytes : m.bytes = h₁.memory.bytes := by rw [Memory.bytes, hPages]; rfl
  have hFresh : ∀ b ∈ h₁.live, b.addr ≠ addr := by
    intro b hb hEq
    rw [hFound.live] at hb
    exact (hFound.apart_live b hb).start_ne (hv.live_within b hb).2.1 hFound.within.2.1
      (congrArg UInt32.toNat hEq)
  have hFilter : h₁.live.filter (·.addr ≠ addr) = h.live := by
    rw [List.filter_eq_self.mpr (by simpa using hFresh), hFound.live]
  refine ⟨{ h₁ with
    memory := m
    live := ⟨addr, sizeClass (asked size), asked size⟩ :: h₁.live.filter (·.addr ≠ addr)
    allocs := h₁.allocs + 1 }, ?_, ?_⟩
  · simp only [handOut, hClear]
    rfl
  · rw [hFilter]
    refine ⟨⟨?_, ?_, hv₁.next_low, ?_, ?_, hv₁.free_within, ?_, hv₁.free_nodup, hv₁.free_apart, ?_, ?_, ?_⟩,
      rfl, hAligned, ?_, hFound.frees, ?_, ?_, ?_, ?_⟩
    · rw [hPages, hMaxPages]
      exact hv₁.pages_le
    · rw [hMaxPages]
      exact hv₁.maxPages_le
    · rw [hBytes]
      exact hv₁.next_high
    · intro b hb
      rcases List.mem_cons.mp hb with rfl | hb
      · exact hFound.within
      · exact hv₁.live_within b (hFound.live ▸ hb)
    · refine List.pairwise_cons.mpr ⟨?_, hFound.live ▸ hv₁.live_apart⟩
      intro b hb
      exact (hFound.apart_live b hb).symm
    · intro b hb c a ha
      rcases List.mem_cons.mp hb with rfl | hb
      · exact hFound.apart_free c a ha
      · exact hv₁.live_free_apart b (hFound.live ▸ hb) c a ha
    · intro b hb
      rcases List.mem_cons.mp hb with rfl | hb
      · exact ⟨rfl, asked_pos size, hAsked⟩
      · exact hv.sized b hb
    · simp only [hv₁.counted, hFound.live, List.length_cons]
      omega
    · simp only [hFound.allocs]
    · omega
    · rw [hBytes]
      exact hFound.bytes_le
    · intro i hi
      exact hCleared i hi.1 hi.2
    · intro b hb i hi
      have hOut : ¬ (place addr (sizeClass (asked size))).Has i := (hFound.apart_live b hb).not_has hi
      have hIn : i < h.memory.bytes := Nat.lt_of_lt_of_le hi.2 (hv.within_bytes (hv.live_within b hb))
      have hSide : i < addr.toNat ∨ addr.toNat + (sizeClass (asked size)).toNat ≤ i := by
        simp only [Extent.Has, place] at hOut
        omega
      rw [hOutside i hSide, hFound.kept i hIn]

theorem handOut_eq_ok {h h' : Heap} {a addr cls size : UInt32} (hOut : h.handOut a cls size = .ok (addr, h')) :
    addr = a ∧ ∃ m, h.memory.clear a cls = .ok m ∧
      h' = { h with
        memory := m
        live := ⟨a, cls, size⟩ :: h.live.filter (·.addr ≠ a)
        allocs := h.allocs + 1 } := by
  cases hClear : h.memory.clear a cls with
  | error r =>
    rw [handOut, hClear] at hOut
    cases hOut
  | ok m =>
    rw [handOut, hClear] at hOut
    cases hOut
    exact ⟨rfl, m, rfl, rfl⟩

/-- The range for a block: a waiting one of the class when one suits, else one cut from the end. -/
def find (h : Heap) (cls align : UInt32) : Except Report (UInt32 × Heap) :=
  match h.takeFree? cls align with
  | some found => .ok found
  | none => h.bump cls align

theorem find_found {i j : Nat} (hv : h.Valid)
    (hCls : cls.toNat = 2 ^ j) (hAlign : align.toNat = 2 ^ i) (hMax : i ≤ 16)
    (hFind : h.find cls align = .ok (addr, h₁)) : Found h cls addr h₁ ∧ align.toNat ∣ addr.toNat := by
  unfold find at hFind
  split at hFind
  · rename_i found hTake
    cases hFind
    obtain ⟨hFound, hRest⟩ := takeFree?_found hv hTake
    refine ⟨hFound, Nat.dvd_of_mod_eq_zero ?_⟩
    rw [← UInt32.toNat_mod, hRest]
    rfl
  · obtain ⟨hFound, hDvd⟩ := bump_found hv hCls hAlign hMax hFind
    exact ⟨hFound, hAlign ▸ hDvd⟩

theorem alloc?_eq (h : Heap) (size align : UInt32) :
    h.alloc? size align =
      if askedAlign align &&& (askedAlign align - 1) ≠ 0 || askedAlign align > maxAlign then
        .error (badAlign (askedAlign align))
      else if size > (1 : UInt32) <<< 30 then .error (.allocationFailed .heap size (askedAlign align))
      else (h.find (sizeClass (asked size)) (askedAlign align)).bind fun (addr, h) =>
        h.handOut addr (sizeClass (asked size)) (asked size) := by
  unfold alloc? find asked askedAlign
  dsimp only
  cases h.takeFree? (sizeClass (if size = 0 then 1 else size)) (if align = 0 then 1 else align) <;> rfl

theorem alloc?_eq_ok {h h' : Heap} {size align addr : UInt32} (hAlloc : h.alloc? size align = .ok (addr, h')) :
    (∃ i ≤ 16, (askedAlign align).toNat = 2 ^ i) ∧ size.toNat ≤ 2 ^ 30 ∧
      ∃ h₁, h.find (sizeClass (asked size)) (askedAlign align) = .ok (addr, h₁) ∧
        h₁.handOut addr (sizeClass (asked size)) (asked size) = .ok (addr, h') := by
  rw [alloc?_eq] at hAlloc
  split at hAlloc
  · cases hAlloc
  · rename_i hGood
    split at hAlloc
    · cases hAlloc
    · rename_i hSmall
      have hAlign := (align_suits_iff (askedAlign_ne_zero align)).mp (Bool.eq_false_iff.mpr hGood)
      refine ⟨hAlign, Nat.le_of_not_lt hSmall, ?_⟩
      cases hFind : h.find (sizeClass (asked size)) (askedAlign align) with
      | error r =>
        rw [hFind] at hAlloc
        cases hAlloc
      | ok found =>
        obtain ⟨a, h₁⟩ := found
        rw [hFind] at hAlloc
        have hOut : h₁.handOut a (sizeClass (asked size)) (asked size) = .ok (addr, h') := hAlloc
        obtain ⟨rfl, -⟩ := handOut_eq_ok hOut
        exact ⟨h₁, rfl, hOut⟩

theorem alloc?_allocated {h h' : Heap} {size align addr : UInt32} (hv : h.Valid)
    (hAlloc : h.alloc? size align = .ok (addr, h')) : Allocated h size align addr h' := by
  obtain ⟨⟨i, hi, hAlign⟩, hSize, h₁, hFind, hOut⟩ := alloc?_eq_ok hAlloc
  obtain ⟨j, _, _, hCls, _⟩ := sizeClass_toNat (asked_le hSize)
  obtain ⟨hFound, hDvd⟩ := find_found hv hCls hAlign hi hFind
  obtain ⟨h₂, hOut', hAllocated⟩ := handOut_allocated hv hFound hDvd hSize
  obtain ⟨-, rfl⟩ := Prod.mk.inj (Except.ok.inj (hOut'.symm.trans hOut))
  exact hAllocated

theorem bump_eq_ok (hBump : h.bump cls align = .ok (addr, h₁)) :
    addr.toNat + cls.toNat ≤ 0xFFFFFFFF ∧ ∃ m next, h.memory.Grows m ∧ h₁ = { h with memory := m, next } := by
  unfold bump at hBump
  simp only at hBump
  split at hBump
  · cases hBump
  · rename_i hStop
    cases hReach : h.reach _ _ with
    | error r =>
      rw [hReach] at hBump
      cases hBump
    | ok h₂ =>
      rw [hReach] at hBump
      cases hBump
      obtain ⟨m, rfl, hGrows⟩ := reach_grows hReach
      exact ⟨Nat.le_of_not_lt hStop, m, _, hGrows, rfl⟩

theorem find_eq_ok (hFind : h.find cls align = .ok (addr, h₁)) :
    (addr ∈ h.free cls ∧ h₁ = { h with free := fun c => if c = cls then (h.free cls).erase addr else h.free c }) ∨
      addr.toNat + cls.toNat ≤ 0xFFFFFFFF ∧ ∃ m next, h.memory.Grows m ∧ h₁ = { h with memory := m, next } := by
  unfold find at hFind
  split at hFind
  · rename_i hTake
    cases hFind
    unfold takeFree? at hTake
    split at hTake
    · cases hTake
    · rename_i hFound
      cases hTake
      exact .inl ⟨List.mem_of_find?_eq_some hFound, rfl⟩
  · exact .inr (bump_eq_ok hFind)

theorem find_grows (hFind : h.find cls align = .ok (addr, h₁)) : h.memory.Grows h₁.memory := by
  rcases find_eq_ok hFind with ⟨-, rfl⟩ | ⟨-, m, next, hGrows, rfl⟩
  · exact .refl _
  · exact hGrows

theorem alloc?_grows {h h' : Heap} {size align addr : UInt32} (hAlloc : h.alloc? size align = .ok (addr, h')) :
    h.memory.Grows h'.memory := by
  obtain ⟨-, -, h₁, hFind, hOut⟩ := alloc?_eq_ok hAlloc
  obtain ⟨-, m, hClear, rfl⟩ := handOut_eq_ok hOut
  exact (find_grows hFind).trans (Memory.grows_clear hClear)

theorem Valid.filter_eq_erase (hv : h.Valid) {b : Block} (hb : b ∈ h.live) :
    h.live.filter (·.addr ≠ b.addr) = h.live.erase b := by
  rw [(List.Nodup.of_map _ hv.live_addr_nodup).erase_eq_filter]
  apply List.filter_congr
  intro c hc
  by_cases hEq : c = b
  · simp [hEq]
  · have hAddr : c.addr ≠ b.addr := fun h => hEq (hv.live_ext hc hb h)
    simp [hEq, hAddr]

structure Freed (h : Heap) (b : Block) (h' : Heap) : Prop where
  valid : h'.Valid
  live : h'.live = h.live.filter (·.addr ≠ b.addr)
  memory : h'.memory = h.memory
  allocs : h'.allocs = h.allocs
  frees : h'.frees = h.frees + 1

theorem free?_of_live (hv : h.Valid) {b : Block} (hb : b ∈ h.live) :
    ∃ h', h.free? b.addr = .ok h' ∧ Freed h b h' := by
  have hFree : h.free? b.addr = .ok { h with
      live := h.live.filter (·.addr ≠ b.addr)
      free := fun c => if c = b.capacity then b.addr :: h.free c else h.free c
      frees := h.frees + 1 } := by
    rw [free?, if_neg (hv.live_addr_ne_zero hb), block?_of_mem hv hb]
  refine ⟨_, hFree, ?_, rfl, rfl, rfl, rfl⟩
  have hMem : ∀ c ∈ h.live.filter (·.addr ≠ b.addr), c ∈ h.live ∧ c.addr ≠ b.addr := by
    intro c hc
    simpa using List.mem_filter.mp hc
  -- what waits now is the block itself or was waiting before
  have hWaits : ∀ c, ∀ a ∈ (if c = b.capacity then b.addr :: h.free c else h.free c),
      (a = b.addr ∧ c = b.capacity) ∨ a ∈ h.free c := by
    intro c a ha
    split at ha
    · rcases List.mem_cons.mp ha with rfl | ha
      · exact .inl ⟨rfl, ‹_›⟩
      · exact .inr ha
    · exact .inr ha
  refine ⟨hv.pages_le, hv.maxPages_le, hv.next_low, hv.next_high, ?_, ?_, hv.live_apart.filter _, ?_, ?_, ?_, ?_, ?_⟩
  · intro c hc
    exact hv.live_within c (hMem c hc).1
  · intro c a ha
    rcases hWaits c a ha with ⟨rfl, rfl⟩ | ha
    · exact hv.live_within b hb
    · exact hv.free_within c a ha
  · intro c
    show (if c = b.capacity then b.addr :: h.free c else h.free c).Nodup
    split
    · exact List.nodup_cons.mpr ⟨hv.live_not_free hb c, hv.free_nodup c⟩
    · exact hv.free_nodup c
  · intro c a ha c' a' ha' hNe
    rcases hWaits c a ha with ⟨rfl, rfl⟩ | ha
    · rcases hWaits c' a' ha' with ⟨rfl, rfl⟩ | ha'
      · rcases hNe with hNe | hNe <;> exact absurd rfl hNe
      · exact hv.live_free_apart b hb c' a' ha'
    · rcases hWaits c' a' ha' with ⟨rfl, rfl⟩ | ha'
      · exact (hv.live_free_apart b hb c a ha).symm
      · exact hv.free_apart c a ha c' a' ha' hNe
  · intro d hd c a ha
    obtain ⟨hd, hNe⟩ := hMem d hd
    rcases hWaits c a ha with ⟨rfl, rfl⟩ | ha
    · exact hv.apart_of_ne hd hb hNe
    · exact hv.live_free_apart d hd c a ha
  · intro c hc
    exact hv.sized c (hMem c hc).1
  · have hLength := List.length_erase_of_mem hb
    have hPos : 0 < h.live.length := List.length_pos_of_mem hb
    simp only [hv.filter_eq_erase hb, hLength, hv.counted]
    omega

theorem free?_of_not_live (hNull : addr ≠ 0) (hDead : h.isLive addr = false) :
    h.free? addr = .error (.doubleFree .heap addr) := by
  have hNone : h.block? addr = none := by simpa [isLive] using hDead
  rw [free?, if_neg hNull, hNone]

theorem free?_memory {h h' : Heap} (hFree : h.free? addr = .ok h') : h'.memory = h.memory := by
  unfold free? at hFree
  split at hFree
  · cases hFree
    rfl
  · split at hFree <;> cases hFree
    rfl

theorem Valid.setMemory (hv : h.Valid) {m : Memory} (hPages : m.pages = h.memory.pages)
    (hMax : m.maxPages = h.memory.maxPages) : Valid { h with memory := m } := by
  have hBytes : m.bytes = h.memory.bytes := by rw [Memory.bytes, hPages]; rfl
  refine ⟨?_, ?_, hv.next_low, ?_, hv.live_within, hv.free_within, hv.live_apart, hv.free_nodup,
    hv.free_apart, hv.live_free_apart, hv.sized, hv.counted⟩
  · rw [hPages, hMax]
    exact hv.pages_le
  · rw [hMax]
    exact hv.maxPages_le
  · rw [hBytes]
    exact hv.next_high

end Heap

end Marshal
