import Marshal.Proofs.Heap.Classes
import Marshal.Proofs.Owner.Upkeep

/-! # The storage of vectors, whatever is done to the heap

The storage of a vector was once handed out to it. Others may have freed it behind the vector's back since, and it may
have been handed out again, but it is still a block of its class. So when the vector grows, its new block never lies
over the old one, and a push that fails leaves what the vector held, even if it failed halfway.
-/
set_option autoImplicit false
namespace Marshal

open Step

/-- Every block that was live in the earlier heap is still a block of its class. -/
def Heap.Remembers (h h₀ : Heap) : Prop := ∀ b ∈ h₀.live, h.Cut b.addr b.capacity

theorem Heap.Remembers.refl (h : Heap) : h.Remembers h := fun _ hb => cut_of_mem hb

theorem Heap.steady_remembers (h₀ : Heap) : Steady fun h => h.Valid ∧ h.Remembers h₀ := by
  rintro c h ⟨hv, hr⟩
  refine ⟨steady_valid c h hv, fun b hb => ?_⟩
  exact (steady_cut b.addr b.capacity c h ⟨hv, hr b hb⟩).2

namespace Buffer

variable {h h' h₀ h₁ : Heap} {s : Scalar} {b b' : Buffer} {m : Memory} {v : Datum}

/-- The buffer fitted an earlier heap whose blocks are remembered. -/
def Rooted (h : Heap) (s : Scalar) (b : Buffer) : Prop := ∃ h₀ : Heap, h₀.Valid ∧ h.Remembers h₀ ∧ b.Fits h₀ s

def storageClass (s : Scalar) (b : Buffer) : UInt32 := Heap.sizeClass (b.cap * s.size)

theorem Rooted.cut (hb : b.Rooted h s) (hNe : b.addr ≠ 0) : h.Cut b.addr (b.storageClass s) := by
  obtain ⟨h₀, hv₀, hr, hf⟩ := hb
  obtain ⟨c, hc, hAddr, -, hSize⟩ := hf.room hNe
  have hBytes : c.size = b.cap * s.size := UInt32.toNat_inj.mp (by rw [hSize, size_toNat s hf.cap_le])
  have hCut := hr c hc
  rwa [hAddr, (hv₀.sized c hc).1, hBytes] at hCut

theorem Rooted.room (hb : b.Rooted h s) : b.len.toNat * s.width ≤ (b.storageClass s).toNat := by
  obtain ⟨h₀, -, -, hf⟩ := hb
  have hCap := size_toNat s hf.cap_le
  have hMost : b.cap.toNat * s.width ≤ 2 ^ 27 * 8 := Nat.mul_le_mul hf.cap_le s.width_bounds.2
  have hSize : (b.cap * s.size).toNat ≤ 2 ^ 30 := by omega
  obtain ⟨k, -, -, hClass, hHolds⟩ := Heap.sizeClass_toNat hSize
  have hLen := Nat.mul_le_mul_right s.width hf.len_le
  rw [storageClass]
  omega

theorem Rooted.class_ne (hb : b.Rooted h s) (hWide : 2 ≤ s.width) (hNe : b.addr ≠ 0)
    (hMax : max 4 (b.cap * 2) ≤ maxCap) :
    Heap.sizeClass (Heap.asked (max 4 (b.cap * 2) * s.size)) ≠ b.storageClass s := by
  obtain ⟨h₀, -, -, hf⟩ := hb
  obtain ⟨k, hk, hPow⟩ := hf.doubled hNe
  have hFour : 2 ^ 2 ≤ 2 ^ k := Nat.pow_le_pow_right (by decide) hk
  have hCap := cap_grow hf.cap_le
  have hSmall : (max 4 (b.cap * 2)).toNat ≤ 2 ^ 27 := hMax
  have hOld := size_toNat s hf.cap_le
  have hNew := size_toNat s hSmall
  have hWidth := s.width_bounds.2
  have hLow : 4 * 2 ≤ b.cap.toNat * s.width := Nat.mul_le_mul (by omega) hWide
  have hTwice : b.cap.toNat * 2 * s.width ≤ (max 4 (b.cap * 2)).toNat * s.width :=
    Nat.mul_le_mul_right _ (by omega)
  have hMost : (max 4 (b.cap * 2)).toNat * s.width ≤ 2 ^ 27 * 8 := Nat.mul_le_mul hSmall hWidth
  rw [Nat.mul_right_comm] at hTwice
  have hAsked := Heap.le_asked (max 4 (b.cap * 2) * s.size)
  have hNewSize : (max 4 (b.cap * 2) * s.size).toNat ≤ 2 ^ 30 := by omega
  have hOldSize : 8 ≤ (b.cap * s.size).toNat ∧ (b.cap * s.size).toNat ≤ 2 ^ 30 := by omega
  obtain ⟨j, -, -, hClass, hHolds⟩ := Heap.sizeClass_toNat (Heap.asked_le hNewSize)
  have hLess := Heap.sizeClass_lt hOldSize.1 hOldSize.2
  intro hEq
  rw [storageClass] at hEq
  rw [← hEq] at hLess
  omega

/-! ## Growing -/

theorem Rooted.retains_carry (hb : b.Rooted h₁ s) (hr : Heap.Retains m b.addr (b.storageClass s) h₁) {c : Block}
    (hc : c ∈ h₁.live) (hClass : c.capacity ≠ b.storageClass s) (hRoom : b.len.toNat * s.width ≤ c.capacity.toNat) :
    Heap.Retains m b.addr (b.storageClass s) (exec (b.carry s c.addr) h₁).2 := by
  unfold carry
  split
  · have hSize : (b.len * s.size).toNat = b.len.toNat * s.width := by
      obtain ⟨h₀, -, -, hf⟩ := hb
      exact size_toNat s (Nat.le_trans hf.len_le hf.cap_le)
    have hFits : b.addr.toNat + (b.len * s.size).toNat ≤ h₁.memory.bytes := by
      have hWithin : b.addr.toNat + (b.storageClass s).toNat ≤ h₁.memory.bytes :=
        hr.valid.within_bytes (hr.cut.within hr.valid)
      have hLen := hb.room
      omega
    have hLength := h₁.memory.length_slice b.addr.toNat (b.len * s.size).toNat
    have hTarget := hr.valid.live_bytes hc
    have hData : (h₁.memory.slice b.addr.toNat (b.len * s.size).toNat).length ≤ c.capacity.toNat := by omega
    have hWrite := hr.write hc hClass hData
    rw [Heap.exec_write (by omega)] at hWrite
    rw [exec_tryCatch, exec_bind_ok (Heap.exec_readBytes hFits), Heap.exec_write (by omega)]
    exact hWrite
  · exact hr

theorem retains_discard (m : Memory) (a c : UInt32) (b : Buffer) : Step.Keeps (Heap.Retains m a c) b.discard := by
  unfold discard
  split
  · exact Step.Keeps.pure ()
  · exact Heap.retains_release m a c b.addr

theorem Rooted.retains_grow (hb : b.Rooted h s) (hv : h.Valid) (hWide : 2 ≤ s.width) (hNe : b.addr ≠ 0) :
    Heap.Retains h.memory b.addr (b.storageClass s) (exec (b.grow s) h).2 := by
  have hr : Heap.Retains h.memory b.addr (b.storageClass s) h := ⟨hv, hb.cut hNe, fun _ _ => rfl⟩
  rcases exec_grow h s b with ⟨-, r, hExec⟩ | ⟨hMax, hExec⟩
  · rwa [hExec]
  · have hClass := hb.class_ne hWide hNe hMax
    rw [hExec]
    rcases hr.allocate hClass with ⟨r, hAlloc⟩ | ⟨addr, h₁, hAlloc, ha, hr₁⟩
    · rwa [exec_bind_error hAlloc]
    · rw [exec_bind_ok hAlloc]
      have hKept : b.Rooted h₁ s := by
        obtain ⟨h₀, hv₀, hRemembers, hf⟩ := hb
        have hStep := (Heap.steady_remembers h₀).allocate (max 4 (b.cap * 2) * s.size) s.size h ⟨hv, hRemembers⟩
        rw [hAlloc] at hStep
        exact ⟨h₀, hv₀, hStep.2, hf⟩
      have hRoom : b.len.toNat * s.width ≤ (Heap.sizeClass (Heap.asked (max 4 (b.cap * 2) * s.size))).toNat := by
        obtain ⟨h₀, -, -, hf⟩ := hb
        have hCap := cap_grow hf.cap_le
        have hLen : b.len.toNat * s.width ≤ (max 4 (b.cap * 2)).toNat * s.width :=
          Nat.mul_le_mul_right _ (by have := hf.len_le; omega)
        rw [← size_toNat s (n := max 4 (b.cap * 2)) hMax] at hLen
        exact Nat.le_trans hLen (Nat.le_trans (Heap.le_asked _) ha.holds)
      refine bind_holds (P := Heap.Retains h.memory b.addr (b.storageClass s))
        (hKept.retains_carry hr₁ (c := ⟨addr, _, _⟩) (ha.live ▸ List.mem_cons_self) hClass hRoom) fun _ => ?_
      exact Step.Keeps.bind (retains_discard _ _ _ b) fun _ => Step.Keeps.pure _

theorem words_retained (hb : b.Rooted h s) (hr : Heap.Retains h.memory b.addr (b.storageClass s) h') :
    b.words h'.memory s = b.words h.memory s := by
  refine words_congr rfl (Memory.slice_congr fun i hLow hHigh => hr.bytes i ⟨hLow, ?_⟩)
  exact Nat.lt_of_lt_of_le hHigh (Nat.add_le_add_left hb.room _)

/-! ## Pushing -/

theorem exec_append_error {stop : Stop} (hExec : exec (append s v b) h = (.error stop, h')) : h' = h := by
  rw [append, exec_bind, Heap.exec_change] at hExec
  cases hStore : h.memory.store s (b.slot s b.len) v with
  | error r =>
    rw [hStore] at hExec
    exact (Prod.mk.inj hExec).2.symm
  | ok m =>
    rw [hStore] at hExec
    cases hExec

theorem Rooted.words_of_push_error (hb : b.Rooted h s) (hv : h.Valid) (hWide : 2 ≤ s.width) {stop : Stop}
    (hExec : exec (b.push s v) h = (.error stop, h')) : b.words h'.memory s = b.words h.memory s := by
  rw [push_eq] at hExec
  split at hExec
  · rename_i hFull
    have hState : h' = (exec (b.grow s) h).2 := by
      rw [exec_bind] at hExec
      generalize exec (b.grow s) h = out at hExec
      rcases out with ⟨stop' | b₁, h₁⟩
      · exact (Prod.mk.inj hExec).2.symm
      · exact exec_append_error hExec
    by_cases hNe : b.addr = 0
    · -- an empty buffer has no elements to lose
      obtain ⟨h₀, -, -, hf⟩ := hb
      have hLen : b.len = 0 := hFull.trans (hf.unset hNe)
      rw [words, words, hLen]
      rfl
    · rw [hState]
      exact words_retained hb (hb.retains_grow hv hWide hNe)
  · rw [exec_append_error hExec]

theorem fits_allocated {cap addr : UInt32} (ha : Heap.Allocated h (cap * s.size) s.size addr h₁)
    (hLen : b.len.toNat ≤ cap.toNat) (hCap : cap.toNat ≤ 2 ^ 27) (hDoubled : ∃ k, 2 ≤ k ∧ cap.toNat = 2 ^ k) :
    ({ b with addr, cap } : Buffer).Fits h₁ s := by
  have hc : ⟨addr, Heap.sizeClass (Heap.asked (cap * s.size)), Heap.asked (cap * s.size)⟩ ∈ h₁.live :=
    ha.live ▸ List.mem_cons_self
  have hSize := size_toNat s hCap
  have hAsked : Heap.asked (cap * s.size) = cap * s.size := by
    obtain ⟨k, -, hPow⟩ := hDoubled
    have hPos : 1 * 1 ≤ cap.toNat * s.width := Nat.mul_le_mul (hPow ▸ Nat.one_le_two_pow) s.width_bounds.1
    refine if_neg fun hZero => ?_
    rw [← hSize, hZero] at hPos
    exact absurd hPos (by decide)
  refine ⟨hLen, hCap, fun hZero => absurd hZero (ha.valid.live_addr_ne_zero hc), fun _ => hDoubled, fun _ => ?_⟩
  refine ⟨_, hc, rfl, ?_, by rw [hAsked, hSize]⟩
  show cap.toNat * s.width ≤ _
  rw [← hSize]
  exact Nat.le_trans (Heap.le_asked _) ha.holds

theorem Rooted.grow (hb : b.Rooted h s) (hv : h.Valid) (hExec : exec (b.grow s) h = (.ok b', h')) :
    b'.Rooted h' s ∧ b'.len = b.len ∧ b'.cap.toNat = max 4 (b.cap.toNat * 2) := by
  obtain ⟨h₀, -, -, hf⟩ := hb
  have hCap := cap_grow hf.cap_le
  rcases exec_grow h s b with ⟨-, r, hRefused⟩ | ⟨hMax, hGrow⟩
  · cases hRefused.symm.trans hExec
  · rw [hGrow] at hExec
    obtain ⟨addr, h₁, hAlloc, hMove⟩ := exec_bind_eq_ok.mp hExec
    rcases Heap.exec_allocate_cases hv (max 4 (b.cap * 2) * s.size) s.size with ⟨r, hNone⟩ | ⟨a, h₂, hSome, ha⟩
    · cases hNone.symm.trans hAlloc
    · cases hSome.symm.trans hAlloc
      have hFits := fits_allocated (b := b) ha (by have := hf.len_le; omega) hMax (hCap ▸ hf.doubled_max)
      have hKept := (Heap.steady_remembers h₁).move s b (max 4 (b.cap * 2)) addr h₁ ⟨ha.valid, .refl h₁⟩
      rw [hMove] at hKept
      obtain ⟨_, h₃, -, hRest⟩ := exec_bind_eq_ok.mp hMove
      obtain ⟨_, h₄, -, hDone⟩ := exec_bind_eq_ok.mp hRest
      cases hDone
      exact ⟨⟨h₁, ha.valid, hKept.2, hFits⟩, rfl, hCap⟩

theorem Rooted.append (hb : b.Rooted h s) (hv : h.Valid) (hLess : b.len.toNat < b.cap.toNat)
    (hExec : exec (append s v b) h = (.ok b', h')) : b'.Rooted h' s := by
  obtain ⟨h₀, hv₀, hr, hf⟩ := hb
  have hKept := (Heap.steady_remembers h₀).append s v b h ⟨hv, hr⟩
  rw [hExec] at hKept
  obtain ⟨_, h₁, -, hDone⟩ := exec_bind_eq_ok.mp hExec
  cases hDone
  have hLen : (b.len + 1).toNat ≤ b.cap.toNat := by
    rw [UInt32.toNat_add, UInt32.toNat_one]
    exact Nat.le_trans (Nat.mod_le _ _) hLess
  exact ⟨h₀, hv₀, hKept.2, hLen, hf.cap_le, hf.unset, hf.doubled, hf.room⟩

theorem Rooted.push (hb : b.Rooted h s) (hv : h.Valid) (hExec : exec (b.push s v) h = (.ok b', h')) :
    b'.Rooted h' s := by
  rw [push_eq] at hExec
  split at hExec
  · rename_i hFull
    obtain ⟨b₁, h₁, hGrow, hAppend⟩ := exec_bind_eq_ok.mp hExec
    obtain ⟨hb₁, hLen, hCap⟩ := hb.grow hv hGrow
    have hv₁ := Heap.steady_valid.grow s b h hv
    rw [hGrow] at hv₁
    refine hb₁.append hv₁ ?_ hAppend
    rw [hLen, hFull]
    omega
  · rename_i hRoom
    have hLess : b.len.toNat < b.cap.toNat := by
      obtain ⟨h₀, -, -, hf⟩ := hb
      exact Nat.lt_of_le_of_ne hf.len_le fun hEq => hRoom (UInt32.toNat_inj.mp hEq)
    exact hb.append hv hLess hExec

theorem pop_eq_ok {d : Option Datum} (hExec : exec (b.pop s) h = (.ok (d, b'), h)) :
    b' = b ∨ 0 < b.len.toNat ∧ b' = { b with len := b.len - 1 } := by
  unfold pop at hExec
  split at hExec
  · cases hExec
    exact .inl rfl
  · rename_i hNe
    have hPos : 0 < b.len.toNat := Nat.pos_of_ne_zero fun hZero => hNe (UInt32.toNat_inj.mp hZero)
    obtain ⟨x, h₁, -, hDone⟩ := exec_bind_eq_ok.mp hExec
    cases x with
    | none =>
      cases hDone
      exact .inl rfl
    | some x =>
      cases hDone
      exact .inr ⟨hPos, rfl⟩

theorem Rooted.pop (hb : b.Rooted h s) {d : Option Datum} (hExec : exec (b.pop s) h = (.ok (d, b'), h)) :
    b'.Rooted h s := by
  obtain ⟨h₀, hv₀, hr, hf⟩ := hb
  rcases pop_eq_ok hExec with rfl | ⟨hPos, rfl⟩
  · exact ⟨h₀, hv₀, hr, hf⟩
  · have hLen : (b.len - 1).toNat ≤ b.cap.toNat := by
      rw [UInt32.toNat_sub_of_le _ _ (show 1 ≤ b.len.toNat from hPos)]
      exact Nat.le_trans (Nat.sub_le _ _) hf.len_le
    exact ⟨h₀, hv₀, hr, hLen, hf.cap_le, hf.unset, hf.doubled, hf.room⟩

end Buffer

/-! ## The owners that are reached -/

/-- The object fitted an earlier heap whose blocks are remembered. -/
def Object.Rooted {V : Type} (h : Heap) (v : Object V) : Prop :=
  ∃ h₀ : Heap, h₀.Valid ∧ h.Remembers h₀ ∧ v.Fits h₀

theorem Owner.VecForm.Lawful.rooted_iff {V : Type} {form : VecForm V} (hl : form.Lawful) (h : Heap) (buf : Buffer) :
    (form.inject buf).Rooted h ↔ buf.Rooted h form.elem :=
  exists_congr fun h₀ => and_congr_right' (and_congr_right' (hl.fits h₀ buf))

theorem Heap.steady_maxPages (n : Nat) : Steady fun h => h.memory.maxPages = n :=
  fun c h hh => (grows_use h c).maxPages_eq.trans hh

theorem Heap.steady_valid_of_maxPages : Steady fun h => h.memory.maxPages ≤ 65535 → h.Valid :=
  fun c h hh hLimit => steady_valid c h (hh ((grows_use h c).maxPages_eq ▸ hLimit))

namespace Owner

variable {V : Type} {o : Owner V} {addr : UInt32} {e : Entry (Object V)}

/-- Up to 65535 pages the heap is valid, and the storage of every object has kept its class. -/
def rooted : Upkeep V where
  heap h := h.memory.maxPages ≤ 65535 → h.Valid
  object _ h _ v := h.memory.maxPages ≤ 65535 → v.Rooted h
  steady := Heap.steady_valid_of_maxPages
  lasts types id v c h hh := by
    refine ⟨Heap.steady_valid_of_maxPages c h hh.1, fun hLimit => ?_⟩
    rw [(Heap.grows_use h c).maxPages_eq] at hLimit
    obtain ⟨h₀, hv₀, hr, hFits⟩ := hh.2 hLimit
    exact ⟨h₀, hv₀, (Heap.steady_remembers h₀ c h ⟨hh.1 hLimit, hr⟩).2, hFits⟩
  declared _ hv := hv
  bare hh hBare hLimit := ⟨_, hh hLimit, .refl _, hBare.fits _⟩
  text := by
    intro _ h h' data ptr _ hh hAlloc hLimit
    have hKept := Heap.steady_valid_of_maxPages.allocateBytes data h hh
    rw [hAlloc] at hKept
    exact ⟨h', hKept hLimit, .refl h', trivial⟩
  push := by
    intro form hl _ h h' _ buf buf' v hh hBuf hPush _ hLimit
    have hSame : (exec (buf.push form.elem v) h).2.memory.maxPages = h.memory.maxPages :=
      (Heap.steady_maxPages h.memory.maxPages).push form.elem buf v h rfl
    rw [hPush] at hSame
    rw [hSame] at hLimit
    exact (hl.rooted_iff h' buf').mpr (((hl.rooted_iff h buf).mp (hBuf hLimit)).push (hh hLimit) hPush)
  pop hl _ h _ buf buf' _ _ hBuf hPop _ hLimit :=
    (hl.rooted_iff h buf').mpr (((hl.rooted_iff h buf).mp (hBuf hLimit)).pop hPop)

theorem Reached.rooted (hRun : o.Reached) : (Owner.rooted (V := V)).Holds o :=
  Upkeep.holds_of_reached (fun _ hPages hLimit => Heap.Valid.of_memory hPages hLimit) hRun

end Owner

end Marshal
