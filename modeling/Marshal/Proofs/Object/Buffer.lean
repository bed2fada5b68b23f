import Marshal.Owner.Object
import Marshal.Proofs.Heap.Replaced

/-! # The storage of vectors

A buffer fits when its elements lie in a live block of its own. Its contents are the words stored for its
elements, one after the other; pushing appends one, popping removes the last, and both leave every other
block of the heap alone, also when the buffer moves.
-/
set_option autoImplicit false
namespace Marshal

open Step

namespace Buffer

def blocks (b : Buffer) : List UInt32 := Heap.blockAt b.addr

def word (m : Memory) (s : Scalar) (b : Buffer) (i : Nat) : Nat :=
  Word.ofBytes (m.slice (b.addr.toNat + i * s.width) s.width)

def words (m : Memory) (s : Scalar) (b : Buffer) : List Nat := (List.range b.len.toNat).map (b.word m s)

/-- The elements, and those still to come before the buffer grows, lie in a live block of just their size. -/
structure Fits (h : Heap) (s : Scalar) (b : Buffer) : Prop where
  len_le : b.len.toNat ≤ b.cap.toNat
  cap_le : b.cap.toNat ≤ 2 ^ 27
  unset : b.addr = 0 → b.cap = 0
  doubled : b.addr ≠ 0 → ∃ k, 2 ≤ k ∧ b.cap.toNat = 2 ^ k
  room : b.addr ≠ 0 → ∃ c ∈ h.live, c.addr = b.addr ∧ b.cap.toNat * s.width ≤ c.capacity.toNat ∧
    c.size.toNat = b.cap.toNat * s.width

variable {h h' : Heap} {s : Scalar} {b : Buffer}

theorem fits_empty (h : Heap) (s : Scalar) : ({} : Buffer).Fits h s :=
  ⟨Nat.le_refl 0, by decide, fun _ => rfl, fun hNe => absurd rfl hNe, fun hNe => absurd rfl hNe⟩

theorem words_empty (m : Memory) (s : Scalar) : ({} : Buffer).words m s = [] := rfl

namespace Fits

theorem addr_ne_zero (hf : b.Fits h s) {i : Nat} (hi : i < b.cap.toNat) : b.addr ≠ 0 := by
  intro hZero
  rw [hf.unset hZero] at hi
  exact absurd hi (Nat.not_lt_zero i)

theorem block (hf : b.Fits h s) {i : Nat} (hi : i < b.cap.toNat) :
    ∃ c ∈ h.live, c.addr = b.addr ∧ i * s.width + s.width ≤ c.capacity.toNat := by
  obtain ⟨c, hc, hAddr, hRoom, -⟩ := hf.room (hf.addr_ne_zero hi)
  refine ⟨c, hc, hAddr, Nat.le_trans ?_ hRoom⟩
  rw [← Nat.succ_mul]
  exact Nat.mul_le_mul_right _ hi

theorem slot_toNat (hf : b.Fits h s) (hv : h.Valid) {i : UInt32} (hi : i.toNat < b.cap.toNat) :
    (b.slot s i).toNat = b.addr.toNat + i.toNat * s.width ∧
      b.addr.toNat + i.toNat * s.width + s.width ≤ h.memory.bytes := by
  obtain ⟨c, hc, hAddr, hRoom⟩ := hf.block hi
  have hBytes := hv.live_bytes hc
  have hLimit := hv.bytes_le
  rw [hAddr] at hBytes
  refine ⟨?_, by omega⟩
  rw [slot, UInt32.toNat_add, UInt32.toNat_mul, s.size_toNat, Nat.mod_eq_of_lt (by omega),
    Nat.mod_eq_of_lt (by omega)]

theorem kept (hf : b.Fits h s) (hKept : ∀ c ∈ h.live, c.addr = b.addr →
      c ∈ h'.live ∧ ∀ i, c.extent.Has i → h'.memory.byte i = h.memory.byte i) :
    b.Fits h' s ∧ b.words h'.memory s = b.words h.memory s := by
  refine ⟨⟨hf.len_le, hf.cap_le, hf.unset, hf.doubled, ?_⟩, ?_⟩
  · intro hNe
    obtain ⟨c, hc, hAddr, hRoom⟩ := hf.room hNe
    exact ⟨c, (hKept c hc hAddr).1, hAddr, hRoom⟩
  · apply List.map_congr_left
    intro i hi
    have hLt : i < b.cap.toNat := Nat.lt_of_lt_of_le (List.mem_range.mp hi) hf.len_le
    obtain ⟨c, hc, hAddr, hRoom⟩ := hf.block hLt
    refine congrArg Word.ofBytes (Memory.slice_congr ?_)
    intro j hLow hHigh
    refine (hKept c hc hAddr).2 j ⟨?_, ?_⟩
    · show c.addr.toNat ≤ j
      rw [hAddr]
      omega
    · show j < c.addr.toNat + c.capacity.toNat
      rw [hAddr]
      omega

theorem replaced (hf : b.Fits h s) {old new : List UInt32} (hr : Heap.Replaced h old new h')
    (hOld : b.addr ∉ old) : b.Fits h' s ∧ b.words h'.memory s = b.words h.memory s :=
  hf.kept fun c hc hAddr => hr.kept c hc (hAddr ▸ hOld)

end Fits

/-! ## Reading -/

theorem exec_get? (hv : h.Valid) (hf : b.Fits h s) {i : UInt32} (hi : i.toNat < b.len.toNat) :
    exec (b.get? s i) h = match s.ofWord (b.word h.memory s i.toNat) with
      | .ok v => (.ok (some v), h)
      | .error r => (.error (.trapped (.wrap .container .outOfBounds (.report r) "vector element")), h) := by
  obtain ⟨hSlot, hBytes⟩ := hf.slot_toNat hv (Nat.lt_of_lt_of_le hi hf.len_le)
  rw [get?, if_neg (show ¬ i ≥ b.len from Nat.not_le.mpr hi), exec_bind, exec_trapRefusal,
    Heap.exec_inspect, Memory.load_of_fits (by rw [hSlot]; exact hBytes), hSlot]
  unfold word
  cases s.ofWord (Word.ofBytes (h.memory.slice (b.addr.toNat + i.toNat * s.width) s.width)) <;> rfl

theorem exec_get?_address (hv : h.Valid) (hf : b.Fits h .u32) {i : UInt32} (hi : i.toNat < b.len.toNat) :
    exec (b.get? .u32 i) h = (.ok (some (.u32 (b.word h.memory .u32 i.toNat).toUInt32)), h) :=
  exec_get? hv hf hi

theorem exec_get?_memory (hMemory : h'.memory = h.memory) (i : UInt32) :
    exec (b.get? s i) h' = ((exec (b.get? s i) h).1, h') := by
  unfold get?
  split
  · rfl
  · rw [exec_bind, exec_bind, exec_trapRefusal, exec_trapRefusal, Heap.exec_inspect, Heap.exec_inspect, hMemory]
    cases h.memory.load s (b.slot s i) <;> rfl

theorem words_pop (m : Memory) (hLen : 0 < b.len.toNat) :
    b.words m s = ({ b with len := b.len - 1 } : Buffer).words m s ++ [b.word m s (b.len - 1).toNat] := by
  have hPred : (b.len - 1).toNat = b.len.toNat - 1 := UInt32.toNat_sub_of_le _ _ (show 1 ≤ b.len.toNat from hLen)
  have hRange : List.range b.len.toNat = List.range (b.len.toNat - 1) ++ [b.len.toNat - 1] := by
    rw [← List.range_succ, Nat.succ_eq_add_one, Nat.sub_add_cancel hLen]
  rw [words, hRange, List.map_append, words, hPred]
  rfl

theorem exec_pop_empty (hLen : b.len = 0) : exec (b.pop s) h = (.ok (none, b), h) := by
  rw [pop, if_pos hLen]
  rfl

theorem exec_pop (hv : h.Valid) (hf : b.Fits h s) (hLen : 0 < b.len.toNat) :
    exec (b.pop s) h = match s.ofWord (b.word h.memory s (b.len - 1).toNat) with
      | .ok v => (.ok (some v, { b with len := b.len - 1 }), h)
      | .error r => (.error (.trapped (.wrap .container .outOfBounds (.report r) "vector element")), h) := by
  have hPred : (b.len - 1).toNat = b.len.toNat - 1 := UInt32.toNat_sub_of_le _ _ (show 1 ≤ b.len.toNat from hLen)
  have hNe : b.len ≠ 0 := by
    intro hZero
    rw [hZero] at hLen
    exact absurd hLen (by decide)
  rw [pop, if_neg hNe, exec_bind, exec_get? hv hf (by omega)]
  cases s.ofWord (b.word h.memory s (b.len - 1).toNat) <;> rfl

/-! ## Freeing -/

theorem exec_discard (hv : h.Valid) (hLive : ∀ a ∈ b.blocks, a ∈ h.addrs) :
    ∃ h', exec b.discard h = (.ok (), h') ∧ Heap.Replaced h b.blocks [] h' ∧ h'.memory = h.memory := by
  obtain ⟨h', hExec, hReplaced⟩ := Heap.exec_release_blockAt hv hLive
  refine ⟨h', ?_, hReplaced⟩
  unfold discard
  split
  · rename_i hNull
    rw [← hExec, hNull, Heap.exec_release_null]
    rfl
  · exact hExec

/-! ## Growing -/

def carry (s : Scalar) (b : Buffer) (addr : UInt32) : Step Heap Unit :=
  if b.len > 0 then
    tryCatch (do
      let data ← Heap.readBytes b.addr (b.len * s.size)
      Heap.change fun m => m.write addr data) fun e => do
        Heap.release addr
        throw e
  else pure ()

def move (s : Scalar) (b : Buffer) (cap addr : UInt32) : Step Heap Buffer := do
  b.carry s addr
  b.discard
  return { b with addr, cap }

theorem mulFits_eq_some {a b c : UInt32} (h : mulFits a b = some c) : a * b = c := by
  unfold mulFits at h
  split at h
  · cases h
  · exact Option.some.inj h

theorem mulFits_of_lt {a b : UInt32} (h : a.toNat * b.toNat < 2 ^ 32) : mulFits a b = some (a * b) := by
  unfold mulFits
  refine if_neg ?_
  rw [Bool.and_eq_true, decide_eq_true_iff, decide_eq_true_iff]
  rintro ⟨hb, hLarge⟩
  have hPos : 0 < b.toNat := Nat.pos_of_ne_zero fun hZero => hb (UInt32.toNat_inj.mp hZero)
  have hFits : a.toNat ≤ 0xFFFFFFFF / b.toNat := (Nat.le_div_iff_mul_le hPos).mpr (by omega)
  rw [gt_iff_lt, UInt32.lt_iff_toNat_lt, UInt32.toNat_div] at hLarge
  exact Nat.not_lt.mpr hFits hLarge

theorem exec_grow (h : Heap) (s : Scalar) (b : Buffer) :
    (maxCap < max 4 (b.cap * 2) ∧ ∃ r, exec (b.grow s) h = (.error (.refused (.report r)), h)) ∨
      (max 4 (b.cap * 2) ≤ maxCap ∧ exec (b.grow s) h =
        exec (Heap.allocate (max 4 (b.cap * 2) * s.size) s.size >>= b.move s (max 4 (b.cap * 2))) h) := by
  unfold grow
  dsimp only
  split
  · rename_i hCap
    exact .inl ⟨hCap, _, exec_bind_error rfl⟩
  · rename_i hCap
    have hMax : max 4 (b.cap * 2) ≤ maxCap := Nat.le_of_not_lt hCap
    cases hBytes : mulFits (max 4 (b.cap * 2)) s.size with
    | none =>
      have hSmall : (max 4 (b.cap * 2)).toNat * s.size.toNat ≤ 2 ^ 27 * 8 :=
        Nat.mul_le_mul hMax (s.size_toNat ▸ s.width_bounds.2)
      cases hBytes.symm.trans (mulFits_of_lt (by omega))
    | some bytes =>
      obtain rfl := mulFits_eq_some hBytes
      refine .inr ⟨hMax, ?_⟩
      dsimp only
      rw [exec_bind, exec_bind]
      rcases exec (Heap.allocate (max 4 (b.cap * 2) * s.size) s.size) h with ⟨_ | addr, h₁⟩
      · rfl
      · -- both sides copy, then free, then answer
        unfold move carry discard
        by_cases hLen : b.len > 0 <;> by_cases hAddr : b.addr = 0 <;> simp [hLen, hAddr]

theorem words_congr {m m' : Memory} {b' : Buffer} (hLen : b'.len = b.len)
    (hSlice : m'.slice b'.addr.toNat (b.len.toNat * s.width) = m.slice b.addr.toNat (b.len.toNat * s.width)) :
    b'.words m' s = b.words m s := by
  rw [words, words, hLen]
  apply List.map_congr_left
  intro i hi
  have hPart : i * s.width + s.width ≤ b.len.toNat * s.width := by
    rw [← Nat.succ_mul]
    exact Nat.mul_le_mul_right _ (List.mem_range.mp hi)
  rw [word, word, Memory.slice_part m' hPart, Memory.slice_part m hPart, hSlice]

theorem exec_carry (hv : h.Valid) (hf : b.Fits h s) {c : Block} (hc : c ∈ h.live)
    (hRoom : b.len.toNat * s.width ≤ c.capacity.toNat) :
    ∃ h', exec (b.carry s c.addr) h = (.ok (), h') ∧ Heap.Replaced h [c.addr] [c.addr] h' ∧
      h'.live = h.live ∧ h'.memory.slice c.addr.toNat (b.len.toNat * s.width) =
        h.memory.slice b.addr.toNat (b.len.toNat * s.width) := by
  unfold carry
  split
  · rename_i hLen
    have hPos : 0 < b.cap.toNat := Nat.lt_of_lt_of_le hLen hf.len_le
    obtain ⟨d, hd, hAddr, hOld, -⟩ := hf.room (hf.addr_ne_zero hPos)
    have hSource : b.addr.toNat + b.len.toNat * s.width ≤ h.memory.bytes := by
      have hBytes := hv.live_bytes hd
      have hFill := Nat.mul_le_mul_right s.width hf.len_le
      rw [hAddr] at hBytes
      omega
    have hTarget := hv.live_bytes hc
    have hSize : (b.len * s.size).toNat = b.len.toNat * s.width := by
      have hLimit := hv.bytes_le
      rw [UInt32.toNat_mul, s.size_toNat, Nat.mod_eq_of_lt (by omega)]
    have hRead : exec (Heap.readBytes b.addr (b.len * s.size)) h =
        (.ok (h.memory.slice b.addr.toNat (b.len.toNat * s.width)), h) := by
      rw [← hSize]
      exact Heap.exec_readBytes (by rw [hSize]; exact hSource)
    have hLength := h.memory.length_slice b.addr.toNat (b.len.toNat * s.width)
    have hBack := h.memory.slice_overwrite_self c.addr.toNat
      (h.memory.slice b.addr.toNat (b.len.toNat * s.width))
    rw [hLength] at hBack
    generalize h.memory.slice b.addr.toNat (b.len.toNat * s.width) = data at *
    have hReplaced : Heap.Replaced h [c.addr] [c.addr]
        { h with memory := h.memory.overwrite (c.addr.toNat + 0) data.toArray } :=
      Heap.replaced_of_write hv hc (by omega)
    refine ⟨_, ?_, hReplaced, rfl, hBack⟩
    rw [exec_tryCatch, exec_bind_ok hRead, Heap.exec_write (by omega)]
    rfl
  · rename_i hLen
    have hZero : b.len.toNat = 0 := Nat.le_zero.mp (Nat.le_of_not_lt hLen)
    exact ⟨h, rfl, (Heap.Replaced.refl hv).frame [c.addr], rfl, by rw [hZero, Nat.zero_mul]; rfl⟩

theorem cap_grow (hCap : b.cap.toNat ≤ 2 ^ 27) : (max 4 (b.cap * 2)).toNat = max 4 (b.cap.toNat * 2) := by
  rw [UInt32.toNat_max, UInt32.toNat_mul, show (2 : UInt32).toNat = 2 from rfl, Nat.mod_eq_of_lt (by omega)]
  rfl

theorem size_toNat (s : Scalar) {n : UInt32} (hn : n.toNat ≤ 2 ^ 27) : (n * s.size).toNat = n.toNat * s.width := by
  have hBytes : n.toNat * s.width ≤ 2 ^ 27 * 8 := Nat.mul_le_mul hn s.width_bounds.2
  rw [UInt32.toNat_mul, s.size_toNat, Nat.mod_eq_of_lt (by omega)]

theorem Fits.doubled_max (hf : b.Fits h s) : ∃ k, 2 ≤ k ∧ max 4 (b.cap.toNat * 2) = 2 ^ k := by
  by_cases hAddr : b.addr = 0
  · rw [hf.unset hAddr]
    exact ⟨2, Nat.le_refl 2, rfl⟩
  · obtain ⟨k, hk, hPow⟩ := hf.doubled hAddr
    have hFour : 2 ^ 2 ≤ 2 ^ k := Nat.pow_le_pow_right (by decide) hk
    refine ⟨k + 1, by omega, ?_⟩
    rw [hPow, Nat.pow_succ]
    omega

theorem Fits.cap_eq_of_lt (hf : b.Fits h s) (hLarge : 2 ^ 27 < max 4 (b.cap.toNat * 2)) : b.cap.toNat = 2 ^ 27 := by
  by_cases hAddr : b.addr = 0
  · rw [hf.unset hAddr] at hLarge
    exact absurd hLarge (by decide)
  · obtain ⟨k, hk, hPow⟩ := hf.doubled hAddr
    have hHalf : 2 ^ 26 < 2 ^ k := by omega
    have hBound : 26 < k := (Nat.pow_lt_pow_iff_right (by decide)).mp hHalf
    have hTop : 2 ^ 27 ≤ 2 ^ k := Nat.pow_le_pow_right (by decide) hBound
    have hCap := hf.cap_le
    omega

theorem blocks_of_ne (hNe : b.addr ≠ 0) : b.blocks = [b.addr] := Heap.blockAt_of_ne hNe

theorem Fits.blocks_live (hf : b.Fits h s) : ∀ a ∈ b.blocks, a ∈ h.addrs := by
  intro a ha
  unfold blocks Heap.blockAt at ha
  split at ha
  · cases ha
  · rename_i hNe
    obtain ⟨c, hc, hAddr, _⟩ := hf.room hNe
    rw [List.mem_singleton.mp ha, ← hAddr]
    exact List.mem_map_of_mem hc

theorem exec_move {h₁ : Heap} {c : Block} {cap : UInt32} (hf : b.Fits h s)
    (hNew : Heap.Replaced h [] [c.addr] h₁) (hc : c ∈ h₁.live) (hLen : b.len.toNat ≤ cap.toNat)
    (hCap : cap.toNat ≤ 2 ^ 27) (hDoubled : ∃ k, 2 ≤ k ∧ cap.toNat = 2 ^ k)
    (hRoom : cap.toNat * s.width ≤ c.capacity.toNat) (hSize : c.size.toNat = cap.toNat * s.width) :
    ∃ h', exec (b.move s cap c.addr) h₁ = (.ok { b with addr := c.addr, cap }, h') ∧
      ({ b with addr := c.addr, cap } : Buffer).Fits h' s ∧ Heap.Replaced h b.blocks [c.addr] h' ∧
      ({ b with addr := c.addr, cap } : Buffer).words h'.memory s = b.words h.memory s := by
  obtain ⟨hf₁, hWords₁⟩ := hf.replaced hNew (List.not_mem_nil)
  obtain ⟨h₂, hCarry, hCopied, hLive, hSlice⟩ :=
    exec_carry hNew.valid hf₁ hc (Nat.le_trans (Nat.mul_le_mul_right _ hLen) hRoom)
  have hBlocks : ∀ a ∈ b.blocks, a ∈ h₂.addrs := by
    rw [Heap.addrs, hLive]
    exact hf₁.blocks_live
  obtain ⟨h₃, hDiscard, hFreed, hMemory⟩ := exec_discard hCopied.valid hBlocks
  -- the new block is not the one that is given up
  have hApart : c.addr ∉ b.blocks := by
    intro hMem
    exact hNew.not_mem_new (hf.blocks_live _ hMem) List.not_mem_nil List.mem_cons_self
  have hKept : c ∈ h₃.live := (hFreed.kept c (hLive ▸ hc) hApart).1
  refine ⟨h₃, ?_, ⟨hLen, hCap, ?_, fun _ => hDoubled, ?_⟩, ?_, ?_⟩
  · rw [move, exec_bind_ok hCarry, exec_bind_ok hDiscard]
    rfl
  · intro hZero
    exact absurd hZero (hNew.valid.live_addr_ne_zero hc)
  · intro _
    exact ⟨c, hKept, rfl, hRoom, hSize⟩
  · have hFilled : Heap.Replaced h ([] ++ []) [c.addr] h₂ := hNew.trans hCopied
    exact hFilled.trans (hFreed.frame [c.addr])
  · rw [← hWords₁]
    exact words_congr rfl (by rw [hMemory]; exact hSlice)

/-- The capacity is the largest, or the heap has no block of twice the size. -/
def Stuck (h : Heap) (s : Scalar) (b : Buffer) : Prop :=
  b.cap.toNat = 2 ^ 27 ∨ h.Refuses (max 4 (b.cap * 2) * s.size) s.size

theorem exec_grow_cases (hv : h.Valid) (hf : b.Fits h s) :
    (b.Stuck h s ∧ ∃ r, exec (b.grow s) h = (.error (.refused (.report r)), h)) ∨
      ∃ b' h', exec (b.grow s) h = (.ok b', h') ∧ b'.len = b.len ∧ b'.cap.toNat = max 4 (b.cap.toNat * 2) ∧
        b'.Fits h' s ∧ Heap.Replaced h b.blocks [b'.addr] h' ∧ b'.words h'.memory s = b.words h.memory s := by
  have hCap := cap_grow hf.cap_le
  rcases exec_grow h s b with ⟨hLarge, hRefused⟩ | ⟨hMax, hExec⟩
  · have hFull : 2 ^ 27 < (max 4 (b.cap * 2)).toNat := hLarge
    exact .inl ⟨.inl (hf.cap_eq_of_lt (by omega)), hRefused⟩
  · have hSmall : (max 4 (b.cap * 2)).toNat ≤ 2 ^ 27 := hMax
    have hDoubled := hf.doubled_max
    rw [← hCap] at hDoubled
    unfold Stuck
    generalize max 4 (b.cap * 2) = cap at *
    have hWidth := s.width_bounds
    have hSize := size_toNat s hSmall
    rcases Heap.exec_allocate_cases hv (cap * s.size) s.size with ⟨r, hAlloc⟩ | ⟨addr, h₁, hAlloc, ha⟩
    · exact .inl ⟨.inr ⟨r, hAlloc⟩, r, by rw [hExec, exec_bind_error hAlloc]⟩
    · have hRoom : cap.toNat * s.width ≤ (Heap.sizeClass (Heap.asked (cap * s.size))).toNat := by
        rw [← hSize]
        exact Nat.le_trans (Heap.le_asked _) ha.holds
      have hAsked : Heap.asked (cap * s.size) = cap * s.size := by
        refine if_neg fun hZero => ?_
        have hPos : 4 * 1 ≤ cap.toNat * s.width := Nat.mul_le_mul (by omega) hWidth.1
        rw [← hSize, hZero] at hPos
        exact absurd hPos (by decide)
      obtain ⟨h', hMove, hFits, hReplaced, hWords⟩ := exec_move hf ha.replaced
        (c := ⟨addr, Heap.sizeClass (Heap.asked (cap * s.size)), Heap.asked (cap * s.size)⟩)
        (ha.live ▸ List.mem_cons_self) (by have := hf.len_le; omega) hSmall hDoubled hRoom
        (by rw [hAsked, hSize])
      refine .inr ⟨{ b with addr, cap }, h', ?_, rfl, hCap, hFits, hReplaced, hWords⟩
      rw [hExec, exec_bind_ok hAlloc, hMove]

/-! ## Pushing -/

def append (s : Scalar) (v : Datum) (b : Buffer) : Step Heap Buffer := do
  Heap.change fun m => m.store s (b.slot s b.len) v
  return { b with len := b.len + 1 }

theorem push_eq (s : Scalar) (b : Buffer) (v : Datum) :
    b.push s v = (if b.len = b.cap then b.grow s else pure b) >>= append s v := by
  unfold push
  split <;> rfl

def stored (s : Scalar) (v : Datum) : Nat := (s.toWord? v).getD 0 % 256 ^ s.width

theorem exec_append (hv : h.Valid) (hf : b.Fits h s) (hLen : b.len.toNat < b.cap.toNat) (v : Datum) :
    ∃ h', exec (append s v b) h = (.ok { b with len := b.len + 1 }, h') ∧
      ({ b with len := b.len + 1 } : Buffer).Fits h' s ∧ Heap.Replaced h [b.addr] [b.addr] h' ∧
      ({ b with len := b.len + 1 } : Buffer).words h'.memory s = b.words h.memory s ++ [stored s v] := by
  obtain ⟨c, hc, hAddr, hRoom⟩ := hf.block hLen
  obtain ⟨hSlot, hBytes⟩ := hf.slot_toNat hv hLen
  have hSucc : (b.len + 1).toNat = b.len.toNat + 1 := by
    have hCap := hf.cap_le
    rw [UInt32.toNat_add, show (1 : UInt32).toNat = 1 from rfl, Nat.mod_eq_of_lt (by omega)]
  have hLength := Word.length_toBytes s.width ((s.toWord? v).getD 0)
  have hWord := Word.ofBytes_toBytes s.width ((s.toWord? v).getD 0)
  have hExec : exec (append s v b) h = (.ok { b with len := b.len + 1 }, { h with
      memory := h.memory.overwrite (b.addr.toNat + b.len.toNat * s.width)
        (Word.toBytes s.width ((s.toWord? v).getD 0)).toArray }) := by
    have hStore := Heap.exec_change (fun m => m.store s (b.slot s b.len) v) h
    rw [Memory.store_of_fits (by rw [hSlot]; exact hBytes), hSlot] at hStore
    rw [append, exec_bind_ok hStore]
    rfl
  generalize Word.toBytes s.width ((s.toWord? v).getD 0) = data at *
  have hReplaced : Heap.Replaced h [c.addr] [c.addr] { h with
      memory := h.memory.overwrite (c.addr.toNat + b.len.toNat * s.width) data.toArray } :=
    Heap.replaced_of_write hv hc (by rw [hLength]; exact hRoom)
  rw [hAddr] at hReplaced
  have hLenCap : (b.len + 1).toNat ≤ b.cap.toNat := by omega
  refine ⟨_, hExec, ⟨hLenCap, hf.cap_le, hf.unset, hf.doubled, hf.room⟩, hReplaced, ?_⟩
  -- the earlier elements lie before the new one
  rw [words, hSucc, List.range_succ, List.map_append]
  congr 1
  · apply List.map_congr_left
    intro i hi
    refine congrArg Word.ofBytes (Memory.slice_overwrite_apart _ (.inl ?_))
    have hBefore : (i + 1) * s.width ≤ b.len.toNat * s.width := Nat.mul_le_mul_right _ (List.mem_range.mp hi)
    rw [Nat.succ_mul] at hBefore
    show b.addr.toNat + i * s.width + s.width ≤ _
    omega
  · have hBack := h.memory.slice_overwrite_self (b.addr.toNat + b.len.toNat * s.width) data
    rw [hLength] at hBack
    show [Word.ofBytes _] = [stored s v]
    rw [hBack, hWord]
    rfl

theorem exec_push_cases (hv : h.Valid) (hf : b.Fits h s) (v : Datum) :
    (b.len = b.cap ∧ b.Stuck h s ∧ ∃ r, exec (b.push s v) h = (.error (.refused (.report r)), h)) ∨
      ∃ b' h', exec (b.push s v) h = (.ok b', h') ∧ b'.Fits h' s ∧ Heap.Replaced h b.blocks b'.blocks h' ∧
        b'.words h'.memory s = b.words h.memory s ++ [stored s v] := by
  rw [push_eq]
  split
  · rename_i hFull
    rcases exec_grow_cases hv hf with ⟨hStuck, r, hGrow⟩ | ⟨b₁, h₁, hGrow, hLen, hCap, hFits, hReplaced, hWords⟩
    · exact .inl ⟨hFull, hStuck, r, exec_bind_error hGrow⟩
    · have hMore : b₁.len.toNat < b₁.cap.toNat := by
        rw [hLen, hFull]
        omega
      obtain ⟨h₂, hAppend, hFits₂, hReplaced₂, hWords₂⟩ := exec_append hReplaced.valid hFits hMore v
      refine .inr ⟨_, h₂, ?_, hFits₂, ?_, ?_⟩
      · rw [exec_bind_ok hGrow, hAppend]
      · rw [blocks_of_ne (hFits₂.addr_ne_zero hMore)]
        have hBoth : Heap.Replaced h (b.blocks ++ []) [b₁.addr] h₂ := hReplaced.trans hReplaced₂
        rwa [List.append_nil] at hBoth
      · rw [hWords₂, hWords]
  · rename_i hRoom
    have hMore : b.len.toNat < b.cap.toNat :=
      Nat.lt_of_le_of_ne hf.len_le fun hEq => hRoom (UInt32.toNat_inj.mp hEq)
    obtain ⟨h₂, hAppend, hFits₂, hReplaced₂, hWords₂⟩ := exec_append hv hf hMore v
    refine .inr ⟨_, h₂, hAppend, hFits₂, ?_, hWords₂⟩
    rw [blocks_of_ne (hf.addr_ne_zero hMore), blocks_of_ne (hFits₂.addr_ne_zero hMore)]
    exact hReplaced₂

end Buffer

end Marshal
