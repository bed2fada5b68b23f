import Marshal.Proofs.Object.Buffer

/-! # Buffers as lists

A buffer stores a list of scalars when the words of its elements are those of the list, in order. Then reading,
popping and pushing are what they are on the list. Every scalar is read back as it was stored, and the offsets
and sizes that are computed on the way never wrap.
-/
set_option autoImplicit false
namespace Marshal

open Step

theorem Word.toBytes_ofBytes (bytes : List UInt8) : toBytes bytes.length (ofBytes bytes) = bytes := by
  induction bytes with
  | nil => rfl
  | cons b rest ih =>
    have hByte := b.toNat_lt
    have hHead : (b.toNat + 256 * ofBytes rest) % 256 = b.toNat := by omega
    have hTail : (b.toNat + 256 * ofBytes rest) / 256 = ofBytes rest := by omega
    rw [List.length_cons, ofBytes, toBytes, hHead, hTail, ih]
    exact congrArg (· :: rest) UInt8.ofNat_toNat

namespace Scalar

variable {s : Scalar} {v : Datum} {n : Nat}

def bytes (s : Scalar) (v : Datum) : List UInt8 := Word.toBytes s.width ((s.toWord? v).getD 0)

theorem stored_eq (h : s.toWord? v = some n) : Buffer.stored s v = n := by
  rw [Buffer.stored, h]
  exact Nat.mod_eq_of_lt (toWord?_lt h)

theorem ofWord_stored (h : s.holds v = true) : s.ofWord (Buffer.stored s v) = .ok v := by
  obtain ⟨n, hn⟩ := Option.isSome_iff_exists.mp h
  rw [stored_eq hn, ofWord_toWord? hn]

theorem toBytes_stored (h : s.holds v = true) : Word.toBytes s.width (Buffer.stored s v) = s.bytes v := by
  obtain ⟨n, hn⟩ := Option.isSome_iff_exists.mp h
  rw [stored_eq hn, bytes, hn]
  rfl

end Scalar

namespace Buffer

variable {h h' : Heap} {s : Scalar} {b : Buffer} {xs : List Datum}

structure Stores (h : Heap) (s : Scalar) (b : Buffer) (xs : List Datum) : Prop where
  fits : b.Fits h s
  typed : ∀ v ∈ xs, s.holds v = true
  words : b.words h.memory s = xs.map (stored s)

theorem stores_empty (h : Heap) (s : Scalar) : ({} : Buffer).Stores h s [] :=
  ⟨fits_empty h s, by simp, rfl⟩

namespace Stores

theorem len_eq (hs : b.Stores h s xs) : b.len.toNat = xs.length := by
  have hLength := congrArg List.length hs.words
  rwa [Buffer.words, List.length_map, List.length_map, List.length_range] at hLength

theorem word_eq (hs : b.Stores h s xs) {i : Nat} {v : Datum} (hi : xs[i]? = some v) :
    b.word h.memory s i = stored s v := by
  have hLt : i < b.len.toNat := hs.len_eq ▸ (List.getElem?_eq_some_iff.mp hi).1
  have hBoth := congrArg (·[i]?) hs.words
  simpa [Buffer.words, hLt, hi] using hBoth

theorem kept (hs : b.Stores h s xs) (hKept : ∀ c ∈ h.live, c.addr = b.addr →
      c ∈ h'.live ∧ ∀ i, c.extent.Has i → h'.memory.byte i = h.memory.byte i) : b.Stores h' s xs := by
  obtain ⟨hFits, hWords⟩ := hs.fits.kept hKept
  exact ⟨hFits, hs.typed, hWords.trans hs.words⟩

theorem slice_eq (hs : b.Stores h s xs) {i : Nat} {v : Datum} (hi : xs[i]? = some v) :
    h.memory.slice (b.addr.toNat + i * s.width) s.width = s.bytes v := by
  have hBytes := Word.toBytes_ofBytes (h.memory.slice (b.addr.toNat + i * s.width) s.width)
  rw [Memory.length_slice] at hBytes
  have hWord : Word.ofBytes (h.memory.slice (b.addr.toNat + i * s.width) s.width) = stored s v := hs.word_eq hi
  rw [← hBytes, hWord, Scalar.toBytes_stored (hs.typed v (List.mem_of_getElem? hi))]

end Stores

/-! ## Operations on the list -/

theorem exec_get?_stores (hv : h.Valid) (hs : b.Stores h s xs) (i : UInt32) :
    exec (b.get? s i) h = (.ok xs[i.toNat]?, h) := by
  by_cases hi : i.toNat < b.len.toNat
  · obtain ⟨v, hAt⟩ : ∃ v, xs[i.toNat]? = some v := ⟨_, List.getElem?_eq_getElem (hs.len_eq ▸ hi)⟩
    rw [exec_get? hv hs.fits hi, hs.word_eq hAt, Scalar.ofWord_stored (hs.typed v (List.mem_of_getElem? hAt)), hAt]
  · have hPast : xs[i.toNat]? = none := List.getElem?_eq_none (by rw [← hs.len_eq]; omega)
    rw [get?, if_pos (show i ≥ b.len from Nat.le_of_not_lt hi), hPast]
    rfl

theorem exec_pop_stores (hv : h.Valid) (hs : b.Stores h s xs) :
    ∃ b', exec (b.pop s) h = (.ok (xs.getLast?, b'), h) ∧ b'.Stores h s xs.dropLast ∧ b'.addr = b.addr := by
  rcases List.eq_nil_or_concat xs with rfl | ⟨front, v, hLast⟩
  · have hLen : b.len = 0 := UInt32.toNat_inj.mp hs.len_eq
    exact ⟨b, exec_pop_empty hLen, hs, rfl⟩
  rw [List.concat_eq_append] at hLast
  subst hLast
  have hLen : b.len.toNat = front.length + 1 := hs.len_eq.trans (by simp)
  have hPred : (b.len - 1).toNat = front.length := by
    rw [UInt32.toNat_sub_of_le _ _ (show 1 ≤ b.len.toNat by omega), hLen]
    rfl
  have hWord : b.word h.memory s (b.len - 1).toNat = stored s v := hs.word_eq (by simp [hPred])
  have hFits : ({ b with len := b.len - 1 } : Buffer).Fits h s := by
    refine ⟨?_, hs.fits.cap_le, hs.fits.unset, hs.fits.doubled, hs.fits.room⟩
    have hCap := hs.fits.len_le
    show (b.len - 1).toNat ≤ b.cap.toNat
    omega
  refine ⟨{ b with len := b.len - 1 }, ?_, ⟨hFits, fun w hw => hs.typed w ?_, ?_⟩, rfl⟩
  · rw [exec_pop hv hs.fits (by omega), hWord, Scalar.ofWord_stored (hs.typed v (by simp)), List.getLast?_concat]
  · exact List.dropLast_subset _ hw
  · have hWords := hs.words
    rw [words_pop h.memory (by omega), List.map_append] at hWords
    rw [List.dropLast_concat]
    exact (List.append_inj' hWords rfl).1

theorem Stores.push {b' : Buffer} {v : Datum} (hs : b.Stores h s xs) (hTyped : s.holds v = true)
    (hFits : b'.Fits h' s) (hWords : b'.words h'.memory s = b.words h.memory s ++ [stored s v]) :
    b'.Stores h' s (xs ++ [v]) := by
  refine ⟨hFits, ?_, ?_⟩
  · intro w hw
    rcases List.mem_append.mp hw with hw | hw
    · exact hs.typed w hw
    · rw [List.mem_singleton.mp hw]
      exact hTyped
  · rw [hWords, hs.words, List.map_append]
    rfl

/-! ## Sizes -/

def Sized (h : Heap) (s : Scalar) (b : Buffer) : Prop :=
  b.addr = 0 ∧ b.cap = 0 ∨ ∃ k c, 2 ≤ k ∧ k ≤ 27 ∧ b.cap.toNat = 2 ^ k ∧ h.block? b.addr = some c ∧
    c.size.toNat = b.cap.toNat * s.width

theorem Fits.sized (hf : b.Fits h s) (hv : h.Valid) : b.Sized h s := by
  by_cases hAddr : b.addr = 0
  · exact .inl ⟨hAddr, hf.unset hAddr⟩
  · obtain ⟨k, hk, hPow⟩ := hf.doubled hAddr
    obtain ⟨c, hc, hSame, -, hSize⟩ := hf.room hAddr
    have hTop : 2 ^ k ≤ 2 ^ 27 := hPow ▸ hf.cap_le
    exact .inr ⟨k, c, hk, (Nat.pow_le_pow_iff_right (by decide)).mp hTop, hPow,
      hSame ▸ Heap.block?_of_mem hv hc, hSize⟩

/-- What is computed in 32 bits for a buffer is what it is without that limit. -/
structure Exact (s : Scalar) (b : Buffer) : Prop where
  /-- The place of an element, and its end. -/
  slot : ∀ i : UInt32, i.toNat < b.cap.toNat → (b.slot s i).toNat = b.addr.toNat + i.toNat * s.width ∧
    (b.slot s i).toNat + s.width < 2 ^ 32
  next : b.len.toNat < b.cap.toNat → (b.len + 1).toNat = b.len.toNat + 1
  /-- The bytes that are copied when the buffer moves. -/
  used : (b.len * s.size).toNat = b.len.toNat * s.width
  twice : (max 4 (b.cap * 2)).toNat = max 4 (b.cap.toNat * 2)
  /-- The bytes of the next block, if the buffer may grow. -/
  grown : max 4 (b.cap * 2) ≤ maxCap →
    (max 4 (b.cap * 2) * s.size).toNat = max 4 (b.cap.toNat * 2) * s.width

theorem Fits.exact (hf : b.Fits h s) (hv : h.Valid) : b.Exact s where
  slot i hi := by
    obtain ⟨hSlot, hBytes⟩ := hf.slot_toNat hv hi
    have hLimit := hv.bytes_le
    exact ⟨hSlot, by omega⟩
  next hLen := by
    have hCap := hf.cap_le
    rw [UInt32.toNat_add, show (1 : UInt32).toNat = 1 from rfl, Nat.mod_eq_of_lt (by omega)]
  used := size_toNat s (Nat.le_trans hf.len_le hf.cap_le)
  twice := cap_grow hf.cap_le
  grown hMax := by rw [size_toNat s hMax, cap_grow hf.cap_le]

end Buffer

end Marshal
