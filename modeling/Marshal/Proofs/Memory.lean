import Mathlib.Algebra.Group.Nat.Defs
import Marshal.Memory

/-! # Bytes and words in memory

What reading, writing, clearing and growing do, byte by byte. A write changes exactly the bytes it covers
and reads back as written; words are read back modulo their width.
-/
set_option autoImplicit false
namespace Marshal

namespace Word

@[simp] theorem length_toBytes (width n : Nat) : (toBytes width n).length = width := by
  induction width generalizing n with
  | zero => rfl
  | succ width ih => simp [toBytes, ih]

theorem ofBytes_toBytes (width n : Nat) : ofBytes (toBytes width n) = n % 256 ^ width := by
  induction width generalizing n with
  | zero => simp [toBytes, ofBytes, Nat.mod_one]
  | succ width ih =>
    have hByte : ((n % 256).toUInt8).toNat = n % 256 :=
      Nat.mod_eq_of_lt (Nat.mod_lt n (by decide))
    rw [toBytes, ofBytes, ih, hByte, Nat.pow_succ', Nat.mod_mul]

end Word

namespace Scalar

variable {s : Scalar} {v : Datum} {n : Nat}

theorem width_bounds (s : Scalar) : 1 ≤ s.width ∧ s.width ≤ 8 := by
  cases s <;> decide

theorem size_toNat (s : Scalar) : s.size.toNat = s.width := by
  cases s <;> rfl

theorem toWord?_lt (h : s.toWord? v = some n) : n < 256 ^ s.width := by
  cases s <;> cases v <;> cases h <;> first
    | exact UInt8.toNat_lt _
    | exact UInt16.toNat_lt _
    | exact UInt32.toNat_lt _
    | exact UInt64.toNat_lt _
    | (split <;> decide)

theorem ofWord_toWord? (h : s.toWord? v = some n) : s.ofWord n = .ok v := by
  cases s with
  | bool =>
    cases v with
    | bool b =>
      cases h
      cases b <;> rfl
    | _ => cases h
  | _ =>
    cases v <;> cases h
    simp [ofWord]

end Scalar

namespace Memory

theorem create_pages_le (backend : Backend) (initial limit : UInt32) :
    (create backend initial limit).pages ≤ (create backend initial limit).maxPages := by
  have hMin : ∀ a b : UInt32, (min a b).toNat ≤ b.toNat := by
    intro a b
    show (if a ≤ b then a else b).toNat ≤ b.toNat
    split
    · assumption
    · exact Nat.le_refl _
  exact hMin ..

@[simp] theorem length_slice (m : Memory) (offset length : Nat) : (m.slice offset length).length = length := by
  simp [slice]

variable {data : List UInt8} {m m' : Memory} {offset length : UInt32}

theorem slice_congr {offset length : Nat} (h : ∀ i, offset ≤ i → i < offset + length → m'.byte i = m.byte i) :
    m'.slice offset length = m.slice offset length := by
  apply List.map_congr_left
  intro i hi
  have hLt := List.mem_range.mp hi
  exact h (offset + i) (by omega) (by omega)

theorem getElem_slice (m : Memory) (offset length i : Nat) (hi : i < (m.slice offset length).length) :
    (m.slice offset length)[i] = m.byte (offset + i) := by
  simp [slice]

theorem slice_add (m : Memory) (offset a b : Nat) :
    m.slice offset (a + b) = m.slice offset a ++ m.slice (offset + a) b := by
  simp only [slice, List.range_add, List.map_append, List.map_map]
  congr 1
  apply List.map_congr_left
  intro i _
  simp only [Function.comp_apply, Nat.add_assoc]

theorem slice_part (m : Memory) {offset length start count : Nat} (hFits : start + count ≤ length) :
    m.slice (offset + start) count = ((m.slice offset length).drop start).take count := by
  obtain ⟨rest, rfl⟩ := Nat.exists_eq_add_of_le hFits
  rw [Nat.add_assoc, slice_add, List.drop_left' (length_slice ..), slice_add,
    List.take_left' (length_slice ..)]

theorem overwrite_outside (m : Memory) {offset i : Nat}
    (h : i < offset ∨ offset + data.length ≤ i) : (m.overwrite offset data.toArray).byte i = m.byte i := by
  have hOut : ¬ (offset ≤ i ∧ i < offset + data.length) := by omega
  simp [overwrite, hOut]

theorem overwrite_inside (m : Memory) {offset i : Nat} (hi : i < data.length) :
    (m.overwrite offset data.toArray).byte (offset + i) = data[i] := by
  simp [overwrite, hi]

theorem slice_overwrite_self (m : Memory) (offset : Nat) (data : List UInt8) :
    (m.overwrite offset data.toArray).slice offset data.length = data := by
  apply List.ext_getElem (length_slice ..)
  intro i hi hi'
  rw [getElem_slice]
  exact overwrite_inside m hi'

theorem slice_overwrite_apart (m : Memory) {offset start length : Nat}
    (h : start + length ≤ offset ∨ offset + data.length ≤ start) :
    (m.overwrite offset data.toArray).slice start length = m.slice start length :=
  slice_congr fun _ hLow hHigh => overwrite_outside m (by omega)

theorem slice_overwrite_within (m : Memory) {start length offset : Nat} (hFits : offset + data.length ≤ length) :
    (m.overwrite (start + offset) data.toArray).slice start length =
      (m.slice start length).take offset ++ data ++ (m.slice start length).drop (offset + data.length) := by
  obtain ⟨rest, rfl⟩ := Nat.exists_eq_add_of_le hFits
  have hBefore : (m.overwrite (start + offset) data.toArray).slice start offset = m.slice start offset :=
    slice_overwrite_apart m (.inl (Nat.le_refl _))
  have hBehind : (m.overwrite (start + offset) data.toArray).slice (start + (offset + data.length)) rest =
      m.slice (start + (offset + data.length)) rest :=
    slice_overwrite_apart m (.inr (by omega))
  have hTake : (m.slice start (offset + data.length + rest)).take offset = m.slice start offset := by
    rw [Nat.add_assoc, slice_add, List.take_left' (length_slice ..)]
  have hDrop : (m.slice start (offset + data.length + rest)).drop (offset + data.length) =
      m.slice (start + (offset + data.length)) rest := by
    rw [slice_add, List.drop_left' (length_slice ..)]
  rw [hTake, hDrop, slice_add, slice_add, hBefore, hBehind, slice_overwrite_self]

theorem write_of_fits (h : offset.toNat + data.length ≤ m.bytes) :
    m.write offset data = .ok (m.overwrite offset.toNat data.toArray) := if_pos h

theorem read_of_fits (h : offset.toNat + length.toNat ≤ m.bytes) :
    m.read offset length = .ok (m.slice offset.toNat length.toNat) := if_pos h

theorem load_of_fits {s : Scalar} (hFits : offset.toNat + s.width ≤ m.bytes) :
    m.load s offset = s.ofWord (Word.ofBytes (m.slice offset.toNat s.width)) := by
  have hWidth : (s.width.toUInt32).toNat = s.width := s.size_toNat
  rw [load, readWord, read_of_fits (by rw [hWidth]; exact hFits), hWidth]
  rfl

theorem store_of_fits {s : Scalar} {v : Datum} (hFits : offset.toNat + s.width ≤ m.bytes) : m.store s offset v =
      .ok (m.overwrite offset.toNat (Word.toBytes s.width ((s.toWord? v).getD 0)).toArray) := by
  rw [store, writeWord, write_of_fits (by rw [Word.length_toBytes]; exact hFits)]

variable {delta previous : UInt32}

theorem grow_eq_some (h : m.grow delta = (some m', previous)) :
    m.pages + delta.toNat ≤ m.maxPages ∧ m'.pages = m.pages + delta.toNat ∧ m'.maxPages = m.maxPages ∧
      ∀ i < m.bytes, m'.byte i = m.byte i := by
  unfold grow at h
  split at h
  · cases h
    refine ⟨‹_›, rfl, rfl, ?_⟩
    intro i hi
    exact if_pos hi
  · cases h

theorem clear_eq_ok (h : m.clear offset length = .ok m') : m'.pages = m.pages ∧ m'.maxPages = m.maxPages ∧
      (∀ i, offset.toNat ≤ i → i < offset.toNat + length.toNat → m'.byte i = 0) ∧
      ∀ i, i < offset.toNat ∨ offset.toNat + length.toNat ≤ i → m'.byte i = m.byte i := by
  unfold clear at h
  split at h
  · cases h
    refine ⟨rfl, rfl, ?_, ?_⟩
    · intro i hLow hHigh
      simp [hLow, hHigh]
    · intro i hOut
      have hOut' : ¬ (offset.toNat ≤ i ∧ i < offset.toNat + length.toNat) := by omega
      simp [hOut']
  · cases h

structure Grows (m m' : Memory) : Prop where
  pages_le : m.pages ≤ m'.pages
  maxPages_eq : m'.maxPages = m.maxPages

theorem Grows.refl (m : Memory) : m.Grows m := ⟨Nat.le_refl _, rfl⟩

theorem Grows.trans {m m₁ m₂ : Memory} (hg : m.Grows m₁) (hg' : m₁.Grows m₂) : m.Grows m₂ :=
  ⟨Nat.le_trans hg.pages_le hg'.pages_le, hg'.maxPages_eq.trans hg.maxPages_eq⟩

theorem Grows.bytes_le (hg : m.Grows m') : m.bytes ≤ m'.bytes :=
  Nat.mul_le_mul_right pageSize hg.pages_le

theorem grows_grow (h : m.grow delta = (some m', previous)) : m.Grows m' := by
  obtain ⟨-, hPages, hMax, -⟩ := grow_eq_some h
  exact ⟨by omega, hMax⟩

theorem grows_clear (h : m.clear offset length = .ok m') : m.Grows m' := by
  obtain ⟨hPages, hMax, -⟩ := clear_eq_ok h
  exact ⟨Nat.le_of_eq hPages.symm, hMax⟩

theorem grows_write (h : m.write offset data = .ok m') : m.Grows m' := by
  unfold write at h
  split at h <;> cases h
  exact ⟨Nat.le_refl _, rfl⟩

theorem clear_of_fits (h : offset.toNat + length.toNat ≤ m.bytes) : ∃ m', m.clear offset length = .ok m' :=
  ⟨_, if_pos h⟩

end Memory

end Marshal
