import Mathlib.Algebra.Group.Nat.Defs
import Mathlib.Data.List.Basic
import Marshal.Heap

/-! # Alignment and size classes in 32-bit words

The allocator rounds addresses with a mask and sizes with a shift. Both are read here as arithmetic on
naturals: as long as the sum does not wrap, rounding gives the least multiple from the old end on, and a
size class is the least power of two from eight on that holds the size.
-/
set_option autoImplicit false
namespace Marshal
namespace Align

theorem and_complement_low (x k : Nat) (hx : x < 2 ^ 32) (hk : k ≤ 32) :
    x &&& (2 ^ 32 - 1 - (2 ^ k - 1)) = x / 2 ^ k * 2 ^ k := by
  have hLow : 2 ^ k - 1 < 2 ^ 32 := by
    have := Nat.pow_le_pow_right (show 0 < 2 by decide) hk
    have := Nat.two_pow_pos k
    omega
  apply Nat.eq_of_testBit_eq
  intro i
  rw [Nat.testBit_and, Nat.testBit_mul_two_pow, Nat.testBit_div_two_pow,
    show 2 ^ 32 - 1 - (2 ^ k - 1) = 2 ^ 32 - (2 ^ k - 1 + 1) by omega,
    Nat.testBit_two_pow_sub_succ hLow, Nat.testBit_two_pow_sub_one]
  by_cases hBit : i < 32
  · by_cases hKept : k ≤ i
    · simp [hBit, hKept, show ¬ i < k by omega, show i - k + k = i by omega]
    · simp [hKept, show i < k by omega]
  · have hZero : x.testBit i = false :=
      Nat.testBit_lt_two_pow (Nat.lt_of_lt_of_le hx (Nat.pow_le_pow_right (by decide) (by omega)))
    by_cases hKept : k ≤ i
    · simp [hZero, show i - k + k = i by omega]
    · simp [hZero, hKept]

variable {align : UInt32} {k : Nat}

theorem exists_two_pow (hPos : align ≠ 0) (hMask : align &&& (align - 1) = 0) : ∃ k, align.toNat = 2 ^ k := by
  have hNat : align.toNat ≠ 0 := fun h => hPos (UInt32.toNat_inj.mp h)
  have hOne : (1 : UInt32) ≤ align := by
    rw [UInt32.le_iff_toNat_le]
    exact Nat.one_le_iff_ne_zero.mpr hNat
  have hBits : align.toNat &&& (align.toNat - 1) = 0 := by
    have h := congrArg UInt32.toNat hMask
    rwa [UInt32.toNat_and, UInt32.toNat_sub_of_le _ _ hOne] at h
  exact (Nat.and_sub_one_eq_zero_iff_isPowerOfTwo hNat).mp hBits

theorem mask_toNat (hAlign : align.toNat = 2 ^ k) (x : UInt32) :
    (x &&& ~~~(align - 1)).toNat = x.toNat / 2 ^ k * 2 ^ k := by
  have hPos : 0 < 2 ^ k := Nat.two_pow_pos k
  have hOne : (1 : UInt32) ≤ align := by
    rw [UInt32.le_iff_toNat_le, hAlign]
    exact hPos
  have hSub : (align - 1).toNat = 2 ^ k - 1 := by
    rw [UInt32.toNat_sub_of_le _ _ hOne, hAlign]
    rfl
  have hk : k ≤ 32 := by
    apply Nat.le_of_not_lt
    intro hLarge
    have := Nat.pow_lt_pow_right (show 1 < 2 by decide) hLarge
    have := align.toNat_lt
    omega
  rw [UInt32.toNat_and, UInt32.toNat_not, hSub]
  exact and_complement_low _ k x.toNat_lt hk

theorem add_pred_toNat (hAlign : align.toNat = 2 ^ k) (x : UInt32) :
    (x + align - 1).toNat = (x.toNat + 2 ^ k - 1) % 2 ^ 32 := by
  have hPos : 0 < 2 ^ k := Nat.two_pow_pos k
  have hOne : (1 : UInt32) ≤ align := by
    rw [UInt32.le_iff_toNat_le, hAlign]
    exact hPos
  rw [UInt32.sub_eq_add_neg, UInt32.add_assoc, ← UInt32.sub_eq_add_neg, UInt32.toNat_add,
    UInt32.toNat_sub_of_le _ _ hOne, hAlign, Nat.add_sub_assoc hPos]
  rfl

theorem roundUp_toNat {x align : UInt32} (hAlign : align.toNat = 2 ^ k) (hFits : x.toNat + align.toNat ≤ 2 ^ 32) :
    ((x + align - 1) &&& ~~~(align - 1)).toNat = (x.toNat + 2 ^ k - 1) / 2 ^ k * 2 ^ k := by
  have hPos : 0 < 2 ^ k := Nat.two_pow_pos k
  rw [mask_toNat hAlign, add_pred_toNat hAlign, Nat.mod_eq_of_lt (by omega)]

/-- When the sum does not fit 32 bits, rounding up gives zero. -/
theorem roundUp_wraps {x align : UInt32} (hAlign : align.toNat = 2 ^ k)
    (hWraps : 2 ^ 32 < x.toNat + align.toNat) : (x + align - 1) &&& ~~~(align - 1) = 0 := by
  have hx := x.toNat_lt
  have hLow : (x.toNat + 2 ^ k - 1) % 2 ^ 32 < 2 ^ k := by
    have := align.toNat_lt
    rw [Nat.mod_eq_sub_mod (by omega), Nat.mod_eq_of_lt (by omega)]
    omega
  apply UInt32.toNat_inj.mp
  rw [mask_toNat hAlign, add_pred_toNat hAlign, Nat.div_eq_of_lt hLow, Nat.zero_mul]
  rfl

theorem roundUp_bounds (x k : Nat) :
    x ≤ (x + 2 ^ k - 1) / 2 ^ k * 2 ^ k ∧ (x + 2 ^ k - 1) / 2 ^ k * 2 ^ k < x + 2 ^ k := by
  have hPos : 0 < 2 ^ k := Nat.two_pow_pos k
  have hMod := Nat.mod_lt (x + 2 ^ k - 1) hPos
  have hDiv := Nat.div_add_mod (x + 2 ^ k - 1) (2 ^ k)
  rw [Nat.mul_comm] at hDiv
  omega

theorem max_two_pow (i j : Nat) : max (2 ^ i) (2 ^ j) = 2 ^ max i j := by
  rcases Nat.le_total i j with h | h
  · rw [Nat.max_eq_right h, Nat.max_eq_right (Nat.pow_le_pow_right (by decide) h)]
  · rw [Nat.max_eq_left h, Nat.max_eq_left (Nat.pow_le_pow_right (by decide) h)]

theorem min_two_pow (i j : Nat) : min (2 ^ i) (2 ^ j) = 2 ^ min i j := by
  rcases Nat.le_total i j with h | h
  · rw [Nat.min_eq_left h, Nat.min_eq_left (Nat.pow_le_pow_right (by decide) h)]
  · rw [Nat.min_eq_right h, Nat.min_eq_right (Nat.pow_le_pow_right (by decide) h)]

theorem step_toNat {cls align : UInt32} {i j : Nat} (hCls : cls.toNat = 2 ^ j) (hAlign : align.toNat = 2 ^ i) :
    (max align (min cls 16)).toNat = 2 ^ max i (min j 4) := by
  rw [UInt32.toNat_max, UInt32.toNat_min, hAlign, hCls, show (16 : UInt32).toNat = 2 ^ 4 from rfl, min_two_pow,
    max_two_pow]

end Align

namespace Heap

variable {size : UInt32}

theorem sizeClass_of_le (hSmall : size.toNat ≤ 8) : (sizeClass size).toNat = 8 := by
  rw [sizeClass, if_pos (UInt32.le_iff_toNat_le.mpr hSmall)]
  rfl

theorem sizeClass_of_gt (hLarge : 8 < size.toNat) (hSize : size.toNat ≤ 2 ^ 30) :
    (sizeClass size).toNat = 2 ^ ((size.toNat - 1).log2 + 1) := by
  have hPred : (size - 1).toNat = size.toNat - 1 :=
    UInt32.toNat_sub_of_le _ _ (UInt32.le_iff_toNat_le.mpr (Nat.le_trans (by decide) hLarge))
  have hHigh : (size.toNat - 1).log2 < 30 := (Nat.log2_lt (by omega)).mpr (by omega)
  have hShift : (((size - 1).toNat.log2 + 1).toUInt32).toNat = (size.toNat - 1).log2 + 1 := by
    rw [hPred, UInt32.toNat_ofNat_of_lt' (show _ < 2 ^ 32 by omega)]
  have hPow : 2 ^ ((size.toNat - 1).log2 + 1) < 2 ^ 32 := Nat.pow_lt_pow_right (by decide) (by omega)
  have hNot : ¬ size ≤ 8 := Nat.not_le.mpr hLarge
  rw [sizeClass, if_neg hNot, UInt32.toNat_shiftLeft, hShift, Nat.mod_eq_of_lt (show _ < 32 by omega),
    Nat.shiftLeft_eq]
  simpa using Nat.mod_eq_of_lt hPow

/-- The class of a size that is not refused: a power of two between eight and 2^30 that holds it. -/
theorem sizeClass_toNat (hSize : size.toNat ≤ 2 ^ 30) :
    ∃ k, 3 ≤ k ∧ k ≤ 30 ∧ (sizeClass size).toNat = 2 ^ k ∧ size.toNat ≤ 2 ^ k := by
  rcases Nat.lt_or_ge 8 size.toNat with hLarge | hSmall
  · have hLow : 3 ≤ (size.toNat - 1).log2 := (Nat.le_log2 (by omega)).mpr (by omega)
    have hHigh : (size.toNat - 1).log2 < 30 := (Nat.log2_lt (by omega)).mpr (by omega)
    have hHolds : size.toNat - 1 < 2 ^ ((size.toNat - 1).log2 + 1) := Nat.lt_log2_self
    exact ⟨(size.toNat - 1).log2 + 1, by omega, by omega, sizeClass_of_gt hLarge hSize, by omega⟩
  · exact ⟨3, by decide, by decide, sizeClass_of_le hSmall, hSmall⟩

theorem sizeClass_lt (hLow : 8 ≤ size.toNat) (hSize : size.toNat ≤ 2 ^ 30) :
    (sizeClass size).toNat < 2 * size.toNat := by
  rcases Nat.lt_or_ge 8 size.toNat with hLarge | hSmall
  · have hHalf : 2 ^ (size.toNat - 1).log2 ≤ size.toNat - 1 := Nat.log2_self_le (by omega)
    rw [sizeClass_of_gt hLarge hSize, Nat.pow_succ]
    omega
  · rw [sizeClass_of_le hSmall]
    omega

end Heap

end Marshal
