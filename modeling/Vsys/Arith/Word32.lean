import Mathlib.Algebra.Ring.Int.Defs

/-! Sums and differences of signed 32-bit words against the exact ones. A result
that leaves the range comes back on the other side of it. -/

namespace Word32

theorem toInt_add_of_fits {a b : Int32} (hlo : -2 ^ 31 ≤ a.toInt + b.toInt)
    (hhi : a.toInt + b.toInt < 2 ^ 31) : (a + b).toInt = a.toInt + b.toInt := by
  rw [Int32.toInt_add, Int.bmod_def]
  omega

theorem toInt_add_of_overflow {a b : Int32} (h : 2 ^ 31 ≤ a.toInt + b.toInt) :
    (a + b).toInt = a.toInt + b.toInt - 2 ^ 32 := by
  have ha := a.toInt_lt
  have hb := b.toInt_lt
  rw [Int32.toInt_add, Int.bmod_def]
  omega

theorem toInt_sub_of_fits {a b : Int32} (hlo : -2 ^ 31 ≤ a.toInt - b.toInt)
    (hhi : a.toInt - b.toInt < 2 ^ 31) : (a - b).toInt = a.toInt - b.toInt := by
  rw [Int32.toInt_sub, Int.bmod_def]
  omega

theorem toInt_sub_of_overflow {a b : Int32} (h : 2 ^ 31 ≤ a.toInt - b.toInt) :
    (a - b).toInt = a.toInt - b.toInt - 2 ^ 32 := by
  have ha := a.toInt_lt
  have hb := b.le_toInt
  rw [Int32.toInt_sub, Int.bmod_def]
  omega

theorem nonneg_iff {a : Int32} : 0 ≤ a ↔ 0 ≤ a.toInt := by
  rw [Int32.le_iff_toInt_le, Int32.toInt_zero]

theorem pos_iff {a : Int32} : 0 < a ↔ 0 < a.toInt := by
  rw [Int32.lt_iff_toInt_lt, Int32.toInt_zero]

theorem toInt_succ_of_lt {a b : Int32} (h : a < b) : (a + 1).toInt = a.toInt + 1 := by
  have hlt := Int32.lt_iff_toInt_lt.mp h
  have ha := a.le_toInt
  have hb := b.toInt_lt
  rw [toInt_add_of_fits, Int32.toInt_one] <;> rw [Int32.toInt_one] <;> omega

theorem toInt_pred_of_pos {a : Int32} (h : 0 < a) : (a - 1).toInt = a.toInt - 1 := by
  have hpos := pos_iff.mp h
  have ha := a.toInt_lt
  rw [toInt_sub_of_fits, Int32.toInt_one] <;> rw [Int32.toInt_one] <;> omega

end Word32
