import Vsys.Arith.Word32

/-! The counter behind the parking lots of both network simulations: a capacity
and the number of cars inside, each a 32-bit int. -/

namespace Vsys

structure CountingLot where
  capacity : Int32
  count : Int32
  deriving DecidableEq, Repr

namespace CountingLot

def new (capacity : Int32) : CountingLot := ⟨capacity, 0⟩

def enter (l : CountingLot) : Bool × CountingLot :=
  if l.count < l.capacity then (true, { l with count := l.count + 1 }) else (false, l)

def leave (l : CountingLot) : Bool × CountingLot :=
  if 0 < l.count then (true, { l with count := l.count - 1 }) else (false, l)

def vacant (l : CountingLot) : Int32 := l.capacity - l.count

def InBounds (l : CountingLot) : Prop := 0 ≤ l.count ∧ l.count ≤ l.capacity

instance (l : CountingLot) : Decidable l.InBounds := inferInstanceAs (Decidable (_ ∧ _))

def occupancy (l : CountingLot) : ℤ := l.count.toInt

theorem inBounds_iff {l : CountingLot} :
    l.InBounds ↔ 0 ≤ l.occupancy ∧ l.occupancy ≤ l.capacity.toInt := by
  rw [InBounds, Word32.nonneg_iff, Int32.le_iff_toInt_le, occupancy]

theorem new_inBounds {capacity : Int32} (h : 0 ≤ capacity) : (new capacity).InBounds :=
  ⟨Int32.le_refl _, h⟩

@[simp] theorem enter_capacity (l : CountingLot) : l.enter.2.capacity = l.capacity := by
  rw [enter]
  split <;> rfl

@[simp] theorem leave_capacity (l : CountingLot) : l.leave.2.capacity = l.capacity := by
  rw [leave]
  split <;> rfl

theorem enter_fst_iff {l : CountingLot} :
    l.enter.1 = true ↔ l.occupancy < l.capacity.toInt := by
  rw [enter, occupancy]
  rw [← Int32.lt_iff_toInt_lt]
  split <;> simp_all

theorem leave_fst_iff {l : CountingLot} : l.leave.1 = true ↔ 0 < l.occupancy := by
  rw [leave, occupancy]
  rw [← Word32.pos_iff]
  split <;> simp_all

theorem enter_of_true {l : CountingLot} (h : l.enter.1 = true) :
    l.enter.2.occupancy = l.occupancy + 1 := by
  have hlt := Int32.lt_iff_toInt_lt.mpr (enter_fst_iff.mp h)
  simp only [enter, hlt, if_true, occupancy]
  exact Word32.toInt_succ_of_lt hlt

theorem enter_of_false {l : CountingLot} (h : l.enter.1 = false) : l.enter.2 = l := by
  simp only [enter] at h ⊢
  split
  · next hlt => simp [hlt] at h
  · rfl

theorem leave_of_true {l : CountingLot} (h : l.leave.1 = true) :
    l.leave.2.occupancy = l.occupancy - 1 := by
  have hpos := Word32.pos_iff.mpr (leave_fst_iff.mp h)
  simp only [leave, hpos, if_true, occupancy]
  exact Word32.toInt_pred_of_pos hpos

theorem leave_of_false {l : CountingLot} (h : l.leave.1 = false) : l.leave.2 = l := by
  simp only [leave] at h ⊢
  split
  · next hpos => simp [hpos] at h
  · rfl

theorem InBounds.enter {l : CountingLot} (h : l.InBounds) : l.enter.2.InBounds := by
  cases he : l.enter.1 with
  | false => rwa [enter_of_false he]
  | true =>
    have hocc := enter_of_true he
    have hlt := enter_fst_iff.mp he
    rw [inBounds_iff] at h ⊢
    rw [enter_capacity, hocc]
    omega

theorem InBounds.leave {l : CountingLot} (h : l.InBounds) : l.leave.2.InBounds := by
  cases he : l.leave.1 with
  | false => rwa [leave_of_false he]
  | true =>
    have hocc := leave_of_true he
    have hpos := leave_fst_iff.mp he
    rw [inBounds_iff] at h ⊢
    rw [leave_capacity, hocc]
    omega

theorem InBounds.vacant_toInt {l : CountingLot} (h : l.InBounds) :
    l.vacant.toInt = l.capacity.toInt - l.occupancy := by
  have hb := inBounds_iff.mp h
  have hc := l.capacity.toInt_lt
  simp only [occupancy] at hb
  exact Word32.toInt_sub_of_fits (by omega) (by omega)

theorem InBounds.vacant_bounds {l : CountingLot} (h : l.InBounds) :
    0 ≤ l.vacant ∧ l.vacant ≤ l.capacity := by
  have hb := inBounds_iff.mp h
  have hv := h.vacant_toInt
  rw [Word32.nonneg_iff, Int32.le_iff_toInt_le, hv]
  omega

end CountingLot

end Vsys
