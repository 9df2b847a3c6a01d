import Vsys.CountingLot

/-! The lot behind the RPC server and the service facade over it. Amounts are
32-bit ints and every sum and difference wraps. -/

namespace Vsys.RpcParkingSim

abbrev SynchronizedParkingLot := CountingLot

namespace SynchronizedParkingLot

def park (l : SynchronizedParkingLot) : Bool × SynchronizedParkingLot := l.enter

/-- `park(int)`. -/
def parkN (l : SynchronizedParkingLot) (n : Int32) : Bool × SynchronizedParkingLot :=
  if l.count + n ≤ l.capacity then (true, { l with count := l.count + n }) else (false, l)

def unpark (l : SynchronizedParkingLot) : Bool × SynchronizedParkingLot := l.leave

/-- `unpark(int)`. -/
def unparkN (l : SynchronizedParkingLot) (n : Int32) : Bool × SynchronizedParkingLot :=
  if 0 ≤ l.count - n then (true, { l with count := l.count - n }) else (false, l)

def remaining (l : SynchronizedParkingLot) : Int32 := l.vacant

@[simp] theorem parkN_capacity (l : SynchronizedParkingLot) (n : Int32) :
    (parkN l n).2.capacity = l.capacity := by
  rw [parkN]
  split <;> rfl

@[simp] theorem unparkN_capacity (l : SynchronizedParkingLot) (n : Int32) :
    (unparkN l n).2.capacity = l.capacity := by
  rw [unparkN]
  split <;> rfl

theorem parkN_inBounds_iff {l : SynchronizedParkingLot} {n : Int32} (h : l.InBounds) :
    (parkN l n).2.InBounds ↔
      0 ≤ l.occupancy + n.toInt ∧ l.occupancy + n.toInt < 2 ^ 31 := by
  have hb := CountingLot.inBounds_iff.mp h
  have hc := l.capacity.toInt_lt
  have hn := n.le_toInt
  simp only [CountingLot.occupancy] at hb ⊢
  by_cases hover : 2 ^ 31 ≤ l.count.toInt + n.toInt
  · have hsum := Word32.toInt_add_of_overflow hover
    have hnlt := n.toInt_lt
    have hle : l.count + n ≤ l.capacity := by
      rw [Int32.le_iff_toInt_le, hsum]
      omega
    simp only [parkN, hle, if_true, CountingLot.inBounds_iff, CountingLot.occupancy, hsum]
    omega
  · have hsum := Word32.toInt_add_of_fits (a := l.count) (b := n) (by omega) (by omega)
    by_cases hle : l.count + n ≤ l.capacity
    · have hle' := Int32.le_iff_toInt_le.mp hle
      simp only [parkN, hle, if_true, CountingLot.inBounds_iff, CountingLot.occupancy, hsum]
      omega
    · have hlt : l.capacity.toInt < l.count.toInt + n.toInt := by
        rw [Int32.le_iff_toInt_le, hsum] at hle
        omega
      simp only [parkN, hle, if_false, h, true_iff]
      omega

theorem unparkN_inBounds_iff {l : SynchronizedParkingLot} {n : Int32} (h : l.InBounds) :
    (unparkN l n).2.InBounds ↔
      l.occupancy - n.toInt ≤ l.capacity.toInt ∨ 2 ^ 31 ≤ l.occupancy - n.toInt := by
  have hb := CountingLot.inBounds_iff.mp h
  have hn := n.toInt_lt
  simp only [CountingLot.occupancy] at hb ⊢
  by_cases hover : 2 ^ 31 ≤ l.count.toInt - n.toInt
  · have hdiff := Word32.toInt_sub_of_overflow hover
    have hneg : ¬ 0 ≤ l.count - n := by
      have hc := l.count.toInt_lt
      have hnl := n.le_toInt
      rw [Word32.nonneg_iff, hdiff]
      omega
    simp only [unparkN, hneg, if_false, h, true_iff]
    exact Or.inr hover
  · have hdiff := Word32.toInt_sub_of_fits (a := l.count) (b := n) (by omega) (by omega)
    by_cases hpos : 0 ≤ l.count - n
    · have hpos' := Word32.nonneg_iff.mp hpos
      simp only [unparkN, hpos, if_true, CountingLot.inBounds_iff, CountingLot.occupancy, hdiff]
      omega
    · rw [Word32.nonneg_iff, hdiff] at hpos
      simp only [unparkN, Word32.nonneg_iff, hdiff, hpos, if_false, h, true_iff]
      omega

end SynchronizedParkingLot

open SynchronizedParkingLot

namespace ParkingLotService

def in_ (parkingLot : SynchronizedParkingLot) (n : Int32) : String × SynchronizedParkingLot :=
  let r := parkN parkingLot n
  (if r.1 then toString n ++ " car(s) parked" else "capacity overrun", r.2)

def out (parkingLot : SynchronizedParkingLot) (n : Int32) : String × SynchronizedParkingLot :=
  let r := unparkN parkingLot n
  (if r.1 then toString n ++ " car(s) unparked" else "capacity underrun", r.2)

def free (parkingLot : SynchronizedParkingLot) : String :=
  toString (remaining parkingLot) ++ " spot(s) vacant"

def hello : String := "Hallo Welt!"

end ParkingLotService

end Vsys.RpcParkingSim
