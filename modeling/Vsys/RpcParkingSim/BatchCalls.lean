import Vsys.RpcParkingSim.ParkingLotService

/-! `park(int)` and `unpark(int)` against as many single calls. -/

namespace Vsys.RpcParkingSim.SynchronizedParkingLot

/-- `n` calls in a row: whether all of them returned true, and the lot behind the
last. -/
def repeatCall (call : SynchronizedParkingLot → Bool × SynchronizedParkingLot) :
    ℕ → SynchronizedParkingLot → Bool × SynchronizedParkingLot
  | 0, l => (true, l)
  | n + 1, l =>
    let r := call l
    let rs := repeatCall call n r.2
    (r.1 && rs.1, rs.2)

/-- A batch succeeds exactly when the single calls all do, then with their effect,
and otherwise without any. -/
structure AllOrNothing (batch single : Bool × SynchronizedParkingLot)
    (l : SynchronizedParkingLot) : Prop where
  succeeds_iff : batch.1 = true ↔ single.1 = true
  all : batch.1 = true → batch.2 = single.2
  nothing : batch.1 = false → batch.2 = l

theorem eq_of_occupancy {l l' : SynchronizedParkingLot} (hcap : l.capacity = l'.capacity)
    (hocc : l.occupancy = l'.occupancy) : l = l' := by
  obtain ⟨capacity, count⟩ := l
  obtain ⟨capacity', count'⟩ := l'
  have hcount : count = count' := Int32.toInt_inj.mp hocc
  rw [hcount, show capacity = capacity' from hcap]

/-- A call that succeeds while there is room, and then takes one unit of it, can be
made as often in a row as the room is large. -/
theorem repeatCall_of_room {call : SynchronizedParkingLot → Bool × SynchronizedParkingLot}
    (room : SynchronizedParkingLot → ℤ)
    (hin : ∀ l, l.InBounds → (call l).2.InBounds ∧ 0 ≤ room l)
    (hiff : ∀ l, (call l).1 = true ↔ 0 < room l)
    (htakes : ∀ l, (call l).1 = true → room (call l).2 = room l - 1)
    {l : SynchronizedParkingLot} (hl : l.InBounds) (n : ℕ) :
    ((repeatCall call n l).1 = true ↔ (n : ℤ) ≤ room l) ∧
      ((repeatCall call n l).1 = true → room (repeatCall call n l).2 = room l - n) := by
  induction n generalizing l with
  | zero => exact ⟨iff_of_true rfl (hin l hl).2, fun _ => (sub_zero _).symm⟩
  | succ n ih =>
    have hrest := ih (hin l hl).1
    simp only [repeatCall, Bool.and_eq_true]
    rw [Nat.cast_succ]
    cases hc : (call l).1 with
    | false =>
      have hroom : ¬ 0 < room l := fun h => Bool.false_ne_true (hc.symm.trans ((hiff l).mpr h))
      exact ⟨iff_of_false (by simp) (by omega), fun h => absurd h.1 (by simp)⟩
    | true =>
      have hpos := (hiff l).mp hc
      have hone := htakes l hc
      rw [hone] at hrest
      refine ⟨?_, fun h => ?_⟩
      · rw [hrest.1, and_iff_right rfl]
        omega
      · rw [hrest.2 h.2]
        omega

theorem repeatCall_capacity {call : SynchronizedParkingLot → Bool × SynchronizedParkingLot}
    (hcall : ∀ l, (call l).2.capacity = l.capacity) (l : SynchronizedParkingLot) (n : ℕ) :
    (repeatCall call n l).2.capacity = l.capacity := by
  induction n generalizing l with
  | zero => rfl
  | succ n ih => exact (ih _).trans (hcall l)

theorem park_capacity (l : SynchronizedParkingLot) : (park l).2.capacity = l.capacity :=
  CountingLot.enter_capacity l

theorem unpark_capacity (l : SynchronizedParkingLot) : (unpark l).2.capacity = l.capacity :=
  CountingLot.leave_capacity l

theorem repeatCall_park {l : SynchronizedParkingLot} (hl : l.InBounds) (n : ℕ) :
    ((repeatCall park n l).1 = true ↔ l.occupancy + n ≤ l.capacity.toInt) ∧
      ((repeatCall park n l).1 = true → (repeatCall park n l).2.occupancy = l.occupancy + n) := by
  have hin : ∀ l : SynchronizedParkingLot, l.InBounds →
      (park l).2.InBounds ∧ 0 ≤ l.capacity.toInt - l.occupancy := by
    intro l hl
    have hb := CountingLot.inBounds_iff.mp hl
    exact ⟨hl.enter, by omega⟩
  have hroom := repeatCall_of_room (fun l => l.capacity.toInt - l.occupancy) hin
    (fun l => Iff.trans CountingLot.enter_fst_iff Int.sub_pos.symm)
    (fun l h => by
      have hone : (park l).2.occupancy = l.occupancy + 1 := CountingLot.enter_of_true h
      rw [park_capacity, hone]
      omega) hl n
  rw [repeatCall_capacity park_capacity] at hroom
  refine ⟨?_, fun h => ?_⟩
  · rw [hroom.1]
    omega
  · have hleft := hroom.2 h
    omega

theorem repeatCall_unpark {l : SynchronizedParkingLot} (hl : l.InBounds) (n : ℕ) :
    ((repeatCall unpark n l).1 = true ↔ (n : ℤ) ≤ l.occupancy) ∧
      ((repeatCall unpark n l).1 = true →
        (repeatCall unpark n l).2.occupancy = l.occupancy - n) :=
  repeatCall_of_room CountingLot.occupancy
    (fun _ hl => ⟨hl.leave, (CountingLot.inBounds_iff.mp hl).1⟩)
    (fun _ => CountingLot.leave_fst_iff) (fun _ h => CountingLot.leave_of_true h) hl n

section
variable {l : SynchronizedParkingLot} {n : Int32}

theorem parkN_of_fits (h : l.occupancy + n.toInt < 2 ^ 31) (hl : l.InBounds) (hn : 0 ≤ n) :
    ((parkN l n).1 = true ↔ l.occupancy + n.toInt ≤ l.capacity.toInt) ∧
      ((parkN l n).1 = true → (parkN l n).2.occupancy = l.occupancy + n.toInt) ∧
      ((parkN l n).1 = false → (parkN l n).2 = l) := by
  have hb := CountingLot.inBounds_iff.mp hl
  have hn' := Word32.nonneg_iff.mp hn
  have hsum : (l.count + n).toInt = l.occupancy + n.toInt :=
    Word32.toInt_add_of_fits (by change _ ≤ l.occupancy + _; omega) h
  have hle : l.count + n ≤ l.capacity ↔ l.occupancy + n.toInt ≤ l.capacity.toInt := by
    rw [Int32.le_iff_toInt_le, hsum]
  by_cases hfits : l.count + n ≤ l.capacity
  · simp only [parkN, hfits, if_true, true_iff]
    exact ⟨hle.mp hfits, fun _ => hsum, fun h => absurd h.symm Bool.false_ne_true⟩
  · simp only [parkN, hfits, if_false]
    exact ⟨iff_of_false (by simp) (fun h => hfits (hle.mpr h)), by simp⟩

theorem parkN_of_overflow (h : 2 ^ 31 ≤ l.occupancy + n.toInt) (hl : l.InBounds) :
    (parkN l n).1 = true ∧ l.capacity.toInt < l.occupancy + n.toInt := by
  have hb := CountingLot.inBounds_iff.mp hl
  have hc := l.capacity.toInt_lt
  have hn := n.toInt_lt
  have hsum : (l.count + n).toInt = l.occupancy + n.toInt - 2 ^ 32 :=
    Word32.toInt_add_of_overflow h
  have hle : l.count + n ≤ l.capacity := by
    rw [Int32.le_iff_toInt_le, hsum]
    omega
  refine ⟨?_, by omega⟩
  rw [parkN, if_pos hle]

theorem unparkN_of_nonneg (hl : l.InBounds) (hn : 0 ≤ n) :
    ((unparkN l n).1 = true ↔ n.toInt ≤ l.occupancy) ∧
      ((unparkN l n).1 = true → (unparkN l n).2.occupancy = l.occupancy - n.toInt) ∧
      ((unparkN l n).1 = false → (unparkN l n).2 = l) := by
  have hb := CountingLot.inBounds_iff.mp hl
  have hn' := Word32.nonneg_iff.mp hn
  have hnlt := n.toInt_lt
  have hclt := l.capacity.toInt_lt
  have hdiff : (l.count - n).toInt = l.occupancy - n.toInt :=
    Word32.toInt_sub_of_fits (by change _ ≤ l.occupancy - _; omega)
      (by change l.occupancy - _ < _; omega)
  have hle : 0 ≤ l.count - n ↔ n.toInt ≤ l.occupancy := by
    rw [Word32.nonneg_iff, hdiff]
    omega
  by_cases hfits : 0 ≤ l.count - n
  · simp only [unparkN, hfits, if_true, true_iff]
    exact ⟨hle.mp hfits, fun _ => hdiff, fun h => absurd h.symm Bool.false_ne_true⟩
  · simp only [unparkN, hfits, if_false]
    exact ⟨iff_of_false (by simp) (fun h => hfits (hle.mpr h)), by simp⟩

/-- For an amount that is not negative, `park(n)` is `n` calls of `park()` exactly
when the sum of the count and the amount is an int; `unpark(n)` always is `n` calls
of `unpark()`. -/
theorem batch_iff (hl : l.InBounds) (hn : 0 ≤ n) :
    (AllOrNothing (parkN l n) (repeatCall park n.toInt.toNat l) l ↔
        l.count.toInt + n.toInt < 2 ^ 31) ∧
      AllOrNothing (unparkN l n) (repeatCall unpark n.toInt.toNat l) l := by
  have hnat : (n.toInt.toNat : ℤ) = n.toInt := Int.toNat_of_nonneg (Word32.nonneg_iff.mp hn)
  obtain ⟨hpark, hparkocc⟩ := repeatCall_park hl n.toInt.toNat
  obtain ⟨hunpark, hunparkocc⟩ := repeatCall_unpark hl n.toInt.toNat
  rw [hnat] at hpark hparkocc hunpark hunparkocc
  refine ⟨⟨fun h => ?_, fun h => ?_⟩, ?_⟩
  · by_contra hover
    obtain ⟨hbatch, hlt⟩ := parkN_of_overflow (Int.not_lt.mp hover) hl
    have hsingle := hpark.mp (h.succeeds_iff.mp hbatch)
    omega
  · obtain ⟨hiff, hocc, hnone⟩ := parkN_of_fits h hl hn
    have hsucceeds := hiff.trans hpark.symm
    refine ⟨hsucceeds, fun hb => eq_of_occupancy ?_ ?_, hnone⟩
    · rw [parkN_capacity, repeatCall_capacity park_capacity]
    · rw [hocc hb, hparkocc (hsucceeds.mp hb)]
  · obtain ⟨hiff, hocc, hnone⟩ := unparkN_of_nonneg hl hn
    have hsucceeds := hiff.trans hunpark.symm
    refine ⟨hsucceeds, fun hb => eq_of_occupancy ?_ ?_, hnone⟩
    · rw [unparkN_capacity, repeatCall_capacity unpark_capacity]
    · rw [hocc hb, hunparkocc (hsucceeds.mp hb)]

end

theorem batch_iff_overrun :
    CountingLot.InBounds ⟨5, 1⟩ ∧ (0 : Int32) ≤ 6 ∧
      (AllOrNothing (parkN ⟨5, 1⟩ 6) (repeatCall park (6 : Int32).toInt.toNat ⟨5, 1⟩) ⟨5, 1⟩ ↔
        (1 : Int32).toInt + (6 : Int32).toInt < 2 ^ 31) :=
  ⟨by decide, by decide, (batch_iff (l := ⟨5, 1⟩) (by decide) (by decide)).1⟩

/-- One car is inside when the largest int is parked: the batch is taken and leaves
a negative count, although the lot has room for four single calls. -/
theorem largest_batch_parks :
    CountingLot.InBounds ⟨5, 1⟩ ∧ (parkN ⟨5, 1⟩ 2147483647).1 = true ∧
      (parkN ⟨5, 1⟩ 2147483647).2 = ⟨5, -2147483648⟩ ∧
      ¬ AllOrNothing (parkN ⟨5, 1⟩ 2147483647)
        (repeatCall park (2147483647 : Int32).toInt.toNat ⟨5, 1⟩) ⟨5, 1⟩ := by
  have hin : CountingLot.InBounds ⟨5, 1⟩ := by decide
  have htrue : (parkN ⟨5, 1⟩ 2147483647).1 = true := by decide
  refine ⟨hin, htrue, by decide, fun h => ?_⟩
  have hall := (repeatCall_park hin _).1.mp (h.succeeds_iff.mp htrue)
  exact absurd hall (by decide)

end Vsys.RpcParkingSim.SynchronizedParkingLot
