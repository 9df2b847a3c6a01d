import Vsys.ParkingSim.ParkingLot
import Vsys.Schedule.CriticalSection

/-! `ExplicitLockingParkingLot` step by step: `lock`, the statements of the `try`
block one at a time, and the `unlock` of the `finally` block, which a call that
throws passes like one that returns. -/

namespace Vsys.ParkingSim.ExplicitLockingParkingLot

open Schedule CriticalSection

variable {C : Type*} [DecidableEq C]

inductive Call (C : Type*) where
  | park (c : C)
  | unpark (c : C)
  | remainingCapacity
  deriving DecidableEq, Repr

inductive Outcome where
  | returned
  | value (n : ℤ)
  | thrown (e : IllegalStateException)
  deriving DecidableEq, Repr

inductive Statement (C : Type*) where
  | testSize (c : C)
  | throwFull
  | addCar (c : C)
  | removeCar (c : C)
  | throwNonParked
  | returnCapacity
  deriving DecidableEq, Repr

def body : Body (ExplicitLockingParkingLot C) (Call C) (Statement C) Outcome where
  entry
    | .park c => .testSize c
    | .unpark c => .removeCar c
    | .remainingCapacity => .returnCapacity
  next
    | .testSize c, l =>
      if l.cars.length ≥ l.capacity then (l, .inl .throwFull) else (l, .inl (.addCar c))
    | .throwFull, l => (l, .inr (.thrown fullException))
    | .addCar c, l => ({ l with cars := l.cars ++ [c] }, .inr .returned)
    | .removeCar c, l =>
      let r := l.remove c
      if !r.1 then (r.2, .inl .throwNonParked) else (r.2, .inr .returned)
    | .throwNonParked, l => (l, .inr (.thrown nonParkedException))
    | .returnCapacity, l => (l, .inr (.value (l.capacity - l.cars.length)))

def atomic : Call C → ExplicitLockingParkingLot C → Outcome × ExplicitLockingParkingLot C
  | .park c, l =>
    match l.park c with
    | .ok l' => (.returned, l')
    | .error e => (.thrown e, l)
  | .unpark c, l =>
    match l.unpark c with
    | .ok l' => (.returned, l')
    | .error e => (.thrown e, l)
  | .remainingCapacity, l => (.value l.remainingCapacity, l)

theorem next_testSize_of_full {l : ExplicitLockingParkingLot C} (h : l.cars.length ≥ l.capacity)
    (c : C) : body.next (.testSize c) l = (l, .inl .throwFull) := if_pos h

theorem next_testSize_of_lt {l : ExplicitLockingParkingLot C} (h : ¬ l.cars.length ≥ l.capacity)
    (c : C) : body.next (.testSize c) l = (l, .inl (.addCar c)) := if_neg h

theorem next_removeCar_of_mem {l : ExplicitLockingParkingLot C} {c : C} (h : c ∈ l.cars) :
    body.next (.removeCar c) l = ({ l with cars := l.cars.erase c }, .inr .returned) := by
  simp [body, CarList.remove, h]

theorem next_removeCar_of_not_mem {l : ExplicitLockingParkingLot C} {c : C} (h : c ∉ l.cars) :
    body.next (.removeCar c) l = (l, .inl .throwNonParked) := by
  simp [body, CarList.remove, h, List.erase_of_not_mem h]

theorem body_realizes : Realizes (body (C := C)) atomic := by
  intro c l
  cases c with
  | park c =>
    by_cases hge : l.cars.length ≥ l.capacity
    · have hatomic : atomic (.park c) l = (.thrown fullException, l) := by
        simp only [atomic, CarList.park_of_full hge]
      rw [hatomic]
      exact .more (next_testSize_of_full hge c) (.done rfl)
    · have hatomic : atomic (.park c) l = (.returned, { l with cars := l.cars ++ [c] }) := by
        simp only [atomic, CarList.park_of_lt (Nat.not_le.mp hge)]
      rw [hatomic]
      exact .more (next_testSize_of_lt hge c) (.done rfl)
  | unpark c =>
    by_cases hm : c ∈ l.cars
    · have hatomic : atomic (.unpark c) l = (.returned, { l with cars := l.cars.erase c }) := by
        simp only [atomic, CarList.unpark_of_mem hm]
      rw [hatomic]
      exact .done (next_removeCar_of_mem hm)
    · have hatomic : atomic (.unpark c) l = (.thrown nonParkedException, l) := by
        simp only [atomic, CarList.unpark_of_not_mem hm]
      rw [hatomic]
      exact .more (next_removeCar_of_not_mem hm) (.done rfl)
  | remainingCapacity => exact .done rfl

theorem body_commitsLast : CommitsLast (body (C := C)) := by
  intro p l l' q h
  cases p with
  | testSize c =>
    by_cases hge : l.cars.length ≥ l.capacity
    · rw [next_testSize_of_full hge] at h
      exact (congrArg Prod.fst h).symm
    · rw [next_testSize_of_lt hge] at h
      exact (congrArg Prod.fst h).symm
  | removeCar c =>
    by_cases hm : c ∈ l.cars
    · rw [next_removeCar_of_mem hm] at h
      exact nomatch congrArg Prod.snd h
    · rw [next_removeCar_of_not_mem hm] at h
      exact (congrArg Prod.fst h).symm
  | throwFull | addCar | throwNonParked | returnCapacity => exact nomatch congrArg Prod.snd h

theorem unlock_spec {ι : Type*} [DecidableEq ι]
    {t : State ι (ExplicitLockingParkingLot C) (Call C) (Statement C) Outcome}
    (hholder : ∀ i, t.holder = some i ↔ (t.site i).Critical) {i : ι} {c : Call C} {r : Outcome}
    (hs : t.site i = .exiting c r) :
    ∃ u, step body t i = some u ∧ u.holder = none ∧ u.site i = .outside ∧
      u.completed = t.completed ++ [(i, c, r)] ∧ u.shared = t.shared := by
  have hi : t.holder = some i := (hholder i).mpr (hs ▸ trivial)
  refine ⟨{ t.goto i .outside with holder := none, completed := t.completed ++ [(i, c, r)] },
    ?_, rfl, site_self t i .outside, rfl, rfl⟩
  simp only [step, hs, hi, if_true]

/-- Under every schedule, at most one caller is between lock and unlock; the lock
is free whenever nobody is, and every call that ends releases it, whether it
returns or throws; and the completed calls and the list are those of the calls
executed at once, in the order in which they acquired the lock. -/
theorem refines_atomic {ι : Type*} [DecidableEq ι] (capacity : ℕ) (programs : ι → List (Call C))
    {schedule : List ι} {t : State ι (ExplicitLockingParkingLot C) (Call C) (Statement C) Outcome}
    (ht : run (step body) (start ⟨capacity, []⟩ programs) schedule = some t) :
    (∀ i j, (t.site i).Critical → (t.site j).Critical → i = j) ∧
      (∀ i, t.holder = some i ↔ (t.site i).Critical) ∧
      ((∀ i, ¬ (t.site i).Critical) → t.holder = none) ∧
      (∀ i c r, t.site i = .exiting c r → ∃ u, step body t i = some u ∧ u.holder = none ∧
        u.site i = .outside ∧ u.completed = t.completed ++ [(i, c, r)] ∧ u.shared = t.shared) ∧
      (∀ i, callsOf i t.acquired ++ (t.site i).waitingCall ++ t.todo i = programs i) ∧
      ∃ n, t.completed = (serial atomic ⟨capacity, []⟩ (t.acquired.take n)).1 ∧
        (t.holder = none → n = t.acquired.length) ∧ t.acquired.length ≤ n + 1 ∧
        (t.shared = (serial atomic ⟨capacity, []⟩ (t.acquired.take n)).2 ∨
          t.shared = (serial atomic ⟨capacity, []⟩ t.acquired).2) := by
  have hlin := run_linear body_realizes body_commitsLast ht
  refine ⟨fun i j hi hj => hlin.mutual_exclusion hi hj, hlin.holder_iff, fun hfree => ?_,
    fun i c r hs => unlock_spec hlin.holder_iff hs, run_program ht, hlin.serial_prefix⟩
  cases hh : t.holder with
  | none => rfl
  | some i => exact absurd ((hlin.holder_iff i).mp hh) (hfree i)

theorem refines_atomic_lastPlace :
    let programs : Bool → List (Call ℕ) := fun b => if b then [.park 1] else [.park 2]
    let schedule := [true, false, true, true, true, true, false, false, false, false]
    ∃ t, run (step body) (start ⟨1, []⟩ programs) schedule = some t ∧
      t.completed = [(true, .park 1, .returned), (false, .park 2, .thrown fullException)] ∧
      ∃ n, t.completed = (serial atomic ⟨1, []⟩ (t.acquired.take n)).1 ∧
        (t.holder = none → n = t.acquired.length) := by
  intro programs schedule
  obtain ⟨t, ht, hcompleted⟩ : ∃ t ∈ run (step body) (start ⟨1, []⟩ programs) schedule,
      t.completed = [(true, .park 1, .returned), (false, .park 2, .thrown fullException)] := by
    decide
  obtain ⟨-, -, -, -, -, n, hn, hlen, -⟩ := refines_atomic 1 programs ht
  exact ⟨t, ht, hcompleted, n, hn, hlen⟩

/-- A test and a failing `remove` have one more statement behind them. -/
def weight : Statement C → ℕ
  | .testSize _ | .removeCar _ => 1
  | .throwFull | .addCar _ | .throwNonParked | .returnCapacity => 0

theorem body_bounded : Bounded (body (C := C)) weight 1 where
  entry_le := by
    intro c
    cases c with
    | park | unpark => exact Nat.le_refl 1
    | remainingCapacity => exact Nat.zero_le 1
  next_lt := by
    intro p l l' q h
    cases p with
    | testSize c =>
      by_cases hge : l.cars.length ≥ l.capacity
      · rw [next_testSize_of_full hge] at h
        cases h
        exact Nat.zero_lt_one
      · rw [next_testSize_of_lt hge] at h
        cases h
        exact Nat.zero_lt_one
    | removeCar c =>
      by_cases hm : c ∈ l.cars
      · rw [next_removeCar_of_mem hm] at h
        exact nomatch congrArg Prod.snd h
      · rw [next_removeCar_of_not_mem hm] at h
        cases h
        exact Nat.zero_lt_one
    | throwFull | addCar | throwNonParked | returnCapacity => exact nomatch congrArg Prod.snd h

/-- However the callers are scheduled, nobody waits for ever: after at most five steps for
each call no caller can go on, and that is so exactly when all calls have been made. The
lock is free then, each caller has made its calls in their order, and the outcomes and
the list are those of the calls executed at once. -/
theorem all_calls_end {ι : Type*} [DecidableEq ι] [Fintype ι] (capacity : ℕ)
    (programs : ι → List (Call C)) {schedule : List ι}
    {t : State ι (ExplicitLockingParkingLot C) (Call C) (Statement C) Outcome}
    (ht : run (step body) (start ⟨capacity, []⟩ programs) schedule = some t) :
    schedule.length ≤ ∑ i, 5 * (programs i).length ∧
      (∃ more u, run (step body) t more = some u ∧ u.Done) ∧
      (Halted (step body) t ↔ t.Done) ∧
      (t.Done → t.holder = none ∧ (∀ i, callsOf i t.acquired = programs i) ∧
        t.completed = (serial atomic ⟨capacity, []⟩ t.acquired).1 ∧
        t.shared = (serial atomic ⟨capacity, []⟩ t.acquired).2) :=
  run_completes body_realizes body_commitsLast body_bounded ht

theorem all_calls_end_lastPlace :
    let programs : Bool → List (Call ℕ) := fun b => if b then [.park 1] else [.park 2, .unpark 2]
    ∃ t, run (step body) (start ⟨1, []⟩ programs) [true, false, true, true, false] = none ∧
      run (step body) (start ⟨1, []⟩ programs) [true, false, true, true] = some t ∧
      ∃ more u, run (step body) t more = some u ∧ u.Done := by
  intro programs
  obtain ⟨t, ht⟩ : ∃ t, run (step body) (start ⟨1, []⟩ programs) [true, false, true, true] =
      some t := ⟨_, rfl⟩
  obtain ⟨-, hmore, -⟩ := all_calls_end 1 programs ht
  exact ⟨t, rfl, ht, hmore⟩

end Vsys.ParkingSim.ExplicitLockingParkingLot
