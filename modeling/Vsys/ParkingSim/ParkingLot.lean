import Mathlib.Data.List.Basic
import Mathlib.Data.Int.Basic

/-! The three parking lots of the simulation, their calls taken as atomic, and
the interface over them. -/

namespace Vsys.ParkingSim

structure IllegalStateException where
  message : String
  deriving DecidableEq, Repr

def fullException : IllegalStateException := ⟨"Attempt to park in full parking lot"⟩

def nonParkedException : IllegalStateException := ⟨"Unparking of non-parked car"⟩

variable {C : Type*}

structure CarList (C : Type*) where
  capacity : ℕ
  cars : List C
  deriving DecidableEq, Repr

namespace CarList

def park (l : CarList C) (c : C) : Except IllegalStateException (CarList C) :=
  if l.cars.length ≥ l.capacity then .error fullException
  else .ok { l with cars := l.cars ++ [c] }

/-- `ArrayList.remove(Object)` deletes the first equal element and tells whether
there was one. -/
def remove [DecidableEq C] (l : CarList C) (c : C) : Bool × CarList C :=
  (decide (c ∈ l.cars), { l with cars := l.cars.erase c })

def unpark [DecidableEq C] (l : CarList C) (c : C) : Except IllegalStateException (CarList C) :=
  if !(l.remove c).1 then .error nonParkedException else .ok (l.remove c).2

def remainingCapacity (l : CarList C) : ℤ := l.capacity - l.cars.length

theorem park_of_lt {l : CarList C} (h : l.cars.length < l.capacity) (c : C) :
    l.park c = .ok { l with cars := l.cars ++ [c] } := if_neg (Nat.not_le.mpr h)

theorem park_of_full {l : CarList C} (h : l.capacity ≤ l.cars.length) (c : C) :
    l.park c = .error fullException := if_pos h

theorem unpark_of_mem [DecidableEq C] {l : CarList C} {c : C} (h : c ∈ l.cars) :
    l.unpark c = .ok { l with cars := l.cars.erase c } := by
  simp only [unpark, remove, h, decide_true, Bool.not_true, Bool.false_eq_true, if_false]

theorem unpark_of_not_mem [DecidableEq C] {l : CarList C} {c : C} (h : c ∉ l.cars) :
    l.unpark c = .error nonParkedException := by
  simp only [unpark, remove, h, decide_false, Bool.not_false, if_true]

end CarList

abbrev SynchronizedParkingLot := CarList

abbrev ExplicitLockingParkingLot := CarList

structure ArrayBlockingQueue (C : Type*) where
  bound : ℕ
  items : List C
  deriving DecidableEq, Repr

namespace ArrayBlockingQueue

def offer (q : ArrayBlockingQueue C) (c : C) : Bool × ArrayBlockingQueue C :=
  if q.items.length = q.bound then (false, q) else (true, { q with items := q.items ++ [c] })

def remove [DecidableEq C] (q : ArrayBlockingQueue C) (c : C) : Bool × ArrayBlockingQueue C :=
  (decide (c ∈ q.items), { q with items := q.items.erase c })

def remainingCapacity (q : ArrayBlockingQueue C) : ℤ := q.bound - q.items.length

end ArrayBlockingQueue

structure BlockingQueueParkingLot (C : Type*) where
  q : ArrayBlockingQueue C
  deriving DecidableEq, Repr

namespace BlockingQueueParkingLot

def park (l : BlockingQueueParkingLot C) (c : C) :
    Except IllegalStateException (BlockingQueueParkingLot C) :=
  if !(l.q.offer c).1 then .error fullException else .ok ⟨(l.q.offer c).2⟩

def unpark [DecidableEq C] (l : BlockingQueueParkingLot C) (c : C) :
    Except IllegalStateException (BlockingQueueParkingLot C) :=
  if !(l.q.remove c).1 then .error nonParkedException else .ok ⟨(l.q.remove c).2⟩

def remainingCapacity (l : BlockingQueueParkingLot C) : ℤ := l.q.remainingCapacity

theorem park_of_lt {l : BlockingQueueParkingLot C} (h : l.q.items.length < l.q.bound) (c : C) :
    l.park c = .ok ⟨{ l.q with items := l.q.items ++ [c] }⟩ := by
  simp only [park, ArrayBlockingQueue.offer, Nat.ne_of_lt h, if_false, Bool.not_true,
    Bool.false_eq_true]

theorem park_of_full {l : BlockingQueueParkingLot C} (h : l.q.items.length = l.q.bound) (c : C) :
    l.park c = .error fullException := by
  simp only [park, ArrayBlockingQueue.offer, h, if_true, Bool.not_false]

theorem unpark_of_mem [DecidableEq C] {l : BlockingQueueParkingLot C} {c : C}
    (h : c ∈ l.q.items) : l.unpark c = .ok ⟨{ l.q with items := l.q.items.erase c }⟩ := by
  simp only [unpark, ArrayBlockingQueue.remove, h, decide_true, Bool.not_true,
    Bool.false_eq_true, if_false]

theorem unpark_of_not_mem [DecidableEq C] {l : BlockingQueueParkingLot C} {c : C}
    (h : c ∉ l.q.items) : l.unpark c = .error nonParkedException := by
  simp only [unpark, ArrayBlockingQueue.remove, h, decide_false, Bool.not_false, if_true]

end BlockingQueueParkingLot

inductive ParkingLot (C : Type*) where
  | blockingQueue (l : BlockingQueueParkingLot C)
  | synchronized (l : SynchronizedParkingLot C)
  | explicitLocking (l : ExplicitLockingParkingLot C)
  deriving DecidableEq, Repr

namespace ParkingLot

def park (l : ParkingLot C) (c : C) : Except IllegalStateException (ParkingLot C) :=
  match l with
  | blockingQueue l => (l.park c).map blockingQueue
  | synchronized l => (l.park c).map synchronized
  | explicitLocking l => (l.park c).map explicitLocking

def unpark [DecidableEq C] (l : ParkingLot C) (c : C) : Except IllegalStateException (ParkingLot C) :=
  match l with
  | blockingQueue l => (l.unpark c).map blockingQueue
  | synchronized l => (l.unpark c).map synchronized
  | explicitLocking l => (l.unpark c).map explicitLocking

def remainingCapacity : ParkingLot C → ℤ
  | blockingQueue l => l.remainingCapacity
  | synchronized l => l.remainingCapacity
  | explicitLocking l => l.remainingCapacity

def capacity : ParkingLot C → ℕ
  | blockingQueue l => l.q.bound
  | synchronized l => l.capacity
  | explicitLocking l => l.capacity

def cars : ParkingLot C → List C
  | blockingQueue l => l.q.items
  | synchronized l => l.cars
  | explicitLocking l => l.cars

def Fits (l : ParkingLot C) : Prop := l.cars.length ≤ l.capacity

instance (l : ParkingLot C) : Decidable l.Fits := inferInstanceAs (Decidable (_ ≤ _))

theorem remainingCapacity_eq (l : ParkingLot C) :
    l.remainingCapacity = l.capacity - l.cars.length := by
  cases l <;> rfl

theorem remainingCapacity_pos_iff (l : ParkingLot C) :
    0 < l.remainingCapacity ↔ l.cars.length < l.capacity := by
  rw [remainingCapacity_eq]
  omega

theorem park_of_lt {l : ParkingLot C} (h : l.cars.length < l.capacity) (c : C) :
    ∃ l', l.park c = .ok l' ∧ l'.capacity = l.capacity ∧ l'.cars = l.cars ++ [c] := by
  cases l with
  | blockingQueue l =>
    have hpark := BlockingQueueParkingLot.park_of_lt h c
    exact ⟨_, congrArg (Except.map blockingQueue) hpark, rfl, rfl⟩
  | synchronized l =>
    have hpark := CarList.park_of_lt h c
    exact ⟨_, congrArg (Except.map synchronized) hpark, rfl, rfl⟩
  | explicitLocking l =>
    have hpark := CarList.park_of_lt h c
    exact ⟨_, congrArg (Except.map explicitLocking) hpark, rfl, rfl⟩

theorem park_of_full {l : ParkingLot C} (h : l.cars.length = l.capacity) (c : C) :
    l.park c = .error fullException := by
  cases l with
  | blockingQueue l =>
    have hpark := BlockingQueueParkingLot.park_of_full h c
    exact congrArg (Except.map blockingQueue) hpark
  | synchronized l =>
    have hpark := CarList.park_of_full (Nat.le_of_eq h.symm) c
    exact congrArg (Except.map synchronized) hpark
  | explicitLocking l =>
    have hpark := CarList.park_of_full (Nat.le_of_eq h.symm) c
    exact congrArg (Except.map explicitLocking) hpark

section
variable [DecidableEq C]

theorem unpark_of_mem {l : ParkingLot C} {c : C} (h : c ∈ l.cars) :
    ∃ l', l.unpark c = .ok l' ∧ l'.capacity = l.capacity ∧ l'.cars = l.cars.erase c := by
  cases l with
  | blockingQueue l =>
    have hunpark := BlockingQueueParkingLot.unpark_of_mem h
    exact ⟨_, congrArg (Except.map blockingQueue) hunpark, rfl, rfl⟩
  | synchronized l =>
    have hunpark := CarList.unpark_of_mem h
    exact ⟨_, congrArg (Except.map synchronized) hunpark, rfl, rfl⟩
  | explicitLocking l =>
    have hunpark := CarList.unpark_of_mem h
    exact ⟨_, congrArg (Except.map explicitLocking) hunpark, rfl, rfl⟩

theorem unpark_of_not_mem {l : ParkingLot C} {c : C} (h : c ∉ l.cars) :
    l.unpark c = .error nonParkedException := by
  cases l with
  | blockingQueue l =>
    have hunpark := BlockingQueueParkingLot.unpark_of_not_mem h
    exact congrArg (Except.map blockingQueue) hunpark
  | synchronized l => exact congrArg (Except.map synchronized) (CarList.unpark_of_not_mem h)
  | explicitLocking l => exact congrArg (Except.map explicitLocking) (CarList.unpark_of_not_mem h)

theorem unpark_eq_ok {l l' : ParkingLot C} {c : C} (h : l.unpark c = .ok l') :
    c ∈ l.cars ∧ l'.capacity = l.capacity ∧ l'.cars = l.cars.erase c := by
  by_cases hm : c ∈ l.cars
  · obtain ⟨k, hk, hcap, hcars⟩ := unpark_of_mem hm
    obtain rfl : k = l' := Except.ok.inj (hk.symm.trans h)
    exact ⟨hm, hcap, hcars⟩
  · rw [unpark_of_not_mem hm] at h
    cases h

end

theorem park_eq_ok {l l' : ParkingLot C} (hl : l.Fits) {c : C} (h : l.park c = .ok l') :
    l.cars.length < l.capacity ∧ l'.capacity = l.capacity ∧ l'.cars = l.cars ++ [c] := by
  rcases Nat.lt_or_eq_of_le hl with hlt | heq
  · obtain ⟨k, hk, hcap, hcars⟩ := park_of_lt hlt c
    obtain rfl : k = l' := Except.ok.inj (hk.symm.trans h)
    exact ⟨hlt, hcap, hcars⟩
  · rw [park_of_full heq] at h
    cases h

end ParkingLot

end Vsys.ParkingSim
