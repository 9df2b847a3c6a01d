import Mathlib.Data.Multiset.AddSub
import Vsys.Arith.Word32
import Vsys.ParkingSim.ExplicitLocking
import Vsys.Schedule.Machine

/-! The three lots of the simulation against what all of them are for: a bag of cars
that never grows over its bound. -/

namespace Vsys.ParkingSim

open Schedule ExplicitLockingParkingLot

variable {C : Type*}

structure BoundedBag (C : Type*) where
  bound : ℕ
  contents : Multiset C
  fits : contents.card ≤ bound

namespace BoundedBag

def empty (bound : ℕ) : BoundedBag C := ⟨bound, 0, Nat.zero_le bound⟩

def insert (b : BoundedBag C) (c : C) (h : b.contents.card < b.bound) : BoundedBag C :=
  ⟨b.bound, c ::ₘ b.contents, by rw [Multiset.card_cons]; exact h⟩

def vacant (b : BoundedBag C) : ℤ := b.bound - b.contents.card

end BoundedBag

/-- The row is an arrangement of the bag. -/
structure Holds (b : BoundedBag C) (bound : ℕ) (row : List C) : Prop where
  bound_eq : b.bound = bound
  contents_eq : b.contents = row

section
variable {b : BoundedBag C} {bound : ℕ} {row : List C}

theorem Holds.card_eq (h : Holds b bound row) : b.contents.card = row.length := by
  rw [h.contents_eq, Multiset.coe_card]

theorem Holds.card_lt_iff (h : Holds b bound row) :
    b.contents.card < b.bound ↔ row.length < bound := by
  rw [h.card_eq, h.bound_eq]

theorem Holds.length_le (h : Holds b bound row) : row.length ≤ bound := by
  rw [← h.card_eq, ← h.bound_eq]
  exact b.fits

theorem Holds.mem_iff (h : Holds b bound row) {c : C} : c ∈ b.contents ↔ c ∈ row := by
  rw [h.contents_eq, Multiset.mem_coe]

theorem Holds.vacant_eq (h : Holds b bound row) : b.vacant = bound - row.length := by
  rw [BoundedBag.vacant, h.bound_eq, h.card_eq]

theorem Holds.insert (h : Holds b bound row) {c : C} (hlt : b.contents.card < b.bound) :
    Holds (b.insert c hlt) bound (row ++ [c]) where
  bound_eq := h.bound_eq
  contents_eq := by
    change c ::ₘ b.contents = _
    rw [h.contents_eq, ← Multiset.coe_add, Multiset.coe_singleton, Multiset.add_comm,
      Multiset.singleton_add]

end

variable [DecidableEq C]

namespace BoundedBag

def erase (b : BoundedBag C) (c : C) : BoundedBag C :=
  ⟨b.bound, b.contents.erase c, (Multiset.card_le_card (b.contents.erase_le c)).trans b.fits⟩

def perform : Call C → BoundedBag C → Outcome × BoundedBag C
  | .park c, b =>
    if h : b.contents.card < b.bound then (.returned, b.insert c h)
    else (.thrown fullException, b)
  | .unpark c, b =>
    if c ∈ b.contents then (.returned, b.erase c) else (.thrown nonParkedException, b)
  | .remainingCapacity, b => (.value b.vacant, b)

end BoundedBag

theorem Holds.erase {b : BoundedBag C} {bound : ℕ} {row : List C} (h : Holds b bound row)
    (c : C) : Holds (b.erase c) bound (row.erase c) where
  bound_eq := h.bound_eq
  contents_eq := by
    change b.contents.erase c = _
    rw [h.contents_eq, Multiset.coe_erase]

/-- A call with what it does to the lot on every way out of it. -/
def CarList.perform : Call C → CarList C → Outcome × CarList C
  | .park c, l =>
    if l.cars.length ≥ l.capacity then (.thrown fullException, l)
    else (.returned, { l with cars := l.cars ++ [c] })
  | .unpark c, l =>
    let r := l.remove c
    (if !r.1 then .thrown nonParkedException else .returned, r.2)
  | .remainingCapacity, l => (.value l.remainingCapacity, l)

def BlockingQueueParkingLot.perform :
    Call C → BlockingQueueParkingLot C → Outcome × BlockingQueueParkingLot C
  | .park c, l =>
    let r := l.q.offer c
    (if !r.1 then .thrown fullException else .returned, ⟨r.2⟩)
  | .unpark c, l =>
    let r := l.q.remove c
    (if !r.1 then .thrown nonParkedException else .returned, ⟨r.2⟩)
  | .remainingCapacity, l => (.value l.remainingCapacity, l)

def ParkingLot.perform (call : Call C) : ParkingLot C → Outcome × ParkingLot C
  | .blockingQueue l => ((l.perform call).1, .blockingQueue (l.perform call).2)
  | .synchronized l => ((l.perform call).1, .synchronized (l.perform call).2)
  | .explicitLocking l => ((l.perform call).1, .explicitLocking (l.perform call).2)

/-- What the caller of `park` or `unpark` sees: a call that throws leaves the lot as it was. -/
def settle {σ : Type*} (l : σ) : Except IllegalStateException σ → Outcome × σ
  | .ok l' => (.returned, l')
  | .error e => (.thrown e, l)

omit [DecidableEq C] in
theorem settle_map {σ τ : Type*} (f : σ → τ) (l : σ) (r : Except IllegalStateException σ) :
    settle (f l) (r.map f) = ((settle l r).1, f (settle l r).2) := by
  cases r <;> rfl

theorem CarList.perform_park (l : CarList C) (c : C) :
    l.perform (.park c) = settle l (l.park c) := by
  by_cases hfull : l.cars.length ≥ l.capacity
  · rw [CarList.park_of_full hfull, perform, if_pos hfull, settle]
  · rw [CarList.park_of_lt (Nat.not_le.mp hfull), perform, if_neg hfull, settle]

theorem CarList.perform_unpark (l : CarList C) (c : C) :
    l.perform (.unpark c) = settle l (l.unpark c) := by
  by_cases hm : c ∈ l.cars
  · simp [CarList.unpark_of_mem hm, perform, remove, hm, settle]
  · simp [CarList.unpark_of_not_mem hm, perform, remove, hm, settle, List.erase_of_not_mem hm]

theorem BlockingQueueParkingLot.perform_park (l : BlockingQueueParkingLot C) (c : C) :
    l.perform (.park c) = settle l (l.park c) := by
  by_cases hfull : l.q.items.length = l.q.bound
  · simp [BlockingQueueParkingLot.park_of_full hfull, perform, ArrayBlockingQueue.offer, hfull,
      settle]
  · simp [park, perform, ArrayBlockingQueue.offer, hfull, settle]

theorem BlockingQueueParkingLot.perform_unpark (l : BlockingQueueParkingLot C) (c : C) :
    l.perform (.unpark c) = settle l (l.unpark c) := by
  by_cases hm : c ∈ l.q.items
  · simp [BlockingQueueParkingLot.unpark_of_mem hm, perform, ArrayBlockingQueue.remove, hm, settle]
  · simp [BlockingQueueParkingLot.unpark_of_not_mem hm, perform, ArrayBlockingQueue.remove, hm,
      settle, List.erase_of_not_mem hm]

theorem ParkingLot.perform_park (l : ParkingLot C) (c : C) :
    l.perform (.park c) = settle l (l.park c) := by
  cases l with
  | blockingQueue l =>
    rw [perform, BlockingQueueParkingLot.perform_park, park, settle_map]
  | synchronized l | explicitLocking l => rw [perform, CarList.perform_park, park, settle_map]

theorem ParkingLot.perform_unpark (l : ParkingLot C) (c : C) :
    l.perform (.unpark c) = settle l (l.unpark c) := by
  cases l with
  | blockingQueue l =>
    rw [perform, BlockingQueueParkingLot.perform_unpark, unpark, settle_map]
  | synchronized l | explicitLocking l => rw [perform, CarList.perform_unpark, unpark, settle_map]

theorem ParkingLot.perform_remainingCapacity (l : ParkingLot C) :
    l.perform .remainingCapacity = (.value l.remainingCapacity, l) := by
  cases l <;> rfl

theorem ParkingLot.perform_holds (call : Call C) {l : ParkingLot C} {b : BoundedBag C}
    (h : Holds b l.capacity l.cars) :
    (l.perform call).1 = (b.perform call).1 ∧
      Holds (b.perform call).2 (l.perform call).2.capacity (l.perform call).2.cars := by
  cases call with
  | park c =>
    rw [perform_park]
    by_cases hlt : b.contents.card < b.bound
    · obtain ⟨l', hpark, hcapacity, hcars⟩ := ParkingLot.park_of_lt (h.card_lt_iff.mp hlt) c
      simp only [hpark, settle, BoundedBag.perform, hlt, dite_true, true_and, hcapacity, hcars]
      exact h.insert hlt
    · have hfull : l.cars.length = l.capacity :=
        Nat.le_antisymm h.length_le (Nat.not_lt.mp (mt h.card_lt_iff.mpr hlt))
      simp only [ParkingLot.park_of_full hfull, settle, BoundedBag.perform, hlt, dite_false,
        true_and]
      exact h
  | unpark c =>
    rw [perform_unpark]
    by_cases hm : c ∈ l.cars
    · obtain ⟨l', hunpark, hcapacity, hcars⟩ := ParkingLot.unpark_of_mem hm
      have hmb : c ∈ b.contents := h.mem_iff.mpr hm
      simp only [hunpark, settle, BoundedBag.perform, hmb, if_true, true_and, hcapacity, hcars]
      exact h.erase c
    · have hmb : c ∉ b.contents := mt h.mem_iff.mp hm
      simp only [ParkingLot.unpark_of_not_mem hm, settle, BoundedBag.perform, hmb, if_false,
        true_and]
      exact h
  | remainingCapacity =>
    rw [perform_remainingCapacity, ParkingLot.remainingCapacity_eq]
    exact ⟨congrArg Outcome.value h.vacant_eq.symm, h⟩

theorem ParkingLot.perform_simulates :
    Simulates (fun (l : ParkingLot C) b => Holds b l.capacity l.cars) ParkingLot.perform
      BoundedBag.perform where
  outcome := fun call _ _ h => (perform_holds call h).1
  related := fun call _ _ h => (perform_holds call h).2

def parks : Call C × Outcome → Bool
  | (.park _, .returned) => true
  | _ => false

def unparks : Call C × Outcome → Bool
  | (.unpark _, .returned) => true
  | _ => false

def change (e : Call C × Outcome) : ℤ := (unparks e).toNat - (parks e).toNat

omit [DecidableEq C] in
theorem sum_change (es : List (Call C × Outcome)) :
    (es.map change).sum = (es.countP unparks : ℤ) - es.countP parks := by
  induction es with
  | nil => rfl
  | cons e es ih =>
    rw [List.map_cons, List.sum_cons, ih, List.countP_cons, List.countP_cons, change]
    cases unparks e <;> cases parks e <;> simp <;> omega

theorem BoundedBag.perform_vacant (call : Call C) (b : BoundedBag C) :
    (b.perform call).2.vacant = b.vacant + change (call, (b.perform call).1) := by
  cases call with
  | park c =>
    by_cases hlt : b.contents.card < b.bound
    · simp [perform, hlt, insert, vacant, change, parks, unparks]
      omega
    · simp [perform, hlt, vacant, change, parks, unparks]
  | unpark c =>
    by_cases hm : c ∈ b.contents
    · have hcard := Multiset.card_erase_add_one hm
      simp [perform, hm, erase, vacant, change, parks, unparks]
      omega
    · simp [perform, hm, vacant, change, parks, unparks]
  | remainingCapacity => simp [perform, change, parks, unparks]

theorem BoundedBag.perform_bound (call : Call C) (b : BoundedBag C) :
    (b.perform call).2.bound = b.bound := by
  cases call with
  | park c => by_cases hlt : b.contents.card < b.bound <;> simp [perform, hlt, insert]
  | unpark c => by_cases hm : c ∈ b.contents <;> simp [perform, hm, erase]
  | remainingCapacity => rfl

inductive Implementation where
  | blockingQueue
  | synchronized
  | explicitLocking
  deriving DecidableEq, Repr

/-- The constructors. An `ArrayBlockingQueue` has a place at least, an `ArrayList`
takes every capacity that is not negative. -/
def Implementation.new (capacity : Int32) : Implementation → Option (ParkingLot C)
  | .blockingQueue =>
    if capacity < 1 then none else some (.blockingQueue ⟨⟨capacity.toInt.toNat, []⟩⟩)
  | .synchronized =>
    if capacity < 0 then none else some (.synchronized ⟨capacity.toInt.toNat, []⟩)
  | .explicitLocking =>
    if capacity < 0 then none else some (.explicitLocking ⟨capacity.toInt.toNat, []⟩)

omit [DecidableEq C] in
theorem Implementation.new_of_pos {capacity : Int32} (h : 1 ≤ capacity) (i : Implementation) :
    ∃ lot : ParkingLot C, i.new capacity = some lot ∧ lot.capacity = capacity.toInt.toNat ∧
      lot.cars = [] := by
  have hlt : ¬ capacity < 1 := Int32.not_lt.mpr h
  have hneg : ¬ capacity < 0 := by
    rw [Int32.lt_iff_toInt_lt, Int32.toInt_zero]
    rw [Int32.le_iff_toInt_le, Int32.toInt_one] at h
    omega
  cases i with
  | blockingQueue => exact ⟨_, if_neg hlt, rfl, rfl⟩
  | synchronized => exact ⟨_, if_neg hneg, rfl, rfl⟩
  | explicitLocking => exact ⟨_, if_neg hneg, rfl, rfl⟩

/-- Call by call, each of the three lots has the outcomes of a bag whose bound is the
capacity, holds the cars of the bag, and tells as its remaining capacity the capacity
less the successful calls of `park` and more those of `unpark`. -/
theorem lots_interchangeable {capacity : Int32} (h : 1 ≤ capacity) (i : Implementation)
    (calls : List (Call C)) :
    ∃ lot : ParkingLot C, i.new capacity = some lot ∧
      let bag := history BoundedBag.perform calls (.empty capacity.toInt.toNat)
      let after := history ParkingLot.perform calls lot
      let log := record ParkingLot.perform calls lot
      after.1 = bag.1 ∧ (after.2.cars : Multiset C) = bag.2.contents ∧
        after.2.remainingCapacity = capacity.toInt - log.countP parks + log.countP unparks ∧
        0 ≤ after.2.remainingCapacity ∧ after.2.remainingCapacity ≤ capacity.toInt := by
  obtain ⟨lot, hnew, hcapacity, hcars⟩ := i.new_of_pos (C := C) h
  refine ⟨lot, hnew, ?_⟩
  intro bag after log
  have hnonneg : 0 ≤ capacity.toInt := by
    rw [Int32.le_iff_toInt_le, Int32.toInt_one] at h
    omega
  have hempty : Holds (.empty capacity.toInt.toNat : BoundedBag C) lot.capacity lot.cars :=
    ⟨hcapacity.symm, by rw [hcars]; rfl⟩
  obtain ⟨houtcomes, hholds⟩ := ParkingLot.perform_simulates.history hempty calls
  have hremaining : after.2.remainingCapacity = bag.2.vacant := by
    rw [hholds.vacant_eq, ParkingLot.remainingCapacity_eq]
  have hlog : log = record BoundedBag.perform calls (.empty capacity.toInt.toNat) := by
    simp only [log, record, houtcomes]
  have hvacant := history_measure BoundedBag.perform_vacant calls (.empty capacity.toInt.toNat)
  rw [← hlog, sum_change] at hvacant
  have hstart : (BoundedBag.empty capacity.toInt.toNat : BoundedBag C).vacant = capacity.toInt := by
    change (capacity.toInt.toNat : ℤ) - (0 : Multiset C).card = _
    rw [Multiset.card_zero]
    omega
  have hlast : after.2.remainingCapacity =
      capacity.toInt - log.countP parks + log.countP unparks := by
    rw [hremaining, hvacant, hstart]
    omega
  have hbound : (after.2.capacity : ℤ) = capacity.toInt := by
    rw [← hholds.bound_eq, history_eq BoundedBag.perform_bound]
    exact Int.toNat_of_nonneg hnonneg
  have hlength : after.2.cars.length ≤ after.2.capacity := hholds.length_le
  refine ⟨houtcomes, hholds.contents_eq.symm, hlast, ?_, ?_⟩
  · rw [ParkingLot.remainingCapacity_eq]
    omega
  · rw [ParkingLot.remainingCapacity_eq]
    omega

theorem lots_interchangeable_twice :
    let calls : List (Call ℕ) :=
      [.park 1, .park 1, .park 2, .unpark 1, .unpark 3, .remainingCapacity]
    (1 : Int32) ≤ 2 ∧ ∃ lot : ParkingLot ℕ, Implementation.blockingQueue.new 2 = some lot ∧
      (history ParkingLot.perform calls lot).1 =
        (history BoundedBag.perform calls (.empty (2 : Int32).toInt.toNat)).1 ∧
      (history ParkingLot.perform calls lot).2.cars = [1] := by
  intro calls
  have hpos : (1 : Int32) ≤ 2 := by decide
  obtain ⟨lot, hnew, houtcomes, -⟩ := lots_interchangeable hpos .blockingQueue calls
  refine ⟨hpos, lot, hnew, houtcomes, ?_⟩
  cases hnew
  decide

end Vsys.ParkingSim
