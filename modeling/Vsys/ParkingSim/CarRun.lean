import Mathlib.Data.Fintype.Card
import Vsys.Arith.Word32
import Vsys.ParkingSim.ParkingLot
import Vsys.Schedule.Run
import Vsys.Schedule.Tally

/-! Runs of `Car.run` over one lot. A run goes on from one call to the next: two
sleeps, the capacity check, `park` and `unpark`; the calls of different runs
interleave. -/

namespace Vsys.ParkingSim

open Schedule

/-- A car object; `ref` is its identity, by which `equals` compares. -/
structure Car where
  ref : ℕ
  startDelay : Int32
  parkTime : Int32
  deriving DecidableEq, Repr

inductive Ending where
  | left
  | noSpace
  | interrupted
  | illegalState (e : IllegalStateException)
  | illegalArgument
  deriving DecidableEq, Repr

inductive Phase where
  | starting
  | checking
  | parking
  | parked
  | leaving
  | ended (e : Ending)
  deriving DecidableEq, Repr

/-- The lot and the runs; `inside` tells which runs have completed `park` and not
yet `unpark`. -/
structure Simulation (ι : Type*) where
  lot : ParkingLot Car
  phase : ι → Phase
  inside : ι → Bool

namespace Simulation

variable {ι : Type*}

def start (lot : ParkingLot Car) : Simulation ι := ⟨lot, fun _ => .starting, fun _ => false⟩

section
variable [DecidableEq ι]

def goto (s : Simulation ι) (i : ι) (p : Phase) : Simulation ι :=
  { s with phase := Function.update s.phase i p }

/-- The next call of run `i`. `Thread.sleep` rejects a negative time. -/
def advance (car : ι → Car) (s : Simulation ι) (i : ι) : Option (Simulation ι) :=
  match s.phase i with
  | .starting =>
    if (car i).startDelay < 0 then some (s.goto i (.ended .illegalArgument))
    else some (s.goto i .checking)
  | .checking =>
    if s.lot.remainingCapacity > 0 then some (s.goto i .parking)
    else some (s.goto i (.ended .noSpace))
  | .parking =>
    match s.lot.park (car i) with
    | .ok lot =>
      some { s.goto i .parked with lot := lot, inside := Function.update s.inside i true }
    | .error e => some (s.goto i (.ended (.illegalState e)))
  | .parked =>
    if (car i).parkTime < 0 then some (s.goto i (.ended .illegalArgument))
    else some (s.goto i .leaving)
  | .leaving =>
    match s.lot.unpark (car i) with
    | .ok lot =>
      some { s.goto i (.ended .left) with lot := lot, inside := Function.update s.inside i false }
    | .error e => some (s.goto i (.ended (.illegalState e)))
  | .ended _ => none

inductive Advances (car : ι → Car) (s : Simulation ι) (i : ι) : Simulation ι → Prop
  | started (hp : s.phase i = .starting) (hd : 0 ≤ (car i).startDelay) :
    Advances car s i (s.goto i .checking)
  | badStart (hp : s.phase i = .starting) (hd : ¬ 0 ≤ (car i).startDelay) :
    Advances car s i (s.goto i (.ended .illegalArgument))
  | found (hp : s.phase i = .checking) (hr : 0 < s.lot.remainingCapacity) :
    Advances car s i (s.goto i .parking)
  | noSpace (hp : s.phase i = .checking) (hr : ¬ 0 < s.lot.remainingCapacity) :
    Advances car s i (s.goto i (.ended .noSpace))
  | park (hp : s.phase i = .parking) {lot : ParkingLot Car} (hl : s.lot.park (car i) = .ok lot) :
    Advances car s i
      { s.goto i .parked with lot := lot, inside := Function.update s.inside i true }
  | refused (hp : s.phase i = .parking) {e : IllegalStateException}
    (hl : s.lot.park (car i) = .error e) : Advances car s i (s.goto i (.ended (.illegalState e)))
  | waited (hp : s.phase i = .parked) (hd : 0 ≤ (car i).parkTime) :
    Advances car s i (s.goto i .leaving)
  | badWait (hp : s.phase i = .parked) (hd : ¬ 0 ≤ (car i).parkTime) :
    Advances car s i (s.goto i (.ended .illegalArgument))
  | unpark (hp : s.phase i = .leaving) {lot : ParkingLot Car}
    (hl : s.lot.unpark (car i) = .ok lot) :
    Advances car s i
      { s.goto i (.ended .left) with lot := lot, inside := Function.update s.inside i false }
  | missing (hp : s.phase i = .leaving) {e : IllegalStateException}
    (hl : s.lot.unpark (car i) = .error e) : Advances car s i (s.goto i (.ended (.illegalState e)))

theorem advances_of_advance {car : ι → Car} {s t : Simulation ι} {i : ι}
    (h : advance car s i = some t) : Advances car s i t := by
  rw [advance] at h
  split at h
  · next hp =>
    split at h
    · next hd => cases h; exact .badStart hp (by rwa [Int32.not_le])
    · next hd => cases h; exact .started hp (by rwa [← Int32.not_lt])
  · next hp =>
    split at h
    · next hr => cases h; exact .found hp hr
    · next hr => cases h; exact .noSpace hp hr
  · next hp =>
    split at h
    · next hl => cases h; exact .park hp hl
    · next hl => cases h; exact .refused hp hl
  · next hp =>
    split at h
    · next hd => cases h; exact .badWait hp (by rwa [Int32.not_le])
    · next hd => cases h; exact .waited hp (by rwa [← Int32.not_lt])
  · next hp =>
    split at h
    · next hl => cases h; exact .unpark hp hl
    · next hl => cases h; exact .missing hp hl
  · cases h

end

def insideRuns [Fintype ι] (s : Simulation ι) : Finset ι :=
  Finset.univ.filter fun i => s.inside i = true

def Coherent : Phase → Bool → Prop
  | .starting, b | .checking, b | .parking, b => b = false
  | .parked, b | .leaving, b => b = true
  | .ended .left, b | .ended .noSpace, b | .ended (.illegalState _), b => b = false
  | .ended .interrupted, _ | .ended .illegalArgument, _ => True

structure Tracks [Fintype ι] (car : ι → Car) (lot : ParkingLot Car) (s : Simulation ι) : Prop where
  capacity_eq : s.lot.capacity = lot.capacity
  fits : s.lot.Fits
  contents : (s.lot.cars : Multiset Car) = lot.cars + s.insideRuns.val.map car
  coherent : ∀ i, Coherent (s.phase i) (s.inside i)

theorem coherent_update [DecidableEq ι] {s : Simulation ι}
    (h : ∀ j, Coherent (s.phase j) (s.inside j)) {i : ι}
    {p : Phase} {b : Bool} (hp : Coherent p b) (j : ι) :
    Coherent (Function.update s.phase i p j) (Function.update s.inside i b j) :=
  (forall_update_pair_iff s.phase s.inside i p b).mpr ⟨hp, fun k _ => h k⟩ j

section
variable [Fintype ι] {car : ι → Car} {lot : ParkingLot Car}

theorem start_tracks (h : lot.Fits) : Tracks car lot (start lot) where
  capacity_eq := rfl
  fits := h
  contents := by simp [start, insideRuns]
  coherent := fun _ => rfl

theorem Tracks.length_eq {s : Simulation ι} (h : Tracks car lot s) :
    s.lot.cars.length = lot.cars.length + s.insideRuns.card := by
  have hc := congrArg Multiset.card h.contents
  simpa using hc

theorem Tracks.remainingCapacity_eq {s : Simulation ι} (h : Tracks car lot s) :
    s.lot.remainingCapacity = lot.remainingCapacity - s.insideRuns.card := by
  rw [ParkingLot.remainingCapacity_eq, ParkingLot.remainingCapacity_eq, h.capacity_eq,
    h.length_eq]
  omega

theorem Tracks.count_eq {s : Simulation ι} (h : Tracks car lot s) (c : Car) :
    s.lot.cars.count c = lot.cars.count c + (s.insideRuns.filter fun i => c = car i).card := by
  rw [← Multiset.coe_count, h.contents, Multiset.count_add, Multiset.coe_count,
    Multiset.count_map]
  rfl

theorem Tracks.mem_cars {s : Simulation ι} (h : Tracks car lot s) {i : ι}
    (hi : s.inside i = true) : car i ∈ s.lot.cars := by
  have hm : car i ∈ (s.lot.cars : Multiset Car) := by
    rw [h.contents]
    refine Multiset.mem_add.mpr (Or.inr (Multiset.mem_map_of_mem car ?_))
    exact Finset.mem_filter.mpr ⟨Finset.mem_univ i, hi⟩
  exact Multiset.mem_coe.mp hm

theorem Tracks.unpark_ne_error {s : Simulation ι} (h : Tracks car lot s) {i : ι}
    (hp : s.phase i = .leaving) (e : IllegalStateException) :
    s.lot.unpark (car i) ≠ .error e := by
  have hi : s.inside i = true := by
    have hc := h.coherent i
    rwa [hp] at hc
  obtain ⟨l, hl, -, -⟩ := ParkingLot.unpark_of_mem (h.mem_cars hi)
  rw [hl]
  exact fun h => nomatch h

variable [DecidableEq ι]

theorem insideRuns_enter {s t : Simulation ι} {i : ι} (hi : s.inside i = false)
    (ht : t.inside = Function.update s.inside i true) :
    t.insideRuns = insert i s.insideRuns ∧ i ∉ s.insideRuns := by
  refine ⟨?_, by simp [insideRuns, hi]⟩
  ext j
  by_cases hij : j = i
  · subst hij
    simp [insideRuns, ht]
  · simp [insideRuns, ht, hij]

theorem insideRuns_leave {s t : Simulation ι} {i : ι} (hi : s.inside i = true)
    (ht : t.inside = Function.update s.inside i false) :
    insert i t.insideRuns = s.insideRuns ∧ i ∉ t.insideRuns := by
  refine ⟨?_, by simp [insideRuns, ht]⟩
  ext j
  by_cases hij : j = i
  · subst hij
    simp [insideRuns, hi]
  · simp [insideRuns, ht, hij]

theorem Tracks.goto {s : Simulation ι} (h : Tracks car lot s) {i : ι} {p : Phase}
    (hp : Coherent p (s.inside i)) : Tracks car lot (s.goto i p) where
  capacity_eq := h.capacity_eq
  fits := h.fits
  contents := h.contents
  coherent := by
    intro j
    have hc := coherent_update h.coherent (i := i) hp j
    rwa [Function.update_eq_self] at hc

theorem Tracks.park {s : Simulation ι} (h : Tracks car lot s) {i : ι}
    (hp : s.phase i = .parking) {l : ParkingLot Car} (hl : s.lot.park (car i) = .ok l) :
    Tracks car lot
      { s.goto i .parked with lot := l, inside := Function.update s.inside i true } := by
  obtain ⟨hlt, hcap, hcars⟩ := ParkingLot.park_eq_ok h.fits hl
  have hi : s.inside i = false := by
    have hc := h.coherent i
    rwa [hp] at hc
  refine ⟨hcap.trans h.capacity_eq, ?_, ?_, coherent_update h.coherent rfl⟩
  · change l.cars.length ≤ l.capacity
    rw [hcap, hcars, List.length_append, List.length_singleton]
    exact hlt
  · obtain ⟨hruns, hnot⟩ := insideRuns_enter (t := { s.goto i .parked with
      lot := l, inside := Function.update s.inside i true }) hi rfl
    change (l.cars : Multiset Car) = _
    rw [hruns, Finset.insert_val_of_notMem hnot, Multiset.map_cons, Multiset.add_cons,
      ← h.contents, hcars, ← Multiset.coe_add, Multiset.coe_singleton,
      Multiset.add_comm, Multiset.singleton_add]

theorem Tracks.unpark {s : Simulation ι} (h : Tracks car lot s) {i : ι}
    (hp : s.phase i = .leaving) {l : ParkingLot Car} (hl : s.lot.unpark (car i) = .ok l) :
    Tracks car lot
      { s.goto i (.ended .left) with lot := l, inside := Function.update s.inside i false } := by
  obtain ⟨-, hcap, hcars⟩ := ParkingLot.unpark_eq_ok hl
  have hi : s.inside i = true := by
    have hc := h.coherent i
    rwa [hp] at hc
  refine ⟨hcap.trans h.capacity_eq, ?_, ?_, coherent_update h.coherent rfl⟩
  · change l.cars.length ≤ l.capacity
    rw [hcap, hcars]
    exact List.length_erase_le.trans h.fits
  · obtain ⟨hruns, hnot⟩ := insideRuns_leave (t := { s.goto i (.ended .left) with
      lot := l, inside := Function.update s.inside i false }) hi rfl
    change (l.cars : Multiset Car) = _
    have hc := h.contents
    rw [← hruns, Finset.insert_val_of_notMem hnot, Multiset.map_cons, Multiset.add_cons] at hc
    rw [hcars, ← Multiset.coe_erase, hc, Multiset.erase_cons_head]

theorem advance_tracks {s t : Simulation ι} {i : ι} (h : Tracks car lot s)
    (ht : advance car s i = some t) : Tracks car lot t := by
  have hc := h.coherent i
  cases advances_of_advance ht with
  | started hp => rw [hp] at hc; exact h.goto hc
  | badStart => exact h.goto trivial
  | found hp => rw [hp] at hc; exact h.goto hc
  | noSpace hp => rw [hp] at hc; exact h.goto hc
  | park hp hl => exact h.park hp hl
  | refused hp => rw [hp] at hc; exact h.goto hc
  | waited hp => rw [hp] at hc; exact h.goto hc
  | badWait => exact h.goto trivial
  | unpark hp hl => exact h.unpark hp hl
  | missing hp hl => exact absurd hl (h.unpark_ne_error hp _)

end

end Simulation

end Vsys.ParkingSim
