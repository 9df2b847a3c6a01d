import Mathlib.Data.Fintype.Card
import Vsys.ParkingSim.CarRun
import Vsys.ParkingSim.Interchange

/-! Runs of cars whose threads are interrupted. The one `catch` of `Car.run` ends a
run at either sleep; only behind the second one is the car parked. -/

namespace Vsys.ParkingSim

open Schedule

variable {ι : Type*}

namespace Simulation

/-- Whoever is inside is still to call `unpark`. -/
def Leaves (s : Simulation ι) : Prop :=
  ∀ i, s.inside i = true → s.phase i = .parked ∨ s.phase i = .leaving

theorem Tracks.inside_of_between [Fintype ι] {car : ι → Car} {lot : ParkingLot Car}
    {s : Simulation ι} (h : Tracks car lot s) {i : ι}
    (hi : s.phase i = .parked ∨ s.phase i = .leaving) : s.inside i = true := by
  have hc := h.coherent i
  rcases hi with hi | hi
  · rwa [hi] at hc
  · rwa [hi] at hc

section
variable [DecidableEq ι]

theorem leaves_update {s t : Simulation ι} {i : ι} {p : Phase} {b : Bool} (hs : Leaves s)
    (hp : t.phase = Function.update s.phase i p) (hb : t.inside = Function.update s.inside i b) :
    Leaves t ↔ (b = true → p = .parked ∨ p = .leaving) := by
  have hiff := @forall_update_pair_iff ι Phase Bool _
    (fun q b => b = true → q = .parked ∨ q = .leaving) s.phase s.inside i p b
  rw [Leaves, hp, hb]
  exact hiff.trans (and_iff_left fun j _ => hs j)

theorem leaves_goto {s : Simulation ι} {i : ι} (hs : Leaves s) (p : Phase) :
    Leaves (s.goto i p) ↔ (s.inside i = true → p = .parked ∨ p = .leaving) :=
  leaves_update hs rfl (Function.update_eq_self i s.inside).symm

end

end Simulation

structure Threads (ι : Type*) where
  runs : Simulation ι
  interrupted : ι → Bool

inductive Act where
  | proceed
  | interrupt
  deriving DecidableEq, Repr

namespace Threads

def start (lot : ParkingLot Car) : Threads ι := ⟨.start lot, fun _ => false⟩

/-- The thread stands at a sleep with its interrupt status set. `Thread.sleep` looks at
the sign of its argument first. -/
def Throws (car : ι → Car) (s : Threads ι) (i : ι) : Prop :=
  s.interrupted i = true ∧
    (s.runs.phase i = .starting ∧ 0 ≤ (car i).startDelay ∨
      s.runs.phase i = .parked ∧ 0 ≤ (car i).parkTime)

instance (car : ι → Car) (s : Threads ι) (i : ι) : Decidable (s.Throws car i) :=
  inferInstanceAs (Decidable (_ ∧ _))

section
variable [DecidableEq ι]

def step (car : ι → Car) (s : Threads ι) : ι × Act → Option (Threads ι)
  | (i, .interrupt) => some { s with interrupted := Function.update s.interrupted i true }
  | (i, .proceed) =>
    if s.Throws car i then
      some ⟨s.runs.goto i (.ended .interrupted), Function.update s.interrupted i false⟩
    else (s.runs.advance car i).map fun runs => { s with runs := runs }

inductive Steps (car : ι → Car) (s : Threads ι) : ι × Act → Threads ι → Prop
  | interrupt (i : ι) :
    Steps car s (i, .interrupt) { s with interrupted := Function.update s.interrupted i true }
  | throw {i : ι} (h : s.Throws car i) :
    Steps car s (i, .proceed)
      ⟨s.runs.goto i (.ended .interrupted), Function.update s.interrupted i false⟩
  | advance {i : ι} (h : ¬ s.Throws car i) {runs : Simulation ι}
    (hr : s.runs.advance car i = some runs) : Steps car s (i, .proceed) { s with runs := runs }

theorem steps_of_step {car : ι → Car} {s t : Threads ι} {m : ι × Act}
    (h : step car s m = some t) : Steps car s m t := by
  obtain ⟨i, a⟩ := m
  cases a with
  | interrupt =>
    obtain rfl := Option.some.inj h
    exact .interrupt i
  | proceed =>
    simp only [step] at h
    by_cases ht : s.Throws car i
    · rw [if_pos ht] at h
      obtain rfl := Option.some.inj h
      exact .throw ht
    · rw [if_neg ht] at h
      obtain ⟨runs, hr, rfl⟩ := Option.map_eq_some_iff.mp h
      exact .advance ht hr

end

section
variable [Fintype ι] {car : ι → Car} {lot : ParkingLot Car}

variable [DecidableEq ι]

theorem step_tracks {s t : Threads ι} {m : ι × Act} (h : s.runs.Tracks car lot)
    (ht : step car s m = some t) : t.runs.Tracks car lot := by
  cases steps_of_step ht with
  | interrupt => exact h
  | throw => exact h.goto trivial
  | advance _ hr => exact Simulation.advance_tracks h hr

theorem run_tracks {moves : List (ι × Act)} {t : Threads ι} (h : lot.Fits)
    (ht : run (step car) (start lot) moves = some t) : t.runs.Tracks car lot :=
  run_invariant (I := fun s => s.runs.Tracks car lot) (fun _ _ _ hs hst => step_tracks hs hst)
    (Simulation.start_tracks h) ht

/-- In every state that any interleaving of the runs and of interrupts reaches, each car
stands in the lot as often as runs of it have parked and not left; the remaining capacity
is the capacity less all such runs and never negative; and no `unpark` throws. -/
theorem lot_holds_cars_inside {capacity : Int32} (h : 1 ≤ capacity) (k : Implementation)
    (car : ι → Car) :
    ∃ lot, k.new capacity = some lot ∧ ∀ (moves : List (ι × Act)) (t : Threads ι),
      run (step car) (start lot) moves = some t →
        (∀ c, t.runs.lot.cars.count c =
          (Finset.univ.filter fun i => t.runs.inside i = true ∧ c = car i).card) ∧
        t.runs.lot.remainingCapacity =
          capacity.toInt - (Finset.univ.filter fun i => t.runs.inside i = true).card ∧
        0 ≤ t.runs.lot.remainingCapacity ∧
        ∀ i, t.runs.phase i = .leaving → ∃ l, t.runs.lot.unpark (car i) = .ok l := by
  obtain ⟨lot, hnew, hcapacity, hcars⟩ := k.new_of_pos (C := Car) h
  refine ⟨lot, hnew, fun moves t ht => ?_⟩
  have hfits : lot.Fits := by
    rw [ParkingLot.Fits, hcars]
    exact Nat.zero_le _
  have htracks := run_tracks hfits ht
  have hremaining := htracks.remainingCapacity_eq
  have hpositive : 1 ≤ capacity.toInt := by
    rwa [Int32.le_iff_toInt_le, Int32.toInt_one] at h
  have hempty : lot.remainingCapacity = capacity.toInt := by
    rw [ParkingLot.remainingCapacity_eq, hcapacity, hcars, List.length_nil]
    omega
  refine ⟨fun c => ?_, ?_, ?_, fun i hi => ?_⟩
  · have hcount := htracks.count_eq c
    rw [hcars, List.count_nil, Nat.zero_add, Simulation.insideRuns, Finset.filter_filter] at hcount
    exact hcount
  · rw [hremaining, hempty]
    rfl
  · have hlength : t.runs.lot.cars.length ≤ t.runs.lot.capacity := htracks.fits
    rw [ParkingLot.remainingCapacity_eq]
    omega
  · cases hunpark : t.runs.lot.unpark (car i) with
    | ok l => exact ⟨l, rfl⟩
    | error e => exact absurd hunpark (htracks.unpark_ne_error hi e)

/-- Each car stands in the lot as often as before, and once more for each run of it
that is between `park` and `unpark`. -/
def NoneKept (car : ι → Car) (lot : ParkingLot Car) (s : Threads ι) : Prop :=
  ∀ c, s.runs.lot.cars.count c = lot.cars.count c +
    (Finset.univ.filter fun i =>
      (s.runs.phase i = .parked ∨ s.runs.phase i = .leaving) ∧ c = car i).card

/-- A run that comes out of its second sleep was not interrupted, and had a time to
sleep that is not negative. -/
def WakesUp (car : ι → Car) (s : Threads ι) (m : ι × Act) : Prop :=
  m.2 = .proceed → s.runs.phase m.1 = .parked →
    s.interrupted m.1 = false ∧ 0 ≤ (car m.1).parkTime

omit [DecidableEq ι] in
theorem noneKept_iff {s : Threads ι} (h : s.runs.Tracks car lot) :
    NoneKept car lot s ↔ s.runs.Leaves := by
  have hsubset : ∀ c, (Finset.univ.filter fun i =>
      (s.runs.phase i = .parked ∨ s.runs.phase i = .leaving) ∧ c = car i) ⊆
        s.runs.insideRuns.filter fun i => c = car i := by
    intro c i hi
    obtain ⟨hbetween, hcar⟩ := (Finset.mem_filter.mp hi).2
    have hinside : i ∈ s.runs.insideRuns :=
      Finset.mem_filter.mpr ⟨Finset.mem_univ i, h.inside_of_between hbetween⟩
    exact Finset.mem_filter.mpr ⟨hinside, hcar⟩
  constructor
  · intro hnone i hi
    have hcard := (h.count_eq (car i)).symm.trans (hnone (car i))
    have hsame := Finset.eq_of_subset_of_card_le (hsubset (car i)) (by omega)
    have hmem : i ∈ s.runs.insideRuns.filter fun j => car i = car j :=
      Finset.mem_filter.mpr ⟨Finset.mem_filter.mpr ⟨Finset.mem_univ i, hi⟩, rfl⟩
    rw [← hsame] at hmem
    exact (Finset.mem_filter.mp hmem).2.1
  · intro hleaves c
    rw [h.count_eq c]
    congr 2
    refine Finset.Subset.antisymm (fun i hi => ?_) (hsubset c)
    obtain ⟨hinside, hcar⟩ := Finset.mem_filter.mp hi
    have hbetween := hleaves i (Finset.mem_filter.mp hinside).2
    exact Finset.mem_filter.mpr ⟨Finset.mem_univ i, hbetween, hcar⟩

omit [Fintype ι] [DecidableEq ι] in
theorem wakesUp_of_phase {s : Threads ι} {m : ι × Act} {p : Phase}
    (hp : s.runs.phase m.1 = p) (hne : p ≠ .parked) : WakesUp car s m := by
  intro _ hparked
  exact absurd (hp.symm.trans hparked) hne

theorem step_leaves_iff {s t : Threads ι} {m : ι × Act} (h : s.runs.Tracks car lot)
    (hs : s.runs.Leaves) (ht : step car s m = some t) : t.runs.Leaves ↔ WakesUp car s m := by
  cases steps_of_step ht with
  | interrupt i => exact iff_of_true hs fun hm => nomatch hm
  | @throw i hthrow =>
    have hc := h.coherent i
    rw [Simulation.leaves_goto hs]
    obtain ⟨hflag, ⟨hp, -⟩ | ⟨hp, -⟩⟩ := hthrow
    · rw [hp] at hc
      refine iff_of_true (fun hin => ?_) (wakesUp_of_phase hp (by decide))
      exact absurd (hc.symm.trans hin) Bool.false_ne_true
    · rw [hp] at hc
      refine iff_of_false (fun hl => ?_) fun hw => ?_
      · simpa using hl hc
      · exact absurd (hflag.symm.trans (hw rfl hp).1) (by decide)
  | @advance i hthrow runs hr =>
    have hc := h.coherent i
    change runs.Leaves ↔ _
    cases Simulation.advances_of_advance hr with
    | started hp | badStart hp | found hp | noSpace hp | refused hp =>
      rw [hp] at hc
      rw [Simulation.leaves_goto hs]
      refine iff_of_true (fun hin => ?_) (wakesUp_of_phase hp (by decide))
      exact absurd (hc.symm.trans hin) Bool.false_ne_true
    | park hp =>
      rw [Simulation.leaves_update hs rfl rfl]
      exact iff_of_true (fun _ => Or.inl rfl) (wakesUp_of_phase hp (by decide))
    | waited hp hd =>
      rw [Simulation.leaves_goto hs]
      refine iff_of_true (fun _ => Or.inr rfl) fun _ _ => ⟨?_, hd⟩
      by_contra hflag
      exact hthrow ⟨by simpa using hflag, Or.inr ⟨hp, hd⟩⟩
    | badWait hp hd =>
      rw [hp] at hc
      rw [Simulation.leaves_goto hs]
      exact iff_of_false (fun hl => by simpa using hl hc) fun hw => hd (hw rfl hp).2
    | unpark hp =>
      rw [Simulation.leaves_update hs rfl rfl]
      exact iff_of_true (fun hin => nomatch hin) (wakesUp_of_phase hp (by decide))
    | missing hp hl => exact absurd hl (h.unpark_ne_error hp _)

omit [Fintype ι] in
theorem ended_stays {s t : Threads ι} {m : ι × Act} (ht : step car s m = some t) {i : ι}
    {e : Ending} (hi : s.runs.phase i = .ended e) :
    t.runs.phase i = .ended e ∧ t.runs.inside i = s.runs.inside i := by
  have hother : ∀ {j : ι} {p q : Phase} {b : Bool}, s.runs.phase j = p → p ≠ .ended e →
      Function.update s.runs.phase j q i = .ended e ∧
        Function.update s.runs.inside j b i = s.runs.inside i := by
    intro j p q b hj hne
    have hij : i ≠ j := by
      rintro rfl
      exact hne (hj.symm.trans hi)
    rw [Function.update_of_ne hij, Function.update_of_ne hij]
    exact ⟨hi, rfl⟩
  have hgoto : ∀ {j : ι} {p q : Phase}, s.runs.phase j = p → p ≠ .ended e →
      (s.runs.goto j q).phase i = .ended e ∧ (s.runs.goto j q).inside i = s.runs.inside i :=
    fun hj hne => ⟨(hother (b := false) hj hne).1, rfl⟩
  cases steps_of_step ht with
  | interrupt => exact ⟨hi, rfl⟩
  | throw hthrow =>
    obtain ⟨-, ⟨hp, -⟩ | ⟨hp, -⟩⟩ := hthrow
    · exact hgoto hp (by rintro ⟨⟩)
    · exact hgoto hp (by rintro ⟨⟩)
  | advance _ hr =>
    cases Simulation.advances_of_advance hr with
    | started hp | badStart hp | found hp | noSpace hp | refused hp | waited hp | badWait hp
    | missing hp => exact hgoto hp (by rintro ⟨⟩)
    | park hp | unpark hp => exact hother hp (by rintro ⟨⟩)

theorem leaves_of_step {s t : Threads ι} {m : ι × Act} (h : s.runs.Tracks car lot)
    (ht : step car s m = some t) (hleaves : t.runs.Leaves) : s.runs.Leaves := by
  intro i hi
  have hc := h.coherent i
  cases hp : s.runs.phase i with
  | parked => exact Or.inl rfl
  | leaving => exact Or.inr rfl
  | starting | checking | parking =>
    rw [hp] at hc
    exact absurd (hc.symm.trans hi) Bool.false_ne_true
  | ended e =>
    obtain ⟨hended, hinside⟩ := ended_stays ht hp
    have hbetween := hleaves i (hinside.trans hi)
    rw [hended] at hbetween
    simp at hbetween

omit [DecidableEq ι] in
theorem start_noneKept (h : lot.Fits) : NoneKept car lot (start lot : Threads ι) := by
  refine (noneKept_iff (Simulation.start_tracks h)).mpr fun i hi => ?_
  exact absurd hi Bool.false_ne_true

omit [DecidableEq ι] in
theorem remaining_iff {s : Threads ι} (h : s.runs.Tracks car lot)
    (hended : ∀ i, ∃ e, s.runs.phase i = .ended e) :
    s.runs.lot.remainingCapacity = lot.remainingCapacity ↔ NoneKept car lot s := by
  rw [noneKept_iff h, h.remainingCapacity_eq]
  constructor
  · intro heq i hi
    have hnone : s.runs.insideRuns = ∅ := Finset.card_eq_zero.mp (by omega)
    have hmem : i ∈ s.runs.insideRuns := Finset.mem_filter.mpr ⟨Finset.mem_univ i, hi⟩
    rw [hnone] at hmem
    exact absurd hmem (Finset.notMem_empty i)
  · intro hleaves
    have hnone : s.runs.insideRuns = ∅ := by
      refine Finset.filter_eq_empty_iff.mpr fun i _ hi => ?_
      obtain ⟨e, he⟩ := hended i
      have hbetween := hleaves i hi
      rw [he] at hbetween
      simp at hbetween
    rw [hnone, Finset.card_empty]
    omega

end

theorem lot_holds_cars_inside_sameCar :
    let car : Bool → Car := fun _ => ⟨7, 30, 40⟩
    let moves : List (Bool × Act) := [(true, .proceed), (false, .proceed), (true, .proceed),
      (true, .proceed), (false, .proceed), (false, .proceed), (true, .interrupt), (true, .proceed)]
    (1 : Int32) ≤ 3 ∧ ∃ lot, Implementation.explicitLocking.new 3 = some lot ∧
      ∃ t, run (step car) (start lot) moves = some t ∧
        t.runs.phase true = .ended .interrupted ∧ t.runs.lot.remainingCapacity = 1 ∧
        t.runs.lot.cars.count (car true) =
          (Finset.univ.filter fun i => t.runs.inside i = true ∧ car true = car i).card := by
  intro car moves
  have hpos : (1 : Int32) ≤ 3 := by decide
  obtain ⟨lot, hnew, hruns⟩ := lot_holds_cars_inside hpos .explicitLocking car
  refine ⟨hpos, lot, hnew, ?_⟩
  cases hnew
  obtain ⟨t, ht, hphase, hfree⟩ : ∃ t ∈ run (step car) (start (.explicitLocking ⟨3, []⟩)) moves,
      t.runs.phase true = .ended .interrupted ∧ t.runs.lot.remainingCapacity = 1 := by decide
  exact ⟨t, ht, hphase, hfree, (hruns moves t ht).1 (car true)⟩

section
variable [Fintype ι] [DecidableEq ι] {car : ι → Car} {lot : ParkingLot Car}

/-- Along an interleaving no run that has ended keeps its space exactly when no run is
interrupted at its second sleep and no car that parks has a negative time to stay; and
when all runs have ended, exactly then is the remaining capacity what it was before. -/
theorem none_kept_iff (h : lot.Fits) (moves : List (ι × Act)) :
    (Always (step car) (NoneKept car lot) (start lot) moves ↔
      Guarded (step car) (WakesUp car) (start lot) moves) ∧
    ∀ t, run (step car) (start lot) moves = some t → (∀ i, ∃ e, t.runs.phase i = .ended e) →
      (t.runs.lot.remainingCapacity = lot.remainingCapacity ↔
        Guarded (step car) (WakesUp car) (start lot) moves) := by
  have hinv : ∀ (s : Threads ι) m t, s.runs.Tracks car lot → step car s m = some t →
      t.runs.Tracks car lot := fun _ _ _ hs ht => step_tracks hs ht
  have hstart : (start lot : Threads ι).runs.Tracks car lot := Simulation.start_tracks h
  have hiff : Always (step car) (NoneKept car lot) (start lot) moves ↔
      Guarded (step car) (WakesUp car) (start lot) moves := by
    refine always_iff_guarded hinv (fun s m t hs hnone ht => ?_) hstart (start_noneKept h) moves
    rw [noneKept_iff (hinv s m t hs ht)]
    exact step_leaves_iff hs ((noneKept_iff hs).mp hnone) ht
  refine ⟨hiff, fun t ht hended => ?_⟩
  rw [← hiff, remaining_iff (run_tracks h ht) hended]
  constructor
  · intro hnone
    refine always_of_run hinv (fun s m u hs hu hq => ?_) hstart ht hnone
    exact (noneKept_iff hs).mpr (leaves_of_step hs hu ((noneKept_iff (hinv s m u hs hu)).mp hq))
  · exact fun halways => halways.run ht

end

theorem none_kept_iff_oneCar :
    let car : Unit → Car := fun _ => ⟨7, 30, 40⟩
    let moves : List (Unit × Act) := List.replicate 5 ((), .proceed)
    (ParkingLot.synchronized (⟨1, []⟩ : CarList Car)).Fits ∧
      Guarded (step car) (WakesUp car) (start (.synchronized ⟨1, []⟩)) moves := by
  intro car moves
  have hfits : (ParkingLot.synchronized (⟨1, []⟩ : CarList Car)).Fits := by decide
  obtain ⟨t, ht, hleft, hfree⟩ : ∃ t ∈ run (step car) (start (.synchronized ⟨1, []⟩)) moves,
      (∀ i, t.runs.phase i = .ended .left) ∧ t.runs.lot.remainingCapacity = 1 := by decide
  have hiff := (none_kept_iff hfits moves).2 t ht fun i => ⟨.left, hleft i⟩
  exact ⟨hfits, hiff.mp hfree⟩

/-- A car interrupted after it has parked never leaves, and the lot stays full. -/
theorem interrupted_car_stays :
    let car : Unit → Car := fun _ => ⟨7, 30, 40⟩
    let lot : ParkingLot Car := .synchronized ⟨1, []⟩
    let moves : List (Unit × Act) :=
      [((), .proceed), ((), .proceed), ((), .proceed), ((), .interrupt), ((), .proceed)]
    ∃ t, run (step car) (start lot) moves = some t ∧
      (∀ i, t.runs.phase i = .ended .interrupted) ∧ t.runs.lot.cars = [car ()] ∧
      t.runs.lot.remainingCapacity ≠ lot.remainingCapacity ∧
      ¬ Always (step car) (NoneKept car lot) (start lot) moves := by
  intro car lot moves
  obtain ⟨t, ht, hphase, hlot⟩ : ∃ t ∈ run (step car) (start lot) moves,
      (∀ i, t.runs.phase i = .ended .interrupted) ∧ t.runs.lot = .synchronized ⟨1, [car ()]⟩ := by
    decide
  refine ⟨t, ht, hphase, by rw [hlot]; rfl, by rw [hlot]; decide, fun halways => ?_⟩
  have hnone := halways.run ht (car ())
  simp [hlot, hphase, ParkingLot.cars, lot] at hnone

end Threads

end Vsys.ParkingSim
