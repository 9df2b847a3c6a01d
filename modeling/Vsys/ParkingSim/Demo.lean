import Mathlib.Data.Fintype.BigOperators
import Vsys.ParkingSim.CarFactory
import Vsys.ParkingSim.Interchange
import Vsys.ParkingSim.QuietRuns
import Vsys.Schedule.Completion
import Vsys.Text.JavaString

/-! The simulation that `main` sets up: some lots, and for each of them as many cars as
it has places. `main` starts the threads one after the other, and those that have been
started run meanwhile. -/

namespace Vsys.ParkingSim

open Schedule

def described (name : String) (remaining : ℤ) : List Char :=
  name.toList ++ "\x7bCapacity=".toList ++ (toString remaining).toList ++ ['}']

def ParkingLot.toString : ParkingLot Car → List Char
  | .blockingQueue l => described "BlockingQueueParkingLot" l.remainingCapacity
  | .synchronized l => described "SynchronizedParkingLot" l.remainingCapacity
  | .explicitLocking l => described "ExplicitLockingParkingLot" l.remainingCapacity

namespace Demo

/-- The number of lots; or the message with which `main` exits. -/
def numParkingLots : List (List Char) → Except (List Char) Int32
  | [arg] =>
    match JavaString.valueOf arg with
    | none => .error ("Invalid argument: ".toList ++ arg)
    | some n =>
      if n < 1 then .error "Number of parking lots must be >= 1".toList else .ok n
  | _ => .ok 3

/-- The `switch` has no branch for other numbers. -/
def pick (n : Int32) : Option Implementation :=
  match n.toInt with
  | 0 => some .blockingQueue
  | 1 => some .synchronized
  | 2 => some .explicitLocking
  | _ => none

def pickLots : ℕ → Random → Option (List (ParkingLot Car))
  | 0, _ => some []
  | n + 1, r => do
    let (drawn, r) ← r.nextInt 3
    match pick drawn with
    | some i =>
      let lot ← i.new 100
      let lots ← pickLots n r
      return lot :: lots
    | none => pickLots n r

def rule : List Char := List.replicate 33 '='

def opening (lots : List (ParkingLot Car)) : List (List Char) :=
  ["===== PARKING LOTS SELECTED =====".toList,
    '[' :: (", ".toList).intercalate (lots.map ParkingLot.toString) ++ [']'], rule]

def heading (lot : ParkingLot Car) : List (List Char) :=
  ["Parking lot ".toList ++ lot.toString, rule]

/-- The cars are those whose threads have been started, `announced` the lots whose heading has
been printed. -/
structure State (k : ℕ) where
  announced : ℕ
  cars : List RandomCar
  printed : List (List Char)
  runs : Fin k → Simulation (Fin 100)

inductive Label (k : ℕ) where
  | main
  | car (j : Fin k) (i : Fin 100)
  deriving DecidableEq, Repr

def start (lots : List (ParkingLot Car)) : State lots.length :=
  ⟨0, [], opening lots, fun j => .start (lots.get j)⟩

/-- The loops at the end of `main`. Every car has a generator of its own. -/
def mainStep {k : ℕ} (rng : ℕ → Random) (s : State k) : Option (State k) :=
  if s.cars.length < 100 * s.announced then
    (CarFactory.createRandomCar (rng s.cars.length) s.cars.length 26 50).map fun c =>
      { s with cars := s.cars ++ [c] }
  else if h : s.announced < k then
    some { s with
      announced := s.announced + 1
      printed := s.printed ++ heading (s.runs ⟨s.announced, h⟩).lot }
  else none

def step {k : ℕ} (rng : ℕ → Random) (s : State k) : Label k → Option (State k)
  | .main => mainStep rng s
  | .car j i =>
    s.cars[100 * (j : ℕ) + i]?.bind fun c =>
      ((s.runs j).advance (fun _ => c.car) i).map fun t =>
        { s with runs := Function.update s.runs j t }

theorem pick_of_range {n : Int32} (h0 : 0 ≤ n) (h : n < 3) : ∃ i, pick n = some i := by
  obtain ⟨k, hk, rfl⟩ := CarFactory.exists_small h0 (Int32.lt_iff_toInt_lt.mp h)
  have hall : ∀ k < 3, (pick (.ofNat k)).isSome = true := by decide
  exact Option.isSome_iff_exists.mp (hall k hk)

theorem pickLots_spec (n : ℕ) (r : Random) :
    ∃ lots, pickLots n r = some lots ∧ lots.length = n ∧
      ∀ l ∈ lots, l.capacity = 100 ∧ l.cars = [] := by
  induction n generalizing r with
  | zero => exact ⟨[], rfl, rfl, by simp⟩
  | succ n ih =>
    obtain ⟨drawn, r', hdrawn, hrange⟩ :=
      CarFactory.nextInt_of_pos r (show (0 : Int32) < 3 by decide)
    obtain ⟨i, hi⟩ := pick_of_range hrange.1 hrange.2
    obtain ⟨lot, hlot, hcapacity, hcars⟩ :=
      i.new_of_pos (C := Car) (show (1 : Int32) ≤ 100 by decide)
    obtain ⟨lots, hlots, hlength, hall⟩ := ih r'
    refine ⟨lot :: lots, ?_, by rw [List.length_cons, hlength],
      List.forall_mem_cons.mpr ⟨⟨hcapacity, hcars⟩, hall⟩⟩
    simp only [pickLots, hdrawn, hi, hlot, hlots, Option.bind_eq_bind, Option.bind_some,
      Option.pure_def]

/-- The car whose thread has the number `100 * j + i`. -/
def carOf (rng : ℕ → Random) (j : ℕ) (i : Fin 100) : Car :=
  match CarFactory.createRandomCar (rng (100 * j + i)) (100 * j + i) 26 50 with
  | some c => c.car
  | none => ⟨0, 0, 0⟩

theorem createRandomCar_some (rng : ℕ → Random) (n : ℕ) :
    ∃ c, CarFactory.createRandomCar (rng n) n 26 50 = some c ∧ 0 ≤ c.car.startDelay ∧
      0 ≤ c.car.parkTime := by
  obtain ⟨c, hc, ⟨hstart, -⟩, hpark, -⟩ :=
    (CarFactory.createRandomCar_iff (rng n) n 26 50).2.mpr (by decide)
  have hpos : (0 : Int32) ≤ 26 := by decide
  exact ⟨c, hc, Int32.le_trans hpos hstart, Int32.le_trans hpos hpark⟩

theorem carOf_delays (rng : ℕ → Random) (j : ℕ) (i : Fin 100) :
    0 ≤ (carOf rng j i).startDelay ∧ 0 ≤ (carOf rng j i).parkTime := by
  obtain ⟨c, hc, hdelays⟩ := createRandomCar_some rng (100 * j + i)
  rw [carOf, hc]
  exact hdelays

end Demo

namespace Simulation

variable {ι : Type*}

def rank : Phase → ℕ
  | .starting => 5
  | .checking => 4
  | .parking => 3
  | .parked => 2
  | .leaving => 1
  | .ended _ => 0

def OnlyLeaves (s : Simulation ι) : Prop := ∀ i e, s.phase i = .ended e → e = .left

variable [DecidableEq ι]

theorem advance_congr {car car' : ι → Car} {s : Simulation ι} {i : ι} (h : car i = car' i) :
    advance car s i = advance car' s i := by
  simp only [advance, h]

/-- Where there is a place for every car, a run goes from one call to the next until its
car has left. -/
theorem advance_of_room [Fintype ι] {car : ι → Car} {lot : ParkingLot Car} {s t : Simulation ι}
    {i : ι} (hcars : lot.cars = []) (hroom : Fintype.card ι ≤ lot.capacity)
    (hdelays : 0 ≤ (car i).startDelay ∧ 0 ≤ (car i).parkTime) (h : Tracks car lot s)
    (hs : OnlyLeaves s) (ht : advance car s i = some t) :
    OnlyLeaves t ∧ ∃ p, t.phase = Function.update s.phase i p ∧ rank p + 1 = rank (s.phase i) := by
  have hplace : s.inside i = false → 0 < s.lot.remainingCapacity := fun hi => by
    have hnot : i ∉ s.insideRuns := by simp [insideRuns, hi]
    have hcard : s.insideRuns.card < Fintype.card ι := Finset.card_lt_univ_of_notMem hnot
    have hlength := h.length_eq
    rw [hcars, List.length_nil, Nat.zero_add] at hlength
    rw [ParkingLot.remainingCapacity_pos_iff, hlength, h.capacity_eq]
    omega
  have hcoherent := h.coherent i
  have hupdate : ∀ {u : Simulation ι} {p : Phase}, u.phase = Function.update s.phase i p →
      (∀ e, p = .ended e → e = .left) → OnlyLeaves u := by
    intro u p hu hp j e he
    rw [hu] at he
    rcases eq_or_ne j i with rfl | hj
    · rw [Function.update_self] at he
      exact hp e he
    · rw [Function.update_of_ne hj] at he
      exact hs j e he
  cases advances_of_advance ht with
  | started hp => exact ⟨hupdate rfl (by simp), _, rfl, by rw [hp]; rfl⟩
  | badStart hp hd => exact absurd hdelays.1 hd
  | found hp => exact ⟨hupdate rfl (by simp), _, rfl, by rw [hp]; rfl⟩
  | noSpace hp hr =>
    rw [hp] at hcoherent
    exact absurd (hplace hcoherent) hr
  | park hp => exact ⟨hupdate rfl (by simp), _, rfl, by rw [hp]; rfl⟩
  | refused hp hl =>
    rw [hp] at hcoherent
    have hlt := (s.lot.remainingCapacity_pos_iff).mp (hplace hcoherent)
    obtain ⟨l, hok, -, -⟩ := ParkingLot.park_of_lt hlt (car i)
    rw [hok] at hl
    cases hl
  | waited hp => exact ⟨hupdate rfl (by simp), _, rfl, by rw [hp]; rfl⟩
  | badWait hp hd => exact absurd hdelays.2 hd
  | unpark hp => exact ⟨hupdate rfl (by simp), _, rfl, by rw [hp]; rfl⟩
  | missing hp hl => exact absurd hl (h.unpark_ne_error hp _)

end Simulation

namespace Demo

theorem step_cases {k : ℕ} {rng : ℕ → Random} {s t : State k} {l : Label k}
    (h : step rng s l = some t) :
    (∃ c, s.cars.length < 100 * s.announced ∧
      CarFactory.createRandomCar (rng s.cars.length) s.cars.length 26 50 = some c ∧
      t = { s with cars := s.cars ++ [c] }) ∨
    (∃ hk : s.announced < k, 100 * s.announced ≤ s.cars.length ∧
      t = { s with
        announced := s.announced + 1
        printed := s.printed ++ heading (s.runs ⟨s.announced, hk⟩).lot }) ∨
    ∃ (j : Fin k) (i : Fin 100) (c : RandomCar) (u : Simulation (Fin 100)),
      s.cars[100 * (j : ℕ) + (i : ℕ)]? = some c ∧
      (s.runs j).advance (fun _ => c.car) i = some u ∧
      t = { s with runs := Function.update s.runs j u } := by
  cases l with
  | main =>
    simp only [step, mainStep] at h
    split at h
    · next hlt =>
      obtain ⟨c, hc, rfl⟩ := Option.map_eq_some_iff.mp h
      exact Or.inl ⟨c, hlt, hc, rfl⟩
    · next hge =>
      split at h
      · next hk =>
        cases h
        exact Or.inr (Or.inl ⟨hk, Nat.not_lt.mp hge, rfl⟩)
      · cases h
  | car j i =>
    obtain ⟨c, hc, hmap⟩ := Option.bind_eq_some_iff.mp h
    obtain ⟨u, hu, rfl⟩ := Option.map_eq_some_iff.mp hmap
    exact Or.inr (Or.inr ⟨j, i, c, u, hc, hu, rfl⟩)

/-- The runs of a lot are as they were set up until `main` starts a thread for it. -/
structure Sound (rng : ℕ → Random) (lots : List (ParkingLot Car)) (s : State lots.length) :
    Prop where
  announced_le : s.announced ≤ lots.length
  cars_le : s.cars.length ≤ 100 * s.announced
  cars_ge : 100 * s.announced ≤ s.cars.length + 100
  created : ∀ n c, s.cars[n]? = some c → CarFactory.createRandomCar (rng n) n 26 50 = some c
  waiting : ∀ j : Fin lots.length, s.cars.length ≤ 100 * (j : ℕ) → s.runs j = .start (lots.get j)
  tracks : ∀ j, (s.runs j).Tracks (carOf rng j) (lots.get j)
  leaves : ∀ j, (s.runs j).OnlyLeaves
  printed : s.printed = opening lots ++ (lots.take s.announced).flatMap heading

def measure {k : ℕ} (s : State k) : ℕ :=
  k - s.announced + (100 * k - s.cars.length) + ∑ j, ∑ i, Simulation.rank ((s.runs j).phase i)

variable {rng : ℕ → Random} {lots : List (ParkingLot Car)} {s t : State lots.length}

theorem start_sound (hlots : ∀ l ∈ lots, l.capacity = 100 ∧ l.cars = []) :
    Sound rng lots (start lots) where
  announced_le := Nat.zero_le _
  cars_le := Nat.le_refl _
  cars_ge := Nat.zero_le _
  created := fun n c hc => by simp [start] at hc
  waiting := fun _ _ => rfl
  tracks := fun j => Simulation.start_tracks (by
    obtain ⟨hcapacity, hcars⟩ := hlots _ (List.get_mem lots j)
    rw [ParkingLot.Fits, hcapacity, hcars]
    exact Nat.zero_le _)
  leaves := fun _ _ _ he => nomatch he
  printed := (List.append_nil _).symm

theorem measure_start : measure (start lots) = 601 * lots.length := by
  simp only [measure, start, Simulation.start, Simulation.rank, Finset.sum_const,
    Finset.card_univ, Fintype.card_fin, List.length_nil, Nat.nsmul_eq_mul]
  omega

theorem Sound.create (h : Sound rng lots s) {c : RandomCar}
    (hlt : s.cars.length < 100 * s.announced)
    (hc : CarFactory.createRandomCar (rng s.cars.length) s.cars.length 26 50 = some c) :
    Sound rng lots { s with cars := s.cars ++ [c] } := by
  refine { h with cars_le := ?_, cars_ge := ?_, created := ?_, waiting := ?_ }
  · rw [List.length_append, List.length_singleton]
    exact hlt
  · have hge := h.cars_ge
    rw [List.length_append]
    exact Nat.le_trans hge (by omega)
  · intro n d hd
    rcases Nat.lt_or_ge n s.cars.length with hn | hn
    · rw [List.getElem?_append_left hn] at hd
      exact h.created n d hd
    · rw [List.getElem?_append_right hn, List.getElem?_singleton] at hd
      split at hd
      · next hzero =>
        cases hd
        obtain rfl : n = s.cars.length := by omega
        exact hc
      · cases hd
  · intro j hj
    rw [List.length_append] at hj
    exact h.waiting j (Nat.le_trans (Nat.le_add_right _ _) hj)

theorem Sound.announce (h : Sound rng lots s) (hk : s.announced < lots.length)
    (hge : 100 * s.announced ≤ s.cars.length) :
    Sound rng lots { s with
      announced := s.announced + 1
      printed := s.printed ++ heading (s.runs ⟨s.announced, hk⟩).lot } := by
  have hwaiting := h.waiting ⟨s.announced, hk⟩ h.cars_le
  refine { h with announced_le := hk, cars_le := ?_, cars_ge := ?_, printed := ?_ }
  · exact Nat.le_trans h.cars_le (Nat.mul_le_mul_left 100 (Nat.le_succ _))
  · exact Nat.le_trans (Nat.le_of_eq (Nat.mul_succ _ _)) (Nat.add_le_add_right hge 100)
  · change s.printed ++ _ = _
    rw [hwaiting, h.printed, List.take_succ_eq_append_getElem hk, List.flatMap_append,
      List.flatMap_singleton, List.append_assoc]
    rfl

theorem Sound.advance (hlots : ∀ l ∈ lots, l.capacity = 100 ∧ l.cars = [])
    (h : Sound rng lots s) {j : Fin lots.length} {i : Fin 100} {c : RandomCar}
    {u : Simulation (Fin 100)} (hc : s.cars[100 * (j : ℕ) + (i : ℕ)]? = some c)
    (hu : (s.runs j).advance (fun _ => c.car) i = some u) :
    Sound rng lots { s with runs := Function.update s.runs j u } ∧
      measure { s with runs := Function.update s.runs j u } + 1 = measure s := by
  obtain ⟨hcapacity, hcars⟩ := hlots _ (List.get_mem lots j)
  have hcar : carOf rng j i = c.car := by rw [carOf, h.created _ c hc]
  have hu' : (s.runs j).advance (carOf rng j) i = some u :=
    (Simulation.advance_congr hcar).trans hu
  have hlength : 100 * (j : ℕ) + i < s.cars.length := (List.getElem?_eq_some_iff.mp hc).1
  obtain ⟨hleaves, p, hphase, hrank⟩ := Simulation.advance_of_room hcars
    (by rw [hcapacity, Fintype.card_fin]) (carOf_delays rng j i) (h.tracks j) (h.leaves j) hu'
  refine ⟨{ h with waiting := fun k hk => ?_, tracks := fun k => ?_, leaves := fun k => ?_ }, ?_⟩
  · have hne : k ≠ j := by
      rintro rfl
      have hle : s.cars.length ≤ 100 * (k : ℕ) := hk
      omega
    change Function.update s.runs j u k = _
    rw [Function.update_of_ne hne]
    exact h.waiting k hk
  · change (Function.update s.runs j u k).Tracks _ _
    rcases eq_or_ne k j with rfl | hne
    · rw [Function.update_self]
      exact Simulation.advance_tracks (h.tracks k) hu'
    · rw [Function.update_of_ne hne]
      exact h.tracks k
  · change (Function.update s.runs j u k).OnlyLeaves
    rcases eq_or_ne k j with rfl | hne
    · rwa [Function.update_self]
    · rw [Function.update_of_ne hne]
      exact h.leaves k
  · have hlot := Schedule.sum_comp_update_add
      (fun r : Simulation (Fin 100) => ∑ i, Simulation.rank (r.phase i)) s.runs j u
    have hrun := Schedule.sum_comp_update_add Simulation.rank (s.runs j).phase i p
    rw [← hphase] at hrun
    simp only [measure]
    omega

theorem step_sound (hlots : ∀ l ∈ lots, l.capacity = 100 ∧ l.cars = []) {l : Label lots.length}
    (h : Sound rng lots s) (ht : step rng s l = some t) :
    Sound rng lots t ∧ measure t + 1 = measure s := by
  obtain ⟨c, hlt, hc, rfl⟩ | ⟨hk, hge, rfl⟩ | ⟨j, i, c, u, hc, hu, rfl⟩ := step_cases ht
  · refine ⟨h.create hlt hc, ?_⟩
    have hle := h.announced_le
    simp only [measure, List.length_append, List.length_singleton]
    omega
  · refine ⟨h.announce hk hge, ?_⟩
    simp only [measure]
    omega
  · exact h.advance hlots hc hu

theorem halted_iff (hlots : ∀ l ∈ lots, l.capacity = 100 ∧ l.cars = []) (h : Sound rng lots s) :
    Halted (step rng) s ↔ measure s = 0 := by
  constructor
  · intro hhalted
    have hcars : ¬ s.cars.length < 100 * s.announced := fun hlt => by
      obtain ⟨c, hc, -⟩ := createRandomCar_some rng s.cars.length
      have hmain := hhalted .main
      rw [step, mainStep, if_pos hlt, hc] at hmain
      cases hmain
    have hannounced : ¬ s.announced < lots.length := fun hk => by
      have hmain := hhalted .main
      rw [step, mainStep, if_neg hcars, dif_pos hk] at hmain
      cases hmain
    have hended : ∀ j i, Simulation.rank ((s.runs j).phase i) = 0 := fun j i => by
      have hlt : 100 * (j : ℕ) + i < s.cars.length := by omega
      have hcar := hhalted (.car j i)
      rw [step, List.getElem?_eq_getElem hlt, Option.bind_some, Option.map_eq_none_iff,
        Simulation.advance_eq_none_iff] at hcar
      obtain ⟨e, he⟩ := hcar
      rw [he]
      rfl
    simp only [measure, hended, Finset.sum_const_zero]
    omega
  · intro hzero l
    by_contra hsome
    obtain ⟨t, ht⟩ := Option.ne_none_iff_exists'.mp hsome
    have hlower := (step_sound hlots h ht).2
    omega

theorem empty_of_left {car : Fin 100 → Car} {lot : ParkingLot Car} {r : Simulation (Fin 100)}
    (hcars : lot.cars = []) (h : r.Tracks car lot) (hleft : ∀ i, r.phase i = .ended .left) :
    r.lot.cars = [] := by
  have hnone : r.insideRuns = ∅ := by
    refine Finset.filter_eq_empty_iff.mpr fun i _ => ?_
    have hcoherent := h.coherent i
    rw [hleft i] at hcoherent
    exact ne_true_of_eq_false hcoherent
  have hlength := h.length_eq
  rw [hcars, hnone] at hlength
  exact List.length_eq_zero_iff.mp hlength

theorem left_of_measure (h : Sound rng lots s) (hzero : measure s = 0) (j : Fin lots.length)
    (i : Fin 100) : (s.runs j).phase i = .ended .left := by
  have hsum : ∑ j, ∑ i, Simulation.rank ((s.runs j).phase i) = 0 :=
    (Nat.add_eq_zero_iff.mp hzero).2
  have hrank := Finset.sum_eq_zero_iff.mp (Finset.sum_eq_zero_iff.mp hsum j (Finset.mem_univ j)) i
    (Finset.mem_univ i)
  cases hphase : (s.runs j).phase i with
  | ended e => rw [h.leaves j i e hphase]
  | starting | checking | parking | parked | leaving =>
    rw [hphase] at hrank
    exact nomatch hrank

theorem le_of_numParkingLots {args : List (List Char)} {n : Int32}
    (h : numParkingLots args = .ok n) : 1 ≤ n := by
  rcases args with _ | ⟨arg, _ | ⟨_, _⟩⟩
  · cases h
    decide
  · rw [numParkingLots] at h
    split at h
    · cases h
    · split at h
      · cases h
      · next hlt =>
        cases h
        exact Int32.not_lt.mp hlt
  · cases h
    decide

/-- Whatever the generators draw and in whatever order the threads run, the simulation comes
to an end after the same number of steps. Every car has then left, no thread has thrown
or found no space on the way, and the lots, shown with all their places, are empty. -/
theorem main_ends {args : List (List Char)} {n : Int32} (h : numParkingLots args = .ok n)
    (r : Random) (rng : ℕ → Random) :
    ∃ lots : List (ParkingLot Car), pickLots n.toInt.toNat r = some lots ∧
      lots.length = n.toInt ∧ 1 ≤ lots.length ∧ (∀ l ∈ lots, l.remainingCapacity = 100) ∧
      ∀ ls s, run (step rng) (start lots) ls = some s →
        (∃ ms t, run (step rng) s ms = some t ∧ Halted (step rng) t) ∧
        ls.length ≤ 601 * lots.length ∧
        (Halted (step rng) s ↔ ls.length = 601 * lots.length) ∧
        (∀ j i e, (s.runs j).phase i = .ended e → e = .left) ∧
        s.printed <+: opening lots ++ lots.flatMap heading ∧
        (Halted (step rng) s → s.printed = opening lots ++ lots.flatMap heading ∧
          ∀ j, (∀ i, (s.runs j).phase i = .ended .left) ∧ (s.runs j).lot.cars = []) := by
  have hn := Int32.le_iff_toInt_le.mp (le_of_numParkingLots h)
  rw [Int32.toInt_one] at hn
  obtain ⟨lots, hpick, hlength, hlots⟩ := pickLots_spec n.toInt.toNat r
  refine ⟨lots, hpick, by omega, by omega, fun l hl => ?_, fun ls s hs => ?_⟩
  · rw [ParkingLot.remainingCapacity_eq, (hlots l hl).1, (hlots l hl).2]
    rfl
  have hstep : ∀ (s : State lots.length) a t, Sound rng lots s → step rng s a = some t →
      Sound rng lots t ∧ measure t + 1 = measure s := fun _ _ _ h ht => step_sound hlots h ht
  have hsound := run_invariant (fun s a t h ht => (hstep s a t h ht).1) (start_sound hlots) hs
  have htotal := run_length_add_measure (fun s a t h ht => (hstep s a t h ht).1)
    (fun s a t h ht => (hstep s a t h ht).2) (start_sound hlots : Sound rng lots (start lots)) hs
  rw [measure_start] at htotal
  have hhalted := halted_iff hlots hsound
  refine ⟨exists_completion (fun s a t h ht => (hstep s a t h ht).1)
    (fun s a t h ht => Nat.lt_of_succ_le (Nat.le_of_eq (hstep s a t h ht).2)) hsound,
    by omega, hhalted.trans (by omega), hsound.leaves, ?_, fun hend => ⟨?_, fun j => ?_⟩⟩
  · rw [hsound.printed, List.prefix_append_right_inj]
    exact ((List.take_prefix _ lots).flatMap heading)
  · have hall := hsound.announced_le
    have hzero := hhalted.mp hend
    rw [hsound.printed, List.take_of_length_le (by simp only [measure] at hzero; omega)]
  · have hleft := left_of_measure hsound (hhalted.mp hend) j
    exact ⟨hleft, empty_of_left (hlots _ (List.get_mem lots j)).2 (hsound.tracks j) hleft⟩

/-- A generator that draws the smallest number each time. -/
def zeros : Random where
  draw := fun _ bound => if 0 < bound then some 0 else none
  drawn := 0
  inRange := fun _ _ h => ⟨0, if_pos h, Int32.le_refl 0, h⟩
  throws := fun _ _ h => if_neg h

theorem main_ends_two : numParkingLots ["2".toList] = .ok 2 ∧
    ∃ lots : List (ParkingLot Car), pickLots 2 zeros = some lots ∧
      ∃ ls t, run (step fun _ => zeros) (start lots) ls = some t ∧ ls.length = 1202 ∧
        ∀ j i, (t.runs j).phase i = .ended .left := by
  have hargs : numParkingLots ["2".toList] = .ok 2 := by decide
  obtain ⟨lots, hpick, hlength, -, -, hruns⟩ := main_ends hargs zeros fun _ => zeros
  obtain ⟨ls, t, ht, hend⟩ := (hruns [] (start lots) rfl).1
  obtain ⟨-, -, htotal, -, -, hleft⟩ := hruns ls t ht
  have htwo : lots.length = 2 := Int.ofNat_inj.mp hlength
  refine ⟨hargs, lots, hpick, ls, t, ht, ?_, fun j => ((hleft hend).2 j).1⟩
  rw [htotal.mp hend, htwo]

end Demo

end Vsys.ParkingSim
