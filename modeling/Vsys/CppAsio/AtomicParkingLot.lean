import Mathlib.Data.Set.Subsingleton
import Vsys.CountingLot
import Vsys.Schedule.Run

/-! The C++ lot, whose calls are not atomic although their operations are: the
comparison loads the count in one step and the update changes it in another. -/

namespace Vsys.CppAsio

open Schedule

inductive Site where
  | idle
  | incrementing
  | decrementing
  deriving DecidableEq, Repr

inductive AtomicOp where
  | parkLoad
  | increment
  | unparkLoad
  | decrement
  | remaining
  deriving DecidableEq, Repr

inductive Returned where
  | park (ok : Bool)
  | unpark (ok : Bool)
  | remaining (n : Int32)
  deriving DecidableEq, Repr

structure AtomicParkingLot (ι : Type*) where
  lot : CountingLot
  site : ι → Site
  returned : List (ι × Returned)

namespace AtomicParkingLot

variable {ι : Type*}

def start (capacity : Int32) : AtomicParkingLot ι := ⟨.new capacity, fun _ => .idle, []⟩

def withCount (s : AtomicParkingLot ι) (n : Int32) : AtomicParkingLot ι :=
  { s with lot := { s.lot with count := n } }

section
variable [DecidableEq ι]

def goto (s : AtomicParkingLot ι) (i : ι) (p : Site) : AtomicParkingLot ι :=
  { s with site := Function.update s.site i p }

def return_ (s : AtomicParkingLot ι) (i : ι) (r : Returned) : AtomicParkingLot ι :=
  { s with site := Function.update s.site i .idle, returned := s.returned ++ [(i, r)] }

def step (s : AtomicParkingLot ι) : ι × AtomicOp → Option (AtomicParkingLot ι)
  | (i, .parkLoad) =>
    match s.site i with
    | .idle =>
      if s.lot.count < s.lot.capacity then some (s.goto i .incrementing)
      else some (s.return_ i (.park false))
    | _ => none
  | (i, .increment) =>
    match s.site i with
    | .incrementing => some ((s.withCount (s.lot.count + 1)).return_ i (.park true))
    | _ => none
  | (i, .unparkLoad) =>
    match s.site i with
    | .idle =>
      if 0 < s.lot.count then some (s.goto i .decrementing)
      else some (s.return_ i (.unpark false))
    | _ => none
  | (i, .decrement) =>
    match s.site i with
    | .decrementing => some ((s.withCount (s.lot.count - 1)).return_ i (.unpark true))
    | _ => none
  | (i, .remaining) =>
    match s.site i with
    | .idle => some (s.return_ i (.remaining (s.lot.capacity - s.lot.count)))
    | _ => none

end

def Safe (capacity : Int32) (s : AtomicParkingLot ι) : Prop :=
  (0 ≤ s.lot.count ∧ s.lot.count ≤ capacity) ∧
    ∀ i n, (i, .remaining n) ∈ s.returned → 0 ≤ n ∧ n ≤ capacity

/-- The comparison that let a caller through still holds when it updates. -/
def CheckHolds (s : AtomicParkingLot ι) (m : ι × AtomicOp) : Prop :=
  match m.2 with
  | .increment => s.lot.count < s.lot.capacity
  | .decrement => 0 < s.lot.count
  | _ => True

def Exclusive (s : AtomicParkingLot ι) (m : ι × AtomicOp) : Prop :=
  m.2 = .parkLoad ∨ m.2 = .unparkLoad → ∀ i, s.site i = .idle

/-- No call begins while another of its own kind is between its two operations. -/
def Apart (s : AtomicParkingLot ι) (m : ι × AtomicOp) : Prop :=
  match m.2 with
  | .parkLoad => ∀ i, s.site i ≠ .incrementing
  | .unparkLoad => ∀ i, s.site i ≠ .decrementing
  | _ => True

/-- The operations of callers of which only the given ones call `park` and `unpark`. -/
def Called (parkers unparkers : Set ι) (m : ι × AtomicOp) : Prop :=
  match m.2 with
  | .parkLoad => m.1 ∈ parkers
  | .unparkLoad => m.1 ∈ unparkers
  | _ => True

structure Solo (s : AtomicParkingLot ι) : Prop where
  parker : ∀ i j, s.site i = .incrementing → s.site j = .incrementing → i = j
  unparker : ∀ i j, s.site i = .decrementing → s.site j = .decrementing → i = j
  incrementing : ∀ i, s.site i = .incrementing → s.lot.count < s.lot.capacity
  decrementing : ∀ i, s.site i = .decrementing → 0 < s.lot.count

theorem solo_of_idle {s : AtomicParkingLot ι} (h : ∀ i, s.site i = .idle) : Solo s := by
  constructor <;> simp [h]

theorem Exclusive.apart {s : AtomicParkingLot ι} {m : ι × AtomicOp} (h : Exclusive s m) :
    Apart s m := by
  obtain ⟨i, op⟩ := m
  cases op with
  | parkLoad => exact fun j => by simp [h (Or.inl rfl) j]
  | unparkLoad => exact fun j => by simp [h (Or.inr rfl) j]
  | _ => trivial

theorem start_safe {capacity : Int32} (h : 0 ≤ capacity) :
    Safe capacity (start capacity : AtomicParkingLot ι) :=
  ⟨CountingLot.new_inBounds h, by simp [start]⟩

theorem safe_withCount {capacity n : Int32} {s : AtomicParkingLot ι} (h : Safe capacity s) :
    Safe capacity (s.withCount n) ↔ 0 ≤ n ∧ n ≤ capacity :=
  ⟨fun ht => ht.1, fun ht => ⟨ht, h.2⟩⟩

theorem increment_inBounds_iff {l : CountingLot} (h : l.InBounds) :
    (0 ≤ l.count + 1 ∧ l.count + 1 ≤ l.capacity) ↔ l.count < l.capacity := by
  constructor
  · rintro ⟨hpos, hle⟩
    have hb := CountingLot.inBounds_iff.mp h
    have hc := l.capacity.toInt_lt
    simp only [CountingLot.occupancy] at hb
    rw [Word32.nonneg_iff] at hpos
    rw [Int32.le_iff_toInt_le] at hle
    rw [Int32.lt_iff_toInt_lt]
    by_cases hover : 2 ^ 31 ≤ l.count.toInt + (1 : Int32).toInt
    · rw [Word32.toInt_add_of_overflow hover, Int32.toInt_one] at hpos
      omega
    · rw [Word32.toInt_add_of_fits (by rw [Int32.toInt_one]; omega) (by omega),
        Int32.toInt_one] at hle
      omega
  · intro hlt
    have hin := h.enter
    rw [CountingLot.enter, if_pos hlt] at hin
    exact hin

theorem decrement_inBounds_iff {l : CountingLot} (h : l.InBounds) :
    (0 ≤ l.count - 1 ∧ l.count - 1 ≤ l.capacity) ↔ 0 < l.count := by
  constructor
  · rintro ⟨hpos, -⟩
    have hb := CountingLot.inBounds_iff.mp h
    have hc := l.count.toInt_lt
    simp only [CountingLot.occupancy] at hb
    rw [Word32.nonneg_iff, Word32.toInt_sub_of_fits (by rw [Int32.toInt_one]; omega)
      (by rw [Int32.toInt_one]; omega), Int32.toInt_one] at hpos
    rw [Word32.pos_iff]
    omega
  · intro hlt
    have hin := h.leave
    rw [CountingLot.leave, if_pos hlt] at hin
    exact hin

variable [DecidableEq ι]

inductive Moves (s : AtomicParkingLot ι) (i : ι) : AtomicOp → AtomicParkingLot ι → Prop
  | enter (hi : s.site i = .idle) (hlt : s.lot.count < s.lot.capacity) :
    Moves s i .parkLoad (s.goto i .incrementing)
  | full (hi : s.site i = .idle) : Moves s i .parkLoad (s.return_ i (.park false))
  | increment (hi : s.site i = .incrementing) :
    Moves s i .increment ((s.withCount (s.lot.count + 1)).return_ i (.park true))
  | leave (hi : s.site i = .idle) (hpos : 0 < s.lot.count) :
    Moves s i .unparkLoad (s.goto i .decrementing)
  | empty (hi : s.site i = .idle) : Moves s i .unparkLoad (s.return_ i (.unpark false))
  | decrement (hi : s.site i = .decrementing) :
    Moves s i .decrement ((s.withCount (s.lot.count - 1)).return_ i (.unpark true))
  | remaining (hi : s.site i = .idle) :
    Moves s i .remaining (s.return_ i (.remaining s.lot.vacant))

theorem moves_of_step {s t : AtomicParkingLot ι} {i : ι} {op : AtomicOp}
    (h : step s (i, op) = some t) : Moves s i op t := by
  cases op with
  | parkLoad =>
    simp only [step] at h
    split at h
    · next hi =>
      split at h
      · next hlt => cases h; exact .enter hi hlt
      · cases h; exact .full hi
    · cases h
  | increment =>
    simp only [step] at h
    split at h
    · next hi => cases h; exact .increment hi
    · cases h
  | unparkLoad =>
    simp only [step] at h
    split at h
    · next hi =>
      split at h
      · next hpos => cases h; exact .leave hi hpos
      · cases h; exact .empty hi
    · cases h
  | decrement =>
    simp only [step] at h
    split at h
    · next hi => cases h; exact .decrement hi
    · cases h
  | remaining =>
    simp only [step] at h
    split at h
    · next hi => cases h; exact .remaining hi
    · cases h

/-- A call of `park` whose operations nothing comes between is one `enter`. -/
theorem run_park_alone {s : AtomicParkingLot ι} {i : ι} (hi : s.site i = .idle) :
    ∃ ops t, (∀ m ∈ ops, m = (i, .parkLoad) ∨ m = (i, .increment)) ∧ run step s ops = some t ∧ t.lot = s.lot.enter.2 ∧
      t.returned = s.returned ++ [(i, .park s.lot.enter.1)] ∧ t.site = s.site := by
  by_cases hlt : s.lot.count < s.lot.capacity
  · have hload : step s (i, .parkLoad) = some (s.goto i .incrementing) := by
      simp only [step, hi, hlt, if_true]
    have hat : (s.goto i .incrementing).site i = .incrementing := Function.update_self _ _ _
    refine ⟨[(i, .parkLoad), (i, .increment)],
      ((s.goto i .incrementing).withCount (s.lot.count + 1)).return_ i (.park true), by simp,
      run_cons_eq_some.mpr ⟨_, hload, ?_⟩, ?_, ?_, ?_⟩
    · simp only [run, step, hat, Option.bind_some]
      rfl
    · simp only [CountingLot.enter, hlt, if_true]
      rfl
    · simp only [CountingLot.enter, hlt, if_true]
      rfl
    · simp [return_, withCount, goto, ← hi]
  · refine ⟨[(i, .parkLoad)], s.return_ i (.park false), by simp, ?_, ?_, ?_, ?_⟩
    · simp only [run, step, hi, hlt, if_false, Option.bind_some]
    · simp only [CountingLot.enter, hlt, if_false]
      rfl
    · simp only [CountingLot.enter, hlt, if_false]
      rfl
    · simp [return_, ← hi]

theorem run_unpark_alone {s : AtomicParkingLot ι} {i : ι} (hi : s.site i = .idle) :
    ∃ ops t, (∀ m ∈ ops, m.1 = i) ∧ run step s ops = some t ∧ t.lot = s.lot.leave.2 ∧
      t.returned = s.returned ++ [(i, .unpark s.lot.leave.1)] ∧ t.site = s.site := by
  by_cases hpos : 0 < s.lot.count
  · have hload : step s (i, .unparkLoad) = some (s.goto i .decrementing) := by
      simp only [step, hi, hpos, if_true]
    have hat : (s.goto i .decrementing).site i = .decrementing := Function.update_self _ _ _
    refine ⟨[(i, .unparkLoad), (i, .decrement)],
      ((s.goto i .decrementing).withCount (s.lot.count - 1)).return_ i (.unpark true), by simp,
      run_cons_eq_some.mpr ⟨_, hload, ?_⟩, ?_, ?_, ?_⟩
    · simp only [run, step, hat, Option.bind_some]
      rfl
    · simp only [CountingLot.leave, hpos, if_true]
      rfl
    · simp only [CountingLot.leave, hpos, if_true]
      rfl
    · simp [return_, withCount, goto, ← hi]
  · refine ⟨[(i, .unparkLoad)], s.return_ i (.unpark false), by simp, ?_, ?_, ?_, ?_⟩
    · simp only [run, step, hi, hpos, if_false, Option.bind_some]
    · simp only [CountingLot.leave, hpos, if_false]
      rfl
    · simp only [CountingLot.leave, hpos, if_false]
      rfl
    · simp [return_, ← hi]

theorem Moves.capacity_eq {s t : AtomicParkingLot ι} {i : ι} {op : AtomicOp}
    (h : Moves s i op t) : t.lot.capacity = s.lot.capacity := by
  cases h <;> rfl

theorem safe_return {capacity : Int32} {s : AtomicParkingLot ι} {i : ι} {r : Returned}
    (hr : ∀ n, r = .remaining n → 0 ≤ n ∧ n ≤ capacity) :
    Safe capacity (s.return_ i r) ↔ Safe capacity s := by
  refine ⟨fun h => ⟨h.1, fun j n hm => h.2 j n (List.mem_append_left _ hm)⟩,
    fun h => ⟨h.1, fun j n hm => ?_⟩⟩
  rcases List.mem_append.mp hm with hm | hm
  · exact h.2 j n hm
  · rw [List.mem_singleton, Prod.mk.injEq] at hm
    exact hr n hm.2.symm

theorem step_safe_iff {capacity : Int32} {s t : AtomicParkingLot ι} {m : ι × AtomicOp}
    (hc : s.lot.capacity = capacity) (hs : Safe capacity s) (h : step s m = some t) :
    Safe capacity t ↔ CheckHolds s m := by
  subst hc
  have hin : s.lot.InBounds := hs.1
  obtain ⟨i, op⟩ := m
  cases moves_of_step h with
  | enter => exact iff_of_true hs trivial
  | full => exact iff_of_true ((safe_return (by simp)).mpr hs) trivial
  | increment =>
    rw [safe_return (by simp), safe_withCount hs]
    exact increment_inBounds_iff hin
  | leave => exact iff_of_true hs trivial
  | empty => exact iff_of_true ((safe_return (by simp)).mpr hs) trivial
  | decrement =>
    rw [safe_return (by simp), safe_withCount hs]
    exact decrement_inBounds_iff hin
  | remaining =>
    refine iff_of_true ((safe_return fun n hn => ?_).mpr hs) trivial
    cases hn
    exact hin.vacant_bounds

theorem Moves.checkHolds {s t : AtomicParkingLot ι} {i : ι} {op : AtomicOp} (hs : Solo s)
    (h : Moves s i op t) : CheckHolds s (i, op) := by
  cases h with
  | increment hi => exact hs.incrementing i hi
  | decrement hi => exact hs.decrementing i hi
  | _ => trivial

theorem Solo.return_ {s : AtomicParkingLot ι} (hs : Solo s) (i : ι) (r : Returned) :
    Solo (s.return_ i r) := by
  have hsite : ∀ j, (s.return_ i r).site j ≠ .idle → (s.return_ i r).site j = s.site j := by
    intro j hj
    by_cases hij : j = i
    · subst hij
      exact absurd (Function.update_self _ _ _) hj
    · exact Function.update_of_ne hij _ _
  have hkeep : ∀ j p, p ≠ .idle → (s.return_ i r).site j = p → s.site j = p :=
    fun j p hp hj => (hsite j (hj ▸ hp)).symm.trans hj
  exact ⟨fun j k hj hk => hs.parker j k (hkeep j _ (by simp) hj) (hkeep k _ (by simp) hk),
    fun j k hj hk => hs.unparker j k (hkeep j _ (by simp) hj) (hkeep k _ (by simp) hk),
    fun j hj => hs.incrementing j (hkeep j _ (by simp) hj),
    fun j hj => hs.decrementing j (hkeep j _ (by simp) hj)⟩

theorem site_return_of_ne {s : AtomicParkingLot ι} {i j : ι} {n : Int32} {r : Returned} {p : Site}
    (hp : p ≠ .idle) (h : ((s.withCount n).return_ i r).site j = p) : j ≠ i ∧ s.site j = p := by
  have hij : j ≠ i := by
    rintro rfl
    exact hp (h.symm.trans (Function.update_self _ _ _))
  exact ⟨hij, (Function.update_of_ne hij _ _).symm.trans h⟩

theorem site_goto {s : AtomicParkingLot ι} {i j : ι} {p q : Site} (h : (s.goto i p).site j = q) :
    j = i ∧ p = q ∨ j ≠ i ∧ s.site j = q := by
  by_cases hij : j = i
  · subst hij
    exact Or.inl ⟨rfl, (Function.update_self _ _ _).symm.trans h⟩
  · exact Or.inr ⟨hij, (Function.update_of_ne hij _ _).symm.trans h⟩

theorem Solo.goto_incrementing {s : AtomicParkingLot ι} (hs : Solo s) {i : ι}
    (hlt : s.lot.count < s.lot.capacity) (hx : ∀ j, s.site j ≠ .incrementing) :
    Solo (s.goto i .incrementing) := by
  have honly : ∀ j, (s.goto i .incrementing).site j = .incrementing → j = i := by
    intro j hj
    rcases site_goto hj with ⟨hij, -⟩ | ⟨-, hj⟩
    · exact hij
    · exact absurd hj (hx j)
  have hdec : ∀ j, (s.goto i .incrementing).site j = .decrementing → s.site j = .decrementing := by
    intro j hj
    rcases site_goto hj with ⟨-, hp⟩ | ⟨-, hj⟩
    · cases hp
    · exact hj
  exact ⟨fun j k hj hk => (honly j hj).trans (honly k hk).symm,
    fun j k hj hk => hs.unparker j k (hdec j hj) (hdec k hk), fun _ _ => hlt,
    fun j hj => hs.decrementing j (hdec j hj)⟩

theorem Solo.goto_decrementing {s : AtomicParkingLot ι} (hs : Solo s) {i : ι}
    (hpos : 0 < s.lot.count) (hx : ∀ j, s.site j ≠ .decrementing) :
    Solo (s.goto i .decrementing) := by
  have honly : ∀ j, (s.goto i .decrementing).site j = .decrementing → j = i := by
    intro j hj
    rcases site_goto hj with ⟨hij, -⟩ | ⟨-, hj⟩
    · exact hij
    · exact absurd hj (hx j)
  have hinc : ∀ j, (s.goto i .decrementing).site j = .incrementing → s.site j = .incrementing := by
    intro j hj
    rcases site_goto hj with ⟨-, hp⟩ | ⟨-, hj⟩
    · cases hp
    · exact hj
  exact ⟨fun j k hj hk => hs.parker j k (hinc j hj) (hinc k hk),
    fun j k hj hk => (honly j hj).trans (honly k hk).symm,
    fun j hj => hs.incrementing j (hinc j hj), fun _ _ => hpos⟩

theorem Moves.solo {s t : AtomicParkingLot ι} {i : ι} {op : AtomicOp} (hs : Solo s)
    (hx : Apart s (i, op)) (h : Moves s i op t) : Solo t := by
  cases h with
  | enter hi hlt => exact hs.goto_incrementing hlt hx
  | leave hi hpos => exact hs.goto_decrementing hpos hx
  | increment hi =>
    have hlt := hs.incrementing i hi
    refine ⟨fun j k hj _ => ?_, fun j k hj hk => ?_, fun j hj => ?_, fun j hj => ?_⟩
    · obtain ⟨hne, hj⟩ := site_return_of_ne (by simp) hj
      exact absurd (hs.parker j i hj hi) hne
    · exact hs.unparker j k (site_return_of_ne (by simp) hj).2 (site_return_of_ne (by simp) hk).2
    · obtain ⟨hne, hj⟩ := site_return_of_ne (by simp) hj
      exact absurd (hs.parker j i hj hi) hne
    · have hpos := Word32.pos_iff.mp (hs.decrementing j (site_return_of_ne (by simp) hj).2)
      have hsucc := Word32.toInt_succ_of_lt hlt
      change 0 < s.lot.count + 1
      rw [Word32.pos_iff, hsucc]
      omega
  | decrement hi =>
    have hpos := hs.decrementing i hi
    refine ⟨fun j k hj hk => ?_, fun j k hj _ => ?_, fun j hj => ?_, fun j hj => ?_⟩
    · exact hs.parker j k (site_return_of_ne (by simp) hj).2 (site_return_of_ne (by simp) hk).2
    · obtain ⟨hne, hj⟩ := site_return_of_ne (by simp) hj
      exact absurd (hs.unparker j i hj hi) hne
    · have hlt := hs.incrementing j (site_return_of_ne (by simp) hj).2
      have hpred := Word32.toInt_pred_of_pos hpos
      rw [Int32.lt_iff_toInt_lt] at hlt
      change s.lot.count - 1 < s.lot.capacity
      rw [Int32.lt_iff_toInt_lt, hpred]
      omega
    · obtain ⟨hne, hj⟩ := site_return_of_ne (by simp) hj
      exact absurd (hs.unparker j i hj hi) hne
  | full => exact hs.return_ i _
  | empty => exact hs.return_ i _
  | remaining => exact hs.return_ i _

theorem safe_of_apart {capacity : Int32} (h : 0 ≤ capacity) {ops : List (ι × AtomicOp)}
    (hx : Guarded step Apart (start capacity) ops) :
    Always step (Safe capacity) (start capacity) ops := by
  have hinv := always_of_guarded
    (I := fun s => s.lot.capacity = capacity ∧ Safe capacity s ∧ Solo s)
    (fun s m t hs hm ht => by
      have hmoves := moves_of_step ht
      exact ⟨hmoves.capacity_eq.trans hs.1,
        (step_safe_iff hs.1 hs.2.1 ht).mpr (hmoves.checkHolds hs.2.2), hmoves.solo hs.2.2 hm⟩)
    ⟨rfl, start_safe h, solo_of_idle fun _ => rfl⟩ hx
  exact hinv.mono fun _ hs => hs.2.1

theorem safe_of_exclusive {capacity : Int32} (h : 0 ≤ capacity) {ops : List (ι × AtomicOp)}
    (hx : Guarded step Exclusive (start capacity) ops) :
    Always step (Safe capacity) (start capacity) ops :=
  safe_of_apart h (hx.mono fun _ _ hm => hm.apart)

section
variable {parkers unparkers : Set ι}

/-- Where the given callers can stand. Without a car parked nobody gets to a decrement. -/
structure Confined (parkers unparkers : Set ι) (s : AtomicParkingLot ι) : Prop where
  incrementing : ∀ i, s.site i = .incrementing → i ∈ parkers
  decrementing : ∀ i, s.site i = .decrementing → i ∈ unparkers ∧ parkers.Nonempty
  count : parkers = ∅ → s.lot.count = 0

theorem Confined.return_ {s : AtomicParkingLot ι} (hs : Confined parkers unparkers s) {n : Int32}
    (hn : parkers = ∅ → n = 0) (i : ι) (r : Returned) :
    Confined parkers unparkers ((s.withCount n).return_ i r) :=
  ⟨fun j hj => hs.incrementing j (site_return_of_ne (by simp) hj).2,
    fun j hj => hs.decrementing j (site_return_of_ne (by simp) hj).2, hn⟩

theorem Moves.confined {s t : AtomicParkingLot ι} {i : ι} {op : AtomicOp}
    (hs : Confined parkers unparkers s) (hm : Called parkers unparkers (i, op))
    (h : Moves s i op t) : Confined parkers unparkers t := by
  cases h with
  | enter =>
    refine ⟨fun j hj => ?_, fun j hj => ?_, hs.count⟩
    · rcases site_goto hj with ⟨rfl, -⟩ | ⟨-, hj⟩
      · exact hm
      · exact hs.incrementing j hj
    · rcases site_goto hj with ⟨-, hp⟩ | ⟨-, hj⟩
      · cases hp
      · exact hs.decrementing j hj
  | leave _ hpos =>
    have hparked : parkers.Nonempty := by
      by_contra hempty
      rw [hs.count (Set.not_nonempty_iff_eq_empty.mp hempty)] at hpos
      exact absurd hpos (by decide)
    refine ⟨fun j hj => ?_, fun j hj => ?_, hs.count⟩
    · rcases site_goto hj with ⟨-, hp⟩ | ⟨-, hj⟩
      · cases hp
      · exact hs.incrementing j hj
    · rcases site_goto hj with ⟨rfl, -⟩ | ⟨-, hj⟩
      · exact ⟨hm, hparked⟩
      · exact hs.decrementing j hj
  | increment hi =>
    have hparked : parkers.Nonempty := ⟨i, hs.incrementing i hi⟩
    exact hs.return_ (fun hempty => absurd hempty hparked.ne_empty) i _
  | decrement hi =>
    have hparked : parkers.Nonempty := (hs.decrementing i hi).2
    exact hs.return_ (fun hempty => absurd hempty hparked.ne_empty) i _
  | full => exact hs.return_ (n := s.lot.count) hs.count i _
  | empty => exact hs.return_ (n := s.lot.count) hs.count i _
  | remaining => exact hs.return_ (n := s.lot.count) hs.count i _

theorem apart_of_called {capacity : Int32} {ops : List (ι × AtomicOp)}
    (hpark : parkers.Subsingleton) (hunpark : parkers = ∅ ∨ unparkers.Subsingleton)
    (hops : ∀ m ∈ ops, Called parkers unparkers m) :
    Guarded step Apart (start capacity) ops := by
  refine guarded_of_mem (C := Called parkers unparkers) (I := Confined parkers unparkers)
    (fun s m t hm hs ht => (moves_of_step ht).confined hs hm) (fun s m t hm hs ht => ?_)
    ⟨by simp [start], by simp [start], fun _ => rfl⟩ hops
  obtain ⟨i, op⟩ := m
  have hmoves := moves_of_step ht
  cases op with
  | parkLoad =>
    have hi : s.site i = .idle := by cases hmoves <;> assumption
    intro j hj
    rw [hpark (hs.incrementing j hj) hm, hi] at hj
    cases hj
  | unparkLoad =>
    have hi : s.site i = .idle := by cases hmoves <;> assumption
    intro j hj
    obtain ⟨hmem, hparked⟩ := hs.decrementing j hj
    rw [hunpark.resolve_left hparked.ne_empty hmem hm, hi] at hj
    cases hj
  | _ => trivial

/-- Calls of `park` one after another fill the lot. -/
theorem run_fill (unparkers : Set ι) {capacity : Int32} {i : ι} (hi : i ∈ parkers) {n : ℕ}
    (hn : (n : ℤ) ≤ capacity.toInt) :
    ∃ ops t, (∀ m ∈ ops, Called parkers unparkers m) ∧ run step (start capacity) ops = some t ∧
      t.lot.capacity = capacity ∧ t.lot.occupancy = n ∧ ∀ j, t.site j = .idle := by
  induction n with
  | zero => exact ⟨[], start capacity, by simp, rfl, rfl, rfl, fun _ => rfl⟩
  | succ n ih =>
    obtain ⟨ops, s, hops, hs, hcap, hocc, hidle⟩ := ih (by omega)
    obtain ⟨call, t, hcall, ht, hlot, -, hsite⟩ := run_park_alone (hidle i)
    have hentered : s.lot.enter.1 = true := by
      rw [CountingLot.enter_fst_iff, hcap]
      omega
    refine ⟨ops ++ call, t, fun m hm => ?_, by rw [run_append, hs]; exact ht, ?_, ?_, ?_⟩
    · rcases List.mem_append.mp hm with hm | hm
      · exact hops m hm
      · rcases hcall m hm with rfl | rfl
        · exact hi
        · trivial
    · rw [hlot, CountingLot.enter_capacity, hcap]
    · rw [hlot, CountingLot.enter_of_true hentered]
      omega
    · exact fun j => hsite ▸ hidle j

theorem run_race_park {s : AtomicParkingLot ι} {i j : ι} (hij : i ≠ j)
    (hidle : ∀ k, s.site k = .idle) (hlt : s.lot.count < s.lot.capacity) :
    ∃ t, run step s [(i, .parkLoad), (j, .parkLoad), (i, .increment), (j, .increment)] = some t ∧
      t.lot = ⟨s.lot.capacity, s.lot.count + 1 + 1⟩ := by
  simp [run, step, goto, return_, withCount, hidle, hlt, hij, hij.symm]

theorem run_race_unpark {s : AtomicParkingLot ι} {i j : ι} (hij : i ≠ j)
    (hidle : ∀ k, s.site k = .idle) (hpos : 0 < s.lot.count) :
    ∃ t, run step s [(i, .unparkLoad), (j, .unparkLoad), (i, .decrement), (j, .decrement)] =
      some t ∧ t.lot = ⟨s.lot.capacity, s.lot.count - 1 - 1⟩ := by
  simp [run, step, goto, return_, withCount, hidle, hpos, hij, hij.symm]

theorem safe_after {capacity : Int32} {ops more : List (ι × AtomicOp)} {s t : AtomicParkingLot ι}
    (hsafe : ∀ ops : List (ι × AtomicOp), (∀ m ∈ ops, Called parkers unparkers m) →
      Always step (Safe capacity) (start capacity) ops)
    (hops : ∀ m ∈ ops, Called parkers unparkers m) (hs : run step (start capacity) ops = some s)
    (hmore : ∀ m ∈ more, Called parkers unparkers m) (ht : run step s more = some t) :
    Safe capacity t := by
  have hall : ∀ m ∈ ops ++ more, Called parkers unparkers m := by
    intro m hm
    rcases List.mem_append.mp hm with hm | hm
    · exact hops m hm
    · exact hmore m hm
  exact ((hsafe (ops ++ more) hall).append_right hs).run ht

/-- Two callers of `park` overbook the lot when one place is left. -/
theorem parkers_subsingleton {capacity : Int32} (h : 1 ≤ capacity)
    (hsafe : ∀ ops : List (ι × AtomicOp), (∀ m ∈ ops, Called parkers unparkers m) →
      Always step (Safe capacity) (start capacity) ops) : parkers.Subsingleton := by
  intro i hi j hj
  by_contra hij
  have hone : (1 : ℤ) ≤ capacity.toInt := Int32.le_iff_toInt_le.mp h
  obtain ⟨ops, s, hops, hs, hcap, hocc, hidle⟩ :=
    @run_fill _ _ _ unparkers capacity _ hi (capacity.toInt - 1).toNat (by omega)
  have hlt : s.lot.count < s.lot.capacity := by
    rw [Int32.lt_iff_toInt_lt, hcap]
    simp only [CountingLot.occupancy] at hocc
    omega
  obtain ⟨t, ht, hlot⟩ := run_race_park hij hidle hlt
  have hsafe_t := safe_after hsafe hops hs (by simp [Called, hi, hj]) ht
  have hbooked : s.lot.count + 1 = capacity := by
    have hsucc := Word32.toInt_succ_of_lt hlt
    rw [← Int32.toInt_inj, hsucc]
    simp only [CountingLot.occupancy] at hocc
    omega
  have hbounds := hsafe_t.1
  rw [hlot, hbooked] at hbounds
  have hover := (increment_inBounds_iff (l := ⟨capacity, capacity⟩)
    ⟨Int32.le_trans (by decide) h, Int32.le_refl _⟩).mp hbounds
  exact Int32.lt_irrefl hover

/-- Two callers of `unpark` take one parked car out twice. -/
theorem unparkers_subsingleton {capacity : Int32} (h : 1 ≤ capacity)
    (hsafe : ∀ ops : List (ι × AtomicOp), (∀ m ∈ ops, Called parkers unparkers m) →
      Always step (Safe capacity) (start capacity) ops) (hparked : parkers.Nonempty) :
    unparkers.Subsingleton := by
  intro i hi j hj
  by_contra hij
  obtain ⟨k, hk⟩ := hparked
  obtain ⟨ops, s, hops, hs, hcap, hocc, hidle⟩ :=
    @run_fill _ _ _ unparkers capacity _ hk 1 (Int32.le_iff_toInt_le.mp h)
  have hone : s.lot.count = 1 := Int32.toInt_inj.mp hocc
  obtain ⟨t, ht, hlot⟩ := run_race_unpark hij hidle (by rw [hone]; decide)
  have hsafe_t := safe_after hsafe hops hs (by simp [Called, hi, hj]) ht
  have hpos := hsafe_t.1.1
  rw [hlot, hone] at hpos
  have hneg : ¬ (0 : Int32) ≤ 1 - 1 - 1 := by decide
  exact hneg hpos

end

/-- Calls of one kind that do not overlap keep the lot between its bounds. Of an empty lot
every interleaving is safe exactly when one caller at most parks, and one caller at most
unparks if any parks. -/
theorem safe_iff_callers {capacity : Int32} (h : 1 ≤ capacity) (parkers unparkers : Set ι) :
    (∀ ops : List (ι × AtomicOp), Guarded step Apart (start capacity) ops →
        Always step (Safe capacity) (start capacity) ops) ∧
      ((∀ ops : List (ι × AtomicOp), (∀ m ∈ ops, Called parkers unparkers m) →
          Always step (Safe capacity) (start capacity) ops) ↔
        parkers.Subsingleton ∧ (parkers = ∅ ∨ unparkers.Subsingleton)) := by
  have hnonneg : 0 ≤ capacity := Int32.le_trans (by decide) h
  refine ⟨fun ops hx => safe_of_apart hnonneg hx, fun hsafe => ?_, ?_⟩
  · refine ⟨parkers_subsingleton h hsafe, ?_⟩
    rcases parkers.eq_empty_or_nonempty with hempty | hparked
    · exact Or.inl hempty
    · exact Or.inr (unparkers_subsingleton h hsafe hparked)
  · rintro ⟨hpark, hunpark⟩ ops hops
    exact safe_of_apart hnonneg (apart_of_called hpark hunpark hops)

theorem safe_iff_callers_two :
    (1 : Int32) ≤ 2 ∧
      Guarded step Apart (start 2) [((0 : ℕ), .parkLoad), (0, .increment), (0, .parkLoad),
        (1, .unparkLoad), (1, .decrement), (0, .increment)] ∧
      Always step (Safe 2) (start 2) [((0 : ℕ), .parkLoad), (0, .increment), (0, .parkLoad),
        (1, .unparkLoad), (1, .decrement), (0, .increment)] ∧
      ((∀ ops : List (ℕ × AtomicOp), (∀ m ∈ ops, Called {0} {1} m) →
        Always step (Safe 2) (start 2) ops) ↔
          ({0} : Set ℕ).Subsingleton ∧ (({0} : Set ℕ) = ∅ ∨ ({1} : Set ℕ).Subsingleton)) := by
  have hops : ∀ m ∈ [((0 : ℕ), AtomicOp.parkLoad), (0, .increment), (0, .parkLoad),
      (1, .unparkLoad), (1, .decrement), (0, .increment)],
      Called {0} {1} m := by
    simp [Called]
  have hcapacity : (1 : Int32) ≤ 2 := by decide
  have happart : Guarded step Apart (start 2) _ :=
    apart_of_called Set.subsingleton_singleton (Or.inr Set.subsingleton_singleton) hops
  obtain ⟨hsafe, hcallers⟩ := safe_iff_callers hcapacity ({0} : Set ℕ) {1}
  exact ⟨hcapacity, happart, hsafe _ happart, hcallers⟩

/-- Two callers of `park` both load zero before either increments, and a lot with
one place then holds two cars. -/
theorem overbooked :
    ¬ Always step (Safe 1) (start 1) [((0 : ℕ), .parkLoad), (1, .parkLoad), (0, .increment),
      (1, .increment)] := by
  intro h
  have hrun : ∃ t, run step (start 1) [((0 : ℕ), .parkLoad), (1, .parkLoad), (0, .increment),
      (1, .increment)] = some t ∧ t.lot = ⟨1, 2⟩ := ⟨_, rfl, rfl⟩
  obtain ⟨t, ht, hlot⟩ := hrun
  have hle := (h.run ht).1.2
  rw [hlot] at hle
  exact absurd hle (by decide)

end AtomicParkingLot

end Vsys.CppAsio
