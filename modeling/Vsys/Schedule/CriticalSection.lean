import Mathlib.Algebra.BigOperators.Fin
import Mathlib.Data.List.Basic
import Mathlib.Logic.Function.Basic
import Vsys.Schedule.Completion
import Vsys.Schedule.Run
import Vsys.Schedule.Tally

/-! Calls on a shared object whose bodies run under one lock. A body is a program
of internal steps; under any schedule the object behaves as if each call were
executed at once, in the order in which the calls acquired the lock. -/

namespace Schedule.CriticalSection

variable {ι σ κ π ρ : Type*}

/-- The body of a call between lock and unlock: where it starts, and what each
internal step does before it goes on or ends with an outcome. -/
structure Body (σ κ π ρ : Type*) where
  entry : κ → π
  next : π → σ → σ × (π ⊕ ρ)

inductive Finishes (body : Body σ κ π ρ) : π → σ → ρ → σ → Prop
  | done {p : π} {x y : σ} {r : ρ} (h : body.next p x = (y, .inr r)) : Finishes body p x r y
  | more {p q : π} {x y z : σ} {r : ρ} (h : body.next p x = (y, .inl q))
    (hr : Finishes body q y r z) : Finishes body p x r z

theorem Finishes.of_more {body : Body σ κ π ρ} {p q : π} {x y z : σ} {r : ρ}
    (h : Finishes body p x r z) (hn : body.next p x = (y, .inl q)) : Finishes body q y r z := by
  cases h with
  | done hd => exact nomatch congrArg Prod.snd (hn.symm.trans hd)
  | more hm hr =>
    obtain ⟨rfl, hq⟩ := Prod.mk.inj (hn.symm.trans hm)
    cases hq
    exact hr

theorem Finishes.of_done {body : Body σ κ π ρ} {p : π} {x y z : σ} {r r' : ρ}
    (h : Finishes body p x r z) (hn : body.next p x = (y, .inr r')) : r' = r ∧ y = z := by
  cases h with
  | done hd =>
    obtain ⟨rfl, hr⟩ := Prod.mk.inj (hn.symm.trans hd)
    cases hr
    exact ⟨rfl, rfl⟩
  | more hm => exact nomatch congrArg Prod.snd (hn.symm.trans hm)

def Realizes (body : Body σ κ π ρ) (atomic : κ → σ → ρ × σ) : Prop :=
  ∀ c x, Finishes body (body.entry c) x (atomic c x).1 (atomic c x).2

/-- Only the last internal step of a body changes the object. -/
def CommitsLast (body : Body σ κ π ρ) : Prop :=
  ∀ p x y q, body.next p x = (y, .inl q) → y = x

inductive Site (κ π ρ : Type*) where
  | outside
  | waiting (c : κ)
  | inside (c : κ) (p : π)
  | exiting (c : κ) (r : ρ)
  deriving DecidableEq

def Site.Critical : Site κ π ρ → Prop
  | .outside | .waiting _ => False
  | .inside _ _ | .exiting _ _ => True

def Site.waitingCall : Site κ π ρ → List κ
  | .waiting c => [c]
  | _ => []

/-- The object, the lock and the callers, with the calls in the order in which
they acquired the lock and the completed ones with their outcomes. -/
structure State (ι σ κ π ρ : Type*) where
  shared : σ
  holder : Option ι
  todo : ι → List κ
  site : ι → Site κ π ρ
  acquired : List (ι × κ)
  completed : List (ι × κ × ρ)

def start (x : σ) (programs : ι → List κ) : State ι σ κ π ρ :=
  ⟨x, none, programs, fun _ => .outside, [], []⟩

def serial (atomic : κ → σ → ρ × σ) : σ → List (ι × κ) → List (ι × κ × ρ) × σ
  | x, [] => ([], x)
  | x, (i, c) :: cs =>
    let r := atomic c x
    ((i, c, r.1) :: (serial atomic r.2 cs).1, (serial atomic r.2 cs).2)

theorem serial_concat (atomic : κ → σ → ρ × σ) (x : σ) (cs : List (ι × κ)) (i : ι) (c : κ) :
    serial atomic x (cs ++ [(i, c)]) =
      ((serial atomic x cs).1 ++ [(i, c, (atomic c (serial atomic x cs).2).1)],
        (atomic c (serial atomic x cs).2).2) := by
  induction cs generalizing x with
  | nil => rfl
  | cons d cs ih =>
    obtain ⟨j, d⟩ := d
    simp only [List.cons_append, serial, ih]

/-- How far the holder of the lock has come with call `c`, begun on object `x`. -/
def Underway (body : Body σ κ π ρ) (atomic : κ → σ → ρ × σ) (c : κ) (x : σ)
    (s : State ι σ κ π ρ) (w : Site κ π ρ) : Prop :=
  (∃ p, w = .inside c p ∧ s.shared = x ∧ Finishes body p x (atomic c x).1 (atomic c x).2) ∨
    (w = .exiting c (atomic c x).1 ∧ s.shared = (atomic c x).2)

/-- The calls that acquired the lock have been executed in that order, but for
the one whose caller holds it. -/
structure Linear (body : Body σ κ π ρ) (atomic : κ → σ → ρ × σ) (x₀ : σ)
    (s : State ι σ κ π ρ) : Prop where
  holder_iff : ∀ i, s.holder = some i ↔ (s.site i).Critical
  free : s.holder = none →
    s.completed = (serial atomic x₀ s.acquired).1 ∧ s.shared = (serial atomic x₀ s.acquired).2
  held : ∀ i, s.holder = some i → ∃ before c, s.acquired = before ++ [(i, c)] ∧
    s.completed = (serial atomic x₀ before).1 ∧
      Underway body atomic c (serial atomic x₀ before).2 s (s.site i)

variable {body : Body σ κ π ρ} {atomic : κ → σ → ρ × σ} {x₀ : σ}

theorem start_linear (programs : ι → List κ) :
    Linear body atomic x₀ (start x₀ programs : State ι σ κ π ρ) where
  holder_iff := fun _ => ⟨fun h => (nomatch h), False.elim⟩
  free := fun _ => ⟨rfl, rfl⟩
  held := fun _ h => nomatch h

theorem Linear.mutual_exclusion {s : State ι σ κ π ρ} (h : Linear body atomic x₀ s) {i j : ι}
    (hi : (s.site i).Critical) (hj : (s.site j).Critical) : i = j :=
  Option.some.inj (((h.holder_iff i).mpr hi).symm.trans ((h.holder_iff j).mpr hj))

theorem Linear.not_critical {s : State ι σ κ π ρ} (h : Linear body atomic x₀ s) {j : ι}
    (hj : s.holder ≠ some j) : ¬ (s.site j).Critical := mt (h.holder_iff j).mpr hj

theorem Linear.holder_of_inside {s : State ι σ κ π ρ} (h : Linear body atomic x₀ s) {i : ι}
    {c : κ} {p : π} (hs : s.site i = .inside c p) : s.holder = some i :=
  (h.holder_iff i).mpr (hs ▸ trivial)

theorem Linear.inside {s : State ι σ κ π ρ} (h : Linear body atomic x₀ s) {i : ι} {c : κ} {p : π}
    (hs : s.site i = .inside c p) :
    ∃ before, s.acquired = before ++ [(i, c)] ∧ s.completed = (serial atomic x₀ before).1 ∧
      s.shared = (serial atomic x₀ before).2 ∧
      Finishes body p s.shared (atomic c s.shared).1 (atomic c s.shared).2 := by
  obtain ⟨before, d, hacq, hcomp, hunder⟩ := h.held i (h.holder_of_inside hs)
  rw [hs] at hunder
  rcases hunder with ⟨q, hq, hx, hf⟩ | ⟨hq, -⟩
  · cases hq
    exact ⟨before, hacq, hcomp, hx, hx ▸ hf⟩
  · cases hq

theorem Linear.serial_prefix {s : State ι σ κ π ρ} (h : Linear body atomic x₀ s) :
    ∃ n, s.completed = (serial atomic x₀ (s.acquired.take n)).1 ∧
      (s.holder = none → n = s.acquired.length) ∧ s.acquired.length ≤ n + 1 ∧
      (s.shared = (serial atomic x₀ (s.acquired.take n)).2 ∨
        s.shared = (serial atomic x₀ s.acquired).2) := by
  cases hh : s.holder with
  | none =>
    obtain ⟨hcomp, hshared⟩ := h.free hh
    exact ⟨s.acquired.length, by rwa [List.take_length], fun _ => rfl, by omega, Or.inr hshared⟩
  | some i =>
    obtain ⟨before, c, hacq, hcomp, hunder⟩ := h.held i hh
    have htake : s.acquired.take before.length = before := by rw [hacq, List.take_left]
    refine ⟨before.length, by rwa [htake], fun hn => (nomatch hn), by simp [hacq], ?_⟩
    rcases hunder with ⟨p, -, hx, -⟩ | ⟨-, hx⟩
    · exact Or.inl (by rw [htake, hx])
    · exact Or.inr (by rw [hacq, serial_concat, hx])

section
variable [DecidableEq ι]

def State.goto (s : State ι σ κ π ρ) (i : ι) (w : Site κ π ρ) : State ι σ κ π ρ :=
  { s with site := Function.update s.site i w }

/-- One step of caller `i`: take the next call of its program, take the lock when
no one holds it, an internal step, or the unlock that ends the call. -/
def step (body : Body σ κ π ρ) (s : State ι σ κ π ρ) (i : ι) : Option (State ι σ κ π ρ) :=
  match s.site i with
  | .outside =>
    match s.todo i with
    | [] => none
    | c :: cs => some { s.goto i (.waiting c) with todo := Function.update s.todo i cs }
  | .waiting c =>
    if s.holder = none then
      some { s.goto i (.inside c (body.entry c)) with
        holder := some i
        acquired := s.acquired ++ [(i, c)] }
    else none
  | .inside c p =>
    match body.next p s.shared with
    | (x, .inl q) => some { s.goto i (.inside c q) with shared := x }
    | (x, .inr r) => some { s.goto i (.exiting c r) with shared := x }
  | .exiting c r =>
    if s.holder = some i then
      some { s.goto i .outside with holder := none, completed := s.completed ++ [(i, c, r)] }
    else none

inductive Moves (body : Body σ κ π ρ) (s : State ι σ κ π ρ) (i : ι) : State ι σ κ π ρ → Prop
  | call {c : κ} {cs : List κ} (hs : s.site i = .outside) (hc : s.todo i = c :: cs) :
    Moves body s i { s.goto i (.waiting c) with todo := Function.update s.todo i cs }
  | lock {c : κ} (hs : s.site i = .waiting c) (hfree : s.holder = none) :
    Moves body s i { s.goto i (.inside c (body.entry c)) with
      holder := some i
      acquired := s.acquired ++ [(i, c)] }
  | work {c : κ} {p q : π} {x : σ} (hs : s.site i = .inside c p)
    (hn : body.next p s.shared = (x, .inl q)) :
    Moves body s i { s.goto i (.inside c q) with shared := x }
  | finish {c : κ} {p : π} {x : σ} {r : ρ} (hs : s.site i = .inside c p)
    (hn : body.next p s.shared = (x, .inr r)) :
    Moves body s i { s.goto i (.exiting c r) with shared := x }
  | unlock {c : κ} {r : ρ} (hs : s.site i = .exiting c r) (hheld : s.holder = some i) :
    Moves body s i
      { s.goto i .outside with holder := none, completed := s.completed ++ [(i, c, r)] }

theorem moves_of_step {s t : State ι σ κ π ρ} {i : ι} (h : step body s i = some t) :
    Moves body s i t := by
  rw [step] at h
  split at h
  · next hs =>
    split at h
    · cases h
    · next hc => cases h; exact .call hs hc
  · next hs =>
    split at h
    · next hfree => cases h; exact .lock hs hfree
    · cases h
  · next hs =>
    split at h
    · next hn => cases h; exact .work hs hn
    · next hn => cases h; exact .finish hs hn
  · next hs =>
    split at h
    · next hheld => cases h; exact .unlock hs hheld
    · cases h

theorem site_of_ne {s : State ι σ κ π ρ} {i j : ι} (hj : j ≠ i) (w : Site κ π ρ) :
    (s.goto i w).site j = s.site j := Function.update_of_ne hj _ _

theorem site_self (s : State ι σ κ π ρ) (i : ι) (w : Site κ π ρ) : (s.goto i w).site i = w :=
  Function.update_self _ _ _

theorem holder_iff_goto {s : State ι σ κ π ρ} (h : ∀ j, s.holder = some j ↔ (s.site j).Critical)
    {i : ι} {w : Site κ π ρ} (hw : w.Critical ↔ (s.site i).Critical) (j : ι) :
    s.holder = some j ↔ ((s.goto i w).site j).Critical := by
  by_cases hj : j = i
  · subst hj
    rw [site_self, hw]
    exact h j
  · rw [site_of_ne hj]
    exact h j

theorem Linear.call {s : State ι σ κ π ρ} (h : Linear body atomic x₀ s) {i : ι} {c : κ}
    {todo : ι → List κ} (hs : s.site i = .outside) :
    Linear body atomic x₀ { s.goto i (.waiting c) with todo := todo } := by
  have hi : s.holder ≠ some i := by
    rw [Ne, h.holder_iff, hs]
    exact id
  refine ⟨holder_iff_goto h.holder_iff (by rw [hs]; exact Iff.rfl), h.free, fun j hj => ?_⟩
  have hji : j ≠ i := fun he => hi (he ▸ hj)
  obtain ⟨before, d, hacq, hcomp, hunder⟩ := h.held j hj
  refine ⟨before, d, hacq, hcomp, ?_⟩
  change Underway body atomic d _ s ((s.goto i _).site j)
  rwa [site_of_ne hji]

theorem Linear.lock (hreal : Realizes body atomic) {s : State ι σ κ π ρ}
    (h : Linear body atomic x₀ s) {i : ι} {c : κ} (hfree : s.holder = none) :
    Linear body atomic x₀ { s.goto i (.inside c (body.entry c)) with
      holder := some i
      acquired := s.acquired ++ [(i, c)] } := by
  obtain ⟨hcomp, hshared⟩ := h.free hfree
  refine ⟨fun j => ?_, fun hn => (nomatch hn), fun j hj => ?_⟩
  · by_cases hj : j = i
    · subst hj
      exact iff_of_true rfl (by rw [site_self]; trivial)
    · refine iff_of_false (fun he => hj (Option.some.inj he).symm) ?_
      change ¬ ((s.goto i _).site j).Critical
      rw [site_of_ne hj]
      exact h.not_critical (by simp [hfree])
  · obtain rfl : i = j := Option.some.inj hj
    refine ⟨s.acquired, c, rfl, hcomp, Or.inl ⟨body.entry c, ?_, hshared, hreal c _⟩⟩
    exact site_self s i _

/-- An internal step of the holder keeps the order, whatever site it leads to, as long
as it goes on with the same call. -/
theorem Linear.inner {s : State ι σ κ π ρ} (h : Linear body atomic x₀ s) {i : ι} {c : κ} {p : π}
    {x : σ} {w : Site κ π ρ} (hs : s.site i = .inside c p) (hw : w.Critical)
    (hunder : Finishes body p s.shared (atomic c s.shared).1 (atomic c s.shared).2 →
      Underway body atomic c s.shared { s.goto i w with shared := x } w) :
    Linear body atomic x₀ { s.goto i w with shared := x } := by
  obtain ⟨before, hacq, hcomp, hshared, hf⟩ := h.inside hs
  have hhold := h.holder_of_inside hs
  refine ⟨holder_iff_goto h.holder_iff (by rw [hs]; exact iff_of_true hw trivial),
    fun hnone => absurd (hhold.symm.trans hnone) (Option.some_ne_none i), fun j hj => ?_⟩
  obtain rfl : i = j := Option.some.inj (hhold.symm.trans hj)
  refine ⟨before, c, hacq, hcomp, ?_⟩
  rw [← hshared]
  change Underway body atomic c s.shared { s.goto i w with shared := x } ((s.goto i w).site i)
  rw [site_self]
  exact hunder hf

theorem Linear.unlock {s : State ι σ κ π ρ} (h : Linear body atomic x₀ s) {i : ι} {c : κ} {r : ρ}
    (hs : s.site i = .exiting c r) (hheld : s.holder = some i) :
    Linear body atomic x₀
      { s.goto i .outside with holder := none, completed := s.completed ++ [(i, c, r)] } := by
  obtain ⟨before, d, hacq, hcomp, hunder⟩ := h.held i hheld
  rw [hs] at hunder
  have hend : c = d ∧ r = (atomic d (serial atomic x₀ before).2).1 ∧
      s.shared = (atomic d (serial atomic x₀ before).2).2 := by
    rcases hunder with ⟨q, hq, -, -⟩ | ⟨hq, hx⟩
    · cases hq
    · injection hq with hc hr
      exact ⟨hc, hr, hx⟩
  obtain ⟨rfl, hr, hshared⟩ := hend
  refine ⟨fun j => iff_of_false (fun hn => (nomatch hn)) ?_, fun _ => ?_, fun j hj => nomatch hj⟩
  · change ¬ ((s.goto i _).site j).Critical
    by_cases hj : j = i
    · subst hj
      rw [site_self]
      exact id
    · rw [site_of_ne hj]
      exact h.not_critical fun he => hj (Option.some.inj (hheld.symm.trans he)).symm
  · change s.completed ++ [(i, c, r)] = (serial atomic x₀ s.acquired).1 ∧
      s.shared = (serial atomic x₀ s.acquired).2
    rw [hacq, serial_concat, hcomp, hr]
    exact ⟨rfl, hshared⟩

theorem step_linear (hreal : Realizes body atomic) (hlast : CommitsLast body)
    {s t : State ι σ κ π ρ} {i : ι} (h : Linear body atomic x₀ s) (ht : step body s i = some t) :
    Linear body atomic x₀ t := by
  cases moves_of_step ht with
  | call hs hc => exact h.call hs
  | lock hs hfree => exact h.lock hreal hfree
  | @work c p q x hs hn =>
    obtain rfl : x = s.shared := hlast _ _ _ _ hn
    exact h.inner hs trivial fun hf => Or.inl ⟨q, rfl, rfl, hf.of_more hn⟩
  | finish hs hn =>
    refine h.inner hs trivial fun hf => ?_
    obtain ⟨rfl, rfl⟩ := hf.of_done hn
    exact Or.inr ⟨rfl, rfl⟩
  | unlock hs hheld => exact h.unlock hs hheld

theorem run_linear (hreal : Realizes body atomic) (hlast : CommitsLast body) {programs : ι → List κ}
    {schedule : List ι} {t : State ι σ κ π ρ}
    (ht : run (step body) (start x₀ programs) schedule = some t) : Linear body atomic x₀ t :=
  run_invariant (fun _ _ _ hs hstep => step_linear hreal hlast hs hstep) (start_linear programs) ht

theorem Linear.progress {s : State ι σ κ π ρ} (h : Linear body atomic x₀ s) {i : ι}
    (hi : s.site i ≠ .outside ∨ s.todo i ≠ []) : ∃ j t, step body s j = some t := by
  cases hh : s.holder with
  | none =>
    refine ⟨i, ?_⟩
    have hcrit : ¬ (s.site i).Critical := h.not_critical (by simp [hh])
    cases hs : s.site i with
    | outside =>
      obtain ⟨c, cs, hc⟩ := List.exists_cons_of_ne_nil (hi.resolve_left (fun hn => hn hs))
      simp only [step, hs, hc]
      exact ⟨_, rfl⟩
    | waiting c =>
      simp only [step, hs, hh, if_true]
      exact ⟨_, rfl⟩
    | inside c p => exact absurd (hs ▸ trivial) hcrit
    | exiting c r => exact absurd (hs ▸ trivial) hcrit
  | some j =>
    refine ⟨j, ?_⟩
    have hcrit := (h.holder_iff j).mp hh
    cases hs : s.site j with
    | outside => exact absurd hcrit (hs ▸ id)
    | waiting c => exact absurd hcrit (hs ▸ id)
    | inside c p =>
      rcases hn : body.next p s.shared with ⟨x, q | r⟩
      · simp only [step, hs, hn]
        exact ⟨_, rfl⟩
      · simp only [step, hs, hn]
        exact ⟨_, rfl⟩
    | exiting c r =>
      simp only [step, hs, hh, if_true]
      exact ⟨_, rfl⟩

def callsOf (i : ι) (cs : List (ι × κ)) : List κ :=
  cs.filterMap fun m => if m.1 = i then some m.2 else none

theorem callsOf_concat (i j : ι) (c : κ) (cs : List (ι × κ)) :
    callsOf j (cs ++ [(i, c)]) = callsOf j cs ++ if i = j then [c] else [] := by
  rw [callsOf, List.filterMap_append, callsOf]
  by_cases hij : i = j <;> simp [hij]

theorem step_program {s t : State ι σ κ π ρ} {i j : ι} (ht : step body s i = some t) :
    callsOf j t.acquired ++ (t.site j).waitingCall ++ t.todo j =
      callsOf j s.acquired ++ (s.site j).waitingCall ++ s.todo j := by
  by_cases hj : j = i
  · subst hj
    cases moves_of_step ht with
    | call hs hc => simp [State.goto, hs, hc, Site.waitingCall]
    | lock hs => simp [State.goto, hs, Site.waitingCall, callsOf_concat]
    | work hs => simp [State.goto, hs, Site.waitingCall]
    | finish hs => simp [State.goto, hs, Site.waitingCall]
    | unlock hs => simp [State.goto, hs, Site.waitingCall]
  · cases moves_of_step ht with
    | call => simp [State.goto, Function.update_of_ne hj]
    | lock => simp [State.goto, Function.update_of_ne hj, callsOf_concat, Ne.symm hj]
    | work => simp [State.goto, Function.update_of_ne hj]
    | finish => simp [State.goto, Function.update_of_ne hj]
    | unlock => simp [State.goto, Function.update_of_ne hj]

theorem run_program {programs : ι → List κ} {schedule : List ι} {t : State ι σ κ π ρ}
    (ht : run (step body) (start x₀ programs) schedule = some t) (j : ι) :
    callsOf j t.acquired ++ (t.site j).waitingCall ++ t.todo j = programs j :=
  run_invariant
    (I := fun s : State ι σ κ π ρ =>
      callsOf j s.acquired ++ (s.site j).waitingCall ++ s.todo j = programs j)
    (fun _ _ _ hs hstep => (step_program hstep).trans hs) rfl ht

/-- Every internal step of a body that goes on lowers a weight. -/
structure Bounded (body : Body σ κ π ρ) (weight : π → ℕ) (bound : ℕ) : Prop where
  entry_le : ∀ c, weight (body.entry c) ≤ bound
  next_lt : ∀ p x y q, body.next p x = (y, .inl q) → weight q < weight p

def Site.remaining (weight : π → ℕ) (bound : ℕ) : Site κ π ρ → ℕ
  | .outside => 0
  | .waiting _ => bound + 3
  | .inside _ p => weight p + 2
  | .exiting _ _ => 1

/-- What caller `i` has still to do: the calls of its program and the rest of the present
one. -/
def State.ahead (s : State ι σ κ π ρ) (i : ι) : List κ × Site κ π ρ := (s.todo i, s.site i)

def remaining (weight : π → ℕ) (bound : ℕ) (a : List κ × Site κ π ρ) : ℕ :=
  (bound + 4) * a.1.length + a.2.remaining weight bound

def State.Done (s : State ι σ κ π ρ) : Prop := ∀ i, s.todo i = [] ∧ s.site i = .outside

theorem step_ahead {weight : π → ℕ} {bound : ℕ} (hbounded : Bounded body weight bound)
    {s t : State ι σ κ π ρ} {i : ι} (ht : step body s i = some t) :
    ∃ a, t.ahead = Function.update s.ahead i a ∧
      remaining weight bound a < remaining weight bound (s.ahead i) := by
  have hsite : ∀ w : Site κ π ρ, (fun j => (s.todo j, Function.update s.site i w j)) =
      Function.update s.ahead i (s.todo i, w) := by
    intro w
    funext j
    rcases eq_or_ne j i with rfl | hj
    · rw [Function.update_self, Function.update_self]
    · rw [Function.update_of_ne hj, Function.update_of_ne hj]
      rfl
  cases moves_of_step ht with
  | @call c cs hs hc =>
    refine ⟨(cs, .waiting c), ?_, ?_⟩
    · funext j
      rcases eq_or_ne j i with rfl | hj
      · simp [State.ahead, State.goto]
      · simp [State.ahead, State.goto, Function.update_of_ne hj]
    · simp only [remaining, State.ahead, hs, hc, Site.remaining, List.length_cons, Nat.mul_succ]
      omega
  | @lock c hs =>
    refine ⟨_, hsite _, ?_⟩
    have hentry := hbounded.entry_le c
    simp only [remaining, State.ahead, hs, Site.remaining]
    omega
  | @work c p q x hs hn =>
    refine ⟨_, hsite _, ?_⟩
    have hlt := hbounded.next_lt p _ _ q hn
    simp only [remaining, State.ahead, hs, Site.remaining]
    omega
  | finish hs =>
    refine ⟨_, hsite _, ?_⟩
    simp only [remaining, State.ahead, hs, Site.remaining]
    omega
  | unlock hs =>
    refine ⟨_, hsite _, ?_⟩
    simp only [remaining, State.ahead, hs, Site.remaining]
    omega

theorem step_lowers [Fintype ι] {weight : π → ℕ} {bound : ℕ}
    (hbounded : Bounded body weight bound) {s t : State ι σ κ π ρ} {i : ι}
    (ht : step body s i = some t) :
    ∑ j, remaining weight bound (t.ahead j) < ∑ j, remaining weight bound (s.ahead j) := by
  obtain ⟨a, hahead, hlt⟩ := step_ahead hbounded ht
  have hsum := sum_comp_update_add (remaining weight bound) s.ahead i a
  rw [hahead]
  omega

theorem halted_iff_done {s : State ι σ κ π ρ} (h : Linear body atomic x₀ s) :
    Halted (step body) s ↔ s.Done := by
  constructor
  · intro hhalted i
    by_contra hmore
    have hi : s.site i ≠ .outside ∨ s.todo i ≠ [] := by
      by_contra hnot
      obtain ⟨hs, htodo⟩ := not_or.mp hnot
      exact hmore ⟨not_not.mp htodo, not_not.mp hs⟩
    obtain ⟨j, t, ht⟩ := h.progress hi
    exact absurd (ht.symm.trans (hhalted j)) (Option.some_ne_none t)
  · intro hdone i
    simp only [step, (hdone i).1, (hdone i).2]

/-- However the callers are scheduled, all calls are made after a bounded number of steps, and
there is no other end. -/
theorem run_completes [Fintype ι] (hreal : Realizes body atomic) (hlast : CommitsLast body)
    {weight : π → ℕ} {bound : ℕ} (hbounded : Bounded body weight bound) {programs : ι → List κ}
    {schedule : List ι} {t : State ι σ κ π ρ}
    (ht : run (step body) (start x₀ programs) schedule = some t) :
    schedule.length ≤ ∑ i, (bound + 4) * (programs i).length ∧
      (∃ more u, run (step body) t more = some u ∧ u.Done) ∧
      (Halted (step body) t ↔ t.Done) ∧
      (t.Done → t.holder = none ∧ (∀ i, callsOf i t.acquired = programs i) ∧
        t.completed = (serial atomic x₀ t.acquired).1 ∧
        t.shared = (serial atomic x₀ t.acquired).2) := by
  have hinv : ∀ (s : State ι σ κ π ρ) i u, Linear body atomic x₀ s → step body s i = some u →
      Linear body atomic x₀ u := fun _ _ _ hs hu => step_linear hreal hlast hs hu
  have hlower : ∀ (s : State ι σ κ π ρ) i u, Linear body atomic x₀ s → step body s i = some u →
      ∑ j, remaining weight bound (u.ahead j) < ∑ j, remaining weight bound (s.ahead j) :=
    fun _ _ _ _ hu => step_lowers hbounded hu
  have hlin := run_linear hreal hlast ht
  have hlength := run_length_le_measure hinv hlower (start_linear programs) ht
  obtain ⟨more, u, hu, hhalted⟩ := exists_completion hinv hlower hlin
  refine ⟨Nat.le_trans (Nat.le_add_right _ _) hlength,
    ⟨more, u, hu, (halted_iff_done (run_invariant hinv hlin hu)).mp hhalted⟩,
    halted_iff_done hlin, fun hdone => ?_⟩
  have hfree : t.holder = none := by
    cases hh : t.holder with
    | none => rfl
    | some i => exact absurd ((hlin.holder_iff i).mp hh) (by rw [(hdone i).2]; exact id)
  refine ⟨hfree, fun i => ?_, hlin.free hfree⟩
  have hprogram := run_program ht i
  rw [(hdone i).1, (hdone i).2] at hprogram
  simpa [Site.waitingCall] using hprogram

end

end Schedule.CriticalSection
