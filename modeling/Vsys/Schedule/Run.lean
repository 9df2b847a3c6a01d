import Mathlib.Data.List.Basic

/-! Runs of a machine under an arbitrary schedule. A label names the party that
moves and what it does; a label that is not enabled ends the run. Properties of
whole runs are reduced here to properties of one step. -/

namespace Schedule

variable {σ α : Type*}

def run (step : σ → α → Option σ) : σ → List α → Option σ
  | s, [] => some s
  | s, a :: as => (step s a).bind (fun t => run step t as)

/-- `Q` holds in every state the schedule passes through, the first included. -/
def Always (step : σ → α → Option σ) (Q : σ → Prop) : σ → List α → Prop
  | s, [] => Q s
  | s, a :: as => Q s ∧ ∀ t, step s a = some t → Always step Q t as

/-- `P` holds of the state and the label at every step the schedule takes. -/
def Guarded (step : σ → α → Option σ) (P : σ → α → Prop) : σ → List α → Prop
  | _, [] => True
  | s, a :: as => ∀ t, step s a = some t → P s a ∧ Guarded step P t as

section
variable {step : σ → α → Option σ}

theorem run_append (s : σ) (as bs : List α) :
    run step s (as ++ bs) = (run step s as).bind (fun t => run step t bs) := by
  induction as generalizing s with
  | nil => rfl
  | cons a as ih =>
    cases he : step s a with
    | none => simp [run, he]
    | some t => simp [run, he, ih]

theorem run_cons_eq_some {s t : σ} {a : α} {as : List α} :
    run step s (a :: as) = some t ↔ ∃ u, step s a = some u ∧ run step u as = some t := by
  simp [run, Option.bind_eq_some_iff]

theorem run_concat_eq_some {s t : σ} {as : List α} {a : α} :
    run step s (as ++ [a]) = some t ↔ ∃ u, run step s as = some u ∧ step u a = some t := by
  simp [run_append, run, Option.bind_eq_some_iff]

theorem run_invariant {I : σ → Prop} (hstep : ∀ s a t, I s → step s a = some t → I t)
    {s t : σ} {as : List α} (hs : I s) (h : run step s as = some t) : I t := by
  induction as generalizing s with
  | nil =>
    cases h
    exact hs
  | cons a as ih =>
    obtain ⟨u, hu, ht⟩ := run_cons_eq_some.mp h
    exact ih (hstep s a u hs hu) ht

theorem Always.head {Q : σ → Prop} {s : σ} {as : List α} (h : Always step Q s as) : Q s := by
  cases as with
  | nil => exact h
  | cons a as => exact h.1

theorem Always.run {Q : σ → Prop} {s t : σ} {as : List α}
    (h : Always step Q s as) (ht : run step s as = some t) : Q t := by
  induction as generalizing s with
  | nil =>
    cases ht
    exact h
  | cons a as ih =>
    obtain ⟨u, hu, ht⟩ := run_cons_eq_some.mp ht
    exact ih (h.2 u hu) ht

theorem Always.append_right {Q : σ → Prop} {s t : σ} {as bs : List α}
    (h : Always step Q s (as ++ bs)) (ht : Schedule.run step s as = some t) :
    Always step Q t bs := by
  induction as generalizing s with
  | nil =>
    cases ht
    exact h
  | cons a as ih =>
    obtain ⟨u, hu, ht⟩ := run_cons_eq_some.mp ht
    exact ih (h.2 u hu) ht

theorem Always.mono {Q R : σ → Prop} (hQR : ∀ s, Q s → R s) {s : σ} {as : List α}
    (h : Always step Q s as) : Always step R s as := by
  induction as generalizing s with
  | nil => exact hQR s h
  | cons a as ih => exact ⟨hQR s h.1, fun t ht => ih (h.2 t ht)⟩

/-- A property whose preservation by one step is decided by `P`, given an
invariant that needs no guard, holds along a whole run exactly when every step
of the run meets `P`. -/
theorem always_iff_guarded {I Q : σ → Prop} {P : σ → α → Prop}
    (hinv : ∀ s a t, I s → step s a = some t → I t)
    (hexact : ∀ s a t, I s → Q s → step s a = some t → (Q t ↔ P s a))
    {s : σ} (hi : I s) (hq : Q s) (as : List α) :
    Always step Q s as ↔ Guarded step P s as := by
  induction as generalizing s with
  | nil => exact ⟨fun _ => trivial, fun _ => hq⟩
  | cons a as ih =>
    constructor
    · rintro ⟨_, h⟩ t ht
      have hqt := (h t ht).head
      exact ⟨(hexact s a t hi hq ht).mp hqt, (ih (hinv s a t hi ht) hqt).mp (h t ht)⟩
    · intro h
      refine ⟨hq, fun t ht => ?_⟩
      obtain ⟨hp, hg⟩ := h t ht
      exact (ih (hinv s a t hi ht) ((hexact s a t hi hq ht).mpr hp)).mpr hg

theorem always_of_guarded {I : σ → Prop} {P : σ → α → Prop}
    (hstep : ∀ s a t, I s → P s a → step s a = some t → I t)
    {s : σ} (hs : I s) {as : List α} (h : Guarded step P s as) : Always step I s as := by
  induction as generalizing s with
  | nil => exact hs
  | cons a as ih =>
    refine ⟨hs, fun t ht => ?_⟩
    obtain ⟨hp, hg⟩ := h t ht
    exact ih (hstep s a t hs hp ht) hg

/-- A property that no step can restore holds all along a run when it holds at its
end. -/
theorem always_of_run {I Q : σ → Prop} (hinv : ∀ s a t, I s → step s a = some t → I t)
    (hback : ∀ s a t, I s → step s a = some t → Q t → Q s)
    {s t : σ} {as : List α} (hs : I s) (ht : Schedule.run step s as = some t) (hq : Q t) :
    Always step Q s as := by
  induction as generalizing s with
  | nil =>
    cases ht
    exact hq
  | cons a as ih =>
    obtain ⟨u, hu, hrest⟩ := run_cons_eq_some.mp ht
    have hlater : Always step Q u as := ih (hinv s a u hs hu) hrest
    refine ⟨hback s a u hs hu hlater.head, fun v hv => ?_⟩
    obtain rfl : u = v := Option.some.inj (hu.symm.trans hv)
    exact hlater

theorem Guarded.mono {P R : σ → α → Prop} (hPR : ∀ s a, P s a → R s a) {s : σ} {as : List α}
    (h : Guarded step P s as) : Guarded step R s as := by
  induction as generalizing s with
  | nil => trivial
  | cons a as ih => exact fun t ht => ⟨hPR s a (h t ht).1, ih (h t ht).2⟩

/-- The labels of the schedule may be known to be of some kind `C`. -/
theorem guarded_of_mem {P : σ → α → Prop} {I : σ → Prop} {C : α → Prop}
    (hinv : ∀ s a t, C a → I s → step s a = some t → I t)
    (hP : ∀ s a t, C a → I s → step s a = some t → P s a) {s : σ} (hs : I s) {as : List α}
    (has : ∀ a ∈ as, C a) : Guarded step P s as := by
  induction as generalizing s with
  | nil => trivial
  | cons a as ih =>
    have ha : C a := has a List.mem_cons_self
    intro t ht
    exact ⟨hP s a t ha hs ht,
      ih (hinv s a t ha hs ht) fun b hb => has b (List.mem_cons_of_mem _ hb)⟩

theorem guarded_of_forall {P : σ → α → Prop} {I : σ → Prop}
    (hinv : ∀ s a t, I s → step s a = some t → I t)
    (hP : ∀ s a t, I s → step s a = some t → P s a) {s : σ} (hs : I s) (as : List α) :
    Guarded step P s as :=
  guarded_of_mem (C := fun _ => True) (fun s a t _ => hinv s a t) (fun s a t _ => hP s a t) hs
    fun _ _ => trivial

end

end Schedule
