import Vsys.Schedule.Run

/-! Machines that come to an end. Where every step lowers a measure, runs are bounded,
and every run can be continued to one that cannot go on. -/

namespace Schedule

variable {σ α : Type*} {step : σ → α → Option σ} {I : σ → Prop} {measure : σ → ℕ}

def Halted (step : σ → α → Option σ) (s : σ) : Prop := ∀ a, step s a = none

theorem run_length_add_measure (hinv : ∀ s a t, I s → step s a = some t → I t)
    (hlower : ∀ s a t, I s → step s a = some t → measure t + 1 = measure s) {s t : σ}
    {as : List α} (hs : I s) (h : run step s as = some t) :
    as.length + measure t = measure s := by
  induction as generalizing s with
  | nil =>
    cases h
    exact Nat.zero_add _
  | cons a as ih =>
    obtain ⟨u, hu, hrest⟩ := run_cons_eq_some.mp h
    have hone := hlower s a u hs hu
    have hall := ih (hinv s a u hs hu) hrest
    rw [List.length_cons]
    omega

theorem run_length_le_measure (hinv : ∀ s a t, I s → step s a = some t → I t)
    (hlower : ∀ s a t, I s → step s a = some t → measure t < measure s) {s t : σ}
    {as : List α} (hs : I s) (h : run step s as = some t) :
    as.length + measure t ≤ measure s := by
  induction as generalizing s with
  | nil =>
    cases h
    exact Nat.le_of_eq (Nat.zero_add _)
  | cons a as ih =>
    obtain ⟨u, hu, hrest⟩ := run_cons_eq_some.mp h
    have hone := hlower s a u hs hu
    have hall := ih (hinv s a u hs hu) hrest
    rw [List.length_cons]
    omega

theorem exists_completion (hinv : ∀ s a t, I s → step s a = some t → I t)
    (hlower : ∀ s a t, I s → step s a = some t → measure t < measure s) {s : σ} (hs : I s) :
    ∃ as t, run step s as = some t ∧ Halted step t := by
  induction hn : measure s using Nat.strongRecOn generalizing s with
  | ind n ih =>
    by_cases hhalted : Halted step s
    · exact ⟨[], s, rfl, hhalted⟩
    · obtain ⟨a, ha⟩ := not_forall.mp hhalted
      obtain ⟨u, hu⟩ := Option.ne_none_iff_exists'.mp ha
      obtain ⟨as, t, ht, hend⟩ := ih (measure u) (hn ▸ hlower s a u hs hu) (hinv s a u hs hu) rfl
      exact ⟨a :: as, t, run_cons_eq_some.mpr ⟨u, hu, ht⟩, hend⟩

end Schedule
