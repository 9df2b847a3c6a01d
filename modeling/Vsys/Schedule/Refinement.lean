import Vsys.Schedule.Run

/-! Refinement between two machines. Every step of the first is matched by a run of
the second, of no step, one or several, and the states stay related. -/

namespace Schedule

variable {σ τ α β : Type*}

structure Refines (step : σ → α → Option σ) (spec : τ → β → Option τ) (R : σ → τ → Prop) :
    Prop where
  matched : ∀ {s s' : σ} {a : α} {t : τ}, R s t → step s a = some s' →
    ∃ bs t', run spec t bs = some t' ∧ R s' t'

section
variable {step : σ → α → Option σ} {spec : τ → β → Option τ} {R : σ → τ → Prop}

theorem Refines.run (h : Refines step spec R) {s s' : σ} {t : τ} {as : List α} (hst : R s t)
    (hs : Schedule.run step s as = some s') :
    ∃ bs t', Schedule.run spec t bs = some t' ∧ R s' t' := by
  induction as generalizing s t with
  | nil =>
    cases hs
    exact ⟨[], t, rfl, hst⟩
  | cons a as ih =>
    obtain ⟨u, hu, hrest⟩ := run_cons_eq_some.mp hs
    obtain ⟨bs, v, hv, huv⟩ := h.matched hst hu
    obtain ⟨cs, t', ht', hst'⟩ := ih huv hrest
    refine ⟨bs ++ cs, t', ?_, hst'⟩
    rw [run_append, hv]
    exact ht'

end

theorem run_single {step : σ → α → Option σ} {s t : σ} {a : α} (h : step s a = some t) :
    run step s [a] = some t := run_cons_eq_some.mpr ⟨t, h, rfl⟩

open Classical in
/-- The machine without the steps that do not meet `P`. -/
noncomputable def restrict (step : σ → α → Option σ) (P : σ → α → Prop) (s : σ) (a : α) :
    Option σ := if P s a then step s a else none

theorem restrict_eq_some_iff {step : σ → α → Option σ} {P : σ → α → Prop} {s t : σ} {a : α} :
    restrict step P s a = some t ↔ P s a ∧ step s a = some t := Option.ite_none_right_eq_some

theorem run_of_restrict {step : σ → α → Option σ} {P : σ → α → Prop} {s t : σ} {as : List α}
    (h : run (restrict step P) s as = some t) :
    run step s as = some t ∧ Guarded step P s as := by
  induction as generalizing s with
  | nil => exact ⟨h, trivial⟩
  | cons a as ih =>
    obtain ⟨u, hu, hrest⟩ := run_cons_eq_some.mp h
    obtain ⟨hp, hstep⟩ := restrict_eq_some_iff.mp hu
    obtain ⟨hrun, hguarded⟩ := ih hrest
    refine ⟨run_cons_eq_some.mpr ⟨u, hstep, hrun⟩, fun v hv => ⟨hp, ?_⟩⟩
    rwa [← Option.some.inj (hstep.symm.trans hv)]

/-- A quantity that grows with every step has grown over a whole run. -/
theorem run_mono {step : σ → α → Option σ} {r : σ → σ → Prop} (hrefl : ∀ s, r s s)
    (htrans : ∀ s t u, r s t → r t u → r s u) (hstep : ∀ s a t, step s a = some t → r s t)
    {s t : σ} {as : List α} (h : run step s as = some t) : r s t := by
  induction as generalizing s with
  | nil =>
    cases h
    exact hrefl _
  | cons a as ih =>
    obtain ⟨u, hu, hrest⟩ := run_cons_eq_some.mp h
    exact htrans s u t (hstep s a u hu) (ih hrest)

end Schedule
