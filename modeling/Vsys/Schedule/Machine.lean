import Mathlib.Algebra.Ring.Int.Defs
import Mathlib.Data.List.Basic

/-! Objects that are called one call at a time. Each call returns an outcome and
leaves the object in its next state; objects whose states stay related under every
call cannot be told apart by their outcomes. -/

namespace Schedule

variable {σ τ κ ρ : Type*}

/-- The outcomes of the calls, in order, and the state they leave. -/
def history (perform : κ → σ → ρ × σ) : List κ → σ → List ρ × σ
  | [], s => ([], s)
  | c :: cs, s =>
    let r := perform c s
    (r.1 :: (history perform cs r.2).1, (history perform cs r.2).2)

/-- The calls with their outcomes. -/
def record (perform : κ → σ → ρ × σ) (cs : List κ) (s : σ) : List (κ × ρ) :=
  cs.zip (history perform cs s).1

structure Simulates (R : σ → τ → Prop) (f : κ → σ → ρ × σ) (g : κ → τ → ρ × τ) : Prop where
  outcome : ∀ c s t, R s t → (f c s).1 = (g c t).1
  related : ∀ c s t, R s t → R (f c s).2 (g c t).2

theorem Simulates.history {R : σ → τ → Prop} {f : κ → σ → ρ × σ} {g : κ → τ → ρ × τ}
    (h : Simulates R f g) {s : σ} {t : τ} (hst : R s t) (cs : List κ) :
    (history f cs s).1 = (Schedule.history g cs t).1 ∧
      R (Schedule.history f cs s).2 (Schedule.history g cs t).2 := by
  induction cs generalizing s t with
  | nil => exact ⟨rfl, hst⟩
  | cons c cs ih =>
    obtain ⟨houtcomes, hlast⟩ := ih (h.related c s t hst)
    have hfirst := h.outcome c s t hst
    refine ⟨?_, hlast⟩
    simp only [Schedule.history, hfirst, houtcomes]

theorem history_eq {α : Type*} {f : κ → σ → ρ × σ} {m : σ → α} (hm : ∀ c s, m (f c s).2 = m s)
    (cs : List κ) (s : σ) : m (history f cs s).2 = m s := by
  induction cs generalizing s with
  | nil => rfl
  | cons c cs ih => exact (ih (f c s).2).trans (hm c s)

/-- A quantity that each call changes by an amount its outcome tells is changed by
a whole history by the sum of these. -/
theorem history_measure {f : κ → σ → ρ × σ} {m : σ → ℤ} {d : κ × ρ → ℤ}
    (hm : ∀ c s, m (f c s).2 = m s + d (c, (f c s).1)) (cs : List κ) (s : σ) :
    m (history f cs s).2 = m s + ((record f cs s).map d).sum := by
  induction cs generalizing s with
  | nil => exact (Int.add_zero (m s)).symm
  | cons c cs ih =>
    have hrest := ih (f c s).2
    have hfirst := hm c s
    simp only [record, history, List.zip_cons_cons, List.map_cons, List.sum_cons] at hrest ⊢
    rw [hrest, hfirst, Int.add_assoc]

end Schedule
