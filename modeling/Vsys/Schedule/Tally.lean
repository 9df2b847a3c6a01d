import Mathlib.Algebra.BigOperators.Group.Finset.Basic
import Mathlib.Algebra.Ring.Int.Defs
import Mathlib.Data.Fintype.Basic

/-! Properties of all parties and sums over them when the share of one party changes,
and sums over records that count one kind of event up and another down. -/

namespace Schedule

variable {ι α : Type*}

theorem forall_update_pair_iff {β : Type*} [DecidableEq ι] {P : α → β → Prop} (f : ι → α)
    (g : ι → β) (i : ι) (a : α) (b : β) :
    (∀ j, P (Function.update f i a j) (Function.update g i b j)) ↔
      P a b ∧ ∀ j, j ≠ i → P (f j) (g j) := by
  constructor
  · intro h
    refine ⟨?_, fun j hj => ?_⟩
    · have hi := h i
      rwa [Function.update_self, Function.update_self] at hi
    · have hj' := h j
      rwa [Function.update_of_ne hj, Function.update_of_ne hj] at hj'
  · rintro ⟨hi, hothers⟩ j
    by_cases hj : j = i
    · subst hj
      rwa [Function.update_self, Function.update_self]
    · rw [Function.update_of_ne hj, Function.update_of_ne hj]
      exact hothers j hj

theorem sum_comp_update_add {M : Type*} [AddCommMonoid M] [Fintype ι] [DecidableEq ι] (f : α → M)
    (g : ι → α) (i : ι) (y : α) :
    ∑ j, f (Function.update g i y j) + f (g i) = ∑ j, f (g j) + f y := by
  have hold := Finset.add_sum_erase Finset.univ (fun j => f (g j)) (Finset.mem_univ i)
  have hnew := Finset.add_sum_erase Finset.univ (fun j => f (Function.update g i y j))
    (Finset.mem_univ i)
  have hrest : ∑ j ∈ Finset.univ.erase i, f (Function.update g i y j) =
      ∑ j ∈ Finset.univ.erase i, f (g j) := by
    refine Finset.sum_congr rfl fun j hj => ?_
    rw [Function.update_of_ne (Finset.ne_of_mem_erase hj)]
  simp only [Function.update_self] at hnew
  rw [← hold, ← hnew, hrest, add_right_comm, add_comm (f y), add_right_comm]

theorem sum_comp_update [Fintype ι] [DecidableEq ι] (f : α → ℤ) (g : ι → α) (i : ι) (y : α) :
    ∑ j, f (Function.update g i y j) = ∑ j, f (g j) + (f y - f (g i)) := by
  have hboth := sum_comp_update_add f g i y
  omega

def signed [DecidableEq α] (a b e : α) : ℤ := if e = a then 1 else if e = b then -1 else 0

theorem sum_signed [DecidableEq α] [BEq α] [LawfulBEq α] {a b : α} (hne : a ≠ b) (es : List α) :
    (es.map (signed a b)).sum = (es.count a : ℤ) - es.count b := by
  induction es with
  | nil => rfl
  | cons e es ih =>
    rw [List.map_cons, List.sum_cons, ih, List.count_cons, List.count_cons, signed]
    by_cases ha : e = a
    · subst ha
      simp [hne]
      omega
    · by_cases hb : e = b
      · subst hb
        simp [ha]
        omega
      · simp [ha, hb]

end Schedule
