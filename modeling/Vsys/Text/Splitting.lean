import Mathlib.Data.List.Basic

/-! Taking an input apart piece by piece with a reader that returns a piece and the
rest of the input. -/

namespace Splitting

variable {α β : Type*}

def within (next : List α → Option (β × List α)) : ℕ → List α → List β
  | 0, _ => []
  | n + 1, input =>
    match next input with
    | none => []
    | some (b, rest) => b :: within next n rest

def all (next : List α → Option (β × List α)) (input : List α) : List β :=
  within next input.length input

def Shortens (next : List α → Option (β × List α)) : Prop :=
  ∀ input b rest, next input = some (b, rest) → rest.length < input.length

/-- Inputs that the reader takes apart without looking behind their end. -/
structure Closed (next : List α → Option (β × List α)) (P : List α → Prop) : Prop where
  empty : ∀ x, P x → next x = none → x = []
  piece : ∀ x b rest, P x → next x = some (b, rest) →
    P rest ∧ ∀ y, next (x ++ y) = some (b, rest ++ y)

section
variable {next : List α → Option (β × List α)} (h : Shortens next)
include h

theorem reading {P : List α → Prop} (hnone : ∀ x, next x = none → P x)
    (hsome : ∀ x b rest, next x = some (b, rest) → P rest → P x) (x : List α) : P x := by
  induction hn : x.length using Nat.strongRecOn generalizing x with
  | _ n ih =>
    cases hx : next x with
    | none => exact hnone x hx
    | some p =>
      obtain ⟨b, rest⟩ := p
      exact hsome x b rest hx (ih rest.length (hn ▸ h x b rest hx) rest rfl)

theorem within_of_le {m n : ℕ} {x : List α} (hm : x.length ≤ m) (hn : x.length ≤ n) :
    within next m x = within next n x := by
  induction m generalizing n x with
  | zero =>
    have hx : x = [] := List.length_eq_zero_iff.mp (by omega)
    subst hx
    cases n with
    | zero => rfl
    | succ n =>
      cases hr : next [] with
      | none => simp [within, hr]
      | some p => exact absurd (h [] p.1 p.2 hr) (Nat.not_lt_zero _)
  | succ m ih =>
    cases hr : next x with
    | none => cases n <;> simp [within, hr]
    | some p =>
      obtain ⟨b, rest⟩ := p
      have hlt := h x b rest hr
      obtain ⟨n, rfl⟩ : ∃ k, n = k + 1 := ⟨n - 1, by omega⟩
      have hrest : within next m rest = within next n rest := ih (by omega) (by omega)
      simp only [within, hr, hrest]

theorem all_of_some {x rest : List α} {b : β} (hx : next x = some (b, rest)) :
    all next x = b :: all next rest := by
  have hlt := h x b rest hx
  obtain ⟨n, hn⟩ : ∃ k, x.length = k + 1 := ⟨x.length - 1, by omega⟩
  have hrest : within next n rest = all next rest := within_of_le h (by omega) (Nat.le_refl _)
  rw [all, hn, within]
  simp only [hx, hrest]

omit h in
theorem all_of_none {x : List α} (hx : next x = none) : all next x = [] := by
  rw [all]
  cases x.length with
  | zero => rfl
  | succ n => simp only [within, hx]

/-- What stands before a closed end is taken apart as if nothing came behind it. -/
theorem all_append {P : List α → Prop} (hP : Closed next P) {x : List α} (hx : P x)
    (y : List α) : all next (x ++ y) = all next x ++ all next y := by
  induction x using reading h with
  | hnone x hnext =>
    obtain rfl := hP.empty x hx hnext
    rw [all_of_none hnext, List.nil_append, List.nil_append]
  | hsome x b rest hnext ih =>
    obtain ⟨hrest, hbehind⟩ := hP.piece x b rest hx hnext
    rw [all_of_some h (hbehind y), all_of_some h hnext, ih hrest, List.cons_append]

theorem all_flatten {P : List α → Prop} (hP : Closed next P) (pieces : List (List α))
    (hpieces : ∀ x ∈ pieces.dropLast, P x) :
    all next pieces.flatten = pieces.flatMap (all next) := by
  induction pieces with
  | nil =>
    rw [List.flatten_nil, List.flatMap_nil]
    cases hr : next [] with
    | none => exact all_of_none hr
    | some p => exact absurd (h [] p.1 p.2 hr) (Nat.not_lt_zero _)
  | cons x xs ih =>
    cases xs with
    | nil => simp
    | cons z zs =>
      have hx : P x := hpieces x (by simp)
      have hrest := ih fun w hw => hpieces w (by simp [List.dropLast_cons_of_ne_nil, hw])
      rw [List.flatten_cons, all_append h hP hx, hrest]
      rfl

end

end Splitting
