import Mathlib.Data.List.Infix
import Mathlib.Data.Nat.Find

/-! The first occurrence of a delimiter in a text that grows at its end, for a search
that goes on where an earlier one has stopped. -/

namespace Delimiter

variable {α : Type*} {d xs ys : List α} {i j p q : ℕ}

/-- The first occurrence of `d` begins at `i`. -/
def FoundAt (d xs : List α) (i : ℕ) : Prop := d <+: xs.drop i ∧ ∀ j < i, ¬ d <+: xs.drop j

/-- However the text goes on, no occurrence of `d` begins before `p`. -/
def Cleared (d xs : List α) (p : ℕ) : Prop :=
  p ≤ xs.length ∧ ∀ j < p, ∀ ys, ¬ d <+: xs.drop j ++ ys

theorem FoundAt.infix (h : FoundAt d xs i) : d <:+: xs :=
  h.1.isInfix.trans (List.drop_suffix i xs).isInfix

theorem exists_foundAt_iff : (∃ i, FoundAt d xs i) ↔ d <:+: xs := by
  classical
  constructor
  · rintro ⟨i, h⟩
    exact h.infix
  · rintro ⟨a, b, rfl⟩
    have hex : ∃ i, d <+: (a ++ d ++ b).drop i := by
      refine ⟨a.length, b, ?_⟩
      rw [List.append_assoc, List.drop_left]
    exact ⟨Nat.find hex, Nat.find_spec hex, fun j hj => Nat.find_min hex hj⟩

theorem FoundAt.length_le (hd : d ≠ []) (h : FoundAt d xs i) : i + d.length ≤ xs.length := by
  have hlen := h.1.length_le
  have hpos := List.length_pos_of_ne_nil hd
  rw [List.length_drop] at hlen
  omega

/-- An occurrence stays the first one when the text goes on. -/
theorem FoundAt.append (hd : d ≠ []) (h : FoundAt d xs i) (ys : List α) :
    FoundAt d (xs ++ ys) i := by
  have hlen := h.length_le hd
  refine ⟨?_, fun j hj hpre => h.2 j hj ?_⟩
  · rw [List.drop_append_of_le_length (by omega)]
    exact h.1.trans (List.prefix_append _ ys)
  · rw [List.drop_append_of_le_length (by omega)] at hpre
    refine List.prefix_of_prefix_length_le hpre (List.prefix_append _ ys) ?_
    rw [List.length_drop]
    omega

theorem cleared_zero : Cleared d xs 0 := ⟨Nat.zero_le _, fun _ hj => absurd hj (Nat.not_lt_zero _)⟩

theorem Cleared.append (h : Cleared d xs p) (ys : List α) : Cleared d (xs ++ ys) p := by
  have hp := h.1
  refine ⟨by rw [List.length_append]; omega, fun j hj zs => ?_⟩
  rw [List.drop_append_of_le_length (by omega), List.append_assoc]
  exact h.2 j hj (ys ++ zs)

theorem Cleared.not_prefix (h : Cleared d xs p) (hj : j < p) : ¬ d <+: xs.drop j := by
  have hnone := h.2 j hj []
  rwa [List.append_nil] at hnone

/-- What the search finds behind a cleared part is the first occurrence of all. -/
theorem Cleared.foundAt (h : Cleared d xs p) (hi : FoundAt d (xs.drop p) i) :
    FoundAt d xs (p + i) := by
  refine ⟨?_, fun j hj hpre => ?_⟩
  · rw [← List.drop_drop]
    exact hi.1
  · by_cases hlt : j < p
    · exact h.not_prefix hlt hpre
    · refine hi.2 (j - p) (by omega) ?_
      rw [List.drop_drop, Nat.add_sub_cancel' (Nat.le_of_not_lt hlt)]
      exact hpre

theorem Cleared.add (h : Cleared d xs p) (hq : Cleared d (xs.drop p) q) :
    Cleared d xs (p + q) := by
  have hp := h.1
  have hlen := hq.1
  rw [List.length_drop] at hlen
  refine ⟨by omega, fun j hj ys => ?_⟩
  by_cases hlt : j < p
  · exact h.2 j hlt ys
  · have hrest := hq.2 (j - p) (by omega) ys
    rwa [List.drop_drop, Nat.add_sub_cancel' (Nat.le_of_not_lt hlt)] at hrest

theorem Cleared.infix_iff (h : Cleared d xs p) : d <:+: xs ↔ d <:+: xs.drop p := by
  refine ⟨fun hinf => ?_, fun hinf => hinf.trans (List.drop_suffix p xs).isInfix⟩
  obtain ⟨i, hi⟩ := exists_foundAt_iff.mpr hinf
  have hp : p ≤ i := Nat.le_of_not_lt fun hlt => h.not_prefix hlt hi.1
  refine List.IsInfix.trans hi.1.isInfix ?_
  rw [← Nat.add_sub_cancel' hp, ← List.drop_drop]
  exact (List.drop_suffix _ _).isInfix

/-- A text is cut in one way only at the first occurrence of a character. -/
theorem append_cons_inj {a : α} {us vs : List α} (hx : a ∉ xs) (hu : a ∉ us)
    (h : xs ++ a :: ys = us ++ a :: vs) : xs = us ∧ ys = vs := by
  induction xs generalizing us with
  | nil =>
    cases us with
    | nil => exact ⟨rfl, (List.cons.inj h).2⟩
    | cons b us => exact absurd ((List.cons.inj h).1 ▸ List.mem_cons_self) hu
  | cons b xs ih =>
    cases us with
    | nil => exact absurd ((List.cons.inj h).1 ▸ List.mem_cons_self) hx
    | cons c us =>
      obtain ⟨rfl, hrest⟩ := List.cons.inj h
      obtain ⟨rfl, rfl⟩ := ih (fun hm => hx (List.mem_cons_of_mem b hm))
        (fun hm => hu (List.mem_cons_of_mem b hm)) hrest
      exact ⟨rfl, rfl⟩

/-- The same at the last occurrence. -/
theorem append_cons_inj_right {a : α} {us vs : List α} (hy : a ∉ ys) (hv : a ∉ vs)
    (h : xs ++ a :: ys = us ++ a :: vs) : xs = us ∧ ys = vs := by
  have hreverse := congrArg List.reverse h
  simp only [List.reverse_append, List.reverse_cons, List.append_assoc,
    List.singleton_append] at hreverse
  obtain ⟨hys, hxs⟩ := append_cons_inj (by rwa [List.mem_reverse])
    (by rwa [List.mem_reverse]) hreverse
  exact ⟨List.reverse_inj.mp hxs, List.reverse_inj.mp hys⟩

end Delimiter
