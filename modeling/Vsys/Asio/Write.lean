import Vsys.Asio.ReadUntil
import Vsys.Schedule.Completion

/-! `write`: a sequence of buffers goes to a stream with as many calls of `write_some` as
the stream wants, and `consuming_buffers` keeps what is left of it. -/

namespace Vsys.Asio

open CString Schedule

/-- `consuming_buffers` and the part of it that one transfer may take: the buffers that
are left, none of them when it is at its end. -/
structure ConsumingBuffers where
  buffers : List Bytes
  maxSize : ℕ
  deriving DecidableEq, Repr

namespace ConsumingBuffers

def prepare (n : ℕ) (c : ConsumingBuffers) : ConsumingBuffers := { c with maxSize := n }

/-- The buffers between `begin` and `end`, each cut to what is left of the maximum. -/
def covered (maxSize : ℕ) : ℕ → List Bytes → List Bytes
  | _, [] => []
  | offset, b :: bs =>
    let first := b.take (maxSize - offset)
    first ::
      if bs = [] ∨ maxSize ≤ offset + first.length then []
      else covered maxSize (offset + first.length) bs

def view (c : ConsumingBuffers) : List Bytes :=
  if 0 < c.maxSize then covered c.maxSize 0 c.buffers else []

def removeFront : ℕ → List Bytes → List Bytes
  | _, [] => []
  | n, b :: bs =>
    if n = 0 then b :: bs
    else if b.length ≤ n then removeFront (n - b.length) bs
    else b.drop n :: bs

def removeEmpty : List Bytes → List Bytes
  | [] => []
  | b :: bs => if b.length = 0 then removeEmpty bs else b :: bs

def consume (n : ℕ) (c : ConsumingBuffers) : ConsumingBuffers :=
  { c with buffers := removeEmpty (removeFront n c.buffers) }

theorem flatten_covered {maxSize offset : ℕ} (h : offset ≤ maxSize) (bs : List Bytes) :
    (covered maxSize offset bs).flatten = bs.flatten.take (maxSize - offset) := by
  induction bs generalizing offset with
  | nil => simp [covered]
  | cons b bs ih =>
    rw [covered, List.flatten_cons, List.flatten_cons, List.take_append]
    congr 1
    have hfirst := List.length_take (i := maxSize - offset) (l := b)
    split_ifs with hend
    · rcases hend with rfl | hfull
      · simp
      · rw [hfirst] at hfull
        rw [show maxSize - offset - b.length = 0 by omega, List.take_zero, List.flatten_nil]
    · rw [hfirst] at hend ⊢
      rw [ih (by omega)]
      congr 1
      omega

theorem flatten_view (c : ConsumingBuffers) :
    c.view.flatten = c.buffers.flatten.take c.maxSize := by
  rw [view]
  split_ifs with h
  · rw [flatten_covered (Nat.zero_le _), Nat.sub_zero]
  · rw [show c.maxSize = 0 by omega, List.take_zero, List.flatten_nil]

theorem covered_eq_nil_iff {maxSize offset : ℕ} {bs : List Bytes} :
    covered maxSize offset bs = [] ↔ bs = [] := by
  cases bs with
  | nil => exact iff_of_true rfl rfl
  | cons b bs => exact iff_of_false (by simp [covered]) (by simp)

theorem flatten_removeFront (n : ℕ) (bs : List Bytes) :
    (removeFront n bs).flatten = bs.flatten.drop n := by
  induction bs generalizing n with
  | nil => simp [removeFront]
  | cons b bs ih =>
    rw [removeFront, List.flatten_cons, List.drop_append]
    split_ifs with hzero hlen
    · rw [hzero, List.drop_zero, Nat.zero_sub, List.drop_zero, List.flatten_cons]
    · rw [ih, List.drop_of_length_le hlen, List.nil_append]
    · rw [List.flatten_cons, show n - b.length = 0 by omega, List.drop_zero]

theorem flatten_removeEmpty (bs : List Bytes) : (removeEmpty bs).flatten = bs.flatten := by
  induction bs with
  | nil => rfl
  | cons b bs ih =>
    rw [removeEmpty, List.flatten_cons]
    split_ifs with hempty
    · rw [ih, List.length_eq_zero_iff.mp hempty, List.nil_append]
    · rw [List.flatten_cons]

theorem removeEmpty_eq_nil {bs : List Bytes} (h : bs.flatten = []) : removeEmpty bs = [] := by
  induction bs with
  | nil => rfl
  | cons b bs ih =>
    rw [List.flatten_cons, List.append_eq_nil_iff] at h
    rw [removeEmpty, if_pos (List.length_eq_zero_iff.mpr h.1), ih h.2]

theorem flatten_consume (n : ℕ) (c : ConsumingBuffers) :
    (c.consume n).buffers.flatten = c.buffers.flatten.drop n := by
  rw [consume, flatten_removeEmpty, flatten_removeFront]

theorem consume_eq_nil_iff (n : ℕ) (c : ConsumingBuffers) :
    (c.consume n).buffers = [] ↔ c.buffers.flatten.length ≤ n := by
  rw [← List.drop_eq_nil_iff, ← flatten_consume]
  constructor
  · intro h
    rw [h, List.flatten_nil]
  · intro h
    rw [flatten_consume, ← flatten_removeFront] at h
    exact removeEmpty_eq_nil h

end ConsumingBuffers

variable {ε : Type*}

/-- What a `write_some` comes to; with an error nothing is written. -/
inductive WriteSome (ε : Type*) where
  | accepted (k : ℕ)
  | failed (e : ε)
  deriving DecidableEq, Repr

inductive Writing (ε : Type*) where
  | sending (c : ConsumingBuffers) (total : ℕ)
  | ended (ec : Option ε) (total : ℕ)
  deriving DecidableEq, Repr

namespace Writing

/-- `transfer_all`. -/
def transferAll : Option ε → ℕ
  | none => 65536
  | some _ => 0

def proceed (c : ConsumingBuffers) (ec : Option ε) (total : ℕ) : Writing ε :=
  if (c.prepare (transferAll ec)).view = [] then .ended ec total
  else .sending (c.prepare (transferAll ec)) total

def start (buffers : List Bytes) : Writing ε × Bytes :=
  (proceed ⟨buffers, 18446744073709551615⟩ none 0, [])

/-- A `write_some`, with the bytes that have got to the stream. It takes one byte at least
where there is one. -/
def step : Writing ε × Bytes → WriteSome ε → Option (Writing ε × Bytes)
  | (.sending c total, sent), .accepted k =>
    if k ≤ c.view.flatten.length ∧ (k = 0 → c.view.flatten = []) then
      some (proceed (c.consume k) none (total + k), sent ++ c.view.flatten.take k)
    else none
  | (.sending c total, sent), .failed e => some (proceed (c.consume 0) (some e) total, sent)
  | (.ended _ _, _), _ => none

/-- The stream has a part of the text from its begin on, and each byte once. -/
inductive Delivers (text : Bytes) : Writing ε × Bytes → Prop
  | sending {c : ConsumingBuffers} {sent : Bytes} (hrest : sent ++ c.buffers.flatten = text)
    (hmax : c.maxSize = 65536) : Delivers text (.sending c sent.length, sent)
  | done : Delivers text (.ended none text.length, text)
  | broken {e : ε} {sent : Bytes} (hsent : sent <+: text) :
    Delivers text (.ended (some e) sent.length, sent)

theorem view_eq_nil_iff {c : ConsumingBuffers} (hmax : c.maxSize = 65536) :
    c.view = [] ↔ c.buffers = [] := by
  rw [ConsumingBuffers.view, if_pos (by omega), ConsumingBuffers.covered_eq_nil_iff]

theorem proceed_none_cases (c : ConsumingBuffers) (total : ℕ) :
    (c.buffers = [] ∧ proceed c none total = (.ended none total : Writing ε)) ∨
      (c.buffers ≠ [] ∧ proceed c none total =
        (.sending { c with maxSize := 65536 } total : Writing ε)) := by
  have hview : (c.prepare 65536).view = [] ↔ c.buffers = [] :=
    @view_eq_nil_iff (c.prepare 65536) rfl
  by_cases hend : c.buffers = []
  · refine Or.inl ⟨hend, ?_⟩
    rw [proceed]
    exact if_pos (hview.mpr hend)
  · refine Or.inr ⟨hend, ?_⟩
    rw [proceed]
    exact if_neg (mt hview.mp hend)

theorem proceed_failed (c : ConsumingBuffers) (e : ε) (total : ℕ) :
    proceed c (some e) total = .ended (some e) total := by
  have hview : (c.prepare 0).view = [] := by
    rw [ConsumingBuffers.view]
    exact if_neg (Nat.lt_irrefl 0)
  rw [proceed]
  exact if_pos hview

theorem proceed_delivers {c : ConsumingBuffers} {sent text : Bytes}
    (h : sent ++ c.buffers.flatten = text) :
    Delivers text ((proceed c none sent.length, sent) : Writing ε × Bytes) := by
  rcases proceed_none_cases c sent.length with ⟨hend, heq⟩ | ⟨-, heq⟩
  · rw [hend, List.flatten_nil, List.append_nil] at h
    subst h
    rw [heq]
    exact .done
  · rw [heq]
    exact .sending h rfl

theorem step_delivers {text : Bytes} {s s' : Writing ε × Bytes} {t : WriteSome ε}
    (hs : Delivers text s) (h : step s t = some s') : Delivers text s' := by
  cases hs with
  | @sending c sent hrest hmax =>
    cases t with
    | accepted k =>
      obtain ⟨⟨hk, -⟩, h⟩ := Option.ite_none_right_eq_some.mp h
      obtain rfl := Option.some.inj h
      have hlen : (sent ++ c.view.flatten.take k).length = sent.length + k := by
        rw [List.length_append, List.length_take_of_le hk]
      rw [← hlen]
      refine proceed_delivers ?_
      rw [c.flatten_consume, c.flatten_view, List.take_take, min_eq_left, List.append_assoc,
        List.take_append_drop, hrest]
      rw [c.flatten_view, List.length_take] at hk
      omega
    | failed e =>
      cases h
      rw [proceed_failed]
      exact .broken ⟨_, hrest⟩
  | done => cases h
  | broken => cases h

/-- The bytes that are left, and one more for the call that finds nothing left. -/
def weight : Writing ε × Bytes → ℕ
  | (.sending c _, _) => c.buffers.flatten.length + 1
  | (.ended _ _, _) => 0

theorem step_lowers {text : Bytes} {s s' : Writing ε × Bytes} {t : WriteSome ε}
    (hs : Delivers text s) (h : step s t = some s') : weight s' < weight s := by
  cases hs with
  | @sending c sent hrest hmax =>
    cases t with
    | failed e =>
      cases h
      rw [proceed_failed]
      exact Nat.succ_pos _
    | accepted k =>
      obtain ⟨⟨hk, hzero⟩, h⟩ := Option.ite_none_right_eq_some.mp h
      obtain rfl := Option.some.inj h
      rcases proceed_none_cases (c.consume k) (sent.length + k) with ⟨-, heq⟩ | ⟨hleft, heq⟩
      · rw [heq]
        exact Nat.succ_pos _
      · rw [ne_eq, ConsumingBuffers.consume_eq_nil_iff, Nat.not_le] at hleft
        rw [c.flatten_view, hmax] at hk hzero
        have hpos : k ≠ 0 := by
          intro hk0
          have hnil := hzero hk0
          rw [List.take_eq_nil_iff] at hnil
          rcases hnil with hmax0 | hempty
          · omega
          · rw [hempty] at hleft
            exact absurd hleft (Nat.not_lt_zero k)
        rw [heq]
        change (c.consume k).buffers.flatten.length + 1 < c.buffers.flatten.length + 1
        rw [c.flatten_consume, List.length_drop]
        omega
  | done => cases h
  | broken => cases h

/-- A loop that has not ended has a write before it, of one byte where there is one. -/
theorem halted_iff {s : Writing ε × Bytes} :
    Halted step s ↔ ∃ ec total, s.1 = .ended ec total := by
  obtain ⟨w, sent⟩ := s
  cases w with
  | ended ec total => exact iff_of_true (fun _ => rfl) ⟨ec, total, rfl⟩
  | sending c total =>
    refine iff_of_false (fun hhalted => ?_) fun ⟨_, _, h⟩ => nomatch h
    have hnext := hhalted (.accepted (min 1 c.view.flatten.length))
    simp only [step, ite_eq_right_iff, reduceCtorEq, imp_false, not_and] at hnext
    refine hnext (min_le_right _ _) fun hzero => List.eq_nil_of_length_eq_zero ?_
    omega

/-- However the stream takes the bytes, it gets them in their order and each of them once,
all of them unless it fails; and the loop ends after as many writes as there are bytes: it
can go on until it has. -/
theorem run_delivers {buffers : List Bytes} {ts : List (WriteSome ε)} {s : Writing ε × Bytes}
    (h : run step (start buffers) ts = some s) :
    Delivers buffers.flatten s ∧ ts.length ≤ buffers.flatten.length + 1 ∧
      (Halted step s ↔ ∃ ec total, s.1 = .ended ec total) := by
  have hstart : Delivers buffers.flatten (start buffers : Writing ε × Bytes) :=
    @proceed_delivers ε ⟨buffers, 18446744073709551615⟩ [] _ (List.nil_append _)
  have hweight : weight (start buffers : Writing ε × Bytes) ≤ buffers.flatten.length + 1 := by
    rcases @proceed_none_cases ε ⟨buffers, 18446744073709551615⟩ 0 with ⟨-, heq⟩ | ⟨-, heq⟩
    · rw [start, heq]
      exact Nat.zero_le _
    · rw [start, heq]
      exact le_rfl
  have hlength := run_length_le_measure (fun _ _ _ => step_delivers)
    (fun _ _ _ => step_lowers) hstart h
  exact ⟨run_invariant (fun _ _ _ => step_delivers) hstart h, by omega, halted_iff⟩

theorem run_delivers_pieces :
    let ts : List (WriteSome Unit) := [.accepted 1, .accepted 1, .accepted 1]
    ∃ s, run step (start [[], ascii "in", [], ascii "\n"]) ts = some s ∧
      Delivers (ascii "in\n") s ∧ ts.length ≤ 4 ∧
      (Halted step s ↔ ∃ ec total, s.1 = .ended ec total) := by
  intro ts
  obtain ⟨s, hs⟩ : ∃ s, run step (start [[], ascii "in", [], ascii "\n"]) ts = some s :=
    Option.isSome_iff_exists.mp (by decide)
  exact ⟨s, hs, run_delivers hs⟩

end Writing

end Vsys.Asio
