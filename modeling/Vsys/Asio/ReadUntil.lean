import Vsys.Asio.Streambuf
import Vsys.Text.Delimiter

/-! `read_until` and `async_read_until` with a delimiter that is a string. After each
read they search on from where an occurrence may begin that had not come to its end. -/

namespace Vsys.Asio

open CString Delimiter Schedule

section
variable {α : Type*} [DecidableEq α]

/-- How the comparison of a text with the delimiter ends. -/
inductive Comparison where
  | full
  | short
  | differs
  deriving DecidableEq, Repr

def test : List α → List α → Comparison
  | _, [] => .full
  | [], _ :: _ => .short
  | x :: xs, y :: ys => if x = y then test xs ys else .differs

/-- The first place from which the delimiter, or as much of it as the text has left, is
there, and whether it is the whole delimiter. -/
def partialSearch : List α → List α → ℕ × Bool
  | [], _ => (0, false)
  | x :: xs, d =>
    match test (x :: xs) d with
    | .full => (0, true)
    | .short => (0, false)
    | .differs => ((partialSearch xs d).1 + 1, (partialSearch xs d).2)

theorem test_eq_full_iff {xs d : List α} : test xs d = .full ↔ d <+: xs := by
  induction d generalizing xs with
  | nil => exact iff_of_true (by rw [test]) (List.nil_prefix)
  | cons y ys ih =>
    cases xs with
    | nil => exact iff_of_false (by simp [test]) (by simp)
    | cons x xs =>
      by_cases h : x = y
      · subst h
        rw [test, if_pos rfl, ih, List.prefix_cons_inj]
      · rw [test, if_neg h]
        refine iff_of_false (by simp) fun hpre => h (List.cons_prefix_cons.mp hpre).1.symm

theorem test_eq_short_iff {xs d : List α} :
    test xs d = .short ↔ xs <+: d ∧ xs.length < d.length := by
  induction d generalizing xs with
  | nil => exact iff_of_false (by simp [test]) (by simp)
  | cons y ys ih =>
    cases xs with
    | nil => exact iff_of_true (by rw [test]) (by simp)
    | cons x xs =>
      by_cases h : x = y
      · subst h
        rw [test, if_pos rfl, ih, List.prefix_cons_inj, List.length_cons, List.length_cons,
          Nat.add_lt_add_iff_right]
      · rw [test, if_neg h]
        refine iff_of_false (by simp) fun hpre => h (List.cons_prefix_cons.mp hpre.1).1

/-- Where the comparison has found a difference, none of the bytes to come makes an
occurrence of it. -/
theorem not_prefix_of_differs {xs d : List α} (h : test xs d = .differs) (ys : List α) :
    ¬ d <+: xs ++ ys := by
  intro hpre
  rcases List.prefix_or_prefix_of_prefix hpre (List.prefix_append xs ys) with hd | hxs
  · rw [test_eq_full_iff.mpr hd] at h
    exact Comparison.noConfusion h
  · rcases Nat.lt_or_ge xs.length d.length with hlen | hlen
    · rw [test_eq_short_iff.mpr ⟨hxs, hlen⟩] at h
      exact Comparison.noConfusion h
    · rw [test_eq_full_iff.mpr (hxs.eq_of_length_le hlen ▸ List.prefix_rfl)] at h
      exact Comparison.noConfusion h

theorem cleared_succ {x : α} {xs d : List α} {p : ℕ} (h : test (x :: xs) d = .differs)
    (hp : Cleared d xs p) : Cleared d (x :: xs) (p + 1) := by
  refine ⟨Nat.succ_le_succ hp.1, fun j hj ys => ?_⟩
  cases j with
  | zero => exact not_prefix_of_differs h ys
  | succ j => exact hp.2 j (Nat.lt_of_succ_lt_succ hj) ys

theorem partialSearch_found {xs d : List α} (h : (partialSearch xs d).2 = true) :
    FoundAt d xs (partialSearch xs d).1 ∧ (partialSearch xs d).1 < xs.length := by
  induction xs with
  | nil => exact absurd h Bool.false_ne_true
  | cons x xs ih =>
    rw [partialSearch] at h ⊢
    cases htest : test (x :: xs) d with
    | full => exact ⟨⟨test_eq_full_iff.mp htest, fun j hj => absurd hj (Nat.not_lt_zero j)⟩,
        Nat.zero_lt_succ _⟩
    | short => simp [htest] at h
    | differs =>
      simp only [htest] at h ⊢
      obtain ⟨hfound, hlt⟩ := ih h
      rw [Nat.add_comm]
      refine ⟨(cleared_succ htest cleared_zero).foundAt hfound, ?_⟩
      rw [List.length_cons]
      omega

theorem partialSearch_missed {xs d : List α} (hd : d ≠ [])
    (h : (partialSearch xs d).2 = false) :
    Cleared d xs (partialSearch xs d).1 ∧ ¬ d <:+: xs := by
  induction xs with
  | nil => exact ⟨cleared_zero, fun hinf => hd (List.infix_nil.mp hinf)⟩
  | cons x xs ih =>
    rw [partialSearch] at h ⊢
    cases htest : test (x :: xs) d with
    | full => simp [htest] at h
    | short =>
      have hlen := (test_eq_short_iff.mp htest).2
      exact ⟨cleared_zero, fun hinf => absurd hinf.length_le (Nat.not_le_of_lt hlen)⟩
    | differs =>
      simp only [htest] at h ⊢
      obtain ⟨hcleared, hnone⟩ := ih h
      refine ⟨cleared_succ htest hcleared, fun hinf => ?_⟩
      rcases List.infix_cons_iff.mp hinf with hpre | htail
      · refine not_prefix_of_differs htest [] ?_
        rwa [List.append_nil]
      · exact hnone htail

end

/-- `friend read_size_helper`. -/
def readSizeHelper (b : Streambuf) (maxSize : ℕ) : ℕ :=
  min (max 512 (b.capacity - b.size)) (min maxSize (b.maxSize - b.size))

variable {ε : Type*}

inductive ReadError (ε : Type*) where
  | notFound
  | stream (e : ε)
  deriving DecidableEq, Repr

/-- What a read of the stream brings. With an error it brings no bytes. -/
inductive Transfer (ε : Type*) where
  | received (chunk : Bytes)
  | failed (e : ε)
  deriving DecidableEq, Repr

def Transfer.bytes : Transfer ε → Bytes
  | .received chunk => chunk
  | .failed _ => []

/-- A read of `asked` bytes brings at most so many, and none only where none are asked. -/
def Transfer.Fits (asked : ℕ) : Transfer ε → Prop
  | .received chunk => chunk.length ≤ asked ∧ (chunk = [] → asked = 0)
  | .failed _ => True

instance (asked : ℕ) (t : Transfer ε) : Decidable (t.Fits asked) := by
  cases t with
  | received chunk => exact inferInstanceAs (Decidable (_ ∧ _))
  | failed e => exact inferInstanceAs (Decidable True)

/-- Where a call is: in a read of `asked` bytes, or at its end with an error code and a
number of bytes. The position is none where it is `not_found`. -/
inductive Reading (ε : Type*) where
  | waiting (b : Streambuf) (position : Option ℕ) (asked : ℕ)
  | ended (b : Streambuf) (ec : Option (ReadError ε)) (n : ℕ)
  | thrown (b : Streambuf)
  deriving DecidableEq, Repr

section
variable (A : Allocation) (delim : Bytes)

namespace ReadUntil

/-- The loop of `read_until` from its begin to the next read. -/
def search (b : Streambuf) (position : ℕ) : Reading ε :=
  let text := b.data.drop position
  let r := partialSearch text delim
  if r.1 ≠ text.length ∧ r.2 = true then .ended b none (position + r.1 + delim.length)
  else if b.size = b.maxSize then .ended b (some .notFound) 0
  else
    let p := b.prepare A (readSizeHelper b 65536)
    if p.2 then .waiting p.1 (some (position + r.1)) (readSizeHelper b 65536) else .thrown p.1

def start (b : Streambuf) : Reading ε := search A delim b 0

def step (s : Reading ε) (t : Transfer ε) : Option (Reading ε) :=
  match s with
  | .waiting b (some position) asked =>
    if t.Fits asked then
      match t with
      | .received chunk =>
        ((b.store chunk).commit chunk.length).map fun b' => search A delim b' position
      | .failed e => some (.ended b (some (.stream e)) 0)
    else none
  | _ => none

end ReadUntil

namespace AsyncReadUntil

/-- What the handler gets. -/
def handler (b : Streambuf) (ec : Option ε) : Option ℕ → Reading ε
  | none => .ended b (some .notFound) 0
  | some position =>
    match ec with
    | none => .ended b none position
    | some e => .ended b (some (.stream e)) 0

/-- The position after a search, and how many bytes are to be read. -/
def next (b : Streambuf) (position : ℕ) : Option ℕ × ℕ :=
  let text := b.data.drop position
  let r := partialSearch text delim
  if r.1 ≠ text.length ∧ r.2 = true then (some (position + r.1 + delim.length), 0)
  else if b.size = b.maxSize then (none, 0)
  else (some (position + r.1), readSizeHelper b 65536)

/-- The loop of `read_until_delim_string_op`. The first time it starts a read also where
it has nothing more to ask for. -/
def loop (first : Bool) (b : Streambuf) (position : ℕ) : Reading ε :=
  let n := next delim b position
  if first = false ∧ n.2 = 0 then handler b none n.1
  else
    let p := b.prepare A n.2
    if p.2 then .waiting p.1 n.1 n.2 else .thrown p.1

def start (b : Streambuf) : Reading ε := loop A delim true b 0

/-- The operation as the completion of its read calls it. -/
def step (s : Reading ε) (t : Transfer ε) : Option (Reading ε) :=
  match s with
  | .waiting b position asked =>
    if t.Fits asked then
      match t with
      | .received chunk =>
        ((b.store chunk).commit chunk.length).bind fun b' =>
          if chunk = [] then some (handler b' none position)
          else position.map (loop A delim false b')
      | .failed e => some (handler b (some e) position)
    else none
  | _ => none

end AsyncReadUntil

end

theorem readSizeHelper_le (b : Streambuf) (n : ℕ) :
    readSizeHelper b n ≤ n ∧ b.size + readSizeHelper b n ≤ b.maxSize := by
  have hsize := b.size_le_maxSize
  rw [readSizeHelper]
  omega

theorem readSizeHelper_pos {b : Streambuf} (h : b.size ≠ b.maxSize) :
    0 < readSizeHelper b 65536 := by
  have hsize := b.size_le_maxSize
  rw [readSizeHelper]
  omega

/-- Where a call is when the text in its streambuf is `x`: a read is under way only while
the delimiter is not in the text, and the search has passed nothing where it might begin. -/
inductive Explains (delim x : Bytes) (maxSize : ℕ) : Reading ε → Prop
  | waiting {b : Streambuf} {position asked : ℕ} (hdata : b.data = x) (hmax : b.maxSize = maxSize)
    (hcleared : Cleared delim x position) (hnone : ¬ delim <:+: x) (hpos : 0 < asked)
    (hasked : asked ≤ 65536) (hroom : asked ≤ b.pend - b.pnext) :
    Explains delim x maxSize (.waiting b (some position) asked)
  | found {b : Streambuf} {i : ℕ} (hdata : b.data = x) (hfound : FoundAt delim x i) :
    Explains delim x maxSize (.ended b none (i + delim.length))
  | full {b : Streambuf} (hdata : b.data = x) (hnone : ¬ delim <:+: x)
    (hfull : x.length = maxSize) : Explains delim x maxSize (.ended b (some .notFound) 0)
  | broken {b : Streambuf} {e : ε} (hdata : b.data = x) (hnone : ¬ delim <:+: x) :
    Explains delim x maxSize (.ended b (some (.stream e)) 0)

section
variable {A : Allocation} {delim : Bytes}

theorem prepare_roomy (A : Allocation) (b : Streambuf) :
    (b.prepare A (readSizeHelper b 65536)).2 = true ∧
      Streambuf.Roomy (readSizeHelper b 65536) b (b.prepare A (readSizeHelper b 65536)).1 := by
  have htrue : (b.reserve A (readSizeHelper b 65536)).2 = true := by
    rw [← Bool.not_eq_false, Streambuf.reserve_throws_iff]
    exact Nat.not_lt_of_le (readSizeHelper_le b 65536).2
  exact ⟨htrue, Streambuf.reserve_roomy htrue⟩

/-- The condition under which the search ends the call: the text behind the position has
the delimiter in it. -/
def Matches (delim : Bytes) (b : Streambuf) (position : ℕ) : Prop :=
  (partialSearch (b.data.drop position) delim).1 ≠ (b.data.drop position).length ∧
    (partialSearch (b.data.drop position) delim).2 = true

instance (b : Streambuf) (position : ℕ) : Decidable (Matches delim b position) :=
  inferInstanceAs (Decidable (_ ∧ _))

theorem not_matches {b : Streambuf} {position : ℕ} (h : ¬ Matches delim b position) :
    (partialSearch (b.data.drop position) delim).2 = false := by
  rw [← Bool.not_eq_true]
  intro htrue
  exact h ⟨(partialSearch_found htrue).2.ne, htrue⟩

theorem search_of_matches {b : Streambuf} {position : ℕ} (h : Matches delim b position) :
    (ReadUntil.search A delim b position : Reading ε) =
      .ended b none (position + (partialSearch (b.data.drop position) delim).1 + delim.length) := by
  rw [ReadUntil.search]
  exact if_pos h

theorem search_of_full {b : Streambuf} {position : ℕ} (h : ¬ Matches delim b position)
    (hfull : b.size = b.maxSize) :
    (ReadUntil.search A delim b position : Reading ε) = .ended b (some .notFound) 0 := by
  rw [ReadUntil.search]
  exact (if_neg h).trans (if_pos hfull)

theorem search_of_room {b : Streambuf} {position : ℕ} (h : ¬ Matches delim b position)
    (hroom : b.size ≠ b.maxSize) :
    (ReadUntil.search A delim b position : Reading ε) =
      .waiting (b.prepare A (readSizeHelper b 65536)).1
        (some (position + (partialSearch (b.data.drop position) delim).1))
        (readSizeHelper b 65536) := by
  rw [ReadUntil.search]
  exact (if_neg h).trans ((if_neg hroom).trans (if_pos (prepare_roomy A b).1))

theorem search_explains (hd : delim ≠ []) {b : Streambuf} {position : ℕ}
    (h : Cleared delim b.data position) :
    Explains delim b.data b.maxSize (ReadUntil.search A delim b position : Reading ε) := by
  by_cases hmatch : Matches delim b position
  · rw [search_of_matches hmatch]
    exact .found rfl (h.foundAt (partialSearch_found hmatch.2).1)
  · obtain ⟨hcleared, hnone⟩ := partialSearch_missed hd (not_matches hmatch)
    rw [← h.infix_iff] at hnone
    by_cases hfull : b.size = b.maxSize
    · rw [search_of_full hmatch hfull]
      exact .full rfl hnone (b.length_data.trans hfull)
    · obtain ⟨-, hroomy⟩ := prepare_roomy A b
      rw [search_of_room hmatch hfull]
      exact .waiting hroomy.data hroomy.maxSize (h.add hcleared) hnone (readSizeHelper_pos hfull)
        (readSizeHelper_le b 65536).1 hroomy.room

theorem store_commit {chunk : Bytes} {b : Streambuf} (hroom : chunk.length ≤ b.pend - b.pnext)
    (hint : chunk.length ≤ 65536) :
    ∃ c, (b.store chunk).commit chunk.length = some c ∧ c.data = b.data ++ chunk ∧
      c.maxSize = b.maxSize := by
  refine ⟨_, (b.store chunk).commit_of_lt (by omega), ?_, rfl⟩
  rw [Streambuf.advance_data, Streambuf.store_data, Streambuf.store_output hroom]

theorem step_explains (hd : delim ≠ []) {x : Bytes} {m : ℕ} {s s' : Reading ε} {t : Transfer ε}
    (hs : Explains delim x m s) (h : ReadUntil.step A delim s t = some s') :
    Explains delim (x ++ t.bytes) m s' := by
  cases hs with
  | @waiting b position asked hdata hmax hcleared hnone hpos hasked hroom =>
    simp only [ReadUntil.step] at h
    by_cases hfits : t.Fits asked
    · rw [if_pos hfits] at h
      cases t with
      | received chunk =>
        obtain ⟨c, hc, hcdata, hcmax⟩ := store_commit (hfits.1.trans hroom) (hfits.1.trans hasked)
        rw [hdata] at hcdata
        rw [hmax] at hcmax
        simp only [hc, Option.map_some, Option.some.injEq] at h
        subst h
        have hcleared' := hcleared.append chunk
        rw [← hcdata] at hcleared'
        have hsearch := @search_explains ε A delim hd c position hcleared'
        rwa [hcdata, hcmax] at hsearch
      | failed e =>
        cases h
        rw [Transfer.bytes, List.append_nil]
        exact .broken hdata hnone
    · rw [if_neg hfits] at h
      exact nomatch h
  | found => exact nomatch h
  | full => exact nomatch h
  | broken => exact nomatch h

/-- Whatever the reads bring and however they cut it: the call ends as soon as the
delimiter is there, with the place behind its first occurrence. -/
theorem run_explains (hd : delim ≠ []) {b : Streambuf} {ts : List (Transfer ε)} {s : Reading ε}
    (h : run (ReadUntil.step A delim) (ReadUntil.start A delim b) ts = some s) :
    Explains delim (b.data ++ ts.flatMap Transfer.bytes) b.maxSize s := by
  induction ts using List.reverseRecOn generalizing s with
  | nil =>
    cases h
    rw [List.flatMap_nil, List.append_nil]
    exact search_explains hd cleared_zero
  | append_singleton ts t ih =>
    obtain ⟨u, hu, hlast⟩ := run_concat_eq_some.mp h
    rw [List.flatMap_append, List.flatMap_singleton, ← List.append_assoc]
    exact step_explains hd (ih hu) hlast

/-- A delimiter that a read cuts in two is found with the next read. -/
theorem run_explains_split :
    let b := Streambuf.create .exact 8
    let ts : List (Transfer Unit) := [.received (ascii "a\r"), .received (ascii "\nb")]
    ∃ s, run (ReadUntil.step .exact (ascii "\r\n")) (ReadUntil.start .exact (ascii "\r\n") b) ts =
        some s ∧ Explains (ascii "\r\n") (b.data ++ ts.flatMap Transfer.bytes) 8 s := by
  intro b ts
  obtain ⟨s, hs⟩ : ∃ s, run (ReadUntil.step .exact (ascii "\r\n"))
      (ReadUntil.start .exact (ascii "\r\n") b) ts = some s :=
    Option.isSome_iff_exists.mp (by decide +kernel)
  exact ⟨s, hs, run_explains (by decide) hs⟩

theorem next_of_matches {b : Streambuf} {position : ℕ} (h : Matches delim b position) :
    AsyncReadUntil.next delim b position =
      (some (position + (partialSearch (b.data.drop position) delim).1 + delim.length), 0) := by
  rw [AsyncReadUntil.next]
  exact if_pos h

theorem next_of_full {b : Streambuf} {position : ℕ} (h : ¬ Matches delim b position)
    (hfull : b.size = b.maxSize) : AsyncReadUntil.next delim b position = (none, 0) := by
  rw [AsyncReadUntil.next]
  exact (if_neg h).trans (if_pos hfull)

theorem next_of_room {b : Streambuf} {position : ℕ} (h : ¬ Matches delim b position)
    (hroom : b.size ≠ b.maxSize) :
    AsyncReadUntil.next delim b position =
      (some (position + (partialSearch (b.data.drop position) delim).1),
        readSizeHelper b 65536) := by
  rw [AsyncReadUntil.next]
  exact (if_neg h).trans (if_neg hroom)

theorem loop_of_pos {b : Streambuf} {position n : ℕ} {p : Option ℕ}
    (h : AsyncReadUntil.next delim b position = (p, n)) (hn : n ≠ 0) (first : Bool) :
    (AsyncReadUntil.loop A delim first b position : Reading ε) =
      if (b.prepare A n).2 then .waiting (b.prepare A n).1 p n else .thrown (b.prepare A n).1 := by
  rw [AsyncReadUntil.loop, h]
  exact if_neg fun hzero => hn hzero.2

theorem loop_of_zero {b : Streambuf} {position : ℕ} {p : Option ℕ}
    (h : AsyncReadUntil.next delim b position = (p, 0)) :
    (AsyncReadUntil.loop A delim false b position : Reading ε) =
        AsyncReadUntil.handler b none p ∧
      (AsyncReadUntil.loop A delim true b position : Reading ε) = .waiting b p 0 := by
  have hprepare : b.prepare A 0 = (b, true) := by
    rw [Streambuf.prepare, Streambuf.reserve, if_pos (Nat.zero_le _)]
  refine ⟨?_, ?_⟩
  · rw [AsyncReadUntil.loop, h]
    exact if_pos ⟨rfl, rfl⟩
  · rw [AsyncReadUntil.loop, h]
    simp only [hprepare, Bool.true_eq_false, false_and, if_false, if_true]

theorem loop_later (b : Streambuf) (position : ℕ) :
    (AsyncReadUntil.loop A delim false b position : Reading ε) =
      ReadUntil.search A delim b position := by
  by_cases hmatch : Matches delim b position
  · rw [search_of_matches hmatch, (loop_of_zero (next_of_matches hmatch)).1]
    rfl
  · by_cases hfull : b.size = b.maxSize
    · rw [search_of_full hmatch hfull, (loop_of_zero (next_of_full hmatch hfull)).1]
      rfl
    · rw [search_of_room hmatch hfull,
        loop_of_pos (next_of_room hmatch hfull) (readSizeHelper_pos hfull).ne']
      exact if_pos (prepare_roomy A b).1

/-- A read of no bytes, which the operation makes first where the synchronous call
returns without a read. -/
def firstReads : Reading ε → List (Transfer ε)
  | .ended .. => [.received []]
  | _ => []

theorem store_commit_nil (b : Streambuf) : (b.store []).commit 0 = some b := by
  rw [(b.store []).commit_of_lt (by omega)]
  simp [Streambuf.store, Streambuf.stored, Streambuf.advance]

theorem step_of_zero (b : Streambuf) (p : Option ℕ) :
    AsyncReadUntil.step A delim (.waiting b p 0) (.received [] : Transfer ε) =
      some (AsyncReadUntil.handler b none p) := by
  have hfits : (Transfer.received [] : Transfer ε).Fits 0 := ⟨le_rfl, fun _ => rfl⟩
  simp only [AsyncReadUntil.step, if_pos hfits, List.length_nil, store_commit_nil,
    Option.bind_some, if_true]

theorem start_agrees (b : Streambuf) :
    run (AsyncReadUntil.step A delim) (AsyncReadUntil.start A delim b)
        (firstReads (ReadUntil.start A delim b : Reading ε)) =
      some (ReadUntil.start A delim b) := by
  rw [AsyncReadUntil.start, ReadUntil.start]
  by_cases hmatch : Matches delim b 0
  · rw [search_of_matches hmatch, (loop_of_zero (next_of_matches hmatch)).2]
    exact run_cons_eq_some.mpr ⟨_, step_of_zero b _, rfl⟩
  · by_cases hfull : b.size = b.maxSize
    · rw [search_of_full hmatch hfull, (loop_of_zero (next_of_full hmatch hfull)).2]
      exact run_cons_eq_some.mpr ⟨_, step_of_zero b _, rfl⟩
    · rw [search_of_room hmatch hfull,
        loop_of_pos (next_of_room hmatch hfull) (readSizeHelper_pos hfull).ne',
        if_pos (prepare_roomy A b).1]
      rfl

/-- Between the two kinds of read, a step of the one is a step of the other. -/
theorem step_agrees {x : Bytes} {m : ℕ} {s : Reading ε} (hs : Explains delim x m s)
    (t : Transfer ε) : AsyncReadUntil.step A delim s t = ReadUntil.step A delim s t := by
  cases hs with
  | @waiting b position asked _ _ _ _ hpos hasked hroom =>
    simp only [AsyncReadUntil.step, ReadUntil.step]
    by_cases hfits : t.Fits asked
    · rw [if_pos hfits, if_pos hfits]
      cases t with
      | received chunk =>
        have hne : chunk ≠ [] := fun hnil => hpos.ne' (hfits.2 hnil)
        obtain ⟨c, hc, -⟩ := store_commit (hfits.1.trans hroom) (hfits.1.trans hasked)
        simp only [hc, Option.bind_some, Option.map_some, if_neg hne, loop_later]
      | failed e => rfl
    · rw [if_neg hfits, if_neg hfits]
  | found => rfl
  | full => rfl
  | broken => rfl

theorem run_agrees (hd : delim ≠ []) {x : Bytes} {m : ℕ} {s : Reading ε}
    (hs : Explains delim x m s) (ts : List (Transfer ε)) :
    run (AsyncReadUntil.step A delim) s ts = run (ReadUntil.step A delim) s ts := by
  induction ts generalizing x s with
  | nil => rfl
  | cons t ts ih =>
    rw [run, run, step_agrees hs]
    cases hstep : ReadUntil.step A delim s t with
    | none => rfl
    | some s' => exact ih (step_explains hd hs hstep)

/-- On the same transfers the asynchronous operation calls its handler with what the
synchronous one returns, on the same streambuf. -/
theorem async_agrees (hd : delim ≠ []) (b : Streambuf) (ts : List (Transfer ε)) :
    run (AsyncReadUntil.step A delim) (AsyncReadUntil.start A delim b)
        (firstReads (ReadUntil.start A delim b : Reading ε) ++ ts) =
      run (ReadUntil.step A delim) (ReadUntil.start A delim b) ts := by
  have hstart : Explains delim b.data b.maxSize (ReadUntil.start A delim b : Reading ε) :=
    search_explains hd cleared_zero
  rw [run_append, start_agrees, Option.bind_some, run_agrees hd hstart]

theorem async_agrees_split :
    ascii "\r\n" ≠ [] ∧
      let b := Streambuf.create .exact 8
      let ts : List (Transfer Unit) := [.received (ascii "a\r"), .received (ascii "\nb")]
      run (AsyncReadUntil.step .exact (ascii "\r\n")) (AsyncReadUntil.start .exact (ascii "\r\n") b)
          (firstReads (ReadUntil.start .exact (ascii "\r\n") b : Reading Unit) ++ ts) =
        run (ReadUntil.step .exact (ascii "\r\n")) (ReadUntil.start .exact (ascii "\r\n") b) ts :=
  ⟨by decide, async_agrees (by decide) _ _⟩

end

def Reading.buf : Reading ε → Streambuf
  | .waiting b _ _ => b
  | .ended b _ _ => b
  | .thrown b => b

theorem Explains.data {delim x : Bytes} {m : ℕ} {s : Reading ε} (h : Explains delim x m s) :
    s.buf.data = x := by
  cases h with
  | waiting hdata => exact hdata
  | found hdata => exact hdata
  | full hdata => exact hdata
  | broken hdata => exact hdata

/-- What a call keeps that was made on a fresh streambuf: zeros behind the bytes it has
received, in an array that has taken in its first read. -/
structure Tidy (maxSize : ℕ) (b : Streambuf) : Prop where
  blank : b.Blank
  bound : b.maxSize = maxSize
  large : min 512 maxSize ≤ b.pend

section
variable {A : Allocation} {delim : Bytes} {m : ℕ}

theorem prepare_tidy (A : Allocation) {b : Streambuf} (h : b.Blank) (hm : b.maxSize = m) :
    Tidy m (b.prepare A (readSizeHelper b 65536)).1 := by
  obtain ⟨-, hroomy⟩ := prepare_roomy A b
  have hsize := b.size_le_maxSize
  have hord := (b.prepare A (readSizeHelper b 65536)).1.ordered
  have hlen : (b.prepare A (readSizeHelper b 65536)).1.size = b.size := by
    rw [← Streambuf.length_data, hroomy.data, Streambuf.length_data]
  have hout := hroomy.room
  refine ⟨h.reserve, hroomy.maxSize.trans hm, ?_⟩
  rw [Streambuf.size] at hlen
  rw [readSizeHelper] at hout hlen hord ⊢
  omega

theorem search_tidy {b : Streambuf} (h : Tidy m b) (position : ℕ) :
    Tidy m (ReadUntil.search A delim b position : Reading ε).buf := by
  by_cases hmatch : Matches delim b position
  · rw [search_of_matches hmatch]
    exact h
  · by_cases hfull : b.size = b.maxSize
    · rw [search_of_full hmatch hfull]
      exact h
    · rw [search_of_room hmatch hfull]
      exact prepare_tidy A h.blank h.bound

theorem step_tidy {x : Bytes} {s s' : Reading ε} {t : Transfer ε}
    (hs : Explains delim x m s) (htidy : Tidy m s.buf) (h : ReadUntil.step A delim s t = some s') :
    Tidy m s'.buf := by
  cases hs with
  | @waiting b position asked _ _ _ _ _ hasked hroom =>
    simp only [ReadUntil.step] at h
    by_cases hfits : t.Fits asked
    · rw [if_pos hfits] at h
      cases t with
      | received chunk =>
        obtain ⟨c, hc, rfl⟩ := Option.map_eq_some_iff.mp h
        obtain rfl := Streambuf.commit_eq_some hc
        exact search_tidy ⟨htidy.blank.receive (hfits.1.trans hroom), htidy.bound, htidy.large⟩
          position
      | failed e =>
        cases h
        exact htidy
    · rw [if_neg hfits] at h
      exact nomatch h
  | found => exact nomatch h
  | full => exact nomatch h
  | broken => exact nomatch h

/-- On a fresh streambuf both kinds of call begin with the same read. -/
theorem start_create (A : Allocation) (delim : Bytes) (hm : 0 < m) :
    ∃ b n, (AsyncReadUntil.start A delim (.create A m) : Reading ε) = .waiting b (some 0) n ∧
      (ReadUntil.start A delim (.create A m) : Reading ε) = .waiting b (some 0) n ∧
      b.data = [] ∧ Tidy m b := by
  have hmatch : ¬ Matches delim (.create A m) 0 := fun h => Bool.false_ne_true h.2
  have hroom : (Streambuf.create A m).size ≠ (Streambuf.create A m).maxSize := hm.ne
  have hstart : (ReadUntil.start A delim (.create A m) : Reading ε) = .waiting _ (some 0) _ :=
    search_of_room hmatch hroom
  refine ⟨_, _, ?_, hstart, (prepare_roomy A _).2.data,
    prepare_tidy A (Streambuf.create_blank A m) rfl⟩
  have hagrees := @start_agrees ε A delim (.create A m)
  rw [hstart] at hagrees
  exact Option.some.inj hagrees

end

end Vsys.Asio
