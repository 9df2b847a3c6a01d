import Vsys.NetParkingSim.RequestDispatcher
import Vsys.Text.Istream
import Vsys.Text.Reading

/-! The command loop of the C++ client. It reads a line of its standard input into a
buffer of 64 characters, and goes round for ever. -/

namespace Vsys.CppAsio

open CString NetParkingSim

/-- What `read_until` returns with has a line feed in it. -/
structure Reply where
  bytes : Bytes
  line : 10 ∈ bytes

/-- The comparison does not read behind the line feed. -/
def Reply.isOk (r : Reply) : Bool := memcmp r.bytes (literal "ok") 2 = some 0

structure Contact (ε : Type*) where
  index : ℕ
  endpoint : ε
  request : Text
  deriving DecidableEq, Repr

inductive Treated (ε : Type*) where
  | nothing
  | invalidCommand (cmd : Text)
  | invalidIndex (epindex : Int32)
  | unicast (ci : Fin 4) (index : ℕ) (endpoint : ε)
  | multicast (ci : Fin 4)
  deriving DecidableEq, Repr

namespace Client

inductive Place where
  | prompting
  | exited
  | caught
  deriving DecidableEq, Repr

end Client

/-- The standard input, what has become of it so far, and where `main` is: `taken` are
the lines as the buffer had them. -/
structure Client (ε : Type*) where
  cin : Istream
  taken : List Bytes
  treated : List (Treated ε)
  contacts : List (Contact ε)
  errors : List Text
  place : Client.Place
  deriving DecidableEq, Repr

namespace Client

variable {ε : Type*}

def start (input : Bytes) : Client ε := ⟨.ofInput input, [], [], [], [], .prompting⟩

def cindex (cmd : Text) : Option (Fin 4) := commands.finIdxOf? cmd

def commandsNl (ci : Fin 4) : Text :=
  ["free\n".toList, "in\n".toList, "out\n".toList, "quit\n".toList].get ci

section
variable (endpoints : List ε)

/-- `endpoints[epindex - 1]`; a negative subscript is far behind the end of the vector. -/
def subscript (epindex : Int32) : Option (ℕ × ε) :=
  if epindex < 1 then none
  else
    let i := epindex.toInt.toNat - 1
    endpoints[i]?.map fun ep => (i, ep)

def numbered (ci : Fin 4) (epindex : Int32) : Option (Treated ε) :=
  if epindex ≠ 0 then (subscript endpoints epindex).map fun p => .unicast ci p.1 p.2
  else some (.invalidIndex epindex)

/-- What the loop does with the line in the buffer; no result where `atoi` has none, and
where a subscript is behind the end. -/
def treat (line : Bytes) : Option (Treated ε) :=
  match strtok ' ' line with
  | [] => some .nothing
  | cmd :: args =>
    match cindex cmd with
    | none => some (.invalidCommand cmd)
    | some ci =>
      match args with
      | [] => some (.multicast ci)
      | arg :: _ => (atoi arg).bind (numbered endpoints ci)

def contact (ci : Fin 4) (i : ℕ) (ep : ε) (s : Client ε) : Client ε :=
  { s with contacts := s.contacts ++ [⟨i, ep, commandsNl ci⟩] }

-- what comes of each contact: a reply, or an exception of one of the socket calls
variable (replies : ℕ → Option Reply)

def unicast (ci : Fin 4) (i : ℕ) (ep : ε) (s : Client ε) : Client ε :=
  match replies s.contacts.length with
  | none => { s.contact ci i ep with place := .caught }
  | some _ =>
    if ci = 3 then { s.contact ci i ep with place := .exited } else s.contact ci i ep

/-- The loop over the endpoints: `quit` goes to all of them, and waits for no reply. -/
def multicast (ci : Fin 4) : List (ε × ℕ) → Client ε → Client ε
  | [], s => if ci = 3 then { s with place := .exited } else s
  | (ep, i) :: eps, s =>
    match replies s.contacts.length with
    | none => { s.contact ci i ep with place := .caught }
    | some r => if ci ≠ 3 ∧ r.isOk then s.contact ci i ep else multicast ci eps (s.contact ci i ep)

def perform (s : Client ε) : Treated ε → Client ε
  | .nothing => s
  | .invalidCommand cmd => { s with errors := s.errors ++ ["Invalid command: ".toList ++ cmd] }
  | .invalidIndex epindex =>
    { s with
      errors := s.errors ++ ["Invalid endpoint index: ".toList ++ (toString epindex).toList] }
  | .unicast ci i ep => unicast replies ci i ep s
  | .multicast ci => multicast replies ci endpoints.zipIdx s

def buffer (s : Client ε) : Bytes := (s.cin.getline 64).1

def took (s : Client ε) (t : Treated ε) : Client ε :=
  { s with
    cin := (s.cin.getline 64).2, taken := s.taken ++ [s.buffer], treated := s.treated ++ [t] }

/-- One pass of the loop. -/
def iteration (s : Client ε) : Option (Client ε) :=
  (treat endpoints s.buffer).map fun t => perform endpoints replies (s.took t) t

def iterations : ℕ → Client ε → Option (Client ε)
  | 0, s => some s
  | k + 1, s =>
    if s.place = .prompting then (iteration endpoints replies s).bind (iterations k) else some s

/-- The loop takes the lines of its input one by one, each as it is, and has ended after
at most one pass more than there are lines. -/
def Consumes (input : Bytes) : Prop :=
  ∃ k ≤ (Istream.lines input).length + 1, ∃ t,
    iterations endpoints replies k (start input) = some t ∧ t.place ≠ .prompting ∧
      t.taken = Istream.lines input

end

/-- The command word of a line is `quit`. -/
def Quits (line : Bytes) : Prop := (strtok ' ' line).head? = some quitLine

instance (line : Bytes) : Decidable (Quits line) := inferInstanceAs (Decidable (_ = _))

/-- The place of `quit` among the commands. -/
abbrev quitIndex : Fin 4 := 3

theorem cindex_eq_some_iff {cmd : Text} {ci : Fin 4} :
    cindex cmd = some ci ↔ cmd = commands.get ci := by
  have hfirst : ∀ i j : Fin commands.length, commands[i] = commands[j] → i = j := by decide
  rw [cindex]
  refine List.finIdxOf?_eq_some_iff.trans ?_
  constructor
  · exact fun h => h.1.symm
  · rintro rfl
    exact ⟨rfl, fun j hj he => absurd (hfirst j ci he) (Fin.ne_of_lt hj)⟩

theorem cindex_isSome_iff {cmd : Text} : (∃ ci, cindex cmd = some ci) ↔ cmd ∈ commands := by
  simp only [cindex_eq_some_iff]
  constructor
  · rintro ⟨ci, rfl⟩
    exact List.get_mem commands ci
  · intro h
    obtain ⟨ci, hci⟩ := List.get_of_mem h
    exact ⟨ci, hci.symm⟩

section
variable {endpoints : List ε}

theorem subscript_eq_some_iff {v : Int32} {i : ℕ} {ep : ε} :
    subscript endpoints v = some (i, ep) ↔ v.toInt = i + 1 ∧ endpoints[i]? = some ep := by
  have hone : v < 1 ↔ v.toInt < 1 := Int32.lt_iff_toInt_lt
  rw [subscript]
  split_ifs with h
  · refine iff_of_false (by simp) fun hv => ?_
    rw [hone] at h
    omega
  · rw [hone] at h
    rw [Option.map_eq_some_iff]
    constructor
    · rintro ⟨ep', hep, heq⟩
      obtain ⟨rfl, rfl⟩ := Prod.mk.inj heq
      exact ⟨by omega, hep⟩
    · rintro ⟨hv, hep⟩
      have hi : v.toInt.toNat - 1 = i := by omega
      exact ⟨ep, by rw [hi, hep], by rw [hi]⟩

theorem numbered_eq_unicast_iff {ci cj : Fin 4} {v : Int32} {i : ℕ} {ep : ε} :
    numbered endpoints ci v = some (.unicast cj i ep) ↔
      ci = cj ∧ v.toInt = i + 1 ∧ endpoints[i]? = some ep := by
  rw [numbered, ← subscript_eq_some_iff]
  split_ifs with h
  · simp only [Option.map_eq_some_iff, Treated.unicast.injEq, Prod.exists]
    constructor
    · rintro ⟨i', ep', hp, rfl, rfl, rfl⟩
      exact ⟨rfl, hp⟩
    · rintro ⟨rfl, hp⟩
      exact ⟨i, ep, hp, rfl, rfl, rfl⟩
  · obtain rfl := not_not.mp h
    refine iff_of_false (by simp) fun hp => ?_
    exact nomatch hp.2

theorem numbered_eq_invalidIndex_iff {ci : Fin 4} {v e : Int32} :
    numbered endpoints ci v = some (.invalidIndex e) ↔ v = 0 ∧ e = 0 := by
  rw [numbered]
  split_ifs with h
  · refine iff_of_false ?_ fun hv => h hv.1
    simp
  · obtain rfl := not_not.mp h
    simp [eq_comm]

/-- A line is looked at for a number only behind a known command. -/
theorem treat_cases (endpoints : List ε) (line : Bytes) :
    (∃ cmd arg more ci, strtok ' ' line = cmd :: arg :: more ∧ cindex cmd = some ci ∧
        treat endpoints line = (atoi arg).bind (numbered endpoints ci)) ∨
      (treat endpoints line = some .nothing) ∨
      (∃ cmd, treat endpoints line = some (.invalidCommand cmd)) ∨
      ∃ cmd ci, strtok ' ' line = [cmd] ∧ cindex cmd = some ci ∧
        treat endpoints line = some (.multicast ci) := by
  cases hline : strtok ' ' line with
  | nil => exact Or.inr (Or.inl (by simp only [treat, hline]))
  | cons cmd args =>
    cases hci : cindex cmd with
    | none => exact Or.inr (Or.inr (Or.inl ⟨cmd, by simp only [treat, hline, hci]⟩))
    | some ci =>
      cases args with
      | nil => exact Or.inr (Or.inr (Or.inr ⟨cmd, ci, rfl, hci, by simp only [treat, hline, hci]⟩))
      | cons arg more => exact Or.inl ⟨cmd, arg, more, ci, rfl, hci, by simp only [treat, hline, hci]⟩

end

section
variable {endpoints : List ε} {replies : ℕ → Option Reply}

theorem unicast_cases (replies : ℕ → Option Reply) (ci : Fin 4) (i : ℕ) (ep : ε) (s : Client ε) :
    ∃ place, unicast replies ci i ep s = { s.contact ci i ep with place := place } ∧
      (replies s.contacts.length ≠ none → ci ≠ 3 → place = s.place) := by
  cases hr : replies s.contacts.length with
  | none => exact ⟨.caught, by simp only [unicast, hr], fun h => absurd rfl h⟩
  | some r =>
    by_cases hci : ci = 3
    · exact ⟨.exited, by simp only [unicast, hr, if_pos hci], fun _ h => absurd hci h⟩
    · exact ⟨s.place, by simp only [unicast, hr, if_neg hci]; rfl, fun _ _ => rfl⟩

theorem multicast_cases (replies : ℕ → Option Reply) (ci : Fin 4) (eps : List (ε × ℕ))
    (s : Client ε) :
    ∃ contacts place, multicast replies ci eps s = { s with contacts := contacts, place := place } ∧
      ((∀ n, replies n ≠ none) → ci ≠ 3 → place = s.place) := by
  induction eps generalizing s with
  | nil =>
    by_cases hci : ci = 3
    · exact ⟨s.contacts, .exited, by rw [multicast, if_pos hci], fun _ h => absurd hci h⟩
    · exact ⟨s.contacts, s.place, by rw [multicast, if_neg hci], fun _ _ => rfl⟩
  | cons e eps ih =>
    obtain ⟨ep, i⟩ := e
    cases hr : replies s.contacts.length with
    | none => exact ⟨_, .caught, by simp only [multicast, hr]; rfl, fun h => absurd hr (h _)⟩
    | some r =>
      by_cases hok : ci ≠ 3 ∧ r.isOk
      · exact ⟨_, s.place, by simp only [multicast, hr, if_pos hok]; rfl, fun _ _ => rfl⟩
      · obtain ⟨contacts, place, hrest, hplace⟩ := ih (s.contact ci i ep)
        exact ⟨contacts, place, by simp only [multicast, hr, if_neg hok, hrest]; rfl, hplace⟩

/-- Whatever is done with a line, the input and what was taken from it stay. -/
theorem perform_cases (endpoints : List ε) (replies : ℕ → Option Reply) (s : Client ε)
    (t : Treated ε) :
    ∃ contacts errors place, perform endpoints replies s t =
        { s with contacts := contacts, errors := errors, place := place } ∧
      ((∀ n, replies n ≠ none) → place = s.place ∨
        (∃ i ep, t = .unicast 3 i ep) ∨ t = .multicast 3) := by
  cases t with
  | nothing => exact ⟨_, _, _, rfl, fun _ => Or.inl rfl⟩
  | invalidCommand cmd => exact ⟨_, _, _, rfl, fun _ => Or.inl rfl⟩
  | invalidIndex epindex => exact ⟨_, _, _, rfl, fun _ => Or.inl rfl⟩
  | unicast ci i ep =>
    obtain ⟨place, hs, hplace⟩ := unicast_cases replies ci i ep s
    refine ⟨_, _, place, hs, fun hreplies => ?_⟩
    by_cases hci : ci = 3
    · exact Or.inr (Or.inl ⟨i, ep, by rw [hci]⟩)
    · exact Or.inl (hplace (hreplies _) hci)
  | multicast ci =>
    obtain ⟨contacts, place, hs, hplace⟩ := multicast_cases replies ci endpoints.zipIdx s
    refine ⟨contacts, _, place, hs, fun hreplies => ?_⟩
    by_cases hci : ci = 3
    · exact Or.inr (Or.inr (by rw [hci]))
    · exact Or.inl (hplace hreplies hci)

theorem iteration_of_treat {s : Client ε} {u : Treated ε}
    (h : treat endpoints s.buffer = some u) :
    iteration endpoints replies s = some (perform endpoints replies (s.took u) u) := by
  rw [iteration, h, Option.map_some]

theorem iteration_eq_some {s t : Client ε} (h : iteration endpoints replies s = some t) :
    ∃ u, treat endpoints s.buffer = some u ∧ t.cin = (s.cin.getline 64).2 ∧
      t.taken = s.taken ++ [s.buffer] ∧ t.treated = s.treated ++ [u] ∧
      ((∀ n, replies n ≠ none) → t.place = s.place ∨
        (∃ i ep, u = .unicast 3 i ep) ∨ u = .multicast 3) := by
  obtain ⟨u, hu, rfl⟩ := Option.map_eq_some_iff.mp h
  obtain ⟨contacts, errors, place, hs, hplace⟩ := perform_cases endpoints replies (s.took u) u
  rw [hs]
  exact ⟨u, hu, rfl, rfl, rfl, hplace⟩

theorem quits_of_cindex {line : Bytes} {cmd : Text} {args : List Text}
    (hline : strtok ' ' line = cmd :: args) (hci : cindex cmd = some 3) : Quits line := by
  rw [Quits, hline, cindex_eq_some_iff.mp hci]
  rfl

theorem quits_of_treat {line : Bytes} {u : Treated ε} (h : treat endpoints line = some u)
    (hu : (∃ i ep, u = .unicast 3 i ep) ∨ u = .multicast 3) : Quits line := by
  rcases treat_cases endpoints line with ⟨cmd, arg, more, ci, hline, hci, ht⟩ | ht | ⟨cmd, ht⟩ |
    ⟨cmd, ci, hline, hci, ht⟩
  · rw [ht, Option.bind_eq_some_iff] at h
    obtain ⟨v, -, hv⟩ := h
    rcases hu with ⟨i, ep, rfl⟩ | rfl
    · obtain ⟨rfl, -⟩ := numbered_eq_unicast_iff.mp hv
      exact quits_of_cindex hline hci
    · rw [numbered] at hv
      split_ifs at hv
      · simp at hv
      · simp at hv
  · rw [ht] at h
    rcases hu with ⟨i, ep, rfl⟩ | rfl <;> simp at h
  · rw [ht] at h
    rcases hu with ⟨i, ep, rfl⟩ | rfl <;> simp at h
  · rw [ht] at h
    rcases hu with ⟨i, ep, rfl⟩ | rfl
    · simp at h
    · obtain rfl : ci = 3 := by simpa using h
      exact quits_of_cindex hline hci

theorem iteration_ended (hreplies : ∀ n, replies n ≠ none) {s t : Client ε}
    (h : iteration endpoints replies s = some t) :
    t.place = s.place ∨ ∃ line ∈ t.taken, Quits line := by
  obtain ⟨u, hu, -, htaken, -, hplace⟩ := iteration_eq_some h
  rcases hplace hreplies with hplace | hquit
  · exact Or.inl hplace
  · refine Or.inr ⟨s.buffer, ?_, quits_of_treat hu hquit⟩
    rw [htaken]
    exact List.mem_append_right _ (List.mem_singleton_self _)

theorem iteration_of_failed {s : Client ε} (hfail : s.cin.fail = true) :
    iteration endpoints replies s =
      some { s with taken := s.taken ++ [[]], treated := s.treated ++ [.nothing] } := by
  have hgood : ¬ s.cin.Good := by
    rintro ⟨-, hok⟩
    exact Bool.false_ne_true (hok.symm.trans hfail)
  have hget : s.cin.getline 64 = ([], s.cin) := by
    rw [Istream.getline_of_not_good hgood, ← hfail]
  have htreat : treat endpoints s.buffer = some .nothing := by
    rw [buffer, hget]
    rfl
  rw [iteration_of_treat htreat, perform, took, buffer, hget]

/-- Once the stream has failed, the loop goes round without reading anything. -/
theorem iterations_of_failed {s : Client ε} (hplace : s.place = .prompting)
    (hfail : s.cin.fail = true) (k : ℕ) :
    iterations endpoints replies k s = some { s with
      taken := s.taken ++ List.replicate k [],
      treated := s.treated ++ List.replicate k .nothing } := by
  induction k generalizing s with
  | zero => simp [iterations]
  | succ k ih =>
    have hrest := @ih { s with taken := s.taken ++ [[]], treated := s.treated ++ [.nothing] }
      hplace hfail
    rw [iterations, if_pos hplace, iteration_of_failed hfail, Option.bind_some, hrest]
    simp [List.replicate_succ]

/-- At the end of the input the stream fails, and the loop is not left. -/
theorem iteration_of_nextLine_none {s : Client ε} (hplace : s.place = .prompting)
    (h : Istream.nextLine s.cin.rest = none) :
    ∃ t, iteration endpoints replies s = some t ∧ t.place = .prompting ∧ t.cin.fail = true ∧
      t.taken = s.taken ++ [[]] := by
  obtain ⟨hstored, hfail⟩ := @Istream.getline_of_nextLine_none 64 _ h
  have hbuffer : s.buffer = [] := hstored
  have htreat : treat endpoints s.buffer = some .nothing := by
    rw [hbuffer]
    rfl
  exact ⟨s.took .nothing, iteration_of_treat htreat, hplace, hfail, by rw [took, hbuffer]⟩

/-- A line that fits in the buffer is taken as it is, and the next one is read next. -/
theorem iteration_of_short (hreplies : ∀ n, replies n ≠ none) {s : Client ε} {line rest : Bytes}
    (hplace : s.place = .prompting) (hgood : s.cin.Good)
    (h : Istream.nextLine s.cin.rest = some (line, rest)) (hlen : line.length < 64)
    (htreat : treat endpoints line ≠ none) (hquit : ¬ Quits line) :
    ∃ t, iteration endpoints replies s = some t ∧ t.place = .prompting ∧
      t.taken = s.taken ++ [line] ∧ t.cin.rest = rest ∧ t.cin.fail = false ∧
      (t.cin.eof = true → rest = []) := by
  obtain ⟨eof, hget, heof⟩ := Istream.getline_of_short hgood h hlen
  have hbuffer : s.buffer = line := congrArg Prod.fst hget
  obtain ⟨u, hu⟩ := Option.ne_none_iff_exists'.mp (hbuffer ▸ htreat)
  have hstep := @iteration_of_treat _ endpoints replies _ _ hu
  obtain ⟨u', hu', hcin, htaken, -, hplaces⟩ := iteration_eq_some hstep
  rw [hbuffer] at hu' htaken
  rw [hget] at hcin
  refine ⟨_, hstep, ?_, htaken, by rw [hcin], by rw [hcin], fun h => ?_⟩
  · rcases hplaces hreplies with hsame | hq
    · exact hsame.trans hplace
    · exact absurd (quits_of_treat hu' hq) hquit
  · rw [hcin] at h
    exact heof h

/-- An input whose lines fit in the buffer is taken line by line, and then the loop goes
round on empty lines that nobody has typed. -/
theorem iterations_of_short (hreplies : ∀ n, replies n ≠ none) {s : Client ε}
    (hplace : s.place = .prompting) (hfail : s.cin.fail = false)
    (heof : s.cin.eof = true → s.cin.rest = [])
    (hlines : ∀ line ∈ Istream.lines s.cin.rest,
      line.length < 64 ∧ treat endpoints line ≠ none ∧ ¬ Quits line) (k : ℕ) :
    ∃ t, iterations endpoints replies k s = some t ∧ t.place = .prompting ∧
      t.taken = s.taken ++ (Istream.lines s.cin.rest).take k ++
        List.replicate (k - (Istream.lines s.cin.rest).length) [] := by
  induction k generalizing s with
  | zero => exact ⟨s, rfl, hplace, by simp⟩
  | succ k ih =>
    rw [iterations, if_pos hplace]
    cases hnext : Istream.nextLine s.cin.rest with
    | none =>
      obtain ⟨t, ht, htplace, htfail, htaken⟩ :=
        @iteration_of_nextLine_none ε endpoints replies s hplace hnext
      have hlater := @iterations_of_failed _ endpoints replies _ htplace htfail k
      rw [ht, Option.bind_some, Istream.lines, Splitting.all_of_none hnext]
      refine ⟨_, hlater, htplace, ?_⟩
      simp [htaken, List.replicate_succ]
    | some p =>
      obtain ⟨line, rest⟩ := p
      have hall := Istream.lines_of_nextLine hnext
      rw [hall] at hlines ⊢
      obtain ⟨hlen, htreat, hquit⟩ := hlines line List.mem_cons_self
      have hgood : s.cin.Good := by
        refine ⟨?_, hfail⟩
        cases he : s.cin.eof with
        | false => rfl
        | true =>
          rw [heof he] at hnext
          exact nomatch hnext
      obtain ⟨t, ht, htplace, htaken, hrest, htfail, hteof⟩ :=
        iteration_of_short hreplies hplace hgood hnext hlen htreat hquit
      rw [ht, Option.bind_some]
      obtain ⟨u, hu, huplace, hutaken⟩ := ih htplace htfail (by rwa [hrest])
        (by rw [hrest]; exact fun l hl => hlines l (List.mem_cons_of_mem line hl))
      refine ⟨u, hu, huplace, ?_⟩
      rw [hutaken, htaken, hrest]
      simp

/-- While the servers answer, the loop is left only on a line that it takes for `quit`. -/
theorem iterations_ended (hreplies : ∀ n, replies n ≠ none) {k : ℕ} {s t : Client ε}
    (hs : s.place ≠ .prompting → ∃ line ∈ s.taken, Quits line)
    (h : iterations endpoints replies k s = some t) (ht : t.place ≠ .prompting) :
    ∃ line ∈ t.taken, Quits line := by
  induction k generalizing s with
  | zero =>
    cases h
    exact hs ht
  | succ k ih =>
    by_cases hplace : s.place = .prompting
    · rw [iterations, if_pos hplace, Option.bind_eq_some_iff] at h
      obtain ⟨u, hu, h⟩ := h
      refine ih (fun hne => ?_) h
      rcases iteration_ended hreplies hu with hsame | hquit
      · exact absurd (hsame.trans hplace) hne
      · exact hquit
    · rw [iterations, if_neg hplace] at h
      cases h
      exact hs ht

/-- On no input without `quit` does the loop take every line and end. -/
theorem never_consumes (hreplies : ∀ n, replies n ≠ none) {input : Bytes}
    (hquit : ∀ line ∈ Istream.lines input, ¬ Quits line) :
    ¬ Consumes endpoints replies input := by
  rintro ⟨k, -, t, ht, hplace, htaken⟩
  have hstart : (start input : Client ε).place ≠ .prompting →
      ∃ line ∈ (start input : Client ε).taken, Quits line := fun hne => absurd rfl hne
  obtain ⟨line, hline, hquits⟩ := iterations_ended hreplies hstart ht hplace
  exact hquit line (htaken ▸ hline) hquits

theorem never_consumes_free :
    let replies : ℕ → Option Reply := fun _ => some ⟨ascii "ok\n", by decide⟩
    let input := ascii "free\nin 1"
    (∀ n, replies n ≠ none) ∧ (∀ line ∈ Istream.lines input, ¬ Quits line) ∧
      ¬ Consumes ["127.0.0.1:5000".toList] replies input := by
  intro replies input
  have hreplies : ∀ n, replies n ≠ none := fun n => Option.some_ne_none _
  have hquit : ∀ line ∈ Istream.lines input, ¬ Quits line := by decide
  exact ⟨hreplies, hquit, never_consumes hreplies hquit⟩

/-- Behind the only line of its input the loop prompts for ever. -/
theorem end_of_input_spins :
    let replies : ℕ → Option Reply := fun _ => some ⟨ascii "5\n", by decide⟩
    let endpoints := ["127.0.0.1:5000".toList]
    (∀ k, ∃ t, iterations endpoints replies k (start (ascii "free\n")) = some t ∧
        t.place = .prompting) ∧
      ¬ Consumes endpoints replies (ascii "free\n") := by
  intro replies endpoints
  have hspin : ∀ k, ∃ t, iterations endpoints replies k (start (ascii "free\n")) = some t ∧
      t.place = .prompting := by
    intro k
    have hreplies : ∀ n, replies n ≠ none := fun n => Option.some_ne_none _
    obtain ⟨t, ht, hplace, -⟩ := @iterations_of_short _ endpoints replies hreplies
      (start (ascii "free\n")) rfl rfl (fun h => nomatch h) (by decide) k
    exact ⟨t, ht, hplace⟩
  refine ⟨hspin, ?_⟩
  rintro ⟨k, -, t, ht, hplace, -⟩
  obtain ⟨u, hu, huplace⟩ := hspin k
  rw [ht] at hu
  exact hplace (Option.some.inj hu ▸ huplace)

end

end Client

end Vsys.CppAsio
