import Mathlib.Algebra.BigOperators.Group.List.Basic
import Mathlib.Data.List.Basic
import Vsys.Schedule.Run
import Vsys.Schedule.Tally

/-! Parties that offer a command to one resource of a list after the other until
one accepts it. The scans of different parties interleave freely; what each
contact did is recorded in the order in which the contacts took place. -/

namespace Schedule.Scan

variable {ι S ρ κ : Type*}

structure Contact (ι S ρ κ : Type*) where
  party : ι
  turn : ℕ
  command : κ
  place : S
  before : ρ
  accepted : Bool
  after : ρ

structure State (ι S ρ κ : Type*) where
  resource : S → ρ
  todo : ι → List κ
  next : ι → ℕ
  results : ι → List (κ × Bool)
  contacts : List (Contact ι S ρ κ)

def start (σ : S → ρ) (programs : ι → List κ) : State ι S ρ κ :=
  ⟨σ, programs, fun _ => 0, fun _ => [], []⟩

abbrev Attempt (ι S ρ κ : Type*) := ι → S → κ → ρ → Option (Bool × ρ)

section
variable [DecidableEq ι] [DecidableEq S]

def State.touch (s : State ι S ρ κ) (i : ι) (c : κ) (e : S) (ok : Bool) (y : ρ) : State ι S ρ κ :=
  { s with
    resource := Function.update s.resource e y
    contacts := s.contacts ++ [⟨i, (s.results i).length, c, e, s.resource e, ok, y⟩] }

def State.advance (s : State ι S ρ κ) (i : ι) : State ι S ρ κ :=
  { s with next := Function.update s.next i (s.next i + 1) }

def State.finish (s : State ι S ρ κ) (i : ι) (c : κ) (cs : List κ) (ok : Bool) : State ι S ρ κ :=
  { s with
    todo := Function.update s.todo i cs
    next := Function.update s.next i 0
    results := Function.update s.results i (s.results i ++ [(c, ok)]) }

/-- One step of party `i`: the next resource of its list is tried; the command
ends when one accepts, or behind the last. -/
def step (entries : ι → List S) (attempt : Attempt ι S ρ κ) (s : State ι S ρ κ) (i : ι) :
    Option (State ι S ρ κ) :=
  match s.todo i with
  | [] => none
  | c :: cs =>
    match (entries i)[s.next i]? with
    | none => some (s.finish i c cs false)
    | some e =>
      match attempt i e c (s.resource e) with
      | none => none
      | some (true, y) => some ((s.touch i c e true y).finish i c cs true)
      | some (false, y) => some ((s.touch i c e false y).advance i)

inductive Moves (entries : ι → List S) (attempt : Attempt ι S ρ κ) (s : State ι S ρ κ) (i : ι) :
    State ι S ρ κ → Prop
  | exhausted {c : κ} {cs : List κ} (hc : s.todo i = c :: cs)
    (he : (entries i)[s.next i]? = none) : Moves entries attempt s i (s.finish i c cs false)
  | accepted {c : κ} {cs : List κ} {e : S} {y : ρ} (hc : s.todo i = c :: cs)
    (he : (entries i)[s.next i]? = some e) (ha : attempt i e c (s.resource e) = some (true, y)) :
    Moves entries attempt s i ((s.touch i c e true y).finish i c cs true)
  | refused {c : κ} {cs : List κ} {e : S} {y : ρ} (hc : s.todo i = c :: cs)
    (he : (entries i)[s.next i]? = some e) (ha : attempt i e c (s.resource e) = some (false, y)) :
    Moves entries attempt s i ((s.touch i c e false y).advance i)

theorem moves_of_step {entries : ι → List S} {attempt : Attempt ι S ρ κ} {s t : State ι S ρ κ}
    {i : ι} (h : step entries attempt s i = some t) : Moves entries attempt s i t := by
  rw [step] at h
  split at h
  · cases h
  · next hc =>
    split at h
    · next he =>
      cases h
      exact .exhausted hc he
    · next he =>
      split at h
      · cases h
      · next ha =>
        cases h
        exact .accepted hc he ha
      · next ha =>
        cases h
        exact .refused hc he ha

end

section
variable [DecidableEq S]

def replay : (S → ρ) → List (Contact ι S ρ κ) → S → ρ
  | σ, [] => σ
  | σ, c :: cs => replay (Function.update σ c.place c.after) cs

/-- Each contact of a record found its resource as the earlier ones left it, and
did with it what the attempt does. -/
def Genuine (attempt : Attempt ι S ρ κ) : (S → ρ) → List (Contact ι S ρ κ) → Prop
  | _, [] => True
  | σ, c :: cs =>
    c.before = σ c.place ∧
      attempt c.party c.place c.command c.before = some (c.accepted, c.after) ∧
      Genuine attempt (Function.update σ c.place c.after) cs

theorem replay_append (σ : S → ρ) (cs ds : List (Contact ι S ρ κ)) :
    replay σ (cs ++ ds) = replay (replay σ cs) ds := by
  induction cs generalizing σ with
  | nil => rfl
  | cons c cs ih => exact ih _

theorem genuine_append {attempt : Attempt ι S ρ κ} {σ : S → ρ} {cs ds : List (Contact ι S ρ κ)} :
    Genuine attempt σ (cs ++ ds) ↔ Genuine attempt σ cs ∧ Genuine attempt (replay σ cs) ds := by
  induction cs generalizing σ with
  | nil => exact ⟨fun h => ⟨trivial, h⟩, fun h => h.2⟩
  | cons c cs ih => simp only [List.cons_append, Genuine, replay, ih, and_assoc]

end

section
variable [DecidableEq ι]

theorem program_finish {programs : ι → List κ} {s : State ι S ρ κ}
    (h : ∀ i, (s.results i).map Prod.fst ++ s.todo i = programs i) {i : ι} {c : κ} {cs : List κ}
    (hc : s.todo i = c :: cs) (ok : Bool) (j : ι) :
    ((s.finish i c cs ok).results j).map Prod.fst ++ (s.finish i c cs ok).todo j = programs j := by
  by_cases hj : j = i
  · subst hj
    simp only [State.finish, Function.update_self, List.map_append, List.map_singleton,
      List.append_assoc, List.singleton_append, ← hc]
    exact h j
  · simp only [State.finish, Function.update_of_ne hj]
    exact h j

def contactsOf (i : ι) (k : ℕ) (cs : List (Contact ι S ρ κ)) : List (Contact ι S ρ κ) :=
  cs.filter fun c => c.party = i ∧ c.turn = k

theorem contactsOf_concat (i : ι) (k : ℕ) (cs : List (Contact ι S ρ κ)) (c : Contact ι S ρ κ) :
    contactsOf i k (cs ++ [c]) =
      contactsOf i k cs ++ if c.party = i ∧ c.turn = k then [c] else [] := by
  rw [contactsOf, List.filter_append, contactsOf]
  by_cases h : c.party = i ∧ c.turn = k <;> simp [h]

theorem mem_contactsOf {i : ι} {k : ℕ} {c : Contact ι S ρ κ} {cs : List (Contact ι S ρ κ)} :
    c ∈ contactsOf i k cs ↔ c ∈ cs ∧ c.party = i ∧ c.turn = k := by
  simp [contactsOf]

end

structure Refused (entries : List S) (n : ℕ) (cs : List (Contact ι S ρ κ)) : Prop where
  place : cs.map Contact.place = entries.take n
  refused : ∀ c ∈ cs, c.accepted = false

/-- The contacts of a command that has ended: the entry that accepted comes last,
and without one every entry has refused. -/
def Ended (entries : List S) (cs : List (Contact ι S ρ κ)) : Bool → Prop
  | false => Refused entries entries.length cs
  | true => ∃ before c n, cs = before ++ [c] ∧ Refused entries n before ∧
      entries[n]? = some c.place ∧ c.accepted = true

theorem Refused.prefix_places {entries : List S} {n : ℕ} {cs : List (Contact ι S ρ κ)}
    (h : Refused entries n cs) : cs.map Contact.place <+: entries :=
  h.place ▸ List.take_prefix _ _

theorem Refused.concat {entries : List S} {n : ℕ} {cs : List (Contact ι S ρ κ)}
    (h : Refused entries n cs) {c : Contact ι S ρ κ} (he : entries[n]? = some c.place) :
    (cs ++ [c]).map Contact.place = entries.take (n + 1) := by
  rw [List.map_append, h.place, List.take_add_one, he]
  rfl

theorem Ended.prefix_places {entries : List S} {ok : Bool} {cs : List (Contact ι S ρ κ)}
    (h : Ended entries cs ok) : cs.map Contact.place <+: entries := by
  cases ok with
  | false => exact Refused.prefix_places h
  | true =>
    obtain ⟨before, c, n, rfl, hbefore, hplace, -⟩ := h
    rw [hbefore.concat hplace]
    exact List.take_prefix _ _

theorem Ended.refused {entries : List S} {ok : Bool} {cs : List (Contact ι S ρ κ)}
    (h : Ended entries cs ok) : ∀ c ∈ cs.dropLast, c.accepted = false := by
  cases ok with
  | false => exact fun c hc => Refused.refused h c (List.dropLast_subset _ hc)
  | true =>
    obtain ⟨before, c, n, rfl, hbefore, -, -⟩ := h
    rw [List.dropLast_concat]
    exact hbefore.refused

theorem Ended.nil {ok : Bool} {cs : List (Contact ι S ρ κ)} (h : Ended [] cs ok) : cs = [] := by
  cases ok with
  | false => exact List.map_eq_nil_iff.mp (Refused.place h)
  | true =>
    obtain ⟨before, c, n, -, -, hplace, -⟩ := h
    cases hplace

/-- The first contact of an ended command either ends it, or the rest of the list goes on
with it. -/
theorem Ended.cons {e : S} {entries : List S} {ok : Bool} {cs : List (Contact ι S ρ κ)}
    (h : Ended (e :: entries) cs ok) :
    ∃ d ds, cs = d :: ds ∧ d.place = e ∧
      (d.accepted = true ∧ ds = [] ∨ d.accepted = false ∧ Ended entries ds ok) := by
  cases ok with
  | false =>
    obtain ⟨hplace, hrefused⟩ : Refused (e :: entries) (entries.length + 1) cs := h
    rw [List.take_succ_cons, List.map_eq_cons_iff] at hplace
    obtain ⟨d, ds, rfl, hd, hds⟩ := hplace
    have hrest : Refused entries entries.length ds :=
      ⟨hds, fun c hc => hrefused c (List.mem_cons_of_mem d hc)⟩
    exact ⟨d, ds, rfl, hd, Or.inr ⟨hrefused d List.mem_cons_self, hrest⟩⟩
  | true =>
    obtain ⟨before, c, n, rfl, ⟨hplace, hrefused⟩, hc, hacc⟩ := h
    cases n with
    | zero =>
      obtain rfl : before = [] := List.map_eq_nil_iff.mp hplace
      exact ⟨c, [], rfl, (Option.some.inj hc).symm, Or.inl ⟨hacc, rfl⟩⟩
    | succ n =>
      rw [List.take_succ_cons, List.map_eq_cons_iff] at hplace
      obtain ⟨d, ds, rfl, hd, hds⟩ := hplace
      have hrest : Refused entries n ds :=
        ⟨hds, fun c hc => hrefused c (List.mem_cons_of_mem d hc)⟩
      exact ⟨d, ds ++ [c], rfl, hd,
        Or.inr ⟨hrefused d List.mem_cons_self, ds, c, n, rfl, hrest, hc, hacc⟩⟩

/-- How far one party has come: `record k` are the contacts of its command `k`. -/
structure Progress (entries : List S) (results : List (κ × Bool)) (next : ℕ)
    (record : ℕ → List (Contact ι S ρ κ)) : Prop where
  current : Refused entries next (record results.length)
  ended : ∀ k r, results[k]? = some r → Ended entries (record k) r.2
  later : ∀ k, results.length < k → record k = []

section
variable {entries : List S} {results : List (κ × Bool)} {next : ℕ}
  {record : ℕ → List (Contact ι S ρ κ)}

theorem getElem?_concat_cases {r r' : κ × Bool} {k : ℕ} (h : (results ++ [r])[k]? = some r') :
    (k < results.length ∧ results[k]? = some r') ∨ (k = results.length ∧ r = r') := by
  rcases Nat.lt_trichotomy k results.length with hk | rfl | hk
  · rw [List.getElem?_append_left hk] at h
    exact Or.inl ⟨hk, h⟩
  · rw [List.getElem?_concat_length] at h
    exact Or.inr ⟨rfl, Option.some.inj h⟩
  · rw [List.getElem?_eq_none (by simp; omega)] at h
    cases h

theorem Progress.exhausted (h : Progress entries results next record)
    (he : entries[next]? = none) (c : κ) :
    Progress entries (results ++ [(c, false)]) 0 record where
  current := by
    rw [List.length_append, List.length_singleton, h.later _ (Nat.lt_succ_self _)]
    exact ⟨rfl, fun c hc => nomatch hc⟩
  ended := fun k r hr => by
    rcases getElem?_concat_cases hr with ⟨-, hr⟩ | ⟨rfl, rfl⟩
    · exact h.ended k r hr
    · refine ⟨?_, h.current.refused⟩
      have hlen := List.getElem?_eq_none_iff.mp he
      rw [h.current.place, List.take_length, List.take_of_length_le hlen]
  later := fun k hk => h.later k (by rw [List.length_append] at hk; omega)

theorem Progress.accepted (h : Progress entries results next record) {d : Contact ι S ρ κ}
    (he : entries[next]? = some d.place) (hd : d.accepted = true) (c : κ) :
    Progress entries (results ++ [(c, true)]) 0
      (fun k => record k ++ if results.length = k then [d] else []) where
  current := by
    rw [List.length_append, List.length_singleton, h.later _ (Nat.lt_succ_self _),
      if_neg (by omega)]
    exact ⟨rfl, fun c hc => nomatch hc⟩
  ended := fun k r hr => by
    rcases getElem?_concat_cases hr with ⟨hk, hr⟩ | ⟨rfl, rfl⟩
    · rw [if_neg (by omega), List.append_nil]
      exact h.ended k r hr
    · rw [if_pos rfl]
      exact ⟨record results.length, d, next, rfl, h.current, he, hd⟩
  later := fun k hk => by
    rw [List.length_append, List.length_singleton] at hk
    rw [h.later k (by omega), if_neg (by omega)]
    rfl

theorem Progress.refused (h : Progress entries results next record) {d : Contact ι S ρ κ}
    (he : entries[next]? = some d.place) (hd : d.accepted = false) :
    Progress entries results (next + 1)
      (fun k => record k ++ if results.length = k then [d] else []) where
  current := by
    rw [if_pos rfl]
    refine ⟨h.current.concat he, fun c hc => ?_⟩
    rcases List.mem_append.mp hc with hc | hc
    · exact h.current.refused c hc
    · rwa [List.mem_singleton.mp hc]
  ended := fun k r hr => by
    have hk := (List.getElem?_eq_some_iff.mp hr).1
    rw [if_neg (by omega), List.append_nil]
    exact h.ended k r hr
  later := fun k hk => by
    rw [h.later k hk, if_neg (by omega)]
    rfl

end

section
variable [DecidableEq ι] [DecidableEq S]

structure Orderly (entries : ι → List S) (attempt : Attempt ι S ρ κ) (σ : S → ρ)
    (programs : ι → List κ) (s : State ι S ρ κ) : Prop where
  program : ∀ i, (s.results i).map Prod.fst ++ s.todo i = programs i
  command : ∀ c ∈ s.contacts, (programs c.party)[c.turn]? = some c.command
  genuine : Genuine attempt σ s.contacts
  resource : s.resource = replay σ s.contacts
  progress : ∀ i, Progress (entries i) (s.results i) (s.next i)
    (fun k => contactsOf i k s.contacts)

variable {entries : ι → List S} {attempt : Attempt ι S ρ κ} {σ : S → ρ} {programs : ι → List κ}

theorem start_orderly : Orderly entries attempt σ programs (start σ programs) where
  program := fun _ => rfl
  command := fun _ h => nomatch h
  genuine := trivial
  resource := rfl
  progress := fun _ => ⟨⟨rfl, fun _ h => (nomatch h)⟩, fun _ _ h => (nomatch h), fun _ _ => rfl⟩

theorem Orderly.touch {s : State ι S ρ κ} (h : Orderly entries attempt σ programs s) {i : ι} {c : κ}
    {cs : List κ} {e : S} {ok : Bool} {y : ρ} (hc : s.todo i = c :: cs)
    (ha : attempt i e c (s.resource e) = some (ok, y)) :
    (∀ d ∈ (s.touch i c e ok y).contacts, (programs d.party)[d.turn]? = some d.command) ∧
      Genuine attempt σ (s.touch i c e ok y).contacts ∧
      (s.touch i c e ok y).resource = replay σ (s.touch i c e ok y).contacts := by
  refine ⟨fun d hd => ?_, ?_, ?_⟩
  · rcases List.mem_append.mp hd with hd | hd
    · exact h.command d hd
    · rw [List.mem_singleton.mp hd, ← h.program i, hc]
      have hlen : (s.results i).length = ((s.results i).map Prod.fst).length :=
        (List.length_map _).symm
      simp only [hlen]
      rw [List.getElem?_append_right (Nat.le_refl _), Nat.sub_self]
      rfl
  · rw [State.touch, genuine_append]
    exact ⟨h.genuine, by rw [h.resource], ha, trivial⟩
  · simp only [State.touch, replay_append, ← h.resource]
    rfl

theorem step_orderly {s t : State ι S ρ κ} {i : ι} (h : Orderly entries attempt σ programs s)
    (ht : step entries attempt s i = some t) : Orderly entries attempt σ programs t := by
  cases moves_of_step ht with
  | exhausted hc he =>
    refine ⟨program_finish h.program hc false, h.command, h.genuine, h.resource, fun j => ?_⟩
    by_cases hj : j = i
    · subst hj
      simp only [State.finish, Function.update_self]
      exact (h.progress j).exhausted he _
    · simp only [State.finish, Function.update_of_ne hj]
      exact h.progress j
  | accepted hc he ha =>
    obtain ⟨hcommand, hgenuine, hresource⟩ := h.touch hc ha
    refine ⟨program_finish h.program hc true, hcommand, hgenuine, hresource, fun j => ?_⟩
    by_cases hj : j = i
    · subst hj
      simp only [State.finish, State.touch, Function.update_self, contactsOf_concat, true_and]
      exact (h.progress j).accepted he rfl _
    · simp only [State.finish, State.touch, Function.update_of_ne hj, contactsOf_concat,
        Ne.symm hj, false_and, if_false, List.append_nil]
      exact h.progress j
  | refused hc he ha =>
    obtain ⟨hcommand, hgenuine, hresource⟩ := h.touch hc ha
    refine ⟨h.program, hcommand, hgenuine, hresource, fun j => ?_⟩
    by_cases hj : j = i
    · subst hj
      simp only [State.advance, State.touch, Function.update_self, contactsOf_concat, true_and]
      exact (h.progress j).refused he rfl
    · simp only [State.advance, State.touch, Function.update_of_ne hj, contactsOf_concat,
        Ne.symm hj, false_and, if_false, List.append_nil]
      exact h.progress j

theorem run_orderly {schedule : List ι} {t : State ι S ρ κ}
    (ht : run (step entries attempt) (start σ programs) schedule = some t) :
    Orderly entries attempt σ programs t :=
  run_invariant (fun _ _ _ hs hstep => step_orderly hs hstep) start_orderly ht

end

def Inert (attempt : Attempt ι S ρ κ) : Prop :=
  ∀ i e c x y, attempt i e c x = some (false, y) → y = x

def Changes (attempt : Attempt ι S ρ κ) (measure : ρ → ℤ) (amount : κ → ℤ) : Prop :=
  ∀ i e c x y, attempt i e c x = some (true, y) → measure y = measure x + amount c

section
variable [DecidableEq S] {attempt : Attempt ι S ρ κ} {σ : S → ρ}

theorem Genuine.attempt_eq {cs : List (Contact ι S ρ κ)} (h : Genuine attempt σ cs)
    {c : Contact ι S ρ κ} (hc : c ∈ cs) :
    attempt c.party c.place c.command c.before = some (c.accepted, c.after) := by
  induction cs generalizing σ with
  | nil => cases hc
  | cons d cs ih =>
    obtain ⟨-, hd, hrest⟩ := h
    rcases List.mem_cons.mp hc with rfl | hc
    · exact hd
    · exact ih hrest hc

theorem Genuine.refused (hinert : Inert attempt) {cs : List (Contact ι S ρ κ)}
    (h : Genuine attempt σ cs) (hr : ∀ c ∈ cs, c.accepted = false) :
    replay σ cs = σ ∧
      ∀ c ∈ cs, attempt c.party c.place c.command (σ c.place) = some (false, σ c.place) := by
  induction cs with
  | nil => exact ⟨rfl, fun c hc => nomatch hc⟩
  | cons d cs ih =>
    obtain ⟨hbefore, hd, hrest⟩ := h
    rw [hr d List.mem_cons_self] at hd
    have hafter : d.after = σ d.place := (hinert _ _ _ _ _ hd).trans hbefore
    rw [hafter, Function.update_eq_self] at hrest
    obtain ⟨hreplay, hall⟩ := ih hrest fun c hc => hr c (List.mem_cons_of_mem _ hc)
    refine ⟨?_, fun c hc => ?_⟩
    · rw [replay, hafter, Function.update_eq_self, hreplay]
    · rcases List.mem_cons.mp hc with rfl | hc
      · rwa [hbefore, hafter] at hd
      · exact hall c hc

omit [DecidableEq S] in
theorem Ended.amount {measure : ρ → ℤ} {amount : κ → ℤ} (hinert : Inert attempt)
    (hchanges : Changes attempt measure amount) {entries : List S} {ok : Bool} {k : κ}
    {cs : List (Contact ι S ρ κ)} (h : Ended entries cs ok)
    (hcs : ∀ c ∈ cs, attempt c.party c.place c.command c.before = some (c.accepted, c.after))
    (hk : ∀ c ∈ cs, c.command = k) :
    (cs.map fun c => measure c.after - measure c.before).sum = if ok then amount k else 0 := by
  have hzero : ∀ ds : List (Contact ι S ρ κ), (∀ c ∈ ds, c ∈ cs) →
      (∀ c ∈ ds, c.accepted = false) →
      (ds.map fun c => measure c.after - measure c.before).sum = 0 := by
    intro ds hsub hr
    refine List.sum_eq_zero fun n hn => ?_
    obtain ⟨c, hc, rfl⟩ := List.mem_map.mp hn
    have hc' := hcs c (hsub c hc)
    rw [hr c hc] at hc'
    rw [hinert _ _ _ _ _ hc', Int.sub_self]
  cases ok with
  | false => exact hzero cs (fun c hc => hc) (Refused.refused h)
  | true =>
    obtain ⟨before, c, n, rfl, hbefore, -, hacc⟩ := h
    have hc := hcs c (List.mem_append_right _ List.mem_cons_self)
    rw [hacc, hk c (List.mem_append_right _ List.mem_cons_self)] at hc
    rw [List.map_append, List.sum_append,
      hzero before (fun d hd => List.mem_append_left _ hd) hbefore.refused, List.map_singleton,
      List.sum_singleton, hchanges _ _ _ _ _ hc, if_pos rfl]
    omega

theorem Ended.accepted_iff (hinert : Inert attempt) {entries : List S} {ok : Bool} {i : ι} {k : κ}
    {cs : List (Contact ι S ρ κ)} (h : Ended entries cs ok) (hg : Genuine attempt σ cs)
    (hi : ∀ c ∈ cs, c.party = i ∧ c.command = k) :
    ok = true ↔ ∃ e ∈ entries, ∃ y, attempt i e k (σ e) = some (true, y) := by
  cases ok with
  | false =>
    refine iff_of_false Bool.false_ne_true ?_
    rintro ⟨e, he, y, hy⟩
    have hplace : cs.map Contact.place = entries := by
      rw [Refused.place h, List.take_length]
    obtain ⟨c, hc, rfl⟩ := List.mem_map.mp (hplace ▸ he)
    have hatt := (hg.refused hinert (Refused.refused h)).2 c hc
    rw [(hi c hc).1, (hi c hc).2, hy] at hatt
    cases hatt
  | true =>
    refine iff_of_true rfl ?_
    obtain ⟨before, c, n, rfl, hbefore, hplace, hacc⟩ := h
    obtain ⟨hbg, hbc, hc, -⟩ := genuine_append.mp hg
    have hlast := List.mem_append_right before (List.mem_singleton_self c)
    rw [(hbg.refused hinert hbefore.refused).1] at hbc
    rw [(hi c hlast).1, (hi c hlast).2, hacc, hbc] at hc
    exact ⟨c.place, List.mem_of_getElem? hplace, c.after, hc⟩

end

section
variable [DecidableEq ι] [DecidableEq S]
variable {entries : ι → List S} {attempt : Attempt ι S ρ κ} {σ : S → ρ} {programs : ι → List κ}
  {s : State ι S ρ κ} {i : ι} {k : ℕ}

theorem Orderly.order (h : Orderly entries attempt σ programs s) (i : ι) (k : ℕ) :
    (contactsOf i k s.contacts).map Contact.place <+: entries i ∧
      ∀ c ∈ (contactsOf i k s.contacts).dropLast, c.accepted = false := by
  have hp := h.progress i
  rcases Nat.lt_trichotomy k (s.results i).length with hk | rfl | hk
  · have he := hp.ended k _ (List.getElem?_eq_getElem hk)
    exact ⟨he.prefix_places, he.refused⟩
  · exact ⟨hp.current.prefix_places, fun c hc => hp.current.refused c (List.dropLast_subset _ hc)⟩
  · rw [hp.later k hk]
    exact ⟨List.nil_prefix, fun c hc => nomatch hc⟩

theorem Orderly.command_eq (h : Orderly entries attempt σ programs s) {r : κ × Bool}
    (hr : (s.results i)[k]? = some r) : ∀ c ∈ contactsOf i k s.contacts, c.command = r.1 := by
  intro c hc
  obtain ⟨hmem, rfl, rfl⟩ := mem_contactsOf.mp hc
  have hcommand := h.command c hmem
  have hlt := (List.getElem?_eq_some_iff.mp hr).1
  rw [← h.program c.party, List.getElem?_append_left (by simpa using hlt), List.getElem?_map,
    hr] at hcommand
  exact (Option.some.inj hcommand).symm

theorem Orderly.attempt_eq (h : Orderly entries attempt σ programs s) :
    ∀ c ∈ contactsOf i k s.contacts,
      attempt c.party c.place c.command c.before = some (c.accepted, c.after) :=
  fun _ hc => h.genuine.attempt_eq (mem_contactsOf.mp hc).1

theorem Orderly.result_iff (h : Orderly entries attempt σ programs s) {c : κ} {ok : Bool}
    (hr : (s.results i)[k]? = some (c, ok)) :
    ok = true ↔ ∃ d ∈ contactsOf i k s.contacts, d.accepted = true := by
  have he := (h.progress i).ended k _ hr
  cases ok with
  | false =>
    refine iff_of_false Bool.false_ne_true ?_
    rintro ⟨d, hd, hacc⟩
    exact Bool.false_ne_true ((Refused.refused he d hd).symm.trans hacc)
  | true =>
    obtain ⟨before, d, n, hcs, -, -, hacc⟩ := he
    exact iff_of_true rfl ⟨d, hcs ▸ List.mem_append_right _ List.mem_cons_self, hacc⟩

theorem Orderly.unchanged (h : Orderly entries attempt σ programs s) (hinert : Inert attempt)
    (hr : ∀ c, (s.results i)[k]? ≠ some (c, true)) :
    ∀ c ∈ contactsOf i k s.contacts, c.after = c.before := by
  have hp := h.progress i
  have hrefused : ∀ c ∈ contactsOf i k s.contacts, c.accepted = false := by
    rcases Nat.lt_trichotomy k (s.results i).length with hk | rfl | hk
    · obtain ⟨⟨c, ok⟩, hres⟩ : ∃ r, (s.results i)[k]? = some r := ⟨_, List.getElem?_eq_getElem hk⟩
      cases ok with
      | true => exact absurd hres (hr c)
      | false => exact Refused.refused (hp.ended k _ hres)
    · exact hp.current.refused
    · rw [hp.later k hk]
      exact fun c hc => nomatch hc
  intro c hc
  have hatt := h.attempt_eq c hc
  rw [hrefused c hc] at hatt
  exact hinert _ _ _ _ _ hatt

theorem Orderly.amount (h : Orderly entries attempt σ programs s) (hinert : Inert attempt)
    {measure : ρ → ℤ} {amount : κ → ℤ} (hchanges : Changes attempt measure amount) {c : κ}
    (hr : (s.results i)[k]? = some (c, true)) :
    ((contactsOf i k s.contacts).map fun d => measure d.after - measure d.before).sum =
      amount c :=
  ((h.progress i).ended k _ hr).amount hinert hchanges h.attempt_eq (h.command_eq hr)

/-- A command whose contacts follow one another in the record is accepted exactly
when an entry of its list would have accepted it before the first of them. -/
theorem Orderly.isolated (h : Orderly entries attempt σ programs s) (hinert : Inert attempt)
    {c : κ} {ok : Bool} {before after : List (Contact ι S ρ κ)}
    (hr : (s.results i)[k]? = some (c, ok))
    (hs : s.contacts = before ++ contactsOf i k s.contacts ++ after) :
    ok = true ↔ ∃ e ∈ entries i, ∃ y, attempt i e c (replay σ before e) = some (true, y) := by
  have hg := h.genuine
  rw [hs, List.append_assoc, genuine_append, genuine_append] at hg
  refine ((h.progress i).ended k _ hr).accepted_iff hinert hg.2.1 fun d hd => ?_
  exact ⟨(mem_contactsOf.mp hd).2.1, h.command_eq hr d hd⟩

end

def earned (amount : κ → ℤ) (results : List (κ × Bool)) : ℤ :=
  (results.map fun r => if r.2 then amount r.1 else 0).sum

theorem earned_concat (amount : κ → ℤ) (results : List (κ × Bool)) (r : κ × Bool) :
    earned amount (results ++ [r]) = earned amount results + if r.2 then amount r.1 else 0 := by
  rw [earned, earned, List.map_append, List.sum_append, List.map_singleton, List.sum_singleton]

section
variable [DecidableEq ι] [DecidableEq S] [Fintype ι] [Fintype S]
variable {entries : ι → List S} {attempt : Attempt ι S ρ κ} {measure : ρ → ℤ} {amount : κ → ℤ}

theorem step_measure (hinert : Inert attempt) (hchanges : Changes attempt measure amount)
    {s t : State ι S ρ κ} {i : ι} (ht : step entries attempt s i = some t) :
    ∑ e, measure (t.resource e) - ∑ j, earned amount (t.results j) =
      ∑ e, measure (s.resource e) - ∑ j, earned amount (s.results j) := by
  cases moves_of_step ht with
  | exhausted hc he =>
    simp only [State.finish, sum_comp_update (earned amount), earned_concat]
    simp
  | accepted hc he ha =>
    simp only [State.finish, State.touch, sum_comp_update (earned amount), earned_concat,
      sum_comp_update measure, hchanges _ _ _ _ _ ha, if_true]
    omega
  | refused hc he ha =>
    obtain rfl := hinert _ _ _ _ _ ha
    simp only [State.advance, State.touch, Function.update_eq_self]

/-- In every state the resources together measure what they did in the first one,
changed by the commands that were accepted. -/
theorem run_measure (hinert : Inert attempt) (hchanges : Changes attempt measure amount)
    {σ : S → ρ} {programs : ι → List κ} {schedule : List ι} {t : State ι S ρ κ}
    (ht : run (step entries attempt) (start σ programs) schedule = some t) :
    ∑ e, measure (t.resource e) = ∑ e, measure (σ e) + ∑ j, earned amount (t.results j) := by
  have h := run_invariant
    (I := fun s : State ι S ρ κ =>
      ∑ e, measure (s.resource e) - ∑ j, earned amount (s.results j) = ∑ e, measure (σ e))
    (fun _ _ _ hs hstep => (step_measure hinert hchanges hstep).trans hs)
    (by simp [start, earned]) ht
  omega

end

end Schedule.Scan
