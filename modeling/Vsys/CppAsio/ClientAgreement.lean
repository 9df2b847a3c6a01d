import Vsys.CppAsio.ContactProgress

/-! One C++ client among its connections: what has been executed of its requests, and what it
has read of the answers. -/

namespace Vsys.CppAsio

open CString NetParkingSim

variable {ε η ι : Type}

/-- The calls that a connection has come to, which is not there before `connect`. -/
def Unheard (l : Option (Link η)) (o : Option Connection) (last : List ((η × Fin 4) × Text)) :
    Prop :=
  match l with
  | none => last = []
  | some l => l.Sound o last

theorem Unheard.length_le {l : Option (Link η)} {o : Option Connection}
    {last : List ((η × Fin 4) × Text)} (h : Unheard l o last) : last.length ≤ 1 := by
  cases l with
  | none =>
    rw [show last = [] from h]
    exact Nat.zero_le 1
  | some l => exact h.came.length_le

/-- A connection that its client is done with; only `quit` may still be on its way. -/
structure Past (l : Link η) (o : Option Connection) : Prop where
  sound : ∃ last, l.Sound o last
  spent : l.ci ≠ 3 → ∃ c, o = some c ∧ c.stage = .over

/-- A contact that no exception has ended was one with an address of its endpoint, for the command
that the loop has written. -/
def Paired (addresses : ε → List η) (c : Caller ε η) : Prop :=
  ∀ (n : ℕ) (o : Outcome η), c.outcomes[n]? = some o →
    ∃ k : Contact ε, c.client.contacts[n]? = some k ∧ k.request = Client.commandsNl o.ci ∧
      o.host ∈ addresses k.endpoint

theorem Paired.grow {addresses : ε → List η} {c d : Caller ε η} (h : Paired addresses c)
    (houtcomes : d.outcomes = c.outcomes)
    (hcontacts : c.client.contacts <+: d.client.contacts) : Paired addresses d := by
  intro n o ho
  rw [houtcomes] at ho
  obtain ⟨k, hk, hrest⟩ := h n o ho
  obtain ⟨more, hmore⟩ := hcontacts
  obtain ⟨hn, -⟩ := List.getElem?_eq_some_iff.mp hk
  exact ⟨k, by rw [← hmore, List.getElem?_append_left hn, hk], hrest⟩

theorem Paired.concat {addresses : ε → List η} {c d : Caller ε η} {o : Outcome η} {k : Contact ε}
    (h : Paired addresses c) (hcounted : c.client.contacts.length = c.outcomes.length)
    (houtcomes : d.outcomes = c.outcomes ++ [o])
    (hcontacts : d.client.contacts = c.client.contacts ++ [k])
    (hk : k.request = Client.commandsNl o.ci ∧ o.host ∈ addresses k.endpoint) :
    Paired addresses d := by
  intro n o' ho'
  rw [houtcomes] at ho'
  rcases Nat.lt_trichotomy n c.outcomes.length with hn | rfl | hn
  · rw [List.getElem?_append_left hn] at ho'
    obtain ⟨k', hk', hrest⟩ := h n o' ho'
    exact ⟨k', by rw [hcontacts, List.getElem?_append_left (hcounted ▸ hn), hk'], hrest⟩
  · rw [List.getElem?_concat_length] at ho'
    cases ho'
    refine ⟨k, ?_, hk⟩
    rw [hcontacts, ← hcounted, List.getElem?_concat_length]
  · rw [List.getElem?_eq_none (by rw [List.length_append, List.length_singleton]; omega)] at ho'
    cases ho'

/-- One client with the connections that it has made: what has been executed of its requests,
and what it has read. -/
structure Agrees (S : Setting ι ε η) (i : ι) (c : Caller ε η) (link : ℕ → Option (Link η))
    (session : ℕ → Option Connection) (served : List ((η × Fin 4) × Text))
    (asked : List (η × Fin 4)) (told : List Text) : Prop where
  loops : c.Loops (S.endpoints i) (S.input i)
  paired : Paired S.addresses c
  beyond : ∀ n, c.outcomes.length < n → link n = none
  past : ∀ n < c.outcomes.length, ∀ l, link n = some l → Past l (session n)
  idle : c.calling = none → c.client.place ≠ .caught → link c.outcomes.length = none
  calling : ∀ k l, c.calling = some k → link c.outcomes.length = some l →
    l.ci = k.ci ∧ l.host ∈ S.addresses k.endpoint
  served_eq : ∃ before last, served = before ++ last ∧
    Unheard (link c.outcomes.length) (session c.outcomes.length) last ∧
    (c.heard = before.map fun e => (e.1, encode e.2)) ∧ told = before.map Prod.snd
  asked_eq : asked = served.map Prod.fst

section
variable {S : Setting ι ε η} {i : ι} {c d : Caller ε η} {link : ℕ → Option (Link η)}
  {session : ℕ → Option Connection} {served : List ((η × Fin 4) × Text)}
  {asked : List (η × Fin 4)} {told : List Text}

theorem start_agrees : Agrees S i (.start (S.input i)) (fun _ => none) session [] [] [] where
  loops := Caller.start_loops
  paired := fun n o ho => by simp [Caller.start] at ho
  beyond := fun _ _ => rfl
  past := fun n hn => absurd hn (Nat.not_lt_zero n)
  idle := fun _ _ => rfl
  calling := fun k l hk => absurd hk (Option.some_ne_none k).symm
  served_eq := ⟨[], [], rfl, rfl, rfl, rfl⟩
  asked_eq := rfl

theorem Agrees.takeLine (h : Agrees S i c link session served asked told)
    (hd : c.takeLine (S.endpoints i) = some d) :
    Agrees S i d link session served asked told := by
  obtain ⟨hcalling, hplace, u, -, heq⟩ := Caller.takeLine_eq_some hd
  have houtcomes : d.outcomes = c.outcomes := by rw [heq, Caller.begin_outcomes]
  have hcontacts : d.client.contacts = c.client.contacts := by
    rw [heq, Caller.begin_contacts]
    rfl
  have hheard : d.heard = c.heard := by rw [Caller.heard, Caller.heard, houtcomes]
  have hnone : link c.outcomes.length = none := h.idle hcalling (by simp [hplace])
  refine ⟨h.loops.takeLine hd, ?_, ?_, ?_, fun _ _ => ?_, fun k l _ hl => ?_, ?_, h.asked_eq⟩
  · exact h.paired.grow houtcomes (hcontacts ▸ List.prefix_refl _)
  · rw [houtcomes]
    exact h.beyond
  · rw [houtcomes]
    exact h.past
  · rw [houtcomes]
    exact hnone
  · rw [houtcomes, hnone] at hl
    cases hl
  · rw [houtcomes, hheard]
    exact h.served_eq

theorem Agrees.fail (h : Agrees S i c link session served asked told) (hd : c.fail = some d) :
    Agrees S i d link session served asked told := by
  obtain ⟨k, -, hnone, houtcomes, hclient⟩ := Caller.fail_eq_some hd
  have hheard : d.heard = c.heard := by rw [Caller.heard, Caller.heard, houtcomes]
  refine ⟨h.loops.fail hd, ?_, ?_, ?_, fun _ hplace => ?_, fun k' l hk' => ?_, ?_, h.asked_eq⟩
  · refine h.paired.grow houtcomes ?_
    rw [hclient]
    exact List.prefix_append _ _
  · rw [houtcomes]
    exact h.beyond
  · rw [houtcomes]
    exact h.past
  · rw [hclient] at hplace
    exact absurd rfl hplace
  · exact absurd (hnone.symm.trans hk') (Option.some_ne_none k').symm
  · rw [houtcomes, hheard]
    exact h.served_eq

/-- With the end of a contact the next one is not there yet. -/
theorem Agrees.settle {l : Link η} {reply : Reply} {told' : List Text}
    (h : Agrees S i c link session served asked told) (hl : link c.outcomes.length = some l)
    (hd : c.finish l.host reply = some d) (hpast : Past l (session c.outcomes.length))
    (hheard : d.heard = served.map fun e => (e.1, encode e.2))
    (htold : told' = served.map Prod.snd) :
    Agrees S i d link session served asked told' := by
  obtain ⟨k, hk, houtcomes, hcontacts, -⟩ := Caller.finish_eq_some hd
  have hplace := h.loops.busy k hk
  have hlength : d.outcomes.length = c.outcomes.length + 1 := by
    rw [houtcomes, List.length_append]
    rfl
  have hnone : link d.outcomes.length = none := h.beyond _ (by omega)
  refine ⟨h.loops.finish hd, ?_, fun n hn => h.beyond n (by omega), fun n hn m hm => ?_,
    fun _ _ => hnone, fun k' l' _ hl' => ?_,
    ⟨served, [], (List.append_nil _).symm, ?_, hheard, htold⟩, h.asked_eq⟩
  · exact h.paired.concat (h.loops.counted (by simp [hplace])) houtcomes hcontacts
      ⟨rfl, (h.calling k l hk hl).2⟩
  · rcases Nat.lt_or_eq_of_le (Nat.le_of_lt_succ (hlength ▸ hn)) with hlt | rfl
    · exact h.past n hlt m hm
    · cases hl.symm.trans hm
      exact hpast
  · exact absurd (hnone.symm.trans hl') (Option.some_ne_none l').symm
  · rw [hnone]
    rfl

/-- The client is done with its contact: it has the answer to the call that its request has
become, unless it has sent `quit`. -/
theorem Agrees.finish {l : Link η} {reply : Reply}
    (h : Agrees S i c link session served asked told) (hl : link c.outcomes.length = some l)
    (hreply : l.reply = some reply) (hd : c.finish l.host reply = some d) :
    (l.ci = 3 ∧ Agrees S i d link session served asked told) ∨
      ∃ t, served.map Prod.snd = told ++ [t] ∧
        Agrees S i d link session served asked (told ++ [t]) := by
  obtain ⟨k, hk, houtcomes, -⟩ := Caller.finish_eq_some hd
  obtain ⟨hci, -⟩ := h.calling k l hk hl
  obtain ⟨before, last, hserved, hunheard, hheard, htold⟩ := h.served_eq
  rw [hl] at hunheard
  have hsound : l.Sound (session c.outcomes.length) last := hunheard
  by_cases hquit : l.ci = 3
  · rw [hsound.came.nil_of_quit hquit, List.append_nil] at hserved
    have hheard' : d.heard = c.heard := by
      rw [Caller.heard, Caller.heard, houtcomes, List.filterMap_append]
      simp [← hci, hquit]
    refine Or.inl ⟨hquit, h.settle hl hd ⟨⟨last, hsound⟩, fun hne => absurd hquit hne⟩ ?_ ?_⟩
    · rw [hheard', hheard, hserved]
    · rw [htold, hserved]
  · obtain ⟨t, rfl, hbytes, hover⟩ := hsound.reply_of_command hquit hreply
    have hheard' : d.heard = c.heard ++ [((l.host, l.ci), encode t)] := by
      rw [Caller.heard, Caller.heard, houtcomes, List.filterMap_append]
      simp [← hci, hquit, hbytes]
    have htold' : served.map Prod.snd = told ++ [t] := by
      rw [hserved, List.map_append, htold]
      rfl
    refine Or.inr ⟨t, htold', h.settle hl hd ⟨⟨_, hsound⟩, fun _ => hover⟩ ?_ htold'.symm⟩
    rw [hheard', hheard, hserved, List.map_append]
    rfl

theorem Agrees.sound {n : ℕ} {l : Link η} (h : Agrees S i c link session served asked told)
    (hl : link n = some l) : ∃ last, l.Sound (session n) last := by
  rcases Nat.lt_trichotomy n c.outcomes.length with hn | rfl | hn
  · exact (h.past n hn l hl).sound
  · obtain ⟨before, last, -, hunheard, -⟩ := h.served_eq
    rw [hl] at hunheard
    exact ⟨last, hunheard⟩
  · exact absurd ((h.beyond n hn).symm.trans hl) (Option.some_ne_none l).symm

theorem Agrees.setCurrent {l : Link η} {o : Option Connection}
    {more : List ((η × Fin 4) × Text)} (h : Agrees S i c link session served asked told)
    (hbusy : c.calling = none → c.client.place = .caught)
    (hcalling : ∀ k, c.calling = some k → l.ci = k.ci ∧ l.host ∈ S.addresses k.endpoint)
    (hnew : ∀ last, Unheard (link c.outcomes.length) (session c.outcomes.length) last →
      l.Sound o (last ++ more)) :
    Agrees S i c (Function.update link c.outcomes.length (some l))
      (Function.update session c.outcomes.length o) (served ++ more)
      (asked ++ more.map Prod.fst) told := by
  obtain ⟨before, last, hserved, hunheard, hheard, htold⟩ := h.served_eq
  refine ⟨h.loops, h.paired, fun n hn => ?_, fun n hn m hm => ?_, fun hnone hplace => ?_,
    fun k m hk hm => ?_, ⟨before, last ++ more, ?_, ?_, hheard, htold⟩, ?_⟩
  · rw [Function.update_of_ne hn.ne']
    exact h.beyond n hn
  · rw [Function.update_of_ne hn.ne] at hm ⊢
    exact h.past n hn m hm
  · exact absurd (hbusy hnone) hplace
  · rw [Function.update_self] at hm
    cases hm
    exact hcalling k hk
  · rw [hserved, List.append_assoc]
  · rw [Function.update_self, Function.update_self]
    exact hnew last hunheard
  · rw [h.asked_eq, List.map_append]

theorem Agrees.setPast {n : ℕ} {l : Link η} {o : Option Connection}
    (h : Agrees S i c link session served asked told) (hn : n < c.outcomes.length)
    (hl : Past l o) :
    Agrees S i c (Function.update link n (some l)) (Function.update session n o) served asked
      told := by
  refine ⟨h.loops, h.paired, fun m hm => ?_, fun m hm l' hl' => ?_, ?_, ?_, ?_, h.asked_eq⟩
  · rw [Function.update_of_ne (hn.trans hm).ne']
    exact h.beyond m hm
  · by_cases hmn : m = n
    · subst hmn
      rw [Function.update_self] at hl' ⊢
      cases hl'
      exact hl
    · rw [Function.update_of_ne hmn] at hl' ⊢
      exact h.past m hm l' hl'
  · rw [Function.update_of_ne hn.ne']
    exact h.idle
  · rw [Function.update_of_ne hn.ne']
    exact h.calling
  · rw [Function.update_of_ne hn.ne', Function.update_of_ne hn.ne']
    exact h.served_eq

theorem Agrees.busy {l : Link η} (h : Agrees S i c link session served asked told)
    (hl : link c.outcomes.length = some l) (hnone : c.calling = none) :
    c.client.place = .caught := by
  by_contra hplace
  exact absurd ((h.idle hnone hplace).symm.trans hl) (Option.some_ne_none l).symm

/-- Bytes move on a connection, or its server goes on with it, and no call comes of it. -/
theorem Agrees.move {n : ℕ} {l l' : Link η} {o : Option Connection}
    (h : Agrees S i c link session served asked told) (hl : link n = some l)
    (hsame : l'.host = l.host ∧ l'.ci = l.ci)
    (hkeep : ∀ last, l.Sound (session n) last → l'.Sound o last)
    (hover : ∀ e, session n = some e → e.stage = .over → ∃ e', o = some e' ∧ e'.stage = .over) :
    Agrees S i c (Function.update link n (some l')) (Function.update session n o) served asked
      told := by
  rcases Nat.lt_trichotomy n c.outcomes.length with hn | rfl | hn
  · obtain ⟨⟨last, hsound⟩, hspent⟩ := h.past n hn l hl
    refine h.setPast hn ⟨⟨last, hkeep last hsound⟩, fun hci => ?_⟩
    obtain ⟨e, he, hstage⟩ := hspent (hsame.2 ▸ hci)
    exact hover e he hstage
  · have hcalling : ∀ k, c.calling = some k → l'.ci = k.ci ∧ l'.host ∈ S.addresses k.endpoint := by
      rw [hsame.1, hsame.2]
      exact fun k hk => h.calling k l hk hl
    have hnew : ∀ last, Unheard (link c.outcomes.length) (session c.outcomes.length) last →
        l'.Sound o (last ++ []) := by
      intro last hlast
      rw [hl] at hlast
      rw [List.append_nil]
      exact hkeep last hlast
    have hset := h.setCurrent (h.busy hl) hcalling hnew
    rwa [List.append_nil, List.map_nil, List.append_nil] at hset
  · exact absurd ((h.beyond n hn).symm.trans hl) (Option.some_ne_none l).symm

/-- The handler of a connection makes the call of its request. -/
theorem Agrees.execute {n : ℕ} {l : Link η} {e : Connection} {o : Option Connection} {t : Text}
    (h : Agrees S i c link session served asked told) (hl : link n = some l) (hci : l.ci ≠ 3)
    (he : session n = some e) (hready : e.stage = .ready)
    (hnew : ∀ last, l.Sound (some e) last → last = [] ∧ l.Sound o [((l.host, l.ci), t)]) :
    Agrees S i c (Function.update link n (some l)) (Function.update session n o)
      (served ++ [((l.host, l.ci), t)]) (asked ++ [(l.host, l.ci)]) told := by
  rcases Nat.lt_trichotomy n c.outcomes.length with hn | rfl | hn
  -- what the client has an answer to is over
  · obtain ⟨e', he', hover⟩ := (h.past n hn l hl).spent hci
    cases he.symm.trans he'
    exact nomatch hready.symm.trans hover
  · refine h.setCurrent (h.busy hl) (fun k hk => h.calling k l hk hl) fun last hlast => ?_
    rw [hl, he] at hlast
    obtain ⟨rfl, hsound⟩ := hnew last hlast
    exact hsound
  · exact absurd ((h.beyond n hn).symm.trans hl) (Option.some_ne_none l).symm

end

end Vsys.CppAsio
