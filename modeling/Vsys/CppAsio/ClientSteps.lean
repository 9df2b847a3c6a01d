import Vsys.CppAsio.Client

/-! The C++ client contact by contact. Between two contacts it stands at its prompt or inside
the loop over its endpoints; with what comes of the contacts it does what the loop of `main`
does as a whole. -/

namespace Vsys.CppAsio

open CString NetParkingSim

variable {ε η : Type}

/-- A contact that is about to be made or under way. The loop goes on with `later`; a command
with a number has nothing there. -/
structure Calling (ε : Type) where
  ci : Fin 4
  index : ℕ
  endpoint : ε
  later : List (ε × ℕ)
  deriving DecidableEq, Repr

/-- What came of a contact that no exception has ended, and where `connect` led to. -/
structure Outcome (η : Type) where
  host : η
  ci : Fin 4
  reply : Reply

structure Caller (ε η : Type) where
  client : Client ε
  calling : Option (Calling ε)
  outcomes : List (Outcome η)

namespace Client

section
variable {endpoints : List ε} {replies : ℕ → Option Reply}

theorem multicast_nil (ci : Fin 4) (s : Client ε) :
    multicast replies ci [] s = if ci = 3 then { s with place := .exited } else s := rfl

theorem multicast_of_reply {s : Client ε} {r : Reply} (hr : replies s.contacts.length = some r)
    (ci : Fin 4) (ep : ε) (i : ℕ) (later : List (ε × ℕ)) :
    multicast replies ci ((ep, i) :: later) s =
      if ci ≠ 3 ∧ r.isOk then s.contact ci i ep
      else multicast replies ci later (s.contact ci i ep) := by
  simp only [multicast, hr]

theorem multicast_of_exception {s : Client ε} (hr : replies s.contacts.length = none)
    (ci : Fin 4) (ep : ε) (i : ℕ) (later : List (ε × ℕ)) :
    multicast replies ci ((ep, i) :: later) s = { s.contact ci i ep with place := .caught } := by
  simp only [multicast, hr]

theorem unicast_eq_multicast (ci : Fin 4) (i : ℕ) (ep : ε) (s : Client ε) :
    unicast replies ci i ep s = multicast replies ci [(ep, i)] s := by
  cases hr : replies s.contacts.length with
  | none => rw [multicast_of_exception hr, unicast, hr]
  | some r =>
    rw [multicast_of_reply hr, multicast_nil]
    by_cases hci : ci = 3
    · rw [if_neg fun h => h.1 hci]
      simp only [unicast, hr]
    · simp only [unicast, hr, if_neg hci, ite_self]

theorem iterations_concat {k : ℕ} {s t : Client ε}
    (h : iterations endpoints replies k s = some t) (ht : t.place = .prompting) :
    iterations endpoints replies (k + 1) s = iteration endpoints replies t := by
  induction k generalizing s with
  | zero =>
    cases h
    rw [iterations, if_pos ht]
    exact Option.bind_fun_some _
  | succ k ih =>
    by_cases hplace : s.place = .prompting
    · rw [iterations, if_pos hplace] at h ⊢
      obtain ⟨u, hu, hrest⟩ := Option.bind_eq_some_iff.mp h
      rw [hu, Option.bind_some, ih hrest]
    · rw [iterations, if_neg hplace] at h
      cases h
      exact absurd ht hplace

end

end Client

namespace Caller

def start (input : Bytes) : Caller ε η := ⟨.start input, none, []⟩

/-- The head of the loop over the endpoints. -/
def proceed (c : Caller ε η) (ci : Fin 4) : List (ε × ℕ) → Caller ε η
  | [] => { c with
      client := if ci = Client.quitIndex then { c.client with place := .exited } else c.client
      calling := none }
  | (ep, i) :: later => { c with calling := some ⟨ci, i, ep, later⟩ }

/-- A line without a command to send is done with at once. -/
def begin (endpoints : List ε) (c : Caller ε η) : Treated ε → Caller ε η
  | .unicast ci i ep => { c with calling := some ⟨ci, i, ep, []⟩ }
  | .multicast ci => c.proceed ci endpoints.zipIdx
  | u => { c with client := Client.perform endpoints (fun _ => none) c.client u }

/-- The loop takes the next line of its input. -/
def takeLine (endpoints : List ε) (c : Caller ε η) : Option (Caller ε η) :=
  match c.calling, c.client.place with
  | none, .prompting =>
    (Client.treat endpoints c.client.buffer).map fun u =>
      begin endpoints { c with client := c.client.took u } u
  | _, _ => none

/-- The contact ends and its socket is closed. -/
def finish (host : η) (reply : Reply) (c : Caller ε η) : Option (Caller ε η) :=
  c.calling.map fun k =>
    let d : Caller ε η :=
      ⟨c.client.contact k.ci k.index k.endpoint, none, c.outcomes ++ [⟨host, k.ci, reply⟩]⟩
    if k.ci ≠ Client.quitIndex ∧ reply.isOk then d else d.proceed k.ci k.later

/-- One of the socket calls throws. -/
def fail (c : Caller ε η) : Option (Caller ε η) :=
  c.calling.map fun k =>
    { c with
      client := { c.client.contact k.ci k.index k.endpoint with place := .caught }
      calling := none }

/-- The commands that were answered, with what was read as the answer. -/
def heard (c : Caller ε η) : List ((η × Fin 4) × Bytes) :=
  c.outcomes.filterMap fun o =>
    if o.ci = Client.quitIndex then none else some ((o.host, o.ci), o.reply.bytes)

/-- The replies begin with those that there have been. -/
structure Had (c : Caller ε η) (replies : ℕ → Option Reply) : Prop where
  read : ∀ n o, c.outcomes[n]? = some o → replies n = some o.reply
  caught : c.client.place = .caught → replies c.outcomes.length = none

/-- What the loop makes of the line that it has taken. -/
def ahead (replies : ℕ → Option Reply) (c : Caller ε η) : Client ε :=
  match c.calling with
  | none => c.client
  | some k => Client.multicast replies k.ci ((k.endpoint, k.index) :: k.later) c.client

/-- Whatever its further contacts come to, the client does what the loop does on its input. -/
structure Loops (endpoints : List ε) (input : Bytes) (c : Caller ε η) : Prop where
  follows : ∃ k, ∀ replies, c.Had replies →
    Client.iterations endpoints replies k (.start input) = some (c.ahead replies)
  counted : c.client.place ≠ .caught → c.client.contacts.length = c.outcomes.length
  busy : ∀ k, c.calling = some k → c.client.place = .prompting

section
variable {endpoints : List ε} {input : Bytes} {replies : ℕ → Option Reply} {c d : Caller ε η}

theorem ahead_of_calling {k : Calling ε} (h : c.calling = some k) :
    c.ahead replies =
      Client.multicast replies k.ci ((k.endpoint, k.index) :: k.later) c.client := by
  rw [ahead, h]

theorem ahead_of_none (h : c.calling = none) : c.ahead replies = c.client := by
  rw [ahead, h]

theorem ahead_proceed (ci : Fin 4) (later : List (ε × ℕ)) :
    (c.proceed ci later).ahead replies = Client.multicast replies ci later c.client := by
  cases later with
  | nil => rfl
  | cons e later => rfl

theorem ahead_begin (h : c.calling = none) (u : Treated ε) :
    (c.begin endpoints u).ahead replies = Client.perform endpoints replies c.client u := by
  cases u with
  | nothing => exact ahead_of_none h
  | invalidCommand cmd => exact ahead_of_none h
  | invalidIndex epindex => exact ahead_of_none h
  | unicast ci i ep => exact (Client.unicast_eq_multicast ci i ep c.client).symm
  | multicast ci => exact ahead_proceed ci endpoints.zipIdx

@[simp] theorem proceed_outcomes (ci : Fin 4) (later : List (ε × ℕ)) :
    (c.proceed ci later).outcomes = c.outcomes := by
  cases later <;> rfl

@[simp] theorem proceed_contacts (ci : Fin 4) (later : List (ε × ℕ)) :
    (c.proceed ci later).client.contacts = c.client.contacts := by
  cases later with
  | nil =>
    rw [proceed]
    split_ifs <;> rfl
  | cons e later => rfl

@[simp] theorem begin_outcomes (u : Treated ε) :
    (c.begin endpoints u).outcomes = c.outcomes := by
  cases u with
  | multicast ci => exact proceed_outcomes ci _
  | _ => rfl

@[simp] theorem begin_contacts (u : Treated ε) :
    (c.begin endpoints u).client.contacts = c.client.contacts := by
  cases u with
  | multicast ci => exact proceed_contacts ci _
  | _ => rfl

theorem proceed_client {ci : Fin 4} {later : List (ε × ℕ)} {k : Calling ε}
    (h : (c.proceed ci later).calling = some k) : (c.proceed ci later).client = c.client := by
  cases later with
  | nil => cases h
  | cons e later => rfl

theorem begin_client {u : Treated ε} {k : Calling ε} (h : c.calling = none)
    (hk : (c.begin endpoints u).calling = some k) : (c.begin endpoints u).client = c.client := by
  cases u with
  | unicast ci i ep => rfl
  | multicast ci => exact proceed_client hk
  | _ => exact absurd (h.symm.trans hk) (Option.some_ne_none k).symm

theorem takeLine_eq_some (h : c.takeLine endpoints = some d) :
    c.calling = none ∧ c.client.place = .prompting ∧
      ∃ u, Client.treat endpoints c.client.buffer = some u ∧
        d = begin endpoints { c with client := c.client.took u } u := by
  rw [takeLine] at h
  split at h
  · next hcalling hplace =>
    obtain ⟨u, hu, rfl⟩ := Option.map_eq_some_iff.mp h
    exact ⟨hcalling, hplace, u, hu, rfl⟩
  · cases h

theorem finish_eq_some {host : η} {reply : Reply} (h : c.finish host reply = some d) :
    ∃ k, c.calling = some k ∧ d.outcomes = c.outcomes ++ [⟨host, k.ci, reply⟩] ∧
      d.client.contacts = c.client.contacts ++ [⟨k.index, k.endpoint, Client.commandsNl k.ci⟩] ∧
      (∀ k', d.calling = some k' → d.client.place = c.client.place) ∧
      ∀ replies, replies c.client.contacts.length = some reply →
        d.ahead replies = c.ahead replies := by
  obtain ⟨k, hk, hd⟩ := Option.map_eq_some_iff.mp h
  refine ⟨k, hk, ?_⟩
  by_cases hok : k.ci ≠ 3 ∧ reply.isOk
  · rw [if_pos hok] at hd
    subst hd
    refine ⟨rfl, rfl, fun k' hk' => absurd hk' (Option.some_ne_none _).symm, fun replies hr => ?_⟩
    rw [ahead_of_calling hk, Client.multicast_of_reply hr, if_pos hok]
    rfl
  · rw [if_neg hok] at hd
    subst hd
    refine ⟨proceed_outcomes _ _, proceed_contacts _ _, fun k' hk' => ?_, fun replies hr => ?_⟩
    · rw [proceed_client hk']
      rfl
    · rw [ahead_of_calling hk, Client.multicast_of_reply hr, if_neg hok, ahead_proceed]

theorem fail_eq_some (h : c.fail = some d) :
    ∃ k, c.calling = some k ∧ d.calling = none ∧ d.outcomes = c.outcomes ∧
      d.client = { c.client.contact k.ci k.index k.endpoint with place := .caught } := by
  obtain ⟨k, hk, rfl⟩ := Option.map_eq_some_iff.mp h
  exact ⟨k, hk, rfl, rfl, rfl⟩

theorem start_loops : Loops endpoints input (start input : Caller ε η) :=
  ⟨⟨0, fun _ _ => rfl⟩, fun _ => rfl, fun _ hk => absurd hk (Option.some_ne_none _).symm⟩

theorem Loops.takeLine (h : c.Loops endpoints input) (hd : c.takeLine endpoints = some d) :
    d.Loops endpoints input := by
  obtain ⟨hcalling, hplace, u, hu, rfl⟩ := takeLine_eq_some hd
  obtain ⟨k, hk⟩ := h.follows
  have hnot : c.client.place ≠ .caught := by simp [hplace]
  refine ⟨⟨k + 1, fun replies hreplies => ?_⟩, fun _ => ?_, fun k' hk' => ?_⟩
  · have hhad : c.Had replies := by
      refine ⟨fun n o ho => hreplies.read n o ?_, fun hcaught => absurd hcaught hnot⟩
      rwa [begin_outcomes]
    have hbefore := hk replies hhad
    rw [ahead_of_none hcalling] at hbefore
    rw [Client.iterations_concat hbefore hplace, Client.iteration_of_treat hu, ahead_begin]
    exact hcalling
  · rw [begin_contacts, begin_outcomes]
    exact h.counted hnot
  · have hclient := @begin_client _ _ _ { c with client := c.client.took u } _ _ hcalling hk'
    rw [hclient]
    exact hplace

theorem Loops.finish {host : η} {reply : Reply} (h : c.Loops endpoints input)
    (hd : c.finish host reply = some d) : d.Loops endpoints input := by
  obtain ⟨k, hk, houtcomes, hcontacts, hbusy, hahead⟩ := finish_eq_some hd
  have hplace := h.busy k hk
  have hnot : c.client.place ≠ .caught := by simp [hplace]
  have hcounted := h.counted hnot
  obtain ⟨n, hn⟩ := h.follows
  refine ⟨⟨n, fun replies hreplies => ?_⟩, fun _ => ?_, fun k' hk' => (hbusy k' hk').trans hplace⟩
  · have hlast : replies c.client.contacts.length = some reply := by
      rw [hcounted]
      exact hreplies.read _ ⟨host, k.ci, reply⟩ (by simp [houtcomes])
    have hhad : c.Had replies := by
      refine ⟨fun m o ho => hreplies.read m o ?_, fun hcaught => absurd hcaught hnot⟩
      obtain ⟨hm, -⟩ := List.getElem?_eq_some_iff.mp ho
      rwa [houtcomes, List.getElem?_append_left hm]
    rw [hahead replies hlast]
    exact hn replies hhad
  · rw [hcontacts, houtcomes, List.length_append, List.length_append, hcounted]
    rfl

theorem Loops.fail (h : c.Loops endpoints input) (hd : c.fail = some d) :
    d.Loops endpoints input := by
  obtain ⟨k, hk, hnone, houtcomes, hclient⟩ := fail_eq_some hd
  have hplace := h.busy k hk
  have hnot : c.client.place ≠ .caught := by simp [hplace]
  obtain ⟨n, hn⟩ := h.follows
  have hcaught : d.client.place = .caught := by rw [hclient]
  refine ⟨⟨n, fun replies hreplies => ?_⟩, fun hne => absurd hcaught hne, fun k' hk' => ?_⟩
  · have hlast : replies c.client.contacts.length = none := by
      rw [h.counted hnot, ← houtcomes]
      exact hreplies.caught hcaught
    have hhad : c.Had replies :=
      ⟨fun m o ho => hreplies.read m o (houtcomes ▸ ho), fun hc => absurd hc hnot⟩
    rw [hn replies hhad, ahead_of_calling hk, Client.multicast_of_exception hlast,
      ahead_of_none hnone, hclient]
  · exact absurd (hnone.symm.trans hk') (Option.some_ne_none _).symm

end

end Caller

end Vsys.CppAsio
