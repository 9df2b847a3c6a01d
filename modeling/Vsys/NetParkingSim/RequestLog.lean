import Vsys.NetParkingSim.AtomicContacts

/-! What the logs of the servers tell about their clients. A session writes the line of a
request before it handles the request, and the sessions of a server share its log. -/

namespace Vsys.NetParkingSim

open Schedule RequestDispatcher

variable {ι α : Type}

/-- A line of the log, with whom it is about. -/
structure Noted (ι α : Type) where
  party : ι
  host : UnicastCommandDispatcher α
  command : Text
  observer : RequestLoggingObserver

def Noted.entry (n : Noted ι α) : Text := n.observer.entry n.command

def Noted.request (n : Noted ι α) : Request α := (n.host, n.command)

def Place.current : Place α → List (Request α)
  | .calling k => [(k.target, k.command)]
  | _ => []

def ClientState.attempts (c : ClientState α) : List (Request α) :=
  c.calls.map Prod.fst

/-- The requests that the client has sent or is about to send. -/
def ClientState.asked (c : ClientState α) : List (Request α) :=
  c.attempts ++ c.place.current

/-- Of the requests `noted`, all were asked for and all that were executed are among them; the
last one is the one that a connection still has on its way. -/
structure Logged (c : ClientState α) (contact : Option (Contact α))
    (served noted : List (Request α)) : Prop where
  idle : contact = none → served.Sublist noted ∧ noted.Sublist c.attempts
  busy : ∀ k, contact = some k → ∃ before ended done, c.asked = before ++ [(k.host, k.command)] ∧
    served = ended ++ (Contact.pending contact).map Prod.fst ∧
    ended.Sublist done ∧ done.Sublist before ∧
    noted = if k.stage = .asked then done else done ++ [(k.host, k.command)]

section
variable {hosts : System.Hosts α} {c d : ClientState α} {contact : Option (Contact α)}
  {served noted : List (Request α)}

theorem start_logged : Logged (ClientState.start : ClientState α) none [] [] where
  idle := fun _ => ⟨List.Sublist.slnil, List.Sublist.slnil⟩
  busy := fun k hk => absurd hk (Option.some_ne_none k).symm

theorem Logged.quiet (h : Logged c none served noted) (hcalls : d.calls = c.calls) :
    Logged d none served noted := by
  refine ⟨fun _ => ?_, fun k hk => absurd hk (Option.some_ne_none k).symm⟩
  rw [ClientState.attempts, hcalls]
  exact h.idle rfl

theorem Logged.connect (h : Logged c none served noted) {k : Calling α}
    (hplace : c.place = .calling k) (o : RequestLoggingObserver) :
    Logged c (some ⟨k.target, k.command, o, .asked⟩) served noted := by
  refine ⟨fun hk => absurd hk (Option.some_ne_none _), fun m hm => ?_⟩
  cases hm
  obtain ⟨hserved, hattempts⟩ := h.idle rfl
  exact ⟨c.attempts, served, noted, by rw [ClientState.asked, hplace]; rfl,
    (List.append_nil _).symm, hserved, hattempts, rfl⟩

theorem Logged.note {k : Contact α} (h : Logged c (some k) served noted)
    (hstage : k.stage = .asked) :
    Logged c (some { k with stage := .noted }) served (noted ++ [(k.host, k.command)]) := by
  refine ⟨fun hk => absurd hk (Option.some_ne_none _), fun m hm => ?_⟩
  cases hm
  obtain ⟨before, ended, done, hasked, hserved, hended, hdone, hnoted⟩ := h.busy k rfl
  rw [Contact.pending_of_open (Or.inl hstage)] at hserved
  rw [if_pos hstage] at hnoted
  exact ⟨before, ended, done, hasked, hserved, hended, hdone, by rw [hnoted]; rfl⟩

theorem Logged.handle {k : Contact α} (h : Logged c (some k) served noted)
    (hstage : k.stage = .noted) (out : Text) (exits : Bool) :
    Logged c (some { k with stage := .handled out exits }) (served ++ [(k.host, k.command)])
      noted := by
  refine ⟨fun hk => absurd hk (Option.some_ne_none _), fun m hm => ?_⟩
  cases hm
  obtain ⟨before, ended, done, hasked, hserved, hended, hdone, hnoted⟩ := h.busy k rfl
  rw [Contact.pending_of_open (Or.inr hstage), List.map_nil, List.append_nil] at hserved
  rw [if_neg (by rw [hstage]; simp)] at hnoted
  exact ⟨before, ended, done, hasked, by rw [hserved]; rfl, hended, hdone, by rw [hnoted]; rfl⟩

theorem Logged.flush {k : Contact α} (h : Logged c (some k) served noted) {out : Text}
    {exits : Bool} (hstage : k.stage = .handled out exits) :
    Logged c (some { k with stage := .answered out }) served noted := by
  refine ⟨fun hk => absurd hk (Option.some_ne_none _), fun m hm => ?_⟩
  cases hm
  obtain ⟨before, ended, done, hasked, hserved, hended, hdone, hnoted⟩ := h.busy k rfl
  rw [Contact.pending_of_handled hstage] at hserved
  rw [if_neg (by rw [hstage]; simp)] at hnoted
  exact ⟨before, ended, done, hasked, hserved, hended, hdone, by rw [hnoted]; rfl⟩

theorem Logged.bounds (h : Logged c contact served noted) :
    served.Sublist noted ∧ noted.Sublist c.asked := by
  cases contact with
  | none =>
    obtain ⟨hserved, hattempts⟩ := h.idle rfl
    exact ⟨hserved, hattempts.trans (List.sublist_append_left _ _)⟩
  | some k =>
    obtain ⟨before, ended, done, hasked, hserved, hended, hdone, hnoted⟩ := h.busy k rfl
    rw [hasked, hserved, hnoted]
    cases hstage : k.stage with
    | asked =>
      rw [Contact.pending_of_open (Or.inl hstage), List.map_nil, List.append_nil, if_pos rfl]
      exact ⟨hended, hdone.trans (List.sublist_append_left _ _)⟩
    | noted =>
      rw [Contact.pending_of_open (Or.inr hstage), List.map_nil, List.append_nil,
        if_neg (by simp)]
      exact ⟨hended.trans (List.sublist_append_left _ _), hdone.append_right _⟩
    | handled out exits =>
      rw [Contact.pending_of_handled hstage, if_neg (by simp)]
      exact ⟨hended.append_right _, hdone.append_right _⟩
    | answered out =>
      rw [Contact.pending_of_answered hstage, if_neg (by simp)]
      exact ⟨hended.append_right _, hdone.append_right _⟩

/-- The call of `execute` ends, and with it the connection. -/
theorem Logged.finish {k : Contact α} {e : Executed} (h : Logged c (some k) served noted)
    (hd : c.finish hosts.args e = some d) : Logged d none served noted := by
  obtain ⟨m, hplace, hcalls, -⟩ := ClientState.finish_eq_some hd
  have hattempts : d.attempts = c.asked := by
    rw [ClientState.asked, hplace, ClientState.attempts, hcalls, List.map_append]
    rfl
  refine ⟨fun _ => ?_, fun k hk => absurd hk (Option.some_ne_none k).symm⟩
  rw [hattempts]
  exact h.bounds

theorem Logged.fail (h : Logged c contact served noted)
    (hd : c.finish hosts.args .failed = some d) : Logged d contact served noted := by
  obtain ⟨m, hplace, hcalls, hnext⟩ := ClientState.finish_eq_some hd
  have hattempts : d.attempts = c.asked := by
    rw [ClientState.asked, hplace, ClientState.attempts, hcalls, List.map_append]
    rfl
  have hasked : d.asked = c.asked := by
    rw [ClientState.asked, hattempts, hnext]
    exact List.append_nil _
  refine ⟨fun hk => ?_, fun k hk => ?_⟩
  · obtain ⟨hserved, hnoted⟩ := h.idle hk
    rw [hattempts]
    exact ⟨hserved, hnoted.trans (List.sublist_append_left _ _)⟩
  · rw [hasked]
    exact h.busy k hk

end

namespace System

variable [DecidableEq ι] [DecidableEq α]

def notedFor (noted : List (Noted ι α)) (i : ι) : List (Request α) :=
  (noted.filter fun n => n.party = i).map Noted.request

def notedAt (noted : List (Noted ι α)) (host : UnicastCommandDispatcher α) : List Text :=
  (noted.filter fun n => n.host = host).map Noted.entry

/-- The requests of a party that were executed. -/
def executedFor (log : List (LogEntry ι α)) (i : ι) : List (Request α) :=
  (servedTo log i).map Prod.fst

/-- The logs are the lines that were noted, and each client's part of these lines is in order
and has all that was executed for it. -/
structure Logs (servers : UnicastCommandDispatcher α → Server) (s : System ι α)
    (log : List (LogEntry ι α)) (noted : List (Noted ι α)) : Prop where
  written : ∀ host, (s.server host).log = (servers host).log ++ (notedAt noted host).flatMap println
  parties : ∀ i, Logged (s.client i) (s.contact i) (executedFor log i) (notedFor noted i)
  plain : ∀ n ∈ noted, Plain n.command

variable {hosts : ι → Hosts α} {servers : UnicastCommandDispatcher α → Server} {s t : System ι α}
  {log : List (LogEntry ι α)} {noted : List (Noted ι α)}

theorem start_logs : Logs servers (start servers : System ι α) [] [] where
  written := fun _ => (List.append_nil _).symm
  parties := fun _ => start_logged
  plain := fun _ hn => absurd hn List.not_mem_nil

theorem Logs.at {log' : List (LogEntry ι α)} (h : Logs servers s log noted) (i : ι)
    (hlog : ∀ host, (t.server host).log = (s.server host).log)
    (hparty : ∀ j, j ≠ i → t.client j = s.client j ∧ t.contact j = s.contact j)
    (hserved : ∀ j, j ≠ i → executedFor log' j = executedFor log j)
    (hi : Logged (t.client i) (t.contact i) (executedFor log' i) (notedFor noted i)) :
    Logs servers t log' noted := by
  refine ⟨fun host => (hlog host).trans (h.written host), fun j => ?_, h.plain⟩
  rcases eq_or_ne j i with rfl | hj
  · exact hi
  · obtain ⟨hclient, hcontact⟩ := hparty j hj
    rw [hclient, hcontact, hserved j hj]
    exact h.parties j

omit [DecidableEq ι] in
theorem setServer_log {host : UnicastCommandDispatcher α} {v : Server}
    (hv : v.log = (s.server host).log) (other : UnicastCommandDispatcher α) :
    ((s.setServer host v).server other).log = (s.server other).log := by
  rcases eq_or_ne other host with rfl | hne
  · change (Function.update s.server other v other).log = _
    rw [Function.update_self, hv]
  · change (Function.update s.server host v other).log = _
    rw [Function.update_of_ne hne]

theorem Logs.setClient (h : Logs servers s log noted) {i : ι} {d : ClientState α}
    (hd : Logged d (s.contact i) (executedFor log i) (notedFor noted i)) :
    Logs servers (s.setClient i d) log noted :=
  h.at i (fun _ => rfl) (fun _ hj => setClient_of_ne hj d) (fun _ _ => rfl)
    ((setClient_self i d).symm ▸ hd)

/-- The call of `execute` ends, and with it the connection. -/
theorem Logs.finish (h : Logs servers s log noted) {i : ι} {c : Contact α} {d : ClientState α}
    {e : Executed} (hc : s.contact i = some c) (hd : (s.client i).finish (hosts i).args e = some d) :
    Logs servers ((s.setClient i d).setContact i none) log noted := by
  refine h.at i (fun _ => rfl)
    (fun _ hj => ⟨Function.update_of_ne hj _ _, Function.update_of_ne hj _ _⟩) (fun _ _ => rfl) ?_
  rw [setContact_self]
  exact (setClient_self i d).symm ▸ (hc ▸ h.parties i).finish hd

omit [DecidableEq α] in
theorem executedFor_concat (log : List (LogEntry ι α)) (e : LogEntry ι α) (i : ι) :
    executedFor (log ++ [e]) i =
      if e.party = i then executedFor log i ++ [e.call] else executedFor log i := by
  rw [executedFor, servedTo_concat]
  split
  · rw [List.map_append]
    rfl
  · rfl

omit [DecidableEq α] in
theorem notedFor_concat (noted : List (Noted ι α)) (n : Noted ι α) (i : ι) :
    notedFor (noted ++ [n]) i =
      if n.party = i then notedFor noted i ++ [n.request] else notedFor noted i := by
  rw [notedFor, List.filter_append]
  split
  · next h =>
    rw [List.filter_singleton, decide_eq_true h, List.map_append]
    rfl
  · next h =>
    rw [List.filter_singleton, decide_eq_false h, List.map_append]
    exact List.append_nil _

omit [DecidableEq ι] in
theorem notedAt_concat (noted : List (Noted ι α)) (n : Noted ι α)
    (host : UnicastCommandDispatcher α) : notedAt (noted ++ [n]) host =
      if n.host = host then notedAt noted host ++ [n.entry] else notedAt noted host := by
  rw [notedAt, List.filter_append]
  split
  · next h =>
    rw [List.filter_singleton, decide_eq_true h, List.map_append]
    rfl
  · next h =>
    rw [List.filter_singleton, decide_eq_false h, List.map_append]
    exact List.append_nil _

theorem Logs.note (h : Logs servers s log noted) {i : ι} {c : Contact α}
    (hc : s.contact i = some c) (hplain : Plain c.command) (hstage : c.stage = .asked) :
    Logs servers (s.noteLine i c c.command) log
      (noted ++ [⟨i, c.host, c.command, c.observer⟩]) where
  written := by
    intro host
    rw [notedAt_concat]
    by_cases hhost : c.host = host
    · subst hhost
      change (Function.update s.server c.host _ c.host).log = _
      rw [Function.update_self, if_pos rfl, List.flatMap_append, ← List.append_assoc, ← h.written]
      change notify c.observer.hooks c.command _ = _
      rw [RequestLoggingObserver.notify_hooks]
      simp [Noted.entry]
    · change (Function.update s.server c.host _ host).log = _
      rw [Function.update_of_ne (Ne.symm hhost), if_neg hhost]
      exact h.written host
  parties := by
    intro j
    rw [notedFor_concat]
    rcases eq_or_ne i j with rfl | hj
    · have hi := h.parties i
      rw [hc] at hi
      rw [if_pos rfl]
      change Logged (s.client i) (Function.update s.contact i _ i) _ _
      rw [Function.update_self]
      exact hi.note hstage
    · rw [if_neg hj]
      change Logged (s.client j) (Function.update s.contact i _ j) _ _
      rw [Function.update_of_ne hj.symm]
      exact h.parties j
  plain := by
    intro n hn
    rcases List.mem_append.mp hn with hn | hn
    · exact h.plain n hn
    · obtain rfl := List.mem_singleton.mp hn
      exact hplain

/-- The handler of a session runs behind its observer. -/
theorem Logs.handle (h : Logs servers s log noted) {i : ι} {c : Contact α} (line : Text)
    (hc : s.contact i = some c) (hstage : c.stage = .noted) :
    Logs servers (s.handleLine i c line) (log ++ s.effect (.handle i)) noted := by
  have heffect : executedFor (log ++ s.effect (.handle i)) i =
      executedFor log i ++ [(c.host, c.command)] := by
    rw [effect, hc]
    exact (executedFor_concat log _ i).trans (if_pos rfl)
  refine h.at i (setServer_log (by rfl)) (fun _ hj => ⟨rfl, Function.update_of_ne hj _ _⟩) ?_ ?_
  · intro j hj
    rw [effect, hc]
    exact (executedFor_concat log _ j).trans (if_neg hj.symm)
  · rw [handleLine, setContact_self, heffect]
    exact (hc ▸ h.parties i).handle hstage _ _

theorem Logs.connect (h : Logs servers s log noted) {i : ι} {k : Calling α}
    (hplace : (s.client i).place = .calling k) (hnone : s.contact i = none)
    (o : RequestLoggingObserver) :
    Logs servers (s.setContact i (some ⟨k.target, k.command, o, .asked⟩)) log noted := by
  refine h.at i (fun _ => rfl) (fun _ hj => setContact_of_ne hj _) (fun _ _ => rfl) ?_
  rw [setContact_self]
  exact (hnone ▸ h.parties i).connect hplace o

theorem Logs.flush (h : Logs servers s log noted) {i : ι} {c : Contact α}
    (hc : s.contact i = some c) {out : Text} {exits : Bool} (hstage : c.stage = .handled out exits) :
    Logs servers (s.flushOut i c out exits) log noted := by
  refine h.at i (setServer_log (by rfl)) (fun _ hj => ⟨rfl, Function.update_of_ne hj _ _⟩)
    (fun _ _ => rfl) ?_
  rw [flushOut, setContact_self]
  exact (hc ▸ h.parties i).flush hstage

theorem Logs.unexecuted (h : Logs servers t log noted) {l : Label ι α} (hl : s.effect l = []) :
    ∃ noted, Logs servers t (log ++ s.effect l) noted :=
  ⟨noted, by rwa [hl, List.append_nil]⟩

theorem step_logs {o : Lots ι α} {l : Label ι α} (ho : Related hosts s o)
    (h : Logs servers s log noted) (ht : step hosts s l = some t) :
    ∃ noted, Logs servers t (log ++ s.effect l) noted := by
  have hidle : ∀ i, (s.client i).place = .prompting → s.contact i = none ∧
      Logged (s.client i) none (executedFor log i) (notedFor noted i) := fun i hplace => by
    have hnone := (ho.agrees i).sound.idle hplace
    exact ⟨hnone, hnone ▸ h.parties i⟩
  cases moves_of_step ht with
  | @typeLine i line d hd =>
    obtain ⟨hplace, hcalls, -⟩ := ClientState.typeLine_eq_some hd
    obtain ⟨hnone, hlogged⟩ := hidle i hplace
    exact (h.setClient (by rw [hnone]; exact hlogged.quiet hcalls)).unexecuted rfl
  | @endOfInput i d hd =>
    obtain ⟨hplace, hcalls, -⟩ := ClientState.endOfInput_eq_some hd
    obtain ⟨hnone, hlogged⟩ := hidle i hplace
    exact (h.setClient (by rw [hnone]; exact hlogged.quiet hcalls)).unexecuted rfl
  | @connect i observer k hplace hnone =>
    exact (h.connect hplace hnone observer).unexecuted rfl
  | @note i c line hc hstage hline =>
    have hplain := ((ho.agrees i).sound.fits c hc).plain
    obtain rfl : c.command = line :=
      Option.some.inj ((Contact.line_of_plain hplain).symm.trans hline)
    exact (h.note hc hplain hstage).unexecuted rfl
  | @handle i c line hc hstage => exact ⟨noted, h.handle line hc hstage⟩
  | @flush i c out exits hc hstage => exact (h.flush hc hstage).unexecuted rfl
  | @read i c out resp rest d hc hstage hresp hd => exact (h.finish hc hd).unexecuted rfl
  | @readNull i c d hc hstage hstopped hd => exact (h.finish hc hd).unexecuted rfl
  | @fail i d hd => exact (h.setClient ((h.parties i).fail hd)).unexecuted rfl
  | exit | stop =>
    exact Logs.unexecuted ⟨fun other => (setServer_log (by rfl) other).trans (h.written other),
      h.parties, h.plain⟩ rfl

theorem notedAt_plain (h : Logs servers s log noted) (host : UnicastCommandDispatcher α) :
    ∀ entry ∈ notedAt noted host, Plain entry := by
  intro entry hentry
  obtain ⟨n, hn, rfl⟩ := List.mem_map.mp hentry
  exact n.observer.entry_plain (h.plain n (List.mem_of_mem_filter hn))

/-- In every run, what a server has added to its log are whole lines, one for each request
that was noted there. With the log of executed requests that explains the lots, a client
finds among these lines, in the order in which it made them, only requests that it made,
each at most once, and all that were executed for it. -/
theorem logs_account {labels : List (Label ι α)}
    (hs : run (step hosts) (start servers) labels = some s) :
    ∃ (log : List (LogEntry ι α)) (noted : List (Noted ι α)),
      Explains hosts (fun host => (servers host).lot) s log ∧
      (∀ host, (s.server host).log =
          (servers host).log ++ (notedAt noted host).flatMap println ∧
        lines ((notedAt noted host).flatMap println) = notedAt noted host) ∧
      ∀ i, ((servedTo log i).map Prod.fst).Sublist (notedFor noted i) ∧
        (notedFor noted i).Sublist (s.client i).asked := by
  let lots := fun host => (servers host).lot
  have hinv : ∀ (s : System ι α) l t,
      (∃ o, Related hosts s o ∧ RemoteObject.Consistent serveAt lots o ∧
        ∃ noted, Logs servers s o.log noted) → step hosts s l = some t →
      ∃ o, Related hosts t o ∧ RemoteObject.Consistent serveAt lots o ∧
        ∃ noted, Logs servers t o.log noted := by
    rintro s l t ⟨o, ho, hconsistent, noted, h⟩ ht
    obtain ⟨as, p, hrun, hp, hlog⟩ := ho.matched ht
    exact ⟨p, hp, RemoteObject.run_consistent hconsistent hrun, hlog ▸ step_logs ho h ht⟩
  obtain ⟨o, ho, hconsistent, noted, h⟩ := run_invariant hinv
    ⟨_, start_related servers, RemoteObject.start_consistent, [], start_logs⟩ hs
  exact ⟨o.log, noted, ho.explains hconsistent,
    fun host => ⟨h.written host, lines_println (notedAt_plain h host)⟩, fun i => (h.parties i).bounds⟩

/-- The server stops between the line and the request: the log tells of a request that was never
executed. -/
theorem logs_account_stopped :
    let host : UnicastCommandDispatcher Text := ⟨"localhost".toList, 5000⟩
    let hosts : Unit → Hosts Text := fun _ => ⟨["localhost:5000".toList], [host]⟩
    let servers : UnicastCommandDispatcher Text → Server := fun _ => ⟨.new 1, [], false, true⟩
    ∃ s, run (step hosts) (start servers)
        [.typeLine () "in 1".toList, .connect () localhost, .note (), .stop host, .readNull ()] =
          some s ∧
      (s.server host).lot = ⟨1, 0⟩ ∧
      (s.server host).log = println (localhost.entry "in".toList) ∧
      ∃ (log : List (LogEntry Unit Text)) (noted : List (Noted Unit Text)),
        Explains hosts (fun host => (servers host).lot) s log ∧
        ∀ i, ((servedTo log i).map Prod.fst).Sublist (notedFor noted i) ∧
          (notedFor noted i).Sublist (s.client i).asked := by
  intro host hosts servers
  obtain ⟨s, hs, hlot, hlog⟩ : ∃ s ∈ run (step hosts) (start servers)
      [.typeLine () "in 1".toList, .connect () localhost, .note (), .stop host, .readNull ()],
      (s.server host).lot = ⟨1, 0⟩ ∧
      (s.server host).log = println (localhost.entry "in".toList) := by decide
  obtain ⟨log, noted, hexplains, -, hparties⟩ := logs_account hs
  exact ⟨s, hs, hlot, hlog, log, noted, hexplains, hparties⟩

end System

end Vsys.NetParkingSim
