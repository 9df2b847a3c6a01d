import Vsys.NetParkingSim.Contacts
import Vsys.NetParkingSim.ServerAgreement

/-! The servers as their clients see them: as lots on which requests are executed one at a
time. A request takes effect when its handler calls the lot, and only its own client can be
left without the response. -/

namespace Vsys.NetParkingSim

open Schedule RequestDispatcher ParkingLotClientMain

variable {ι α : Type}

namespace ClientState

/-- The hosts that the client has heard nothing from but the end of their input. -/
def unheard (c : ClientState α) : List (UnicastCommandDispatcher α) :=
  c.calls.filterMap fun e => if e.2 = .returned none then some e.1.1 else none

variable {args : List Text} {ds : List (UnicastCommandDispatcher α)} {c d : ClientState α}

theorem typeLine_eq_some {line : Text} (h : c.typeLine args ds line = some d) :
    c.place = .prompting ∧ d.calls = c.calls ∧ d.place = .begin args ds line := by
  rw [typeLine] at h
  split at h
  · next hplace =>
    cases h
    exact ⟨hplace, rfl, rfl⟩
  · cases h

theorem endOfInput_eq_some (h : c.endOfInput = some d) :
    c.place = .prompting ∧ d.calls = c.calls ∧ d.place = .left .prompt := by
  rw [endOfInput] at h
  split at h
  · next hplace =>
    cases h
    exact ⟨hplace, rfl, rfl⟩
  · cases h

theorem finish_eq_some {e : Executed} (h : c.finish args e = some d) :
    ∃ k, c.place = .calling k ∧ d.calls = c.calls ++ [((k.target, k.command), e)] ∧
      d.place = (k.resume args e).2 := by
  rw [finish] at h
  split at h
  · next k hplace =>
    cases h
    exact ⟨k, hplace, rfl, rfl⟩
  · cases h

theorem unheard_of_calls_eq (h : d.calls = c.calls) : d.unheard = c.unheard := by
  rw [unheard, unheard, h]

theorem unheard_concat {r : Request α} {e : Executed} (h : d.calls = c.calls ++ [(r, e)]) :
    d.unheard = if e = .returned none then c.unheard ++ [r.1] else c.unheard := by
  rw [unheard, h, List.filterMap_append]
  split
  · next he => simp [unheard, he]
  · next he => simp [unheard, he]

end ClientState

/-- What has been executed for calls of `execute` that have ended. One that returned a line
was executed with that response; one that returned `null` may have been, and then its
response is lost. -/
inductive Executes : List (Request α × Executed) → List (Request α × Text) → Prop
  | none : Executes [] []
  | heard {cs : List (Request α × Executed)} {es : List (Request α × Text)} (r : Request α)
    (resp : Text) (h : Executes cs es) :
    Executes (cs ++ [(r, .returned (some resp))]) (es ++ [(r, println resp)])
  | lost {cs : List (Request α × Executed)} {es : List (Request α × Text)} (r : Request α)
    (out : Text) (h : Executes cs es) : Executes (cs ++ [(r, .returned .none)]) (es ++ [(r, out)])
  | unserved {cs : List (Request α × Executed)} {es : List (Request α × Text)} (r : Request α)
    {e : Executed} (he : ∀ resp, e ≠ .returned (some resp)) (h : Executes cs es) :
    Executes (cs ++ [(r, e)]) es

/-- A request that has been handled and whose response has not been read. -/
def Contact.pending : Option (Contact α) → List (Request α × Text)
  | some ⟨host, command, _, .handled out _⟩ => [((host, command), out)]
  | some ⟨host, command, _, .answered out⟩ => [((host, command), out)]
  | _ => []

@[simp] theorem Contact.pending_none : pending (none : Option (Contact α)) = [] := rfl

theorem Contact.pending_of_answered {c : Contact α} {out : Text} (h : c.stage = .answered out) :
    pending (some c) = [((c.host, c.command), out)] := by
  obtain ⟨host, command, o, stage⟩ := c
  cases h
  rfl

theorem Contact.pending_of_handled {c : Contact α} {out : Text} {exits : Bool}
    (h : c.stage = .handled out exits) : pending (some c) = [((c.host, c.command), out)] := by
  obtain ⟨host, command, o, stage⟩ := c
  cases h
  rfl

theorem Contact.pending_of_open {c : Contact α} (h : c.stage = .asked ∨ c.stage = .noted) :
    pending (some c) = [] := by
  obtain ⟨host, command, o, stage⟩ := c
  rcases h with rfl | rfl <;> rfl

/-- Before the response of a connection is flushed, its request has been handled or not. -/
theorem Contact.pending_of_unanswered {c : Contact α} (h : c.stage.isAnswered = false) :
    pending (some c) = [] ∨ ∃ out, pending (some c) = [((c.host, c.command), out)] := by
  obtain ⟨host, command, o, stage⟩ := c
  cases stage with
  | asked => exact Or.inl rfl
  | noted => exact Or.inl rfl
  | handled out exits => exact Or.inr ⟨out, rfl⟩
  | answered out => cases h

def Stage.out : Stage → Option Text
  | handled out _ => some out
  | answered out => some out
  | _ => none

/-- A connection belongs to the call that its client is making, unless it has outlived it. -/
structure Contact.Fits (c : Contact α) (p : Place α) : Prop where
  plain : Plain c.command
  busy : p ≠ .prompting
  current : ∀ k, p = .calling k → k.target = c.host ∧ k.command = c.command
  answer : ∀ out, c.stage.out = some out → ∃ resp, Plain resp ∧ out = println resp

theorem Contact.line_of_plain {c : Contact α} (h : Plain c.command) : c.line = some c.command := by
  rw [line, println, readLine_line h]
  rfl

structure Sound (hosts : System.Hosts α) (c : ClientState α) (contact : Option (Contact α)) :
    Prop where
  prints : c.Prints hosts.args hosts.dispatchers
  plain : c.place.PlainCommand
  fits : ∀ k, contact = some k → k.Fits c.place

section
variable {hosts : System.Hosts α} {c d : ClientState α} {contact : Option (Contact α)}

theorem start_sound : Sound hosts ClientState.start none where
  prints := ClientState.start_prints
  plain := Place.prompting_plain
  fits := fun _ hk => absurd hk (Option.some_ne_none _).symm

theorem Sound.idle (h : Sound hosts c contact) (hplace : c.place = .prompting) :
    contact = none := by
  cases contact with
  | none => rfl
  | some k => exact absurd hplace (h.fits k rfl).busy

theorem Sound.typeLine {line : Text} (h : Sound hosts c contact)
    (hd : c.typeLine hosts.args hosts.dispatchers line = some d) : Sound hosts d contact := by
  obtain ⟨hplace, -, hnext⟩ := ClientState.typeLine_eq_some hd
  refine ⟨h.prints.typeLine hd, hnext ▸ Place.begin_plain _ _ _, fun k hk => ?_⟩
  exact absurd ((h.idle hplace).symm.trans hk) (Option.some_ne_none k).symm

theorem Sound.endOfInput (h : Sound hosts c contact) (hd : c.endOfInput = some d) :
    Sound hosts d contact := by
  obtain ⟨hplace, -, hnext⟩ := ClientState.endOfInput_eq_some hd
  refine ⟨h.prints.endOfInput hd, hnext ▸ Place.left_plain _, fun k hk => ?_⟩
  exact absurd ((h.idle hplace).symm.trans hk) (Option.some_ne_none k).symm

theorem Sound.finish {e : Executed} (h : Sound hosts c contact)
    (hd : c.finish hosts.args e = some d) : Sound hosts d none := by
  obtain ⟨k, hplace, -, hnext⟩ := ClientState.finish_eq_some hd
  exact ⟨h.prints.finish hd, hnext ▸ Calling.resume_plain (h.plain k hplace) e,
    fun k hk => absurd hk (Option.some_ne_none k).symm⟩

/-- A connection that has failed may still have its request on the way. -/
theorem Sound.fail (h : Sound hosts c contact) (hd : c.finish hosts.args .failed = some d) :
    Sound hosts d contact := by
  obtain ⟨k, -, -, hnext⟩ := ClientState.finish_eq_some hd
  have hleft : d.place = .left (.thrown .execute) := hnext
  refine ⟨h.prints.finish hd, hleft ▸ Place.left_plain _, fun k hk => ?_⟩
  have hfits := h.fits k hk
  rw [hleft]
  exact ⟨hfits.plain, fun hp => (nomatch hp), fun _ hk => (nomatch hk), hfits.answer⟩

theorem Sound.connect (h : Sound hosts c contact) {k : Calling α} (hplace : c.place = .calling k)
    (o : RequestLoggingObserver) : Sound hosts c (some ⟨k.target, k.command, o, .asked⟩) := by
  refine ⟨h.prints, h.plain, fun m hm => ?_⟩
  cases hm
  refine ⟨h.plain k hplace, ?_, fun j hj => ?_, fun _ hout => nomatch hout⟩
  · rw [hplace]
    exact fun hp => nomatch hp
  · cases hplace.symm.trans hj
    exact ⟨rfl, rfl⟩

theorem Sound.move (h : Sound hosts c contact) {k : Contact α} (hk : contact = some k)
    {stage : Stage}
    (hstage : ∀ out, stage.out = some out → ∃ resp, Plain resp ∧ out = println resp) :
    Sound hosts c (some { k with stage := stage }) := by
  refine ⟨h.prints, h.plain, fun m hm => ?_⟩
  cases hm
  have hfits := h.fits k hk
  exact ⟨hfits.plain, hfits.busy, hfits.current, hstage⟩

end

/-- What one client has asked for, what has been executed of it, and what it was told or has
lost. -/
structure Agrees (hosts : System.Hosts α) (c : ClientState α) (contact : Option (Contact α))
    (served : List (Request α × Text)) (asked : List (Request α)) (told : List Text) :
    Prop where
  sound : Sound hosts c contact
  executed : ∃ ended, Executes c.calls ended ∧ served = ended ++ Contact.pending contact ∧
    told = ended.map Prod.snd
  asked_eq : asked = served.map Prod.fst

section
variable {hosts : System.Hosts α} {c d : ClientState α} {contact contact' : Option (Contact α)}
  {served : List (Request α × Text)}
  {asked : List (Request α)} {told : List Text}

theorem Agrees.same (h : Agrees hosts c contact served asked told) (hd : Sound hosts d contact')
    (hcalls : ∀ es, Executes c.calls es → Executes d.calls es)
    (hpending : Contact.pending contact' = Contact.pending contact) :
    Agrees hosts d contact' served asked told := by
  obtain ⟨ended, hended, hserved, htold⟩ := h.executed
  exact ⟨hd, ⟨ended, hcalls ended hended, by rw [hpending, hserved], htold⟩, h.asked_eq⟩

theorem Agrees.handle (h : Agrees hosts c contact served asked told) {k : Contact α}
    (hk : contact = some k) (hstage : k.stage = .noted) {out : Text} (exits : Bool)
    (hout : ∃ resp, Plain resp ∧ out = println resp) :
    Agrees hosts c (some { k with stage := .handled out exits })
      (served ++ [((k.host, k.command), out)]) (asked ++ [(k.host, k.command)]) told := by
  obtain ⟨ended, hended, hserved, htold⟩ := h.executed
  rw [hk, Contact.pending_of_open (Or.inr hstage), List.append_nil] at hserved
  refine ⟨h.sound.move hk fun o ho => ?_, ⟨ended, hended, ?_, htold⟩, ?_⟩
  · cases ho
    exact hout
  · rw [hserved, Contact.pending_of_handled (c := { k with stage := .handled out exits }) rfl]
  · rw [h.asked_eq, List.map_append]
    rfl

/-- The call of `execute` ends, with the response of a request that has been handled or
without it. -/
theorem Agrees.take (h : Agrees hosts c contact served asked told) {r : Request α} {out : Text}
    (hpending : Contact.pending contact = [(r, out)]) (hd : Sound hosts d none)
    (hcalls : ∀ es, Executes c.calls es → Executes d.calls (es ++ [(r, out)])) :
    Agrees hosts d none served asked (told ++ [out]) ∧ served.map Prod.snd = told ++ [out] := by
  obtain ⟨ended, hended, hserved, htold⟩ := h.executed
  rw [hpending] at hserved
  have hresults : told ++ [out] = served.map Prod.snd := by
    rw [htold, hserved, List.map_append]
    rfl
  refine ⟨⟨hd, ⟨served, ?_, (List.append_nil _).symm, hresults⟩, h.asked_eq⟩, hresults.symm⟩
  rw [hserved]
  exact hcalls ended hended

theorem Sound.read (h : Sound hosts c contact) {k : Contact α} {out : Text}
    (hk : contact = some k) (hstage : k.stage = .answered out) {resp rest : Text}
    (hresp : readLine out = some (resp, rest))
    (hd : c.finish hosts.args (.returned (some resp)) = some d) :
    ∀ es, Executes c.calls es → Executes d.calls (es ++ [((k.host, k.command), out)]) := by
  obtain ⟨resp', hplain, rfl⟩ := (h.fits k hk).answer out (by rw [hstage]; rfl)
  have hline : readLine (println resp') = some (resp', []) := readLine_line hplain []
  obtain rfl : resp' = resp := congrArg Prod.fst (Option.some.inj (hline.symm.trans hresp))
  obtain ⟨m, hplace, hcalls, -⟩ := ClientState.finish_eq_some hd
  obtain ⟨htarget, hcommand⟩ := (h.fits k hk).current m hplace
  intro es hes
  rw [hcalls, htarget, hcommand]
  exact .heard _ _ hes

theorem Sound.readNull (h : Sound hosts c contact) {k : Contact α} (hk : contact = some k)
    (hd : c.finish hosts.args (.returned none) = some d) :
    d.calls = c.calls ++ [((k.host, k.command), .returned none)] := by
  obtain ⟨m, hplace, hcalls, -⟩ := ClientState.finish_eq_some hd
  obtain ⟨htarget, hcommand⟩ := (h.fits k hk).current m hplace
  rw [hcalls, htarget, hcommand]

end

/-- All lots as one object, on which a request is executed at its server. -/
def serveAt [DecidableEq α] (c : Request α × Unit)
    (lots : UnicastCommandDispatcher α → SynchronizedParkingLot) :
    Text × (UnicastCommandDispatcher α → SynchronizedParkingLot) :=
  let r := dispatch parkingLotRequestHandler c.1.2 (lots c.1.1)
  (r.out, Function.update lots c.1.1 r.state)

abbrev LogEntry (ι α : Type) := Schedule.Executed ι (Request α) Unit Text

abbrev Lots (ι α : Type) := RemoteObject ι (Request α) Unit Text
  (UnicastCommandDispatcher α → SynchronizedParkingLot)

/-- The part of a party in a log. -/
def servedTo [DecidableEq ι] (log : List (LogEntry ι α)) (i : ι) : List (Request α × Text) :=
  (RemoteObject.entries log i).map fun e => (e.call, e.result)

namespace System

section
variable {s t : System ι α}

/-- A client that hears nothing more from a host has it stopped, and does not get through to
it again. -/
structure Silent (s : System ι α) (i : ι) : Prop where
  stopped : ∀ host ∈ (s.client i).unheard, (s.server host).running = false
  once : (s.client i).unheard.Nodup
  current : ∀ c k, s.contact i = some c → (s.client i).place = .calling k →
    c.host ∉ (s.client i).unheard

theorem Silent.same {i : ι} (h : Silent s i)
    (hrunning : ∀ host, (s.server host).running = false → (t.server host).running = false)
    (hheard : (t.client i).unheard = (s.client i).unheard)
    (hcurrent : ∀ c k, t.contact i = some c → (t.client i).place = .calling k →
      c.host ∉ (s.client i).unheard) : Silent t i := by
  refine ⟨fun host hmem => ?_, ?_, fun c k hc hk => ?_⟩
  · exact hrunning host (h.stopped host (hheard ▸ hmem))
  · rw [hheard]
    exact h.once
  · rw [hheard]
    exact hcurrent c k hc hk

theorem silent_at (h : ∀ j, Silent s j) (i : ι)
    (hrunning : ∀ host, (s.server host).running = false → (t.server host).running = false)
    (hparty : ∀ j, j ≠ i → t.client j = s.client j ∧ t.contact j = s.contact j)
    (hi : Silent t i) : ∀ j, Silent t j := by
  intro j
  rcases eq_or_ne j i with rfl | hj
  · exact hi
  · obtain ⟨hclient, hcontact⟩ := hparty j hj
    refine (h j).same hrunning (by rw [hclient]) fun c k hc hk => ?_
    exact (h j).current c k (hcontact ▸ hc) (hclient ▸ hk)

end

variable [DecidableEq ι]

structure Related (hosts : ι → Hosts α) (s : System ι α) (o : Lots ι α) : Prop where
  object : o.object = fun host => (s.server host).lot
  agrees : ∀ i, Agrees (hosts i) (s.client i) (s.contact i) (servedTo o.log i) (o.asked i)
    (o.told i)

variable {hosts : ι → Hosts α} {s t : System ι α} {o p : Lots ι α}

theorem start_related (servers : UnicastCommandDispatcher α → Server) :
    Related hosts (start servers) (.start fun host => (servers host).lot) :=
  ⟨rfl, fun _ => ⟨start_sound, ⟨[], .none, rfl, rfl⟩, rfl⟩⟩

theorem Related.at (h : Related hosts s o) (i : ι)
    (hobject : p.object = fun host => (t.server host).lot)
    (hparty : ∀ j, j ≠ i → t.client j = s.client j ∧ t.contact j = s.contact j)
    (hothers : ∀ j, j ≠ i → servedTo p.log j = servedTo o.log j ∧ p.asked j = o.asked j ∧
      p.told j = o.told j)
    (hi : Agrees (hosts i) (t.client i) (t.contact i) (servedTo p.log i) (p.asked i) (p.told i)) :
    Related hosts t p := by
  refine ⟨hobject, fun j => ?_⟩
  rcases eq_or_ne j i with rfl | hj
  · exact hi
  · obtain ⟨hclient, hcontact⟩ := hparty j hj
    obtain ⟨hserved, hasked, htold⟩ := hothers j hj
    rw [hclient, hcontact, hserved, hasked, htold]
    exact h.agrees j

/-- A step that the lots have no part in. -/
theorem Related.same (h : Related hosts s o) (i : ι)
    (hlots : ∀ host, (t.server host).lot = (s.server host).lot)
    (hparty : ∀ j, j ≠ i → t.client j = s.client j ∧ t.contact j = s.contact j)
    (hsound : Sound (hosts i) (t.client i) (t.contact i))
    (hcalls : ∀ es, Executes (s.client i).calls es → Executes (t.client i).calls es)
    (hpending : Contact.pending (t.contact i) = Contact.pending (s.contact i)) :
    Related hosts t o :=
  h.at i (h.object.trans (funext fun host => (hlots host).symm)) hparty (fun _ _ => ⟨rfl, rfl, rfl⟩)
    ((h.agrees i).same hsound hcalls hpending)

theorem setClient_of_ne {i j : ι} (hj : j ≠ i) (c : ClientState α) :
    (s.setClient i c).client j = s.client j ∧ (s.setClient i c).contact j = s.contact j :=
  ⟨Function.update_of_ne hj _ _, rfl⟩

theorem setContact_of_ne {i j : ι} (hj : j ≠ i) (c : Option (Contact α)) :
    (s.setContact i c).client j = s.client j ∧ (s.setContact i c).contact j = s.contact j :=
  ⟨rfl, Function.update_of_ne hj _ _⟩

theorem setContact_self (i : ι) (c : Option (Contact α)) : (s.setContact i c).contact i = c :=
  Function.update_self _ _ _

theorem setClient_self (i : ι) (c : ClientState α) : (s.setClient i c).client i = c :=
  Function.update_self _ _ _

theorem Related.setClient (h : Related hosts s o) {i : ι} {d : ClientState α}
    (hd : Sound (hosts i) d (s.contact i))
    (hcalls : ∀ es, Executes (s.client i).calls es → Executes d.calls es) :
    Related hosts (s.setClient i d) o :=
  h.same i (fun _ => rfl) (fun _ hj => setClient_of_ne hj d) ((setClient_self i d).symm ▸ hd)
    ((setClient_self i d).symm ▸ hcalls) rfl

theorem servedTo_concat (log : List (LogEntry ι α)) (e : LogEntry ι α) (i : ι) :
    servedTo (log ++ [e]) i =
      if e.party = i then servedTo log i ++ [(e.call, e.result)] else servedTo log i := by
  rw [servedTo, RemoteObject.entries_concat]
  split
  · rw [List.map_append]
    rfl
  · rfl

variable [DecidableEq α]

omit [DecidableEq ι] in
theorem setServer_lot {host : UnicastCommandDispatcher α} {v : Server}
    (hv : v.lot = (s.server host).lot) (other : UnicastCommandDispatcher α) :
    ((s.setServer host v).server other).lot = (s.server other).lot := by
  rcases eq_or_ne other host with rfl | hne
  · change (Function.update s.server other v other).lot = _
    rw [Function.update_self, hv]
  · change (Function.update s.server host v other).lot = _
    rw [Function.update_of_ne hne]

theorem handleLine_lot (i : ι) (c : Contact α) (line : Text) :
    (fun host => ((s.handleLine i c line).server host).lot) =
      Function.update (fun host => (s.server host).lot) c.host
        (dispatch parkingLotRequestHandler line (s.server c.host).lot).state := by
  funext host
  rcases eq_or_ne host c.host with rfl | hne
  · change (Function.update s.server c.host _ c.host).lot = _
    rw [Function.update_self, Function.update_self]
  · change (Function.update s.server c.host _ host).lot = _
    rw [Function.update_of_ne hne, Function.update_of_ne hne]

/-- What a step adds to the log of executed requests. -/
def effect (s : System ι α) : Label ι α → List (LogEntry ι α)
  | .handle i =>
    (s.contact i).toList.map fun c =>
      ⟨i, (c.host, c.command), (), (dispatch parkingLotRequestHandler c.command
        (s.server c.host).lot).out⟩
  | _ => []

/-- A request takes effect: it is asked for and executed at once. -/
theorem Related.handle (h : Related hosts s o) {i : ι} {c : Contact α} {line : Text}
    (hc : s.contact i = some c) (hstage : c.stage = .noted) (hline : c.line = some line) :
    ∃ p, run (RemoteObject.step serveAt) o [.ask i (c.host, c.command), .serve i ()] = some p ∧
      Related hosts (s.handleLine i c line) p ∧ p.log = o.log ++ s.effect (.handle i) := by
  have hagrees := h.agrees i
  have hplain := (hagrees.sound.fits c hc).plain
  obtain rfl : c.command = line := Option.some.inj ((Contact.line_of_plain hplain).symm.trans hline)
  have hcalls : RemoteObject.calls o.log i = o.asked i := by
    rw [hagrees.asked_eq, servedTo, List.map_map]
    rfl
  have hnext : (Function.update o.asked i (o.asked i ++ [(c.host, c.command)]) i)[
      (RemoteObject.calls o.log i).length]? = some (c.host, c.command) := by
    rw [Function.update_self, hcalls]
    simp
  refine ⟨_, run_cons_eq_some.mpr ⟨_, rfl, run_single
    (Option.map_eq_some_iff.mpr ⟨_, hnext, rfl⟩)⟩, h.at i ?_ ?_ ?_ ?_, ?_⟩
  · rw [handleLine_lot, h.object]
    rfl
  · exact fun j hj => ⟨rfl, Function.update_of_ne hj _ _⟩
  · intro j hj
    refine ⟨?_, Function.update_of_ne hj _ _, rfl⟩
    rw [servedTo_concat, if_neg hj.symm]
  · have hout := ParkingLotRequestHandler.dispatch_out hplain (s.server c.host).lot
    have hnew := hagrees.handle hc hstage
      (dispatch parkingLotRequestHandler c.command (s.server c.host).lot).exited hout
    rw [servedTo_concat, if_pos rfl]
    change Agrees _ _ (Function.update s.contact i _ i) _ (Function.update o.asked i _ i) _
    rw [Function.update_self, Function.update_self, h.object]
    exact hnew
  · rw [effect, hc, h.object]
    rfl

/-- The end of a call of `execute` whose request was handled. -/
theorem Related.take (h : Related hosts s o) {i : ι} {r : Request α} {out : Text}
    {d : ClientState α} (hpending : Contact.pending (s.contact i) = [(r, out)])
    (hd : Sound (hosts i) d none)
    (hcalls : ∀ es, Executes (s.client i).calls es → Executes d.calls (es ++ [(r, out)])) :
    ∃ p, RemoteObject.step serveAt o (.tell i) = some p ∧
      Related hosts ((s.setClient i d).setContact i none) p ∧ p.log = o.log := by
  obtain ⟨hagrees, hresults⟩ := (h.agrees i).take hpending hd hcalls
  have hnext : (RemoteObject.results o.log i)[(o.told i).length]? = some out := by
    have hall : RemoteObject.results o.log i = o.told i ++ [out] := by
      rw [← hresults, servedTo, List.map_map]
      rfl
    rw [hall]
    simp
  refine ⟨_, Option.map_eq_some_iff.mpr ⟨out, hnext, rfl⟩, h.at i h.object
    (fun j hj => ⟨Function.update_of_ne hj _ _, Function.update_of_ne hj _ _⟩)
    (fun j hj => ⟨rfl, rfl, Function.update_of_ne hj _ _⟩) ?_, rfl⟩
  change Agrees _ (Function.update s.client i d i) (Function.update s.contact i none i) _ _
    (Function.update o.told i _ i)
  rw [Function.update_self, Function.update_self, Function.update_self]
  exact hagrees

omit [DecidableEq α] in
/-- The end of a call of `execute` whose request was not handled. -/
theorem Related.drop (h : Related hosts s o) {i : ι} {d : ClientState α}
    (hpending : Contact.pending (s.contact i) = []) (hd : Sound (hosts i) d none)
    (hcalls : ∀ es, Executes (s.client i).calls es → Executes d.calls es) :
    Related hosts ((s.setClient i d).setContact i none) o := by
  refine h.same i (fun _ => rfl)
    (fun _ hj => ⟨Function.update_of_ne hj _ _, Function.update_of_ne hj _ _⟩) ?_ ?_ ?_
  · rw [setContact_self]
    exact (setClient_self i d).symm ▸ hd
  · exact (setClient_self i d).symm ▸ hcalls
  · rw [setContact_self, hpending]
    rfl

theorem Related.halt (h : Related hosts s o) (host : UnicastCommandDispatcher α) :
    Related hosts (s.halt host) o := by
  have hlot : ∀ other, (s.server other).lot = ((s.halt host).server other).lot :=
    fun other => (setServer_lot (by rfl) other).symm
  exact ⟨h.object.trans (funext hlot), h.agrees⟩

/-- A step of a session that leaves the lot alone, and the response where it is. -/
theorem Related.contact (h : Related hosts s o) {i : ι} {c : Contact α} (hc : s.contact i = some c)
    {v : Server} (hv : v.lot = (s.server c.host).lot) {stage : Stage}
    (hstage : ∀ out, stage.out = some out → ∃ resp, Plain resp ∧ out = println resp)
    (hpending : Contact.pending (some { c with stage := stage }) = Contact.pending (some c)) :
    Related hosts ((s.setServer c.host v).setContact i (some { c with stage := stage })) o := by
  refine h.same i (setServer_lot hv) (fun _ hj => ⟨rfl, Function.update_of_ne hj _ _⟩) ?_
    (fun _ hes => hes) ?_
  · rw [setContact_self]
    exact (h.agrees i).sound.move hc hstage
  · rw [setContact_self, hc]
    exact hpending

theorem Related.matched (h : Related hosts s o) {l : Label ι α} (hstep : step hosts s l = some t) :
    ∃ as p, run (RemoteObject.step serveAt) o as = some p ∧ Related hosts t p ∧
      p.log = o.log ++ s.effect l := by
  have hnil : o.log = o.log ++ [] := (List.append_nil _).symm
  cases moves_of_step hstep with
  | typeLine hd =>
    obtain ⟨-, hcalls, -⟩ := ClientState.typeLine_eq_some hd
    exact ⟨[], o, rfl, h.setClient ((h.agrees _).sound.typeLine hd) fun _ hes => hcalls ▸ hes, hnil⟩
  | endOfInput hd =>
    obtain ⟨-, hcalls, -⟩ := ClientState.endOfInput_eq_some hd
    exact ⟨[], o, rfl, h.setClient ((h.agrees _).sound.endOfInput hd) fun _ hes => hcalls ▸ hes,
      hnil⟩
  | @connect i observer k hplace hnone hrunning =>
    have hsound := (h.agrees i).sound.connect hplace observer
    refine ⟨[], o, rfl, h.same i (fun _ => rfl) (fun _ hj => setContact_of_ne hj _) ?_
      (fun _ hes => hes) ?_, hnil⟩
    · rw [setContact_self]
      exact hsound
    · rw [setContact_self, hnone]
      rfl
  | @note i c line hc hstage hline =>
    have hopen := Contact.pending_of_open (Or.inl hstage)
    refine ⟨[], o, rfl, h.contact hc (by rfl) ?_ ?_, hnil⟩
    · exact fun _ hout => nomatch hout
    · exact hopen.symm
  | @handle i c line hc hstage hline =>
    obtain ⟨p, hp, h'⟩ := h.handle hc hstage hline
    exact ⟨_, p, hp, h'⟩
  | @flush i c out exits hc hstage =>
    have hanswer := ((h.agrees i).sound.fits c hc).answer
    have hhandled := Contact.pending_of_handled hstage
    rw [hstage] at hanswer
    refine ⟨[], o, rfl, h.contact hc (by rfl) ?_ ?_, hnil⟩
    · exact hanswer
    · exact hhandled.symm
  | @read i c out resp rest d hc hstage hresp hd =>
    have hsound := (h.agrees i).sound
    have hpending := Contact.pending_of_answered hstage
    rw [← hc] at hpending
    obtain ⟨p, hp, h', hlog⟩ := h.take hpending (hsound.finish hd) (hsound.read hc hstage hresp hd)
    exact ⟨_, p, run_single hp, h', hlog.trans hnil⟩
  | @readNull i c d hc hstage hstopped hd =>
    have hsound := (h.agrees i).sound
    have hcalls := hsound.readNull hc hd
    rcases Contact.pending_of_unanswered hstage with hpending | ⟨out, hpending⟩
    · rw [← hc] at hpending
      refine ⟨[], o, rfl, h.drop hpending (hsound.finish hd) fun es hes => ?_, hnil⟩
      rw [hcalls]
      exact .unserved _ (by simp) hes
    · rw [← hc] at hpending
      obtain ⟨p, hp, h', hlog⟩ := h.take hpending (hsound.finish hd) fun es hes => by
        rw [hcalls]
        exact .lost _ _ hes
      exact ⟨_, p, run_single hp, h', hlog.trans hnil⟩
  | fail hd =>
    obtain ⟨k, -, hcalls, -⟩ := ClientState.finish_eq_some hd
    refine ⟨[], o, rfl, h.setClient ((h.agrees _).sound.fail hd) fun es hes => ?_, hnil⟩
    rw [hcalls]
    exact .unserved _ (by simp) hes
  | exit => exact ⟨[], o, rfl, h.halt _, hnil⟩
  | stop => exact ⟨[], o, rfl, h.halt _, hnil⟩

theorem refines :
    Refines (step hosts) (RemoteObject.step serveAt) (Related (ι := ι) (α := α) hosts) where
  matched := by
    intro s t l o h hstep
    obtain ⟨as, p, hp, h', -⟩ := h.matched hstep
    exact ⟨as, p, hp, h'⟩

omit [DecidableEq ι] in
theorem setServer_running {host : UnicastCommandDispatcher α} {v : Server}
    (hv : (s.server host).running = false → v.running = false)
    {other : UnicastCommandDispatcher α} (h : (s.server other).running = false) :
    ((s.setServer host v).server other).running = false := by
  rcases eq_or_ne other host with rfl | hne
  · change (Function.update s.server other v other).running = false
    rw [Function.update_self]
    exact hv h
  · change (Function.update s.server host v other).running = false
    rw [Function.update_of_ne hne]
    exact h

theorem step_running {l : Label ι α} (ht : step hosts s l = some t)
    {host : UnicastCommandDispatcher α} (h : (s.server host).running = false) :
    (t.server host).running = false := by
  cases moves_of_step ht with
  | note | handle | flush => exact setServer_running (by exact id) h
  | exit | stop => exact setServer_running (fun _ => rfl) h
  | _ => exact h

/-- A step of the session on a connection. -/
theorem silent_contact (h : ∀ j, Silent s j) {i : ι} {c : Contact α} (hc : s.contact i = some c)
    {v : Server} (hv : (s.server c.host).running = false → v.running = false) {stage : Stage} :
    ∀ j, Silent ((s.setServer c.host v).setContact i (some { c with stage := stage })) j := by
  have hrunning : ∀ host, (s.server host).running = false →
      ((s.setServer c.host v).server host).running = false := fun _ => setServer_running hv
  refine silent_at h i hrunning (fun _ hj => ⟨rfl, Function.update_of_ne hj _ _⟩)
    ((h i).same hrunning rfl fun d k hd hk => ?_)
  rw [setContact_self] at hd
  cases hd
  exact (h i).current c k hc hk

theorem step_silent (ho : Related hosts s o) (h : ∀ j, Silent s j) {l : Label ι α}
    (ht : step hosts s l = some t) : ∀ j, Silent t j := by
  have hrunning : ∀ host, (s.server host).running = false → (t.server host).running = false :=
    fun host => step_running ht
  cases moves_of_step ht with
  | @typeLine i line d hd =>
    obtain ⟨hplace, hcalls, -⟩ := ClientState.typeLine_eq_some hd
    have hidle := (ho.agrees i).sound.idle hplace
    refine silent_at h i hrunning (fun _ hj => setClient_of_ne hj d) ((h i).same hrunning ?_ ?_)
    · rw [setClient_self, ClientState.unheard_of_calls_eq hcalls]
    · exact fun c k hc => absurd (hidle.symm.trans hc) (Option.some_ne_none c).symm
  | @endOfInput i d hd =>
    obtain ⟨-, hcalls, hleft⟩ := ClientState.endOfInput_eq_some hd
    refine silent_at h i hrunning (fun _ hj => setClient_of_ne hj d) ((h i).same hrunning ?_ ?_)
    · rw [setClient_self, ClientState.unheard_of_calls_eq hcalls]
    · intro c k _ hk
      rw [setClient_self, hleft] at hk
      cases hk
  | @connect i observer k hplace hnone hup =>
    refine silent_at h i hrunning (fun _ hj => setContact_of_ne hj _) ((h i).same hrunning rfl ?_)
    intro c _ hc _ hmem
    rw [setContact_self] at hc
    cases hc
    exact Bool.false_ne_true (((h i).stopped _ hmem).symm.trans hup)
  | note hc | handle hc | flush hc => exact silent_contact h hc (by exact id)
  | @read i c out resp rest d hc hstage hresp hd =>
    obtain ⟨k, -, hcalls, -⟩ := ClientState.finish_eq_some hd
    refine silent_at h i hrunning
      (fun _ hj => ⟨Function.update_of_ne hj _ _, Function.update_of_ne hj _ _⟩)
      ((h i).same hrunning ?_ fun e _ he => ?_)
    · exact (congrArg ClientState.unheard (setClient_self i d)).trans
        ((ClientState.unheard_concat hcalls).trans (if_neg (by simp)))
    · exact absurd ((setContact_self i none).symm.trans he) (Option.some_ne_none e).symm
  | @readNull i c d hc hstage hstopped hd =>
    obtain ⟨k, hplace, -, -⟩ := ClientState.finish_eq_some hd
    have hcalls := (ho.agrees i).sound.readNull hc hd
    have hunheard : d.unheard = (s.client i).unheard ++ [c.host] :=
      (ClientState.unheard_concat hcalls).trans (if_pos rfl)
    refine silent_at h i hrunning
      (fun _ hj => ⟨Function.update_of_ne hj _ _, Function.update_of_ne hj _ _⟩) ⟨?_, ?_, ?_⟩
    · change ∀ host ∈ (Function.update s.client i d i).unheard, _
      rw [Function.update_self, hunheard]
      intro host hmem
      rcases List.mem_append.mp hmem with hmem | hmem
      · exact hrunning host ((h i).stopped host hmem)
      · rw [List.mem_singleton.mp hmem]
        exact hstopped
    · change (Function.update s.client i d i).unheard.Nodup
      rw [Function.update_self, hunheard, ← List.concat_eq_append]
      exact (h i).once.concat ((h i).current c k hc hplace)
    · intro e _ he
      exact absurd ((setContact_self i none).symm.trans he) (Option.some_ne_none e).symm
  | @fail i d hd =>
    obtain ⟨k, -, hcalls, hnext⟩ := ClientState.finish_eq_some hd
    have hleft : d.place = .left (.thrown .execute) := hnext
    refine silent_at h i hrunning (fun _ hj => setClient_of_ne hj d) ((h i).same hrunning ?_ ?_)
    · rw [setClient_self]
      exact (ClientState.unheard_concat hcalls).trans (if_neg (by simp))
    · intro c k _ hk
      rw [setClient_self, hleft] at hk
      cases hk
  | exit => exact fun j => (h j).same hrunning rfl (h j).current
  | stop => exact fun j => (h j).same hrunning rfl (h j).current

/-- The cars that an executed request has put into the lot of a server. -/
def brought (host : UnicastCommandDispatcher α)
    (e : LogEntry ι α) : ℤ :=
  if e.call.1 = host then gain (e.call.2, e.result) else 0

/-- The log tells how the servers came to their lots, and what each client was answered, but
for a request whose response is still to be read or has been lost with its client, and those
whose responses were lost with their servers. -/
structure Explains (hosts : ι → Hosts α)
    (lots : UnicastCommandDispatcher α → SynchronizedParkingLot) (s : System ι α)
    (log : List (LogEntry ι α)) : Prop where
  replays : history serveAt (log.map fun e => (e.call, e.world)) lots =
    (log.map Executed.result, fun host => (s.server host).lot)
  served : ∀ i, ∃ ended, Executes (s.client i).calls ended ∧
    servedTo log i = ended ++ Contact.pending (s.contact i)
  occupancy : ∀ host, (s.server host).lot.occupancy =
    (lots host).occupancy + (log.map (brought host)).sum
  printed : ∀ i, (∀ k, (s.client i).place ≠ .calling k) → ∀ replies,
    (∀ k e, ((s.client i).calls[k]?).map Prod.snd = some e → replies k = e) →
      loop (hosts i).args (hosts i).dispatchers replies 0 (s.client i).typed =
        ((s.client i).printed, (s.client i).place.continuation)

omit [DecidableEq ι] in
theorem occupancy_of_replays {lots lots' : UnicastCommandDispatcher α → SynchronizedParkingLot}
    {log : List (LogEntry ι α)}
    (h : history serveAt (log.map fun e => (e.call, e.world)) lots =
      (log.map Executed.result, lots')) (host : UnicastCommandDispatcher α) :
    (lots' host).occupancy = (lots host).occupancy + (log.map (brought host)).sum := by
  have hall := history_measure (f := serveAt) (m := fun lots => (lots host).occupancy)
    (d := fun e : (Request α × Unit) × Text =>
      if e.1.1.1 = host then gain (e.1.1.2, e.2) else 0)
    (fun c lots => by
      rcases eq_or_ne c.1.1 host with hc | hc
      · subst hc
        simp only [serveAt, Function.update_self, if_true]
        exact dispatch_gain _ _
      · simp only [serveAt, Function.update_of_ne hc.symm, if_neg hc, Int.add_zero])
    (log.map fun e => (e.call, e.world)) lots
  simp only [record, h, List.zip_map', List.map_map] at hall
  exact hall

theorem Related.explains {lots : UnicastCommandDispatcher α → SynchronizedParkingLot}
    (h : Related hosts s o) (ho : RemoteObject.Consistent serveAt lots o) :
    Explains hosts lots s o.log := by
  have hreplays := h.object ▸ ho.replays
  refine ⟨hreplays, fun i => ?_, occupancy_of_replays hreplays,
    fun i hplace => (h.agrees i).sound.prints.loop_eq hplace⟩
  obtain ⟨ended, hended, hserved, -⟩ := (h.agrees i).executed
  exact ⟨ended, hended, hserved⟩

theorem run_silent {servers : UnicastCommandDispatcher α → Server} {as : List (Label ι α)}
    (hs : run (step hosts) (start servers) as = some s) : ∀ i, Silent s i := by
  have hinv : ∀ (s : System ι α) l t, ((∃ o, Related hosts s o) ∧ ∀ i, Silent s i) →
      step hosts s l = some t → (∃ o, Related hosts t o) ∧ ∀ i, Silent t i := by
    rintro s l t ⟨⟨o, ho⟩, h⟩ ht
    obtain ⟨-, p, -, hp, -⟩ := ho.matched ht
    exact ⟨⟨p, hp⟩, step_silent ho h ht⟩
  have hstart : ∀ i, Silent (start servers : System ι α) i := fun i =>
    ⟨by simp [start, ClientState.start, ClientState.unheard],
      by simp [start, ClientState.start, ClientState.unheard], by simp [start]⟩
  exact (run_invariant hinv ⟨⟨_, start_related servers⟩, hstart⟩ hs).2

/-- At any two moments of a run there is a log of requests executed one at a time, the earlier
one the beginning of the later one. In both, it leads to the lots as they are; and each
client finds its requests in it once and in their order, with the responses it has read,
and at most one more, whose response it has not read, besides those lost with a server, of
which there is at most one for each server that has stopped. -/
theorem contacts_linear {servers : UnicastCommandDispatcher α → Server} {as bs : List (Label ι α)}
    (hs : run (step hosts) (start servers) as = some s) (ht : run (step hosts) s bs = some t) :
    (∃ log log', log <+: log' ∧ Explains hosts (fun host => (servers host).lot) s log ∧
      Explains hosts (fun host => (servers host).lot) t log') ∧
      ∀ i, (t.client i).unheard.Nodup ∧
        ∀ host ∈ (t.client i).unheard, (t.server host).running = false := by
  obtain ⟨cs, o, ho, hso⟩ := refines.run (start_related servers) hs
  obtain ⟨ds, p, hp, htp⟩ := refines.run hso ht
  have hconsistent := RemoteObject.run_consistent RemoteObject.start_consistent ho
  have hst : run (step hosts) (start servers) (as ++ bs) = some t := by
    rw [run_append, hs]
    exact ht
  have hsilent : ∀ i, Silent t i := run_silent hst
  exact ⟨⟨o.log, p.log, RemoteObject.run_log hp, hso.explains hconsistent,
    htp.explains (RemoteObject.run_consistent hconsistent hp)⟩,
    fun i => ⟨(hsilent i).once, (hsilent i).stopped⟩⟩

def localhost : RequestLoggingObserver :=
  ⟨⟨"/127.0.0.1".toList, by decide, by decide⟩, 50000⟩

/-- Between the park of the first client and its response the second one makes the server
quit. The first client reads `null`, goes on, and parks on the other server. -/
theorem contacts_linear_lost :
    let host : Int32 → UnicastCommandDispatcher Text := fun port => ⟨"localhost".toList, port⟩
    let hosts : Bool → Hosts Text := fun _ =>
      ⟨["localhost:5000".toList, "localhost:5001".toList], [host 5000, host 5001]⟩
    let servers : UnicastCommandDispatcher Text → Server := fun _ => ⟨.new 1, [], false, true⟩
    let as : List (Label Bool Text) :=
      [.typeLine false "in 1".toList, .connect false localhost, .note false, .handle false,
        .typeLine true "quit 1".toList, .connect true localhost, .note true, .handle true,
        .flush true, .exit (host 5000), .readNull false]
    let bs : List (Label Bool Text) :=
      [.typeLine false "in 2".toList, .connect false localhost, .note false, .handle false,
        .flush false, .read false]
    ∃ s t, run (step hosts) (start servers) as = some s ∧ run (step hosts) s bs = some t ∧
      (s.server (host 5000)).lot = ⟨1, 1⟩ ∧
      (t.client false).printed = [⟨"localhost:5000".toList, host 5000, none⟩,
        ⟨"localhost:5001".toList, host 5001, some "ok".toList⟩] ∧
      (∃ log log', log <+: log' ∧ Explains hosts (fun host => (servers host).lot) s log ∧
        Explains hosts (fun host => (servers host).lot) t log') ∧
      (t.server (host 5000)).running = false := by
  intro host hosts servers as bs
  obtain ⟨s, hs, hlot⟩ : ∃ s ∈ run (step hosts) (start servers) as,
      (s.server (host 5000)).lot = ⟨1, 1⟩ := by decide
  obtain ⟨t, ht, hprinted, hunheard⟩ : ∃ t ∈ run (step hosts) (start servers) (as ++ bs),
      (t.client false).printed = [⟨"localhost:5000".toList, host 5000, none⟩,
        ⟨"localhost:5001".toList, host 5001, some "ok".toList⟩] ∧
      (t.client false).unheard = [host 5000] := by decide
  rw [run_append, hs] at ht
  obtain ⟨hlogs, hsilent⟩ := contacts_linear hs ht
  have hmem : host 5000 ∈ (t.client false).unheard :=
    hunheard ▸ List.mem_singleton_self _
  exact ⟨s, t, hs, ht, hlot, hprinted, hlogs, (hsilent false).2 _ hmem⟩

end System

end Vsys.NetParkingSim
