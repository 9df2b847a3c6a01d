import Mathlib.Logic.Function.Basic
import Vsys.NetParkingSim.ClientSteps
import Vsys.NetParkingSim.Observation
import Vsys.Schedule.RemoteObject

/-! Java clients and Java servers as a whole. A call of `execute` is a connection of its own,
and what happens on it takes several steps: the request is sent, a session notes it in the log
of its server, hands it to the lot, and writes the response, and the client reads it. A
connection may fail at any time, and a server may stop, also between two of these steps. -/

namespace Vsys.NetParkingSim

open Schedule RequestDispatcher

variable {ι α : Type}

/-- A server is `exiting` from the response to a `quit` on, until the process has ended. -/
structure Server where
  lot : SynchronizedParkingLot
  log : Text
  exiting : Bool
  running : Bool
  deriving DecidableEq, Repr

/-- A request that is `handled` has its response in the writer of the session, and it is
`answered` when this has been flushed. -/
inductive Stage where
  | asked
  | noted
  | handled (out : Text) (exits : Bool)
  | answered (out : Text)
  deriving DecidableEq, Repr

def Stage.isAnswered : Stage → Bool
  | answered _ => true
  | _ => false

/-- A connection, with the observer that its server has made for it. -/
structure Contact (α : Type) where
  host : UnicastCommandDispatcher α
  command : Text
  observer : RequestLoggingObserver
  stage : Stage

/-- The request line that the session reads. -/
def Contact.line (c : Contact α) : Option Text := (readLine (println c.command)).map Prod.fst

/-- A server for every address and port; where nobody listens it is one that has stopped. -/
structure System (ι α : Type) where
  server : UnicastCommandDispatcher α → Server
  client : ι → ClientState α
  contact : ι → Option (Contact α)

namespace System

inductive Label (ι α : Type) where
  | typeLine (i : ι) (line : Text)
  | endOfInput (i : ι)
  | connect (i : ι) (o : RequestLoggingObserver)
  | note (i : ι)
  | handle (i : ι)
  | flush (i : ι)
  | read (i : ι)
  | readNull (i : ι)
  | fail (i : ι)
  | exit (host : UnicastCommandDispatcher α)
  | stop (host : UnicastCommandDispatcher α)

def start (servers : UnicastCommandDispatcher α → Server) : System ι α :=
  ⟨servers, fun _ => .start, fun _ => none⟩

/-- The arguments of a client and the dispatchers that it has made from them. -/
structure Hosts (α : Type) where
  args : List Text
  dispatchers : List (UnicastCommandDispatcher α)

variable [DecidableEq ι] [DecidableEq α]

def setClient (s : System ι α) (i : ι) (c : ClientState α) : System ι α :=
  { s with client := Function.update s.client i c }

def setContact (s : System ι α) (i : ι) (c : Option (Contact α)) : System ι α :=
  { s with contact := Function.update s.contact i c }

def setServer (s : System ι α) (host : UnicastCommandDispatcher α) (v : Server) : System ι α :=
  { s with server := Function.update s.server host v }

/-- `new Socket`, and the request behind it. -/
def connect (s : System ι α) (i : ι) (o : RequestLoggingObserver) : Option (System ι α) :=
  match (s.client i).place, s.contact i with
  | .calling c, none =>
    if (s.server c.target).running then
      some (s.setContact i (some ⟨c.target, c.command, o, .asked⟩))
    else none
  | _, _ => none

/-- The observer of the session is told of the request. -/
def noteLine (s : System ι α) (i : ι) (c : Contact α) (line : Text) : System ι α :=
  let v := s.server c.host
  (s.setServer c.host { v with log := notify c.observer.hooks line v.log }).setContact i
    (some { c with stage := .noted })

/-- The handler of the session calls the lot and prints the response to its writer. -/
def handleLine (s : System ι α) (i : ι) (c : Contact α) (line : Text) : System ι α :=
  let v := s.server c.host
  let r := dispatch parkingLotRequestHandler line v.lot
  (s.setServer c.host { v with lot := r.state }).setContact i
    (some { c with stage := .handled r.out r.exited })

/-- `pw.flush()`; behind it a session that was asked to quit calls `System.exit`. -/
def flushOut (s : System ι α) (i : ι) (c : Contact α) (out : Text) (exits : Bool) : System ι α :=
  let v := s.server c.host
  (s.setServer c.host { v with exiting := v.exiting || exits }).setContact i
    (some { c with stage := .answered out })

def halt (s : System ι α) (host : UnicastCommandDispatcher α) : System ι α :=
  s.setServer host { s.server host with running := false }

def note (s : System ι α) (i : ι) : Option (System ι α) := do
  let c ← s.contact i
  if c.stage = .asked ∧ (s.server c.host).running then c.line.map (s.noteLine i c) else none

def handle (s : System ι α) (i : ι) : Option (System ι α) := do
  let c ← s.contact i
  if c.stage = .noted ∧ (s.server c.host).running then c.line.map (s.handleLine i c) else none

def flush (s : System ι α) (i : ι) : Option (System ι α) := do
  let c ← s.contact i
  match c.stage with
  | .handled out exits =>
    if (s.server c.host).running then some (s.flushOut i c out exits) else none
  | _ => none

def read (hosts : ι → Hosts α) (s : System ι α) (i : ι) : Option (System ι α) := do
  let c ← s.contact i
  match c.stage with
  | .answered out =>
    let (resp, _) ← readLine out
    let d ← (s.client i).finish (hosts i).args (.returned (some resp))
    return (s.setClient i d).setContact i none
  | _ => none

/-- A session does not close its socket; the input ends when the server has stopped, without
a line unless the response had been flushed before. -/
def readNull (hosts : ι → Hosts α) (s : System ι α) (i : ι) : Option (System ι α) := do
  let c ← s.contact i
  if c.stage.isAnswered = false ∧ (s.server c.host).running = false then
    let d ← (s.client i).finish (hosts i).args (.returned none)
    return (s.setClient i d).setContact i none
  else none

/-- A connection that cannot be made or that breaks ends its client; the request may be on its
way nevertheless. -/
def fail (hosts : ι → Hosts α) (s : System ι α) (i : ι) : Option (System ι α) :=
  ((s.client i).finish (hosts i).args .failed).map (s.setClient i)

def step (hosts : ι → Hosts α) (s : System ι α) : Label ι α → Option (System ι α)
  | .typeLine i line =>
    ((s.client i).typeLine (hosts i).args (hosts i).dispatchers line).map (s.setClient i)
  | .endOfInput i => (s.client i).endOfInput.map (s.setClient i)
  | .connect i o => s.connect i o
  | .note i => s.note i
  | .handle i => s.handle i
  | .flush i => s.flush i
  | .read i => s.read hosts i
  | .readNull i => s.readNull hosts i
  | .fail i => s.fail hosts i
  | .exit host => if (s.server host).exiting then some (s.halt host) else none
  | .stop host => some (s.halt host)

inductive Moves (hosts : ι → Hosts α) (s : System ι α) : Label ι α → System ι α → Prop
  | typeLine {i : ι} {line : Text} {d : ClientState α}
    (hd : (s.client i).typeLine (hosts i).args (hosts i).dispatchers line = some d) :
    Moves hosts s (.typeLine i line) (s.setClient i d)
  | endOfInput {i : ι} {d : ClientState α} (hd : (s.client i).endOfInput = some d) :
    Moves hosts s (.endOfInput i) (s.setClient i d)
  | connect {i : ι} {o : RequestLoggingObserver} {k : Calling α}
    (hplace : (s.client i).place = .calling k) (hnone : s.contact i = none)
    (hrunning : (s.server k.target).running = true) :
    Moves hosts s (.connect i o) (s.setContact i (some ⟨k.target, k.command, o, .asked⟩))
  | note {i : ι} {c : Contact α} {line : Text} (hc : s.contact i = some c)
    (hstage : c.stage = .asked) (hline : c.line = some line) :
    Moves hosts s (.note i) (s.noteLine i c line)
  | handle {i : ι} {c : Contact α} {line : Text} (hc : s.contact i = some c)
    (hstage : c.stage = .noted) (hline : c.line = some line) :
    Moves hosts s (.handle i) (s.handleLine i c line)
  | flush {i : ι} {c : Contact α} {out : Text} {exits : Bool} (hc : s.contact i = some c)
    (hstage : c.stage = .handled out exits) :
    Moves hosts s (.flush i) (s.flushOut i c out exits)
  | read {i : ι} {c : Contact α} {out resp rest : Text} {d : ClientState α}
    (hc : s.contact i = some c) (hstage : c.stage = .answered out)
    (hresp : readLine out = some (resp, rest))
    (hd : (s.client i).finish (hosts i).args (.returned (some resp)) = some d) :
    Moves hosts s (.read i) ((s.setClient i d).setContact i none)
  | readNull {i : ι} {c : Contact α} {d : ClientState α} (hc : s.contact i = some c)
    (hstage : c.stage.isAnswered = false) (hstopped : (s.server c.host).running = false)
    (hd : (s.client i).finish (hosts i).args (.returned none) = some d) :
    Moves hosts s (.readNull i) ((s.setClient i d).setContact i none)
  | fail {i : ι} {d : ClientState α} (hd : (s.client i).finish (hosts i).args .failed = some d) :
    Moves hosts s (.fail i) (s.setClient i d)
  | exit {host : UnicastCommandDispatcher α} : Moves hosts s (.exit host) (s.halt host)
  | stop {host : UnicastCommandDispatcher α} : Moves hosts s (.stop host) (s.halt host)

theorem moves_of_step {hosts : ι → Hosts α} {s t : System ι α} {l : Label ι α}
    (h : step hosts s l = some t) : Moves hosts s l t := by
  cases l with
  | typeLine i line =>
    obtain ⟨d, hd, rfl⟩ := Option.map_eq_some_iff.mp h
    exact .typeLine hd
  | endOfInput i =>
    obtain ⟨d, hd, rfl⟩ := Option.map_eq_some_iff.mp h
    exact .endOfInput hd
  | connect i o =>
    simp only [step, connect] at h
    split at h
    · next k hplace hnone =>
      split at h
      · next hrunning =>
        cases h
        exact .connect hplace hnone hrunning
      · cases h
    · cases h
  | note i =>
    obtain ⟨c, hc, h⟩ := Option.bind_eq_some_iff.mp h
    split at h
    · next hstage =>
      obtain ⟨line, hline, rfl⟩ := Option.map_eq_some_iff.mp h
      exact .note hc hstage.1 hline
    · cases h
  | handle i =>
    obtain ⟨c, hc, h⟩ := Option.bind_eq_some_iff.mp h
    split at h
    · next hstage =>
      obtain ⟨line, hline, rfl⟩ := Option.map_eq_some_iff.mp h
      exact .handle hc hstage.1 hline
    · cases h
  | flush i =>
    obtain ⟨c, hc, h⟩ := Option.bind_eq_some_iff.mp h
    split at h
    · next out exits hstage =>
      obtain ⟨-, h⟩ := Option.ite_none_right_eq_some.mp h
      cases h
      exact .flush hc hstage
    · cases h
  | read i =>
    obtain ⟨c, hc, h⟩ := Option.bind_eq_some_iff.mp h
    split at h
    · next out hstage =>
      obtain ⟨⟨resp, rest⟩, hresp, h⟩ := Option.bind_eq_some_iff.mp h
      obtain ⟨d, hd, h⟩ := Option.bind_eq_some_iff.mp h
      cases h
      exact .read hc hstage hresp hd
    · cases h
  | readNull i =>
    obtain ⟨c, hc, h⟩ := Option.bind_eq_some_iff.mp h
    split at h
    · next hstage =>
      obtain ⟨d, hd, h⟩ := Option.bind_eq_some_iff.mp h
      cases h
      exact .readNull hc hstage.1 hstage.2 hd
    · cases h
  | fail i =>
    obtain ⟨d, hd, rfl⟩ := Option.map_eq_some_iff.mp h
    exact .fail hd
  | exit host =>
    obtain ⟨-, h⟩ := Option.ite_none_right_eq_some.mp h
    cases h
    exact .exit
  | stop host =>
    cases h
    exact .stop

end System

end Vsys.NetParkingSim
