import Vsys.RpcParkingSim.ClientTurn
import Vsys.Schedule.RemoteObject

/-! The whole of the simulation: any number of clients, each with a session of its own,
and one lot behind all of them. Lines are typed at any time; objects stay in a stream
until they are read; a connection may break, with all that either end has not read yet
or a part of it, and the server may stop. -/

namespace Vsys.RpcParkingSim

open Schedule

inductive Mode where
  | prompting
  | awaiting
  | left (e : Exit)
  deriving DecidableEq, Repr

def Mode.hasLeft : Mode → Bool
  | left _ => true
  | _ => false

/-- Where the thread of a session is: before it reads a request, before it writes the
response, or out of its loop. -/
inductive Phase where
  | reading
  | writing (v : Value) (e : Ending)
  | finished (e : Ending)
  deriving DecidableEq, Repr

namespace Phase

def settle (e : Ending) : Phase := if e = .returned true then reading else finished e

def after (r : Served) : Phase :=
  match r.written with
  | [] => settle r.ending
  | v :: _ => writing v r.ending

def pending : Phase → List Value
  | writing v _ => [v]
  | _ => []

def isFinished : Phase → Bool
  | finished _ => true
  | _ => false

end Phase

/-- `(String) ois.readObject()` fails for an object that is neither null nor a string. -/
def Value.castsToString : Value → Bool
  | .null | .string _ => true
  | _ => false

/-- A client with its session, and the objects on their way between them. `typed` are the
lines the client has read, `received` the responses it has printed. -/
structure Connection where
  typed : List (List Char)
  mode : Mode
  toServer : List Received
  phase : Phase
  toClient : List Value
  received : List Value
  cut : Bool
  deriving DecidableEq, Repr

namespace Connection

def start : Connection := ⟨[], .prompting, [], .reading, [], [], false⟩

def intact (c : Connection) : Bool := !c.cut && !c.mode.hasLeft

/-- The streams are closed, and what is in them will not be read. -/
def leave (c : Connection) (e : Exit) : Connection := { c with mode := .left e, toClient := [] }

def accept (line : List Char) (written : List Received) (c : Connection) : Connection :=
  { c with
    typed := c.typed ++ [line]
    toServer := if c.cut then c.toServer else c.toServer ++ written }

def typeLine (jvm : Jvm) (takesReference takesArray : Bool) (line : List Char) (c : Connection) :
    Option Connection :=
  if c.mode = .prompting then
    let a := Client.ask jvm takesReference takesArray line
    let c := c.accept line a.1
    match a.2 with
    | .prompts => some c
    | .awaits => some { c with mode := .awaiting }
    | .leaves e => some (c.leave e)
  else none

/-- `readLine` returns null at the end of the input. -/
def endOfInput (c : Connection) : Option Connection :=
  if c.mode = .prompting then some (c.leave .nullPointer) else none

/-- `serveOnce` up to its response. It waits for both objects, or for the end of the
stream. -/
def serve (jvm : Jvm) (world : World) (c : Connection) : Option (Served × Connection) :=
  if c.phase = .reading ∧ (2 ≤ c.toServer.length ∨ c.intact = false) then
    let r := Session.serveOnce jvm world (c.toServer.map .object)
    some (r.1, { c with toServer := c.toServer.drop r.2, phase := .after r.1 })
  else none

def write (c : Connection) : Option Connection :=
  match c.phase with
  | .writing v e =>
    some { c with
      toClient := if c.intact then c.toClient ++ [v] else c.toClient
      phase := .settle e }
  | _ => none

/-- `run` closes the streams behind its loop, but not when `serveOnce` throws. -/
def ended (running : Bool) (c : Connection) : Bool :=
  c.cut || !running || c.phase = .finished (.returned true) || c.phase = .finished (.returned false)

def read (running found : Bool) (c : Connection) : Option Connection :=
  if c.mode = .awaiting then
    match c.toClient with
    | v :: vs =>
      if v.castsToString then
        some { c with mode := .prompting, toClient := vs, received := c.received ++ [v] }
      else some (c.leave (if found then .classCast else .classNotFound))
    | [] => if c.ended running then some (c.leave .ioException) else none
  else none

def breakOff (m n : ℕ) (c : Connection) : Connection :=
  { c with toServer := c.toServer.take m, toClient := c.toClient.take n, cut := true }

end Connection

structure System (ι : Type*) where
  lot : SynchronizedParkingLot
  running : Bool
  connection : ι → Connection

namespace System

variable {ι : Type*} [DecidableEq ι]

inductive Label (ι : Type*) where
  | typeLine (i : ι) (takesReference takesArray : Bool) (line : List Char)
  | endOfInput (i : ι)
  | serve (i : ι) (outcome : Method → List Value → Outcome) (writes : Value → Bool)
  | write (i : ι)
  | read (i : ι) (found : Bool)
  | breakOff (i : ι) (m n : ℕ)
  | stop

def start (capacity : Int32) : System ι := ⟨.new capacity, true, fun _ => .start⟩

def set (s : System ι) (i : ι) (c : Connection) : System ι :=
  { s with connection := Function.update s.connection i c }

def step (jvm : Jvm) (s : System ι) : Label ι → Option (System ι)
  | .typeLine i takesReference takesArray line =>
    ((s.connection i).typeLine jvm takesReference takesArray line).map (s.set i)
  | .endOfInput i => (s.connection i).endOfInput.map (s.set i)
  | .serve i outcome writes =>
    if s.running then
      ((s.connection i).serve jvm ⟨s.lot, outcome, writes⟩).map fun p =>
        { s.set i p.2 with lot := p.1.lot, running := decide (p.1.ending ≠ .exited) }
    else none
  | .write i => if s.running then (s.connection i).write.map (s.set i) else none
  | .read i found => ((s.connection i).read s.running found).map (s.set i)
  | .breakOff i m n => some (s.set i ((s.connection i).breakOff m n))
  | .stop => some { s with running := false }

end System

/-- The service as an object: a call made on it directly. -/
def Call.perform (jvm : Jvm) (c : Call × (Method → List Value → Outcome))
    (lot : SynchronizedParkingLot) : Outcome × SynchronizedParkingLot :=
  let r := invoke jvm ⟨lot, c.2, fun _ => true⟩ c.1.method c.1.args
  (r.outcome, r.lot)

theorem Call.perform_eq (jvm : Jvm) (world : World) (c : Call) :
    perform jvm (c, world.outcome) world.lot =
      ((invoke jvm world c.method c.args).outcome, (invoke jvm world c.method c.args).lot) := rfl

end Vsys.RpcParkingSim
