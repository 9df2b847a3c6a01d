import Vsys.RpcParkingSim.SerializableMethod
import Vsys.Schedule.Run

/-! The RPC session: read a method reference and an argument array, invoke, write
the response; over and over, until a request fails. -/

namespace Vsys.RpcParkingSim

inductive Received where
  | null
  | reference (r : Reference)
  | array (args : List Value)
  | other
  deriving DecidableEq, Repr

inductive Incoming where
  | object (o : Received)
  | ioException
  | classNotFound
  | runtimeException
  | error
  deriving DecidableEq, Repr

structure Request where
  reference : Reference
  args : List Value
  deriving DecidableEq, Repr

def Request.objects (q : Request) : List Received := [.reference q.reference, .array q.args]

def Request.incoming (q : Request) : List Incoming := q.objects.map .object

inductive Ending where
  | returned (b : Bool)
  | escaped
  | exited
  | hung
  deriving DecidableEq, Repr

structure Served where
  ending : Ending
  executed : List Method
  written : List Value
  lot : SynchronizedParkingLot

/-- What is left of the stream, what became of the requests so far, and whether the
loop of `run` goes on. -/
structure Session where
  input : List Incoming
  served : List Served
  running : Bool

namespace Session

inductive Read (α : Type) where
  | value (a : α)
  | failed
  | escaped

def castWith {α : Type} (cast : Received → Option α) : Option Incoming → Read α
  | some (.object o) =>
    match cast o with
    | some a => .value a
    | none => .escaped
  | none | some .ioException | some .classNotFound => .failed
  | some .runtimeException | some .error => .escaped

def readMethod : Option Incoming → Read (Option SerializableMethod) :=
  castWith fun
    | .null => some none
    | .reference r => some (some (.readObject r))
    | _ => none

def readArgs : Option Incoming → Read (Option (List Value)) :=
  castWith fun
    | .null => some none
    | .array args => some (some args)
    | _ => none

def writeResult (world : World) (r : Invoked) : Served :=
  match r.outcome with
  | .returns v =>
    if world.writes v then ⟨.returned true, r.executed, [v], r.lot⟩
    else ⟨.returned false, r.executed, [], r.lot⟩
  | .throws => ⟨.returned false, r.executed, [], r.lot⟩
  | .errs => ⟨.escaped, r.executed, [], r.lot⟩
  | .exits => ⟨.exited, r.executed, [], r.lot⟩
  | .hangs => ⟨.hung, r.executed, [], r.lot⟩

def failed (world : World) : Served := ⟨.returned false, [], [], world.lot⟩

def escaped (world : World) : Served := ⟨.escaped, [], [], world.lot⟩

def respond (jvm : Jvm) (world : World) (m : SerializableMethod) (args : List Value) : Served :=
  match m.method_ jvm with
  | .ok (method, _) => writeResult world (invoke jvm world method args)
  | .error _ => failed world

/-- The `switch` over the number of arguments; no branch is for more than two. -/
def dispatch (jvm : Jvm) (world : World) (m : SerializableMethod) : List Value → Served
  | [] => respond jvm world m []
  | [arg] => respond jvm world m [arg]
  | [arg, arg'] =>
    let v := .string ("Invalid arity: " ++ toString [arg, arg'].length)
    ⟨.returned false, [], if world.writes v then [v] else [], world.lot⟩
  | _ => ⟨.returned true, [], [], world.lot⟩

/-- The second `try` block of `serveOnce`. The message about the request asks for
the method, and for the printable form of each argument. The block catches exceptions,
but no errors. -/
def answer (jvm : Jvm) (world : World) (m : Option SerializableMethod)
    (args : Option (List Value)) : Served :=
  match m with
  | none => failed world
  | some m =>
    match m.method_ jvm, args with
    | .ok (_, m), some args =>
      match Value.arraysToString args with
      | .prints => dispatch jvm world m args
      | .throws => failed world
      | .errs => escaped world
    | _, _ => failed world

def serveOnce (jvm : Jvm) (world : World) (input : List Incoming) : Served × ℕ :=
  match readMethod input.head? with
  | .failed => (failed world, 1)
  | .escaped => (escaped world, 1)
  | .value m =>
    match readArgs input.tail.head? with
    | .failed => (failed world, 2)
    | .escaped => (escaped world, 2)
    | .value args => (answer jvm world m args, 2)

def start (input : List Incoming) : Session := ⟨input, [], true⟩

def step (jvm : Jvm) (s : Session) (world : World) : Option Session :=
  if s.running then
    let r := serveOnce jvm world s.input
    some ⟨s.input.drop r.2, s.served ++ [r.1], r.1.ending = .returned true⟩
  else none

theorem respond_of_method {jvm : Jvm} (world : World) {m m' : SerializableMethod} {found : Method}
    (hm : m.method_ jvm = .ok (found, m')) (args : List Value) :
    respond jvm world m args = writeResult world (invoke jvm world found args) := by
  rw [respond, hm]

theorem answer_cases (jvm : Jvm) (world : World) (m : Option SerializableMethod)
    (args : Option (List Value)) :
    answer jvm world m args = failed world ∨
      ∃ m₀ m' found args', m = some m₀ ∧ args = some args' ∧ m₀.method_ jvm = .ok (found, m') ∧
        m'.method_ jvm = .ok (found, m') ∧
        ((Value.arraysToString args' = .errs ∧ answer jvm world m args = escaped world) ∨
          (Value.arraysToString args' ≠ .errs ∧
            answer jvm world m args = dispatch jvm world m' args')) := by
  cases m with
  | none => exact Or.inl rfl
  | some m =>
    cases hm : m.method_ jvm with
    | error e => exact Or.inl (by simp only [answer, hm])
    | ok p =>
      obtain ⟨found, m'⟩ := p
      cases args with
      | none => exact Or.inl (by simp only [answer, hm])
      | some args =>
        have hagain := SerializableMethod.method_again hm
        cases hp : Value.arraysToString args with
        | throws => exact Or.inl (by simp only [answer, hm, hp])
        | errs =>
          refine Or.inr ⟨m, m', found, args, rfl, rfl, hm, hagain, Or.inl ⟨hp, ?_⟩⟩
          simp only [answer, hm, hp]
        | prints =>
          refine Or.inr ⟨m, m', found, args, rfl, rfl, hm, hagain, Or.inr ⟨by simp [hp], ?_⟩⟩
          simp only [answer, hm, hp]

theorem serveOnce_cases (jvm : Jvm) (world : World) (input : List Incoming) :
    (∃ e n, e ≠ .returned true ∧ serveOnce jvm world input = (⟨e, [], [], world.lot⟩, n)) ∨
      ∃ m args, readMethod input.head? = .value m ∧ readArgs input.tail.head? = .value args ∧
        serveOnce jvm world input = (answer jvm world m args, 2) := by
  cases hm : readMethod input.head? with
  | failed => exact Or.inl ⟨.returned false, 1, nofun, by simp only [serveOnce, hm, failed]⟩
  | escaped => exact Or.inl ⟨.escaped, 1, nofun, by simp only [serveOnce, hm, escaped]⟩
  | value m =>
    cases ha : readArgs input.tail.head? with
    | failed => exact Or.inl ⟨.returned false, 2, nofun, by simp only [serveOnce, hm, ha, failed]⟩
    | escaped => exact Or.inl ⟨.escaped, 2, nofun, by simp only [serveOnce, hm, ha, escaped]⟩
    | value args => exact Or.inr ⟨m, args, rfl, rfl, by simp only [serveOnce, hm, ha]⟩

theorem writeResult_executed (world : World) (r : Invoked) :
    (writeResult world r).executed = r.executed := by
  rw [writeResult]
  split
  · split <;> rfl
  all_goals rfl

theorem writeResult_written (world : World) (r : Invoked) :
    (writeResult world r).written.length ≤ 1 ∧
      ((writeResult world r).ending = .returned true →
        (writeResult world r).written.length = 1) := by
  rw [writeResult]
  split
  · split
    · exact ⟨le_rfl, fun _ => rfl⟩
    · exact ⟨Nat.zero_le 1, fun h => nomatch h⟩
  all_goals exact ⟨Nat.zero_le 1, fun h => nomatch h⟩

end Session

end Vsys.RpcParkingSim
