import Mathlib.Logic.Function.Basic
import Vsys.CppAsio.Connection
import Vsys.Schedule.Run

/-! The C++ server as a whole: one event loop that runs the handler of the acceptor
and those of all connections, one after the other in any order. An exception that a
handler lets out ends the loop. -/

namespace Vsys.CppAsio

open CString Schedule

inductive Loop where
  | running
  | left
  | exited
  deriving DecidableEq, Repr

structure Server (ι : Type*) where
  loop : Loop
  accepting : Bool
  lot : CountingLot
  session : ι → Option Connection

inductive ServerEvent (ι : Type*) where
  | accept (i : ι) (address : Bytes × Bytes)
  | acceptFails
  | socket (i : ι) (e : SocketEvent)
  deriving DecidableEq, Repr

namespace Server

variable {ι : Type*}

def doAccept (s : Server ι) : Server ι := { s with accepting := true }

def start (lot : CountingLot) : Server ι := doAccept ⟨.running, false, lot, fun _ => none⟩

def loopAfter : Ending → Loop
  | .returned => .running
  | .escaped => .left
  | .exited => .exited

section
variable [DecidableEq ι]

/-- The handler of the acceptor starts a session unless it gets an error, and accepts
again in both cases. -/
def handleAccept (s : Server ι) : Option (ι × Bytes × Bytes) → Server ι
  | none => doAccept { s with accepting := false }
  | some (i, address) =>
    doAccept { s with
      accepting := false
      session := Function.update s.session i (some (Connection.start address)) }

def react (s : Server ι) : ServerEvent ι → Option (Server ι)
  | .accept i address =>
    if s.accepting = true ∧ s.session i = none then some (s.handleAccept (some (i, address)))
    else none
  | .acceptFails => if s.accepting = true then some (s.handleAccept none) else none
  | .socket i e =>
    (s.session i).bind fun c => (c.step s.lot e).map fun r =>
      { s with
        loop := loopAfter r.2.2
        lot := r.2.1
        session := Function.update s.session i (some r.1) }

def step (s : Server ι) (e : ServerEvent ι) : Option (Server ι) :=
  if s.loop = .running then s.react e else none

end

inductive Steps [DecidableEq ι] (s : Server ι) : ServerEvent ι → Server ι → Prop
  | accept (i : ι) (address : Bytes × Bytes) :
    Steps s (.accept i address) (s.handleAccept (some (i, address)))
  | acceptFails : Steps s .acceptFails (s.handleAccept none)
  | socket {i : ι} {e : SocketEvent} {c c' : Connection} {l : CountingLot} {r : Ending}
    (hi : s.session i = some c) (hc : c.step s.lot e = some (c', l, r)) :
    Steps s (.socket i e) { s with
      loop := loopAfter r
      lot := l
      session := Function.update s.session i (some c') }

theorem steps_of_step [DecidableEq ι] {s t : Server ι} {e : ServerEvent ι}
    (h : step s e = some t) : Steps s e t := by
  obtain ⟨-, h⟩ := Option.ite_none_right_eq_some.mp h
  cases e with
  | accept i address =>
    obtain ⟨-, h⟩ := Option.ite_none_right_eq_some.mp h
    obtain rfl := Option.some.inj h
    exact .accept i address
  | acceptFails =>
    obtain ⟨-, h⟩ := Option.ite_none_right_eq_some.mp h
    obtain rfl := Option.some.inj h
    exact .acceptFails
  | socket i e =>
    obtain ⟨c, hi, h⟩ := Option.bind_eq_some_iff.mp h
    obtain ⟨⟨c', l, r⟩, hc, rfl⟩ := Option.map_eq_some_iff.mp h
    exact .socket hi hc

theorem loopAfter_eq_running {r : Ending} : loopAfter r = .running ↔ r = .returned := by
  cases r <;> simp [loopAfter]

end Server

end Vsys.CppAsio
