import Vsys.CppAsio.ClientSteps
import Vsys.CppAsio.ServerRuns

/-! C++ clients and C++ servers as a whole. A contact is a connection of its own, known by its
client and its number among the contacts of that client. What the client has written is on
its way in pieces, the event loop of the server takes what has come and runs its handlers,
and the client reads the answer in pieces as well. Connections may break at any time, and a
server may be stopped. -/

namespace Vsys.CppAsio

open CString NetParkingSim

variable {ε η ι : Type}

/-- The client's side of a connection: what it has written and the server has not got yet,
and what it has got as an answer. -/
structure Link (η : Type) where
  host : η
  ci : Fin 4
  flying : Bytes
  received : Bytes
  deriving DecidableEq, Repr

def requestText (ci : Fin 4) : Bytes := encode (Client.commandsNl ci)

/-- Nothing is read behind `quit`, and this is not looked at. -/
def unread : Reply := ⟨[10], List.mem_singleton_self 10⟩

/-- What `read_until` has returned with, if it has. -/
def Link.reply (l : Link η) : Option Reply :=
  if l.ci = Client.quitIndex then some unread
  else if h : 10 ∈ l.received then some ⟨l.received, h⟩ else none

structure System (ι ε η : Type) where
  server : η → Server (ι × ℕ)
  caller : ι → Caller ε η
  link : ι × ℕ → Option (Link η)

/-- The endpoints of each client, the addresses that stand for an endpoint, and the lines that
are typed. -/
structure Setting (ι ε η : Type) where
  endpoints : ι → List ε
  addresses : ε → List η
  input : ι → Bytes

namespace System

inductive Label (ι η : Type) where
  | takeLine (i : ι)
  | connect (i : ι) (k : ℕ)
  | event (host : η) (e : ServerEvent (ι × ℕ))
  | receive (j : ι × ℕ) (chunk : Bytes)
  | finish (i : ι)
  | fail (i : ι)
  | stop (host : η)

/-- A server for every address, with its lot. -/
def start (S : Setting ι ε η) (lots : η → CountingLot) : System ι ε η :=
  ⟨fun host => .start (lots host), fun i => .start (S.input i), fun _ => none⟩

/-- The number of the contact that a client is making, or has failed with. -/
def current (s : System ι ε η) (i : ι) : ι × ℕ := (i, (s.caller i).outcomes.length)

/-- What the session at the other end has sent. -/
def answered (s : System ι ε η) (j : ι × ℕ) (l : Link η) : Bytes :=
  match (s.server l.host).session j with
  | some c => c.responses.flatten
  | none => []

variable [DecidableEq ι] [DecidableEq η]

def setServer (s : System ι ε η) (host : η) (v : Server (ι × ℕ)) : System ι ε η :=
  { s with server := Function.update s.server host v }

def setCaller (s : System ι ε η) (i : ι) (c : Caller ε η) : System ι ε η :=
  { s with caller := Function.update s.caller i c }

def setLink (s : System ι ε η) (j : ι × ℕ) (l : Link η) : System ι ε η :=
  { s with link := Function.update s.link j (some l) }

/-- `connect` has come to the address in the place `k`, behind those that did not take the
connection, and the request is written. -/
def connect (S : Setting ι ε η) (s : System ι ε η) (i : ι) (k : ℕ) : Option (System ι ε η) :=
  match (s.caller i).calling, s.link (s.current i) with
  | some c, none =>
    ((S.addresses c.endpoint)[k]?).bind fun host =>
      if (s.server host).loop = .running then
        some (s.setLink (s.current i) ⟨host, c.ci, requestText c.ci, []⟩)
      else none
  | _, _ => none

/-- What an event takes from the network: a server accepts what a client has connected to it,
and gets what that has written. -/
def deliver (s : System ι ε η) (host : η) : ServerEvent (ι × ℕ) → Option (System ι ε η)
  | .accept j _ => (s.link j).bind fun l => if l.host = host then some s else none
  | .socket j (.arrive chunk) =>
    (s.link j).bind fun l =>
      if l.host = host ∧ chunk <+: l.flying then
        some (s.setLink j { l with flying := l.flying.drop chunk.length })
      else none
  | _ => some s

def event (s : System ι ε η) (host : η) (e : ServerEvent (ι × ℕ)) : Option (System ι ε η) :=
  (s.deliver host e).bind fun t => (Server.step (s.server host) e).map (t.setServer host)

def receive (s : System ι ε η) (j : ι × ℕ) (chunk : Bytes) : Option (System ι ε η) :=
  (s.link j).bind fun l =>
    if l.received ++ chunk <+: s.answered j l then
      some (s.setLink j { l with received := l.received ++ chunk })
    else none

def finish (s : System ι ε η) (i : ι) : Option (System ι ε η) :=
  (s.link (s.current i)).bind fun l => l.reply.bind fun reply =>
    ((s.caller i).finish l.host reply).map (s.setCaller i)

def step (S : Setting ι ε η) (s : System ι ε η) : Label ι η → Option (System ι ε η)
  | .takeLine i => ((s.caller i).takeLine (S.endpoints i)).map (s.setCaller i)
  | .connect i k => s.connect S i k
  | .event host e => s.event host e
  | .receive j chunk => s.receive j chunk
  | .finish i => s.finish i
  | .fail i => (s.caller i).fail.map (s.setCaller i)
  | .stop host => some (s.setServer host { s.server host with loop := .exited })

inductive Moves (S : Setting ι ε η) (s : System ι ε η) : Label ι η → System ι ε η → Prop
  | takeLine {i : ι} {d : Caller ε η} (hd : (s.caller i).takeLine (S.endpoints i) = some d) :
    Moves S s (.takeLine i) (s.setCaller i d)
  | connect {i : ι} {k : ℕ} {c : Calling ε} {host : η} (hc : (s.caller i).calling = some c)
    (hnone : s.link (s.current i) = none) (hhost : host ∈ S.addresses c.endpoint) :
    Moves S s (.connect i k) (s.setLink (s.current i) ⟨host, c.ci, requestText c.ci, []⟩)
  | accept {j : ι × ℕ} {l : Link η} (hl : s.link j = some l) (address : Bytes × Bytes)
    (hnew : (s.server l.host).session j = none) :
    Moves S s (.event l.host (.accept j address))
      (s.setServer l.host ((s.server l.host).handleAccept (some (j, address))))
  | acceptFails {host : η} :
    Moves S s (.event host .acceptFails) (s.setServer host ((s.server host).handleAccept none))
  | arrive {j : ι × ℕ} {l : Link η} {chunk : Bytes} {c : Connection} {v : Server (ι × ℕ)}
    (hl : s.link j = some l) (hchunk : chunk <+: l.flying)
    (hc : (s.server l.host).session j = some c) (hlot : v.lot = (s.server l.host).lot)
    (hv : v.session = Function.update (s.server l.host).session j (some (c.arrive chunk))) :
    Moves S s (.event l.host (.socket j (.arrive chunk)))
      ((s.setLink j { l with flying := l.flying.drop chunk.length }).setServer l.host v)
  | socket {host : η} {j : ι × ℕ} {e : SocketEvent} {c c' : Connection} {v : Server (ι × ℕ)}
    {r : Ending} (he : ∀ chunk, e ≠ .arrive chunk) (hc : (s.server host).session j = some c)
    (hs : c.step (s.server host).lot e = some (c', v.lot, r))
    (hv : v.session = Function.update (s.server host).session j (some c')) :
    Moves S s (.event host (.socket j e)) (s.setServer host v)
  | receive {j : ι × ℕ} {l : Link η} {chunk : Bytes} (hl : s.link j = some l)
    (hchunk : l.received ++ chunk <+: s.answered j l) :
    Moves S s (.receive j chunk) (s.setLink j { l with received := l.received ++ chunk })
  | finish {i : ι} {l : Link η} {reply : Reply} {d : Caller ε η}
    (hl : s.link (s.current i) = some l) (hreply : l.reply = some reply)
    (hd : (s.caller i).finish l.host reply = some d) :
    Moves S s (.finish i) (s.setCaller i d)
  | fail {i : ι} {d : Caller ε η} (hd : (s.caller i).fail = some d) :
    Moves S s (.fail i) (s.setCaller i d)
  | stop {host : η} :
    Moves S s (.stop host) (s.setServer host { s.server host with loop := .exited })

theorem moves_of_event {S : Setting ι ε η} {s t : System ι ε η} {host : η}
    {e : ServerEvent (ι × ℕ)} (h : s.event host e = some t) : Moves S s (.event host e) t := by
  obtain ⟨u, hu, h⟩ := Option.bind_eq_some_iff.mp h
  obtain ⟨v, hv, rfl⟩ := Option.map_eq_some_iff.mp h
  have hreact := (Option.ite_none_right_eq_some.mp hv).2
  cases Server.steps_of_step hv with
  | accept j address =>
    obtain ⟨l, hl, h⟩ := Option.bind_eq_some_iff.mp hu
    obtain ⟨rfl, heq⟩ := Option.ite_none_right_eq_some.mp h
    cases heq
    exact .accept hl address (Option.ite_none_right_eq_some.mp hreact).1.2
  | acceptFails =>
    cases hu
    exact .acceptFails
  | @socket j e c c' lot r hc hs =>
    cases e with
    | arrive chunk =>
      obtain ⟨l, hl, h⟩ := Option.bind_eq_some_iff.mp hu
      obtain ⟨⟨rfl, hchunk⟩, heq⟩ := Option.ite_none_right_eq_some.mp h
      cases heq
      cases hs
      exact .arrive hl hchunk hc rfl rfl
    | fail | vanish | handle =>
      cases hu
      exact .socket (by simp) hc hs rfl

theorem moves_of_step {S : Setting ι ε η} {s t : System ι ε η} {a : Label ι η}
    (h : step S s a = some t) : Moves S s a t := by
  cases a with
  | takeLine i =>
    obtain ⟨d, hd, rfl⟩ := Option.map_eq_some_iff.mp h
    exact .takeLine hd
  | connect i k =>
    simp only [step, connect] at h
    split at h
    · next c hc hnone =>
      obtain ⟨host, hhost, h⟩ := Option.bind_eq_some_iff.mp h
      obtain ⟨-, h⟩ := Option.ite_none_right_eq_some.mp h
      cases h
      exact .connect hc hnone (List.mem_of_getElem? hhost)
    · cases h
  | event host e => exact moves_of_event h
  | receive j chunk =>
    obtain ⟨l, hl, h⟩ := Option.bind_eq_some_iff.mp h
    obtain ⟨hchunk, h⟩ := Option.ite_none_right_eq_some.mp h
    cases h
    exact .receive hl hchunk
  | finish i =>
    obtain ⟨l, hl, h⟩ := Option.bind_eq_some_iff.mp h
    obtain ⟨reply, hreply, h⟩ := Option.bind_eq_some_iff.mp h
    obtain ⟨d, hd, rfl⟩ := Option.map_eq_some_iff.mp h
    exact .finish hl hreply hd
  | fail i =>
    obtain ⟨d, hd, rfl⟩ := Option.map_eq_some_iff.mp h
    exact .fail hd
  | stop host =>
    cases h
    exact .stop

end System

end Vsys.CppAsio
