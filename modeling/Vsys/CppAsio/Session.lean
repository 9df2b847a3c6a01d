import Vsys.CppAsio.AtomicParkingLot
import Vsys.NetParkingSim.RequestDispatcher
import Vsys.Text.CString

/-! The handler that serves a connection of the C++ server. It looks at the
received bytes through a `const char *` and compares as many of them as a command
word has, where the Java dispatcher compares the whole line. -/

namespace Vsys.CppAsio

open CString NetParkingSim

structure Peer where
  endpoint : Option (Bytes × Bytes)
  receives : Bool
  deriving DecidableEq, Repr

inductive Ending where
  | returned
  | escaped
  | exited
  deriving DecidableEq, Repr

structure Served where
  log : Bytes
  sent : Bytes
  lot : CountingLot
  ending : Ending
  deriving DecidableEq, Repr

namespace Session

def endl : Bytes := [10]

def logReq (r : String) (peer : Peer) : Option Bytes :=
  peer.endpoint.map fun e =>
    ascii "Received '" ++ ascii r ++ ascii "' request from: " ++ e.1 ++ ascii ":" ++ e.2 ++ endl

def kind (request : Bytes) : Option RequestKind := do
  if (← strncmp request (literal "free") 4) = 0 then return .free
  else if (← strncmp request (literal "in") 2) = 0 then return .in_
  else if (← strncmp request (literal "out") 3) = 0 then return .out
  else if (← strncmp request (literal "quit") 4) = 0 then return .quit
  else return .unknown

def logName : RequestKind → String
  | .free => "free"
  | .in_ => "in"
  | .out => "out"
  | .quit => "quit"
  | .unknown => "Unknown"

/-- What a branch writes to the response, and the lot behind it. The calls on the
lot run to their end before another handler starts. -/
def respond (request : Bytes) (l : CountingLot) : RequestKind → Option (Bytes × CountingLot)
  | .free => some (ascii (toString l.vacant) ++ endl, l)
  | .in_ => some (ascii (if l.enter.1 then "ok" else "fail") ++ endl, l.enter.2)
  | .out => some (ascii (if l.leave.1 then "ok" else "fail") ++ endl, l.leave.2)
  | .quit => some (ascii "ok" ++ endl, l)
  | .unknown => (read request).map fun t => (ascii "Unknown command: " ++ t ++ endl, l)

/-- The handler of `do_read`. It gets the memory from the first received byte on,
or nothing when the read has failed; it has no result where it reads behind that
memory. -/
def doRead (peer : Peer) : Option Bytes → CountingLot → Option Served
  | none, l => some ⟨[], [], l, .returned⟩
  | some request, l => do
    let k ← kind request
    match logReq (logName k) peer with
    | none => return ⟨[], [], l, .escaped⟩
    | some log =>
      let (response, l') ← respond request l k
      if peer.receives then return ⟨log, response, l', if k = .quit then .exited else .returned⟩
      else return ⟨log, [], l', .escaped⟩

theorem doRead_connected (address : Bytes × Bytes) {request response : Bytes} {l l' : CountingLot}
    {k : RequestKind} (hk : kind request = some k)
    (hr : respond request l k = some (response, l')) :
    ∃ log, doRead ⟨some address, true⟩ (some request) l =
      some ⟨log, response, l', if k = .quit then .exited else .returned⟩ := by
  simp only [doRead, hk, hr, logReq, Option.map_some, Option.bind_eq_bind, Option.bind_some,
    if_true]
  exact ⟨_, rfl⟩

theorem respond_lot {request t : Bytes} {l l' : CountingLot} {k : RequestKind}
    (h : respond request l k = some (t, l')) (hne : l' ≠ l) : k = .in_ ∨ k = .out := by
  cases k with
  | in_ => exact Or.inl rfl
  | out => exact Or.inr rfl
  | free =>
    cases h
    exact absurd rfl hne
  | quit =>
    cases h
    exact absurd rfl hne
  | unknown =>
    obtain ⟨u, -, hu⟩ := Option.map_eq_some_iff.mp h
    cases hu
    exact absurd rfl hne

theorem doRead_effect {peer : Peer} {request : Bytes} {l : CountingLot} {k : RequestKind}
    {r : Served} (hk : kind request = some k) (hr : doRead peer (some request) l = some r) :
    (r.lot ≠ l → k = .in_ ∨ k = .out) ∧ (r.ending = .exited → k = .quit) := by
  simp only [doRead, hk, Option.bind_eq_bind, Option.bind_some] at hr
  cases hlog : logReq (logName k) peer with
  | none =>
    rw [hlog] at hr
    cases hr
    exact ⟨fun hne => absurd rfl hne, fun he => nomatch he⟩
  | some log =>
    simp only [hlog] at hr
    obtain ⟨⟨response, l'⟩, hresp, hr⟩ := Option.bind_eq_some_iff.mp hr
    cases hrec : peer.receives with
    | true =>
      simp only [hrec, if_true] at hr
      cases hr
      refine ⟨respond_lot hresp, fun he => ?_⟩
      by_contra hq
      exact nomatch he.symm.trans (if_neg hq)
    | false =>
      simp only [hrec] at hr
      cases hr
      exact ⟨respond_lot hresp, fun he => nomatch he⟩

end Session

end Vsys.CppAsio
