import Mathlib.Data.List.Basic
import Mathlib.Data.List.Infix

/-! The accept loop of the RPC server. The object streams of a connection are set up by
the accepting thread itself, before the thread of its session is started. -/

namespace Vsys.RpcParkingSim

/-- What a peer sends at the beginning of its connection, whether it closes the
connection behind that, and whether it takes what the server writes first. -/
structure Peer where
  sent : List UInt8
  closes : Bool
  receives : Bool
  deriving DecidableEq, Repr

namespace Server

/-- Magic number and version, with which every object stream begins. -/
def streamHeader : List UInt8 := [0xac, 0xed, 0x00, 0x05]

inductive Opened where
  | stream
  | ioException
  | waits
  deriving DecidableEq, Repr

/-- `new ObjectInputStream` reads the four bytes of the header before it looks at them. -/
def openInput (p : Peer) : Opened :=
  if p.sent.length < streamHeader.length then if p.closes then .ioException else .waits
  else if p.sent.take streamHeader.length = streamHeader then .stream
  else .ioException

/-- `new ObjectOutputStream` writes the header of the server's own stream. -/
def openOutput (p : Peer) : Opened := if p.receives then .stream else .ioException

inductive Place where
  | accepting
  | opening
  | escaped
  | exited
  deriving DecidableEq, Repr

/-- The connections whose sessions have been started, and where `main` is. -/
structure State where
  sessions : List Peer
  place : Place
  deriving DecidableEq, Repr

def start : State := ⟨[], .accepting⟩

/-- One pass of the loop; `none` is an `accept` that fails. -/
def turn (s : State) (accepted : Option Peer) : State :=
  if s.place = .accepting then
    match accepted with
    | none => { s with place := .exited }
    | some p =>
      match openInput p, openOutput p with
      | .stream, .stream => { s with sessions := s.sessions ++ [p] }
      | .waits, _ => { s with place := .opening }
      | _, _ => { s with place := .escaped }
  else s

def serve (accepted : List (Option Peer)) : State := accepted.foldl turn start

/-- Every connection with a header gets its session, in order, and the server is back in
`accept` after each connection. -/
def ServesAll (peers : List Peer) : Prop :=
  (serve (peers.map some)).sessions = peers.filter (fun p => decide (streamHeader <+: p.sent)) ∧
    ∀ k, (serve ((peers.take k).map some)).place = .accepting

theorem openInput_eq_stream_iff {p : Peer} : openInput p = .stream ↔ streamHeader <+: p.sent := by
  have hbegin : p.sent.take streamHeader.length = streamHeader ↔ streamHeader <+: p.sent :=
    ⟨fun h => h ▸ List.take_prefix _ _, fun h => (List.prefix_iff_eq_take.mp h).symm⟩
  rw [openInput]
  split_ifs with hshort hcloses htake
  · exact iff_of_false (by decide) fun h => absurd h.length_le (by omega)
  · exact iff_of_false (by decide) fun h => absurd h.length_le (by omega)
  · exact iff_of_true rfl (hbegin.mp htake)
  · exact iff_of_false (by decide) fun h => htake (hbegin.mpr h)

theorem openOutput_eq_stream_iff {p : Peer} : openOutput p = .stream ↔ p.receives = true := by
  cases hp : p.receives <;> simp [openOutput, hp]

def Welcome (p : Peer) : Prop := streamHeader <+: p.sent ∧ p.receives = true

theorem turn_of_welcome {s : State} {p : Peer} (hs : s.place = .accepting) (hp : Welcome p) :
    turn s (some p) = { s with sessions := s.sessions ++ [p] } := by
  simp only [turn, hs, if_true, openInput_eq_stream_iff.mpr hp.1, openOutput_eq_stream_iff.mpr hp.2]

theorem turn_of_not_welcome {s : State} {p : Peer} (hp : ¬ Welcome p) :
    (turn s (some p)).place ≠ .accepting := by
  have hopen : openInput p ≠ .stream ∨ openOutput p ≠ .stream := by
    rw [Welcome, ← openInput_eq_stream_iff, ← openOutput_eq_stream_iff] at hp
    exact not_and_or.mp hp
  by_cases hs : s.place = .accepting
  · rcases hopen with h | h <;> cases hin : openInput p <;> cases hout : openOutput p <;>
      simp_all [turn]
  · rwa [turn, if_neg hs]

theorem turn_of_stopped {s : State} (hs : s.place ≠ .accepting) (accepted : Option Peer) :
    turn s accepted = s := if_neg hs

theorem foldl_turn_of_stopped {s : State} (hs : s.place ≠ .accepting)
    (accepted : List (Option Peer)) : accepted.foldl turn s = s := by
  induction accepted with
  | nil => rfl
  | cons a accepted ih => rw [List.foldl_cons, turn_of_stopped hs, ih]

theorem foldl_turn_of_welcome {s : State} {peers : List Peer} (hs : s.place = .accepting)
    (hpeers : ∀ p ∈ peers, Welcome p) :
    (peers.map some).foldl turn s = ⟨s.sessions ++ peers, .accepting⟩ := by
  induction peers generalizing s with
  | nil => rw [List.append_nil, ← hs]; rfl
  | cons p peers ih =>
    have hrest := @ih { s with sessions := s.sessions ++ [p] } hs
      fun q hq => hpeers q (List.mem_cons_of_mem p hq)
    rw [List.map_cons, List.foldl_cons, turn_of_welcome hs (hpeers p List.mem_cons_self), hrest,
      List.append_assoc, List.singleton_append]

theorem welcome_of_accepting {s : State} {peers : List Peer}
    (h : ((peers.map some).foldl turn s).place = .accepting) : ∀ p ∈ peers, Welcome p := by
  induction peers generalizing s with
  | nil => exact fun p hp => absurd hp List.not_mem_nil
  | cons p peers ih =>
    rw [List.map_cons, List.foldl_cons] at h
    have hp : Welcome p := by
      by_contra hnot
      have hstopped := turn_of_not_welcome (s := s) hnot
      rw [foldl_turn_of_stopped hstopped] at h
      exact hstopped h
    intro q hq
    rcases List.mem_cons.mp hq with rfl | hq
    · exact hp
    · exact ih h q hq

/-- The server serves all its peers exactly when each of them sends the header of an
object stream and takes the server's. -/
theorem servesAll_iff (peers : List Peer) :
    ServesAll peers ↔ ∀ p ∈ peers, streamHeader <+: p.sent ∧ p.receives = true := by
  constructor
  · rintro ⟨-, hplace⟩
    have hall := hplace peers.length
    rw [List.take_length] at hall
    exact welcome_of_accepting hall
  · intro hpeers
    refine ⟨?_, fun k => ?_⟩
    · have hfilter : peers.filter (fun p => decide (streamHeader <+: p.sent)) = peers :=
        List.filter_eq_self.mpr fun p hp => decide_eq_true (hpeers p hp).1
      rw [hfilter, serve, foldl_turn_of_welcome rfl hpeers]
      rfl
    · have htake : ∀ p ∈ peers.take k, Welcome p := fun p hp => hpeers p (List.mem_of_mem_take hp)
      rw [serve, foldl_turn_of_welcome rfl htake]

/-- A peer that speaks another protocol takes the accept loop down, and the next one is
not served. -/
theorem other_bytes_end_loop :
    let other : Peer := ⟨[0x47, 0x45, 0x54, 0x20], true, true⟩
    let valid : Peer := ⟨streamHeader, false, true⟩
    serve [some other, some valid] = ⟨[], .escaped⟩ ∧ ¬ ServesAll [other, valid] := by
  intro other valid
  refine ⟨by decide, fun h => ?_⟩
  exact absurd (h.2 1) (by decide)

end Server

end Vsys.RpcParkingSim
