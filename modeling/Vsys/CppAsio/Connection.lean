import Vsys.CppAsio.RequestLanguage

/-! One connection of the C++ server between its acceptance and its end: a read that
waits for a line feed, and the handler that runs when the read is complete. Chunks
come as the network cuts them, and the peer may go away at any time, also while the
handler runs. -/

namespace Vsys.CppAsio

open CString NetParkingSim

inductive Stage where
  | reading
  | ready
  | failed
  | over
  deriving DecidableEq, Repr

/-- When the peer goes away in the course of a handler. -/
inductive Vanishing where
  | never
  | beforeLog
  | beforeSend
  deriving DecidableEq, Repr

inductive SocketEvent where
  | arrive (chunk : Bytes)
  | fail
  | vanish
  | handle (peer : Vanishing) (behind : Bytes)
  deriving DecidableEq, Repr

structure Connection where
  address : Bytes × Bytes
  stage : Stage
  request : Bytes
  connected : Bool
  responses : List Bytes
  deriving DecidableEq, Repr

namespace Connection

def start (address : Bytes × Bytes) : Connection := ⟨address, .reading, [], true, []⟩

def peer (c : Connection) (v : Vanishing) : Peer :=
  ⟨if c.connected = true ∧ v ≠ .beforeLog then some c.address else none,
    c.connected && v = .never⟩

/-- A chunk that comes while no read is waiting stays in the socket. -/
def arrive (c : Connection) (chunk : Bytes) : Connection :=
  match c.stage with
  | .reading =>
    { c with
      request := c.request ++ chunk
      stage := if 10 ∈ c.request ++ chunk then .ready else .reading }
  | _ => c

def handled (c : Connection) (v : Vanishing) (r : Served) : Connection :=
  { c with
    stage := .over
    connected := c.connected && v = .never
    responses := c.responses ++ if r.sent = [] then [] else [r.sent] }

/-- The handler does not start another read; nothing refers to the session behind it. -/
def step (c : Connection) (l : CountingLot) :
    SocketEvent → Option (Connection × CountingLot × Ending)
  | .arrive chunk => some (c.arrive chunk, l, .returned)
  | .vanish => some ({ c with connected := false }, l, .returned)
  | .fail =>
    match c.stage with
    | .reading => some ({ c with stage := .failed }, l, .returned)
    | _ => none
  | .handle v behind =>
    match c.stage with
    | .ready =>
      (Session.doRead (c.peer v) (some (c.request ++ behind)) l).map fun r =>
        (c.handled v r, r.lot, r.ending)
    | .failed =>
      (Session.doRead (c.peer v) none l).map fun r => (c.handled v r, r.lot, r.ending)
    | _ => none

inductive Steps (c : Connection) (l : CountingLot) :
    SocketEvent → Connection → CountingLot → Ending → Prop
  | arrive (chunk : Bytes) : Steps c l (.arrive chunk) (c.arrive chunk) l .returned
  | vanish : Steps c l .vanish { c with connected := false } l .returned
  | fail (h : c.stage = .reading) : Steps c l .fail { c with stage := .failed } l .returned
  | serve (h : c.stage = .ready) {v : Vanishing} {behind : Bytes} {r : Served}
    (hr : Session.doRead (c.peer v) (some (c.request ++ behind)) l = some r) :
    Steps c l (.handle v behind) (c.handled v r) r.lot r.ending
  | dismiss (h : c.stage = .failed) (v : Vanishing) (behind : Bytes) :
    Steps c l (.handle v behind) (c.handled v ⟨[], [], l, .returned⟩) l .returned

theorem steps_of_step {c c' : Connection} {l l' : CountingLot} {e : SocketEvent} {r : Ending}
    (h : c.step l e = some (c', l', r)) : Steps c l e c' l' r := by
  cases e with
  | arrive chunk =>
    cases h
    exact .arrive chunk
  | vanish =>
    cases h
    exact .vanish
  | fail =>
    cases hstage : c.stage with
    | reading =>
      simp only [step, hstage] at h
      cases h
      exact .fail hstage
    | _ => simp [step, hstage] at h
  | handle v behind =>
    cases hstage : c.stage with
    | ready =>
      simp only [step, hstage] at h
      obtain ⟨served, hr, heq⟩ := Option.map_eq_some_iff.mp h
      cases heq
      exact .serve hstage hr
    | failed =>
      simp only [step, hstage] at h
      cases h
      exact .dismiss hstage v behind
    | _ => simp [step, hstage] at h

def Complete (c : Connection) : Prop := c.stage = .ready → 10 ∈ c.request

/-- The peer of a handler that has received a request stays until it has the response,
and the request does not begin with `quit`. -/
def Stays (c : Connection) : SocketEvent → Prop
  | .handle v _ =>
    c.stage = .ready → c.connected = true ∧ v = .never ∧ ¬ ascii "quit" <+: c.request
  | _ => True

end Connection

namespace Session

theorem prefix_of_line {w l more : Bytes} {t : UInt8} (ht : t ∉ w) :
    w <+: l ++ t :: more ↔ w <+: l := by
  refine ⟨fun h => ?_, fun h => h.trans (List.prefix_append l _)⟩
  rcases List.prefix_or_prefix_of_prefix h (List.prefix_append l (t :: more)) with hw | hl
  · exact hw
  · obtain ⟨u, rfl⟩ := hl
    cases u with
    | nil => rw [List.append_nil]
    | cons a u =>
      have htail := (List.prefix_append_right_inj l).mp h
      obtain ⟨rfl, -⟩ := List.cons_prefix_cons.mp htail
      exact absurd (List.mem_append_right l List.mem_cons_self) ht

theorem prefixKind_eq_quit_iff {line : Text} : prefixKind line = .quit ↔ quitLine <+: line := by
  refine ⟨fun h => ?_, fun h => prefixKind_eq_kind (by decide) h⟩
  by_contra hquit
  simp only [prefixKind, hquit, if_false] at h
  split_ifs at h

theorem kind_of_mem {request : Bytes} (h : 10 ∈ request) (behind : Bytes) :
    ∃ k, kind (request ++ behind) = some k ∧ (k = .quit ↔ ascii "quit" <+: request) := by
  obtain ⟨line, more, rfl⟩ := List.append_of_mem h
  refine ⟨prefixKind (decode line), ?_, ?_⟩
  · rw [List.append_assoc, List.cons_append, kind_line]
  · rw [prefixKind_eq_quit_iff, prefix_of_line (by decide), ← prefix_decode_iff]
    rfl

theorem doRead_ending {peer : Peer} {request : Bytes} {l : CountingLot} {k : RequestKind}
    {r : Served} (hk : kind request = some k) (hr : doRead peer (some request) l = some r) :
    r.ending = .returned ↔ peer.endpoint.isSome = true ∧ peer.receives = true ∧ k ≠ .quit := by
  simp only [doRead, hk, Option.bind_eq_bind, Option.bind_some] at hr
  cases hp : peer.endpoint with
  | none =>
    simp only [logReq, hp, Option.map_none] at hr
    cases hr
    exact iff_of_false (by simp) (by simp)
  | some address =>
    simp only [logReq, hp, Option.map_some] at hr
    obtain ⟨⟨response, l'⟩, -, hr⟩ := Option.bind_eq_some_iff.mp hr
    cases hrec : peer.receives with
    | true =>
      simp only [hrec, if_true] at hr
      cases hr
      by_cases hq : k = .quit <;> simp [hq]
    | false =>
      simp only [hrec] at hr
      cases hr
      exact iff_of_false (by simp) (by simp)

end Session

namespace Connection

theorem peer_stays_iff {c : Connection} {v : Vanishing} :
    (c.peer v).endpoint.isSome = true ∧ (c.peer v).receives = true ↔
      c.connected = true ∧ v = .never := by
  cases hc : c.connected <;> cases v <;> simp [peer, hc]

theorem arrive_of_reading {c : Connection} (h : c.stage = .reading) (chunk : Bytes) :
    c.arrive chunk = { c with
      request := c.request ++ chunk
      stage := if 10 ∈ c.request ++ chunk then .ready else .reading } := by
  simp only [arrive, h]

theorem arrive_of_ne {c : Connection} (h : c.stage ≠ .reading) (chunk : Bytes) :
    c.arrive chunk = c := by
  cases hstage : c.stage with
  | reading => exact absurd hstage h
  | _ => simp only [arrive, hstage]

theorem Complete.arrive {c : Connection} (h : c.Complete) (chunk : Bytes) :
    (c.arrive chunk).Complete := by
  by_cases hstage : c.stage = .reading
  · rw [arrive_of_reading hstage]
    intro hready
    by_contra hlf
    exact nomatch (if_neg hlf).symm.trans hready
  · rwa [arrive_of_ne hstage]

theorem step_complete {c c' : Connection} {l l' : CountingLot} {e : SocketEvent} {r : Ending}
    (h : c.Complete) (hs : c.step l e = some (c', l', r)) : c'.Complete := by
  cases steps_of_step hs with
  | arrive chunk => exact h.arrive chunk
  | vanish => exact h
  | fail => exact fun hready => nomatch hready
  | serve => exact fun hready => nomatch hready
  | dismiss => exact fun hready => nomatch hready

/-- A handler returns exactly when the request is not there or its peer stays. -/
theorem step_returned_iff {c c' : Connection} {l l' : CountingLot} {e : SocketEvent}
    {r : Ending} (h : c.Complete) (hs : c.step l e = some (c', l', r)) :
    r = .returned ↔ c.Stays e := by
  cases steps_of_step hs with
  | arrive => exact iff_of_true rfl trivial
  | vanish => exact iff_of_true rfl trivial
  | fail => exact iff_of_true rfl trivial
  | dismiss hstage =>
    refine iff_of_true rfl fun hready => ?_
    exact nomatch hstage.symm.trans hready
  | @serve hstage v behind served hr =>
    obtain ⟨k, hk, hquit⟩ := Session.kind_of_mem (h hstage) behind
    rw [Session.doRead_ending hk hr, ← and_assoc, peer_stays_iff, ne_eq, hquit]
    exact ⟨fun hstays _ => and_assoc.mp hstays, fun hstays => and_assoc.mpr (hstays hstage)⟩

end Connection

end Vsys.CppAsio
