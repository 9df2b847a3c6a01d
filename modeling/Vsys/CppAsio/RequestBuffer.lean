import Vsys.Asio.ReadUntil
import Vsys.CppAsio.ServerRuns

/-! The sessions of the C++ server with their streambufs and the operations that fill
them. What a handler reads behind the received bytes is the rest of the array, and only
then memory that is not the session's. -/

namespace Vsys.CppAsio

open Asio CString Delimiter NetParkingSim Schedule

structure BufferedSession where
  address : Bytes × Bytes
  reading : Reading Unit
  connected : Bool
  finished : Bool
  responses : List Bytes
  deriving DecidableEq, Repr

namespace BufferedSession

/-- `maximum_size` of a streambuf where nothing else is asked for. -/
def maximumSize : ℕ := 2 ^ 64 - 1

def stageOf : Reading Unit → Stage
  | .waiting .. => .reading
  | .ended _ none _ => .ready
  | _ => .failed

/-- The session as the model of the connection has it. -/
def view (s : BufferedSession) : Connection :=
  ⟨s.address, if s.finished then .over else stageOf s.reading, s.reading.buf.data, s.connected,
    s.responses⟩

def handled (s : BufferedSession) (v : Vanishing) (r : Served) : BufferedSession :=
  { s with
    finished := true
    connected := s.connected && v = .never
    responses := s.responses ++ if r.sent = [] then [] else [r.sent] }

section
variable (A : Allocation)

def start (address : Bytes × Bytes) : BufferedSession :=
  ⟨address, AsyncReadUntil.start A Session.endl (.create A maximumSize), true, false, []⟩

def transfer (s : BufferedSession) (l : CountingLot) (t : Transfer Unit) :
    Option (BufferedSession × CountingLot × Ending) :=
  (AsyncReadUntil.step A Session.endl s.reading t).map fun r =>
    ({ s with reading := r }, l, .returned)

/-- What a handler that is due gets: nothing when the operation has failed, else the array
from the received bytes on and what is behind it. -/
def due (s : BufferedSession) (behind : Bytes) : Option (Option Bytes) :=
  if s.finished then none
  else
    match s.reading with
    | .ended b none _ => some (some (b.memory ++ behind))
    | .ended _ (some _) _ => some none
    | _ => none

def step (s : BufferedSession) (l : CountingLot) :
    SocketEvent → Option (BufferedSession × CountingLot × Ending)
  | .arrive chunk => if s.finished then none else s.transfer A l (.received chunk)
  | .fail => if s.finished then none else s.transfer A l (.failed ())
  | .vanish => some ({ s with connected := false }, l, .returned)
  | .handle v behind =>
    (s.due behind).bind fun m =>
      (Session.doRead (s.view.peer v) m l).map fun r => (s.handled v r, r.lot, r.ending)

end

/-- The read of a session at any time: its streambuf has what it has received, and
zeros behind that. -/
structure Sound (s : BufferedSession) : Prop where
  explained : Explains Session.endl s.view.request maximumSize s.reading
  tidy : Tidy maximumSize s.reading.buf

theorem start_sound (A : Allocation) (address : Bytes × Bytes) :
    (start A address).Sound ∧ (start A address).view = Connection.start address := by
  obtain ⟨b, n, hasync, hsync, hdata, htidy⟩ :=
    @start_create Unit maximumSize A Session.endl (by decide)
  have hexplained :
      Explains Session.endl [] maximumSize (.waiting b (some 0) n : Reading Unit) := by
    rw [← hsync]
    exact search_explains (A := A) (b := .create A maximumSize) (by decide) cleared_zero
  have hstart : start A address = ⟨address, .waiting b (some 0) n, true, false, []⟩ := by
    rw [start, hasync]
  rw [hstart]
  refine ⟨⟨?_, htidy⟩, ?_⟩
  · change Explains Session.endl b.data _ _
    rwa [hdata]
  · change (⟨address, .reading, b.data, true, []⟩ : Connection) = _
    rw [hdata]
    rfl

theorem stageOf_ready_iff {x : Bytes} {m : ℕ} {r : Reading Unit}
    (h : Explains Session.endl x m r) : stageOf r = .ready ↔ 10 ∈ x := by
  rw [← List.singleton_infix_iff]
  cases h with
  | waiting _ _ _ hnone => exact iff_of_false Stage.noConfusion hnone
  | found _ hfound => exact iff_of_true rfl hfound.infix
  | full _ hnone => exact iff_of_false Stage.noConfusion hnone
  | broken _ hnone => exact iff_of_false Stage.noConfusion hnone

theorem ended_of_ready {r : Reading Unit} (h : stageOf r = .ready) :
    ∃ b n, r = .ended b none n := by
  cases r with
  | ended b ec n =>
    cases ec with
    | none => exact ⟨b, n, rfl⟩
    | some e => exact nomatch h
  | _ => exact nomatch h

theorem stageOf_ne_over (r : Reading Unit) : stageOf r ≠ .over := by
  cases r with
  | ended b ec n => cases ec <;> exact Stage.noConfusion
  | _ => exact Stage.noConfusion

section
variable {A : Allocation} {s s' : BufferedSession} {l l' : CountingLot} {r : Ending}

theorem view_stage (hopen : s.finished = false) : s.view.stage = stageOf s.reading := by
  rw [view, hopen]
  rfl

theorem reading_of_step {r r' : Reading Unit} {t : Transfer Unit}
    (h : ReadUntil.step A Session.endl r t = some r') : stageOf r = .reading := by
  cases r with
  | waiting => rfl
  | _ => exact nomatch h

theorem transfer_sound (hs : s.Sound) (hopen : s.finished = false) {t : Transfer Unit}
    (h : s.transfer A l t = some (s', l', r)) :
    s'.Sound ∧ s.view.stage = .reading ∧ s'.view.request = s.view.request ++ t.bytes ∧
      ∃ r', ReadUntil.step A Session.endl s.reading t = some r' ∧
        (s', l', r) = ({ s with reading := r' }, l, .returned) := by
  obtain ⟨r', hr', heq⟩ := Option.map_eq_some_iff.mp h
  rw [step_agrees hs.explained] at hr'
  have hexplained := step_explains (by decide) hs.explained hr'
  have hrequest : s'.view.request = s.view.request ++ t.bytes := by
    cases heq
    exact hexplained.data
  refine ⟨⟨?_, ?_⟩, ?_, hrequest, r', hr', heq.symm⟩
  · rw [hrequest]
    cases heq
    exact hexplained
  · cases heq
    exact step_tidy hs.explained hs.tidy hr'
  · rw [view_stage hopen]
    exact reading_of_step hr'

/-- A read that brings bytes is a chunk that arrives, and where it has filled the
streambuf the read of the connection fails with it. -/
theorem received_matched (hs : s.Sound) (hopen : s.finished = false) {chunk : Bytes}
    (h : s.transfer A l (.received chunk) = some (s', l', r)) :
    s.view.step l (.arrive chunk) = some (s'.view, l', r) ∨
      (s.view.arrive chunk).step l .fail = some (s'.view, l', r) := by
  obtain ⟨hsound, hstage, hrequest, r', -, heq⟩ := transfer_sound hs hopen h
  cases heq
  have harrive := Connection.arrive_of_reading hstage chunk
  have hready := stageOf_ready_iff hsound.explained
  rw [hrequest] at hready
  change stageOf r' = .ready ↔ 10 ∈ s.view.request ++ chunk at hready
  have hview : ({ s with reading := r' } : BufferedSession).view =
      { s.view with request := s.view.request ++ chunk, stage := stageOf r' } := by
    simp only [view, hopen] at hrequest ⊢
    rw [hrequest]
    rfl
  by_cases hlf : 10 ∈ s.view.request ++ chunk
  · left
    rw [hview, hready.mpr hlf, Connection.step, harrive, if_pos hlf]
  · cases hstageOf : stageOf r' with
    | reading =>
      left
      rw [hview, hstageOf, Connection.step, harrive, if_neg hlf]
    | failed =>
      right
      rw [hview, hstageOf, Connection.step, harrive, if_neg hlf]
    | ready => exact absurd (hready.mp hstageOf) hlf
    | _ => exact absurd hstageOf (stageOf_ne_over r')

theorem reading_of_failed {q q' : Reading Unit}
    (h : ReadUntil.step A Session.endl q (.failed ()) = some q') :
    stageOf q' = .failed ∧ q'.buf = q.buf := by
  cases q with
  | waiting b position n =>
    cases position with
    | none => exact absurd h.symm (Option.some_ne_none q')
    | some p =>
      have hfits : (Transfer.failed () : Transfer Unit).Fits n := trivial
      simp only [ReadUntil.step, if_pos hfits, Option.some.injEq] at h
      subst h
      exact ⟨rfl, rfl⟩
  | ended => exact absurd h.symm (Option.some_ne_none q')
  | thrown => exact absurd h.symm (Option.some_ne_none q')

theorem failed_matched (hs : s.Sound) (hopen : s.finished = false)
    (h : s.transfer A l (.failed ()) = some (s', l', r)) :
    s.view.step l .fail = some (s'.view, l', r) := by
  obtain ⟨-, hstage, -, r', hr', heq⟩ := transfer_sound hs hopen h
  obtain ⟨hfailed, hbuf⟩ := reading_of_failed hr'
  have hview : ({ s with reading := r' } : BufferedSession).view =
      { s.view with stage := .failed } := by
    simp only [view, hopen, hbuf, hfailed]
    rfl
  cases heq
  simp only [Connection.step, hstage, hview]

theorem view_handled (s : BufferedSession) (v : Vanishing) (q : Served) :
    (s.handled v q).view = s.view.handled v q := rfl

/-- The connection finds behind the request what the array has behind it, and then the
memory behind the array. -/
theorem handle_matched {v : Vanishing} {behind : Bytes}
    (h : s.step A l (.handle v behind) = some (s', l', r)) :
    s'.reading = s.reading ∧
      ∃ more, s.view.step l (.handle v more) = some (s'.view, l', r) := by
  obtain ⟨m, hm, h⟩ := Option.bind_eq_some_iff.mp h
  obtain ⟨q, hq, heq⟩ := Option.map_eq_some_iff.mp h
  obtain ⟨hopen, hm⟩ := Option.ite_none_left_eq_some.mp hm
  rw [Bool.not_eq_true] at hopen
  have hstage := view_stage hopen
  cases heq
  refine ⟨rfl, ?_⟩
  rw [view_handled]
  cases hreading : s.reading with
  | waiting => simp [hreading] at hm
  | thrown => simp [hreading] at hm
  | ended b ec n =>
    rw [hreading] at hstage
    cases ec with
    | none =>
      simp only [hreading, Option.some.injEq] at hm
      have hrequest : s.view.request = b.data := by
        rw [view, hreading]
        rfl
      have hready : s.view.stage = .ready := hstage
      rw [← hm, b.memory_eq, ← hrequest, List.append_assoc] at hq
      refine ⟨b.buffer.drop b.pnext ++ behind, ?_⟩
      simp only [Connection.step, hready, hq, Option.map_some]
    | some error =>
      simp only [hreading, Option.some.injEq] at hm
      have hfailed : s.view.stage = .failed := hstage
      rw [← hm] at hq
      refine ⟨behind, ?_⟩
      simp only [Connection.step, hfailed, hq, Option.map_some]

/-- Every step of a session is a step of its connection, or the last of two. -/
theorem step_matched (hs : s.Sound) {e : SocketEvent} (h : s.step A l e = some (s', l', r)) :
    s'.Sound ∧ ((∃ e', s.view.step l e' = some (s'.view, l', r)) ∨
      ∃ chunk, (s.view.arrive chunk).step l .fail = some (s'.view, l', r)) := by
  cases e with
  | vanish =>
    cases h
    exact ⟨⟨hs.explained, hs.tidy⟩, Or.inl ⟨.vanish, rfl⟩⟩
  | arrive chunk =>
    obtain ⟨hopen, htransfer⟩ := Option.ite_none_left_eq_some.mp h
    rw [Bool.not_eq_true] at hopen
    refine ⟨(transfer_sound hs hopen htransfer).1, ?_⟩
    exact (received_matched hs hopen htransfer).imp (fun h => ⟨_, h⟩) fun h => ⟨chunk, h⟩
  | fail =>
    obtain ⟨hopen, htransfer⟩ := Option.ite_none_left_eq_some.mp h
    rw [Bool.not_eq_true] at hopen
    exact ⟨(transfer_sound hs hopen htransfer).1, Or.inl ⟨_, failed_matched hs hopen htransfer⟩⟩
  | handle v behind =>
    obtain ⟨hreading, more, hmatched⟩ := handle_matched h
    have hrequest : s'.view.request = s.view.request := by simp only [view, hreading]
    refine ⟨⟨?_, ?_⟩, Or.inl ⟨_, hmatched⟩⟩
    · rw [hrequest, hreading]
      exact hs.explained
    · rw [hreading]
      exact hs.tidy

end

end BufferedSession

namespace Session

theorem read_append_of_mem {m : Bytes} (h : 0 ∈ m) (behind : Bytes) :
    CString.read (m ++ behind) = CString.read m := by
  have hlen : (m.takeWhile (· ≠ 0)).length ≠ m.length := by
    intro heq
    have hsame := (List.takeWhile_prefix (p := (· ≠ 0)) (l := m)).eq_of_length heq
    exact absurd rfl (of_decide_eq_true (List.takeWhile_eq_self_iff.mp hsame 0 h))
  rw [CString.read, CString.read, if_pos (List.mem_append_left _ h), if_pos h,
    List.takeWhile_append, if_neg hlen]

/-- What a handler looks at: behind the request nothing but the characters up to a NUL, and
these only to repeat a request that it does not know. -/
def Bounded (peer : Peer) (request : Bytes) : Prop :=
  peer.endpoint = none ∨ kind request ≠ some .unknown ∨ 0 ∈ request

theorem respond_bounded {request : Bytes} {k : RequestKind} (h : k ≠ .unknown ∨ 0 ∈ request)
    (l : CountingLot) : ∃ p, ∀ behind, respond (request ++ behind) l k = some p := by
  cases k with
  | unknown =>
    have hnul : 0 ∈ request := h.resolve_left fun hne => hne rfl
    refine ⟨(ascii "Unknown command: " ++ request.takeWhile (· ≠ 0) ++ endl, l), fun behind => ?_⟩
    rw [respond, read_append_of_mem hnul, CString.read, if_pos hnul, Option.map_some]
  | _ => exact ⟨_, fun _ => rfl⟩

theorem doRead_bounded {peer : Peer} {request : Bytes} (hlf : 10 ∈ request)
    (h : Bounded peer request) (l : CountingLot) :
    ∃ r, ∀ behind, doRead peer (some (request ++ behind)) l = some r := by
  obtain ⟨k, hk, -⟩ := kind_of_mem hlf []
  rw [List.append_nil] at hk
  have hkind : ∀ behind, kind (request ++ behind) = some k := fun behind =>
    (kind_append hlf behind).trans hk
  cases hp : peer.endpoint with
  | none =>
    refine ⟨⟨[], [], l, .escaped⟩, fun behind => ?_⟩
    simp only [doRead, hkind, Option.bind_eq_bind, Option.bind_some, logReq, hp, Option.map_none]
    rfl
  | some address =>
    have hstop : k ≠ .unknown ∨ 0 ∈ request := by
      rcases h with hnone | hkind | hnul
      · exact absurd (hnone.symm.trans hp) (Option.some_ne_none _).symm
      · exact Or.inl fun hu => hkind (hu ▸ hk)
      · exact Or.inr hnul
    obtain ⟨p, hrespond⟩ := respond_bounded hstop l
    obtain ⟨r, hr⟩ : ∃ r, doRead peer (some (request ++ [])) l = some r := by
      simp only [doRead, hkind, hrespond, Option.bind_eq_bind, Option.bind_some, logReq, hp,
        Option.map_some]
      cases peer.receives <;> exact ⟨_, rfl⟩
    refine ⟨r, fun behind => ?_⟩
    rw [← hr]
    simp only [doRead, hkind, hrespond, Option.bind_eq_bind, Option.bind_some]

theorem bounded_of_doRead {peer : Peer} {request : Bytes} {l : CountingLot} {r : Served}
    (h : doRead peer (some request) l = some r) : Bounded peer request := by
  by_contra hfree
  simp only [Bounded, not_or, not_not] at hfree
  obtain ⟨hendpoint, hkind, hnul⟩ := hfree
  obtain ⟨address, haddress⟩ := Option.ne_none_iff_exists'.mp hendpoint
  have hread : CString.read request = none := if_neg hnul
  simp only [doRead, hkind, Option.bind_eq_bind, Option.bind_some, logReq, haddress,
    Option.map_some, respond, hread, Option.map_none, Option.bind_none] at h
  exact absurd h.symm (Option.some_ne_none r)

end Session

namespace BufferedSession

/-- The handler has one result, whatever is behind the array of its streambuf. -/
def Inside (A : Allocation) (s : BufferedSession) (l : CountingLot) (v : Vanishing) : Prop :=
  ∃ q, ∀ behind, s.step A l (.handle v behind) = some q

theorem Sound.array {s : BufferedSession} (hs : s.Sound) {b : Streambuf} (hb : s.reading.buf = b) :
    512 ≤ b.pend ∧ b.buffer.length = b.pend := by
  subst hb
  have hlarge := hs.tidy.large
  have hmin : min 512 maximumSize = 512 := by decide
  rw [hmin] at hlarge
  refine ⟨hlarge, ?_⟩
  rw [s.reading.buf.allocated]
  omega

/-- In the array there is a NUL exactly where one was received or there is room behind
what was received. -/
theorem Sound.nul_mem_memory {s : BufferedSession} (hs : s.Sound) {b : Streambuf}
    (hb : s.reading.buf = b) : 0 ∈ b.memory ↔ 0 ∈ b.data ∨ b.pnext < b.pend := by
  have hzeros := hs.tidy.blank.zeros
  obtain ⟨-, hlen⟩ := hs.array hb
  rw [hb] at hzeros
  rw [b.memory_eq, List.mem_append]
  refine or_congr_right ?_
  constructor
  · intro hmem
    have hpos := List.length_pos_of_mem hmem
    rw [List.length_drop, hlen] at hpos
    omega
  · intro hlt
    have hpos : b.buffer.drop b.pnext ≠ [] := by
      rw [ne_eq, List.drop_eq_nil_iff]
      omega
    obtain ⟨c, hc⟩ := List.exists_mem_of_ne_nil _ hpos
    exact hzeros c hc ▸ hc

section
variable {A : Allocation} {s : BufferedSession} {b : Streambuf} {n : ℕ}

theorem due_of_found (hopen : s.finished = false) (hreading : s.reading = .ended b none n)
    (behind : Bytes) : s.due behind = some (some (b.memory ++ behind)) := by
  rw [due, hopen, hreading]
  rfl

theorem kind_memory (hs : s.Sound) (hreading : s.reading = .ended b none n) :
    10 ∈ b.memory ∧ Session.kind b.memory = Session.kind b.data := by
  have hlf : 10 ∈ b.data := by
    have hready := stageOf_ready_iff hs.explained
    rw [hreading, view, hreading] at hready
    exact hready.mp rfl
  rw [b.memory_eq]
  exact ⟨List.mem_append_left _ hlf, Session.kind_append hlf _⟩

/-- A handler that has its result within the array has the same one whatever is behind
it. -/
theorem array_of_step (hs : s.Sound) (hopen : s.finished = false)
    (hreading : s.reading = .ended b none n) {l : CountingLot} {v : Vanishing}
    {q : BufferedSession × CountingLot × Ending} (h : s.step A l (.handle v []) = some q) :
    (s.view.peer v).endpoint = none ∨ Session.kind b.data ≠ some .unknown ∨
      0 ∈ b.data ∨ b.pnext < b.pend := by
  have hbuf : s.reading.buf = b := by rw [hreading]; rfl
  rw [← hs.nul_mem_memory hbuf, ← (kind_memory hs hreading).2]
  rw [step, due_of_found hopen hreading, Option.bind_some, List.append_nil] at h
  obtain ⟨r, hr, -⟩ := Option.map_eq_some_iff.mp h
  exact Session.bounded_of_doRead hr

theorem inside_iff (hs : s.Sound) (hopen : s.finished = false)
    (hreading : s.reading = .ended b none n) (l : CountingLot) (v : Vanishing) :
    s.Inside A l v ↔ (s.view.peer v).endpoint = none ∨ Session.kind b.data ≠ some .unknown ∨
      0 ∈ b.data ∨ b.pnext < b.pend := by
  constructor
  · rintro ⟨q, hq⟩
    exact array_of_step hs hopen hreading (hq [])
  · intro hbounded
    have hbuf : s.reading.buf = b := by rw [hreading]; rfl
    obtain ⟨hmem, hkind⟩ := kind_memory hs hreading
    rw [← hs.nul_mem_memory hbuf, ← hkind] at hbounded
    obtain ⟨r, hr⟩ := Session.doRead_bounded hmem hbounded l
    refine ⟨(s.handled v r, r.lot, r.ending), fun behind => ?_⟩
    rw [step, due_of_found hopen hreading, Option.bind_some, hr, Option.map_some]

/-- A request of less than 512 bytes in all leaves room in the array. -/
theorem inside_of_short (hs : s.Sound) (hopen : s.finished = false)
    (hreading : s.reading = .ended b none n) (hshort : b.data.length < 512) (l : CountingLot)
    (v : Vanishing) : s.Inside A l v := by
  have hbuf : s.reading.buf = b := by rw [hreading]; rfl
  obtain ⟨hlarge, -⟩ := hs.array hbuf
  have hsize : b.size = b.pnext := by
    rw [← hbuf]
    exact hs.tidy.blank.size
  rw [b.length_data, hsize] at hshort
  exact (inside_iff hs hopen hreading l v).mpr (Or.inr (Or.inr (Or.inr (by omega))))

end

end BufferedSession

/-- The C++ server with the streambufs of its sessions. -/
structure BufferedServer (ι : Type*) where
  loop : Loop
  accepting : Bool
  lot : CountingLot
  session : ι → Option BufferedSession

namespace BufferedServer

variable {ι : Type*}

def view (s : BufferedServer ι) : Server ι :=
  ⟨s.loop, s.accepting, s.lot, fun i => (s.session i).map BufferedSession.view⟩

theorem view_session {s : BufferedServer ι} {i : ι} {o : Option BufferedSession}
    (h : s.session i = o) : s.view.session i = o.map BufferedSession.view := h ▸ rfl

section
variable [DecidableEq ι] (A : Allocation)

def start (lot : CountingLot) : BufferedServer ι := ⟨.running, true, lot, fun _ => none⟩

/-- The handler of the acceptor accepts again, whatever it gets. -/
def react (s : BufferedServer ι) : ServerEvent ι → Option (BufferedServer ι)
  | .accept i address =>
    if s.accepting = true ∧ s.session i = none then
      some { s with session := Function.update s.session i (some (.start A address)) }
    else none
  | .acceptFails => if s.accepting = true then some s else none
  | .socket i e =>
    (s.session i).bind fun c => (c.step A s.lot e).map fun r =>
      { s with
        loop := Server.loopAfter r.2.2
        lot := r.2.1
        session := Function.update s.session i (some r.1) }

def step (s : BufferedServer ι) (e : ServerEvent ι) : Option (BufferedServer ι) :=
  if s.loop = .running then s.react A e else none

def Sound (s : BufferedServer ι) : Prop := ∀ i c, s.session i = some c → c.Sound

theorem view_update (s : BufferedServer ι) (loop : Loop) (l : CountingLot) (i : ι)
    (c : BufferedSession) :
    view { s with loop := loop, lot := l, session := Function.update s.session i (some c) } =
      { s.view with
        loop := loop
        lot := l
        session := Function.update s.view.session i (some c.view) } :=
  congrArg (Server.mk loop s.accepting l)
    (Function.comp_update (Option.map BufferedSession.view) s.session i (some c))

theorem Sound.update {s : BufferedServer ι} (h : s.Sound) {i : ι} {c : BufferedSession}
    (hc : c.Sound) : ∀ j d, Function.update s.session i (some c) j = some d → d.Sound := by
  intro j d hd
  rcases eq_or_ne j i with rfl | hj
  · rw [Function.update_self] at hd
    exact Option.some.inj hd ▸ hc
  · rw [Function.update_of_ne hj] at hd
    exact h j d hd

theorem server_socket {t : Server ι} {i : ι} {c c' : Connection} {e : SocketEvent}
    {l : CountingLot} {r : Ending} (hloop : t.loop = .running) (hi : t.session i = some c)
    (h : c.step t.lot e = some (c', l, r)) :
    Server.step t (.socket i e) = some { t with
      loop := Server.loopAfter r
      lot := l
      session := Function.update t.session i (some c') } := by
  rw [Server.step, if_pos hloop, Server.react, hi, Option.bind_some, h, Option.map_some]

theorem accept_matched {s s' : BufferedServer ι} {i : ι} {address : Bytes × Bytes}
    (hs : s.Sound) (hloop : s.loop = .running) (h : s.react A (.accept i address) = some s') :
    s'.Sound ∧ Server.step s.view (.accept i address) = some s'.view := by
  obtain ⟨hsound, hstart⟩ := BufferedSession.start_sound A address
  obtain ⟨⟨haccepting, hi⟩, h⟩ := Option.ite_none_right_eq_some.mp h
  obtain rfl := Option.some.inj h
  have hready : s.view.accepting = true ∧ s.view.session i = none := ⟨haccepting, view_session hi⟩
  refine ⟨Sound.update hs hsound, ?_⟩
  rw [Server.step, if_pos (show s.view.loop = .running from hloop), Server.react, if_pos hready]
  refine congrArg some (Eq.trans ?_ (view_update s s.loop s.lot i _).symm)
  rw [hstart, Server.handleAccept, Server.doAccept, ← hready.1]
  rfl

/-- Every step of the server is a step of the event loop over connections, or two of
them. -/
theorem refines :
    Refines (step A) Server.step fun (s : BufferedServer ι) t => t = s.view ∧ s.Sound := by
  refine ⟨?_⟩
  rintro s s' e t ⟨rfl, hs⟩ h
  obtain ⟨hloop, h⟩ := Option.ite_none_right_eq_some.mp h
  have hview : s.view.loop = .running := hloop
  cases e with
  | acceptFails =>
    obtain ⟨haccepting, h⟩ := Option.ite_none_right_eq_some.mp h
    obtain rfl := Option.some.inj h
    have hready : s.view.accepting = true := haccepting
    refine ⟨[.acceptFails], _, run_single ?_, rfl, hs⟩
    rw [Server.step, if_pos hview, Server.react, if_pos hready, Server.handleAccept,
      Server.doAccept, ← hready]
  | accept i address =>
    obtain ⟨hs', hstep⟩ := accept_matched A hs hloop h
    exact ⟨[.accept i address], _, run_single hstep, rfl, hs'⟩
  | socket i e =>
    obtain ⟨c, hi, h⟩ := Option.bind_eq_some_iff.mp h
    obtain ⟨⟨c', l, r⟩, hc, rfl⟩ := Option.map_eq_some_iff.mp h
    obtain ⟨hc', hmatched⟩ := BufferedSession.step_matched (hs i c hi) hc
    have hsession : s.view.session i = some c.view := view_session hi
    have hlast := view_update s (Server.loopAfter r) l i c'
    rcases hmatched with ⟨e', he'⟩ | ⟨chunk, hfail⟩
    · exact ⟨[.socket i e'], _, run_single (server_socket hview hsession he'), hlast.symm,
        hs.update hc'⟩
    · have harrive : c.view.step s.view.lot (.arrive chunk) =
          some (c.view.arrive chunk, s.view.lot, .returned) := rfl
      refine ⟨[.socket i (.arrive chunk), .socket i .fail], _, run_cons_eq_some.mpr
        ⟨_, server_socket hview hsession harrive, run_single
          (server_socket rfl (Function.update_self i _ _) hfail)⟩, ?_, hs.update hc'⟩
      rw [Function.update_idem]
      exact hlast.symm

theorem run_view {l : CountingLot} {events : List (ServerEvent ι)} {s : BufferedServer ι}
    (hs : run (step A) (start l) events = some s) :
    (∃ events', run Server.step (Server.start l) events' = some s.view) ∧ s.Sound := by
  have hstart : (start l : BufferedServer ι).Sound := fun i c hi => nomatch hi
  obtain ⟨events', t, ht, rfl, hsound⟩ := (refines A).run ⟨rfl, hstart⟩ hs
  exact ⟨⟨events', ht⟩, hsound⟩

/-- Every run of the server with its streambufs is a run of the event loop over
connections, and keeps what such runs keep. -/
theorem runs_accounted [Fintype ι] {capacity : Int32} (h : 0 ≤ capacity)
    {events : List (ServerEvent ι)} {s : BufferedServer ι}
    (hs : run (step A) (start (.new capacity)) events = some s) :
    (∃ events', run Server.step (Server.start (.new capacity)) events' = some s.view) ∧
      s.view.Accounted capacity := by
  obtain ⟨⟨events', ht⟩, -⟩ := run_view A hs
  exact ⟨⟨events', ht⟩, (Server.accounted h events').run ht⟩

/-- A handler that repeats an unknown request reads behind the array of its streambuf
exactly when the request fills it and has no NUL; no other handler ever does. -/
theorem handlers_inside {l : CountingLot} {events : List (ServerEvent ι)} {s : BufferedServer ι}
    (hs : run (step A) (start l) events = some s) {i : ι} {c : BufferedSession}
    (hi : s.session i = some c) (hopen : c.finished = false) {b : Streambuf} {n : ℕ}
    (hreading : c.reading = .ended b none n) (v : Vanishing) :
    (c.Inside A s.lot v ↔ (c.view.peer v).endpoint = none ∨
        Session.kind b.data ≠ some .unknown ∨ 0 ∈ b.data ∨ b.pnext < b.pend) ∧
      (b.data.length < 512 → c.Inside A s.lot v) := by
  have hsound := (run_view A hs).2 i c hi
  exact ⟨BufferedSession.inside_iff hsound hopen hreading s.lot v,
    fun hshort => BufferedSession.inside_of_short hsound hopen hreading hshort s.lot v⟩

end

theorem runs_accounted_split :
    ∃ s : BufferedServer (Fin 1), run (step .exact) (start (.new 5)) [
        .accept 0 (ascii "127.0.0.1", ascii "50000"), .socket 0 (.arrive (ascii "i")),
        .socket 0 (.arrive (ascii "n\n")), .socket 0 (.handle .never [])] = some s ∧
      s.lot.count = 1 ∧ s.view.Accounted 5 := by
  obtain ⟨s, hs, hcount⟩ : ∃ s ∈ run (step .exact) (start (.new 5) : BufferedServer (Fin 1)) [
      .accept 0 (ascii "127.0.0.1", ascii "50000"), .socket 0 (.arrive (ascii "i")),
      .socket 0 (.arrive (ascii "n\n")), .socket 0 (.handle .never [])], s.lot.count = 1 := by
    decide +kernel
  exact ⟨s, hs, hcount, (runs_accounted .exact (by decide) hs).2⟩

theorem handlers_inside_hello :
    ∃ (s : BufferedServer (Fin 1)) (c : BufferedSession), run (step .exact) (start (.new 5)) [
        .accept 0 (ascii "127.0.0.1", ascii "50000"),
        .socket 0 (.arrive (ascii "hello\n"))] = some s ∧
      s.session 0 = some c ∧ c.Inside .exact s.lot .never := by
  obtain ⟨s, hs, c, hc, hopen, hready, hshort⟩ : ∃ s ∈ run (step .exact)
      (start (.new 5) : BufferedServer (Fin 1)) [.accept 0 (ascii "127.0.0.1", ascii "50000"),
        .socket 0 (.arrive (ascii "hello\n"))], ∃ c ∈ s.session 0,
      c.finished = false ∧ BufferedSession.stageOf c.reading = .ready ∧
        c.reading.buf.data.length < 512 := by
    decide +kernel
  obtain ⟨b, n, hreading⟩ := BufferedSession.ended_of_ready hready
  rw [hreading] at hshort
  exact ⟨s, c, hs, hc, (handlers_inside .exact hs hc hopen hreading .never).2 hshort⟩

/-- 512 bytes in one segment fill the array: the response to them goes on behind it. -/
theorem long_request_leaves_array :
    ∃ (s : BufferedServer (Fin 1)) (c : BufferedSession), run (step .exact) (start (.new 5)) [
        .accept 0 (ascii "127.0.0.1", ascii "50000"),
        .socket 0 (.arrive (List.replicate 511 120 ++ [10]))] = some s ∧
      s.session 0 = some c ∧ ¬ c.Inside .exact s.lot .never := by
  obtain ⟨s, hs, c, hc, hnone⟩ : ∃ s ∈ run (step .exact)
      (start (.new 5) : BufferedServer (Fin 1)) [.accept 0 (ascii "127.0.0.1", ascii "50000"),
        .socket 0 (.arrive (List.replicate 511 120 ++ [10]))], ∃ c ∈ s.session 0,
      c.step .exact s.lot (.handle .never []) = none := by
    decide +kernel
  refine ⟨s, c, hs, hc, ?_⟩
  rintro ⟨q, hq⟩
  exact Option.some_ne_none q ((hq []).symm.trans hnone)

end BufferedServer

end Vsys.CppAsio
