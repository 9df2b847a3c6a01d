import Vsys.CppAsio.RequestBuffer

/-! The process of the C++ server: its event loop, until an exception or an exit ends it or
a handler reads behind the array of its streambuf, from where on nothing is defined. -/

namespace Vsys.CppAsio

open Asio CString Schedule

namespace BufferedSession

/-- An unknown request, which the handler repeats up to a NUL, has a NUL in it or room
behind it in the array. -/
def Terminated (c : BufferedSession) : Prop :=
  c.view.stage = .ready → Session.kind c.view.request ≠ some .unknown ∨ 0 ∈ c.view.request ∨
    c.reading.buf.pnext < c.reading.buf.pend

theorem ready_iff {c : BufferedSession} :
    c.view.stage = .ready ↔ c.finished = false ∧ ∃ b n, c.reading = .ended b none n := by
  constructor
  · intro h
    have hopen : c.finished = false := by
      by_contra hover
      rw [Bool.not_eq_false] at hover
      rw [view, hover] at h
      cases h
    exact ⟨hopen, ended_of_ready ((view_stage hopen).symm.trans h)⟩
  · rintro ⟨hopen, b, n, hreading⟩
    rw [view_stage hopen, hreading]
    rfl

theorem request_of_found {c : BufferedSession} {b : Streambuf} {n : ℕ}
    (h : c.reading = .ended b none n) : c.view.request = b.data ∧ c.reading.buf = b := by
  rw [view, h]
  exact ⟨rfl, rfl⟩

theorem terminated_iff {c : BufferedSession} {b : Streambuf} {n : ℕ}
    (hopen : c.finished = false) (hreading : c.reading = .ended b none n) :
    c.Terminated ↔ Session.kind b.data ≠ some .unknown ∨ 0 ∈ b.data ∨ b.pnext < b.pend := by
  obtain ⟨hrequest, hbuf⟩ := request_of_found hreading
  rw [Terminated, hrequest, hbuf]
  exact ⟨fun h => h (ready_iff.mpr ⟨hopen, b, n, hreading⟩), fun h _ => h⟩

theorem Sound.complete {c : BufferedSession} (hs : c.Sound) : c.view.Complete := by
  intro hready
  have hopen := (ready_iff.mp hready).1
  exact (stageOf_ready_iff hs.explained).mp ((view_stage hopen).symm.trans hready)

/-- A handler that stays inside its array returns to the loop exactly when its peer stays
and the request does not begin with `quit`. -/
theorem handle_returned_iff {A : Allocation} {c c' : BufferedSession} {l l' : CountingLot}
    {v : Vanishing} {r : Ending} (hs : c.Sound)
    (h : c.step A l (.handle v []) = some (c', l', r)) (behind : Bytes) :
    r = .returned ↔ c.view.Stays (.handle v behind) ∧ c.Terminated := by
  obtain ⟨-, more, hmatched⟩ := handle_matched h
  refine (Connection.step_returned_iff hs.complete hmatched).trans ?_
  refine ⟨fun hstays => ⟨hstays, fun hready => ?_⟩, fun hstays => hstays.1⟩
  obtain ⟨hopen, b, n, hreading⟩ := ready_iff.mp hready
  obtain ⟨hconnected, hnever, -⟩ := hstays hready
  have hpeer := (Connection.peer_stays_iff.mpr ⟨hconnected, hnever⟩).1
  have harray := (array_of_step hs hopen hreading h).resolve_left fun hnone => by
    rw [hnone] at hpeer
    cases hpeer
  exact (terminated_iff hopen hreading).mpr harray hready

/-- A handler that has no result within its array is that of an unknown request which
ends nowhere in it. -/
theorem not_terminated {c : BufferedSession} {l : CountingLot} {v : Vanishing} {m : Option Bytes}
    (hs : c.Sound) (hm : c.due [] = some m) (hr : Session.doRead (c.view.peer v) m l = none) :
    ¬ c.Terminated := by
  intro hterminated
  obtain ⟨hopen, hreading⟩ := Option.ite_none_left_eq_some.mp hm
  rw [Bool.not_eq_true] at hopen
  cases m with
  | none => cases hr
  | some memory =>
    obtain ⟨b, n, hfound⟩ : ∃ b n, c.reading = .ended b none n := by
      cases hread : c.reading with
      | ended b ec n =>
        cases ec with
        | none => exact ⟨b, n, rfl⟩
        | some e => simp [hread] at hreading
      | _ => simp [hread] at hreading
    have hinside := (inside_iff (A := .exact) hs hopen hfound l v).mpr
      (Or.inr ((terminated_iff hopen hfound).mp hterminated))
    obtain ⟨q, hq⟩ := hinside
    have hnone : c.step .exact l (.handle v []) = none := by
      rw [step, hm, Option.bind_some, hr]
      rfl
    exact Option.some_ne_none q ((hq []).symm.trans hnone)

end BufferedSession

inductive ServerProcess (ι : Type*) where
  | serving (s : BufferedServer ι)
  | overran

namespace BufferedServer

variable {ι : Type*}

/-- The handler of the session is due: its read has ended. -/
def due (s : BufferedServer ι) (i : ι) : Bool := ((s.session i).bind fun c => c.due []).isSome

end BufferedServer

namespace ServerProcess

variable {ι : Type*} [DecidableEq ι] (A : Allocation)

def start (lot : CountingLot) : ServerProcess ι := .serving (.start lot)

/-- What a handler has to look at ends with the array. One that has no result there goes
on behind it. -/
def step : ServerProcess ι → ServerEvent ι → Option (ServerProcess ι)
  | .serving s, .socket i (.handle v _) =>
    if s.loop = .running ∧ s.due i = true then
      match s.step A (.socket i (.handle v [])) with
      | some t => some (.serving t)
      | none => some .overran
    else none
  | .serving s, e => (s.step A e).map .serving
  | .overran, _ => none

end ServerProcess

namespace ServerProcess

variable {ι : Type*}

def Up : ServerProcess ι → Prop
  | .serving s => s.loop = .running ∧ s.accepting = true
  | .overran => False

/-- The peer of a handler with a request stays until the response is sent, the request
does not begin with `quit`, and the handler finds its end in the array. -/
def Stays : ServerProcess ι → ServerEvent ι → Prop
  | .serving s, .socket i (.handle v behind) =>
    ∀ c, s.session i = some c → c.view.Stays (.handle v behind) ∧ c.Terminated
  | _, _ => True

def Sound : ServerProcess ι → Prop
  | .serving s => s.Sound
  | .overran => True

theorem start_sound (lot : CountingLot) : (start lot : ServerProcess ι).Sound := by
  intro i c hi
  cases hi

theorem start_up (lot : CountingLot) : (start lot : ServerProcess ι).Up := ⟨rfl, rfl⟩

theorem stays_handle_iff {s : BufferedServer ι} {i : ι} {c : BufferedSession} {v : Vanishing}
    {behind : Bytes} (hi : s.session i = some c) :
    Stays (.serving s) (.socket i (.handle v behind)) ↔
      c.view.Stays (.handle v behind) ∧ c.Terminated := by
  simp [Stays, hi]

theorem stays_other {s : BufferedServer ι} {e : ServerEvent ι}
    (he : ∀ i v behind, e ≠ .socket i (.handle v behind)) : Stays (.serving s) e := by
  cases e with
  | socket i e =>
    cases e with
    | handle v behind => exact absurd rfl (he i v behind)
    | _ => trivial
  | _ => trivial

section
variable [DecidableEq ι] {A : Allocation}

inductive Steps (A : Allocation) (s : BufferedServer ι) : ServerEvent ι → ServerProcess ι → Prop
  | other {e : ServerEvent ι} {t : BufferedServer ι} (ht : s.step A e = some t)
    (he : ∀ i v behind, e ≠ .socket i (.handle v behind)) : Steps A s e (.serving t)
  | handled {i : ι} {v : Vanishing} {behind : Bytes} {t : BufferedServer ι}
    (ht : s.step A (.socket i (.handle v [])) = some t) :
    Steps A s (.socket i (.handle v behind)) (.serving t)
  | overran {i : ι} {v : Vanishing} {behind : Bytes} {c : BufferedSession} {m : Option Bytes}
    (hi : s.session i = some c) (hm : c.due [] = some m)
    (hr : Session.doRead (c.view.peer v) m s.lot = none) :
    Steps A s (.socket i (.handle v behind)) .overran

theorem step_other {s : BufferedServer ι} {e : ServerEvent ι}
    (he : ∀ i v behind, e ≠ .socket i (.handle v behind)) :
    step A (.serving s) e = (s.step A e).map .serving := by
  cases e with
  | socket i e =>
    cases e with
    | handle v behind => exact absurd rfl (he i v behind)
    | _ => rfl
  | _ => rfl

theorem doRead_of_step_none {s : BufferedServer ι} (hloop : s.loop = .running) {i : ι}
    {c : BufferedSession} {m : Option Bytes} {v : Vanishing} (hi : s.session i = some c)
    (hm : c.due [] = some m) (h : s.step A (.socket i (.handle v [])) = none) :
    Session.doRead (c.view.peer v) m s.lot = none := by
  rw [BufferedServer.step, if_pos hloop, BufferedServer.react, hi, Option.bind_some,
    Option.map_eq_none_iff, BufferedSession.step, hm, Option.bind_some,
    Option.map_eq_none_iff] at h
  exact h

theorem steps_of_step {s : BufferedServer ι} {e : ServerEvent ι} {q : ServerProcess ι}
    (h : step A (.serving s) e = some q) : Steps A s e q := by
  by_cases he : ∃ i v behind, e = .socket i (.handle v behind)
  · obtain ⟨i, v, behind, rfl⟩ := he
    obtain ⟨⟨hloop, hdue⟩, h⟩ := Option.ite_none_right_eq_some.mp h
    cases ht : s.step A (.socket i (.handle v [])) with
    | some t =>
      rw [ht] at h
      cases h
      exact .handled ht
    | none =>
      rw [ht] at h
      cases h
      obtain ⟨m, hm⟩ := Option.isSome_iff_exists.mp hdue
      obtain ⟨c, hi, hm⟩ := Option.bind_eq_some_iff.mp hm
      exact .overran hi hm (doRead_of_step_none hloop hi hm ht)
  · simp only [not_exists] at he
    rw [step_other he] at h
    obtain ⟨t, ht, rfl⟩ := Option.map_eq_some_iff.mp h
    exact .other ht he

theorem sound_of_step {s t : BufferedServer ι} {e : ServerEvent ι} (hs : s.Sound)
    (h : s.step A e = some t) : t.Sound := by
  obtain ⟨-, -, -, -, ht⟩ := (BufferedServer.refines A).matched ⟨rfl, hs⟩ h
  exact ht

theorem step_sound {p q : ServerProcess ι} {e : ServerEvent ι} (hp : p.Sound)
    (h : step A p e = some q) : q.Sound := by
  cases p with
  | overran => cases h
  | serving s =>
    cases steps_of_step h with
    | other ht => exact sound_of_step hp ht
    | handled ht => exact sound_of_step hp ht
    | overran => trivial

theorem up_of_other {s t : BufferedServer ι} {e : ServerEvent ι}
    (he : ∀ i v behind, e ≠ .socket i (.handle v behind)) (hs : Up (.serving s))
    (h : s.step A e = some t) : Up (.serving t) := by
  obtain ⟨hloop, h⟩ := Option.ite_none_right_eq_some.mp h
  cases e with
  | accept i address =>
    obtain ⟨-, h⟩ := Option.ite_none_right_eq_some.mp h
    cases h
    exact hs
  | acceptFails =>
    obtain ⟨-, h⟩ := Option.ite_none_right_eq_some.mp h
    cases h
    exact hs
  | socket i e =>
    obtain ⟨c, -, h⟩ := Option.bind_eq_some_iff.mp h
    obtain ⟨⟨c', l, r⟩, hc, rfl⟩ := Option.map_eq_some_iff.mp h
    have hreturned : r = .returned := by
      cases e with
      | handle v behind => exact absurd rfl (he i v behind)
      | vanish =>
        cases hc
        rfl
      | _ =>
        obtain ⟨-, hc⟩ := Option.ite_none_left_eq_some.mp hc
        obtain ⟨q, -, hq⟩ := Option.map_eq_some_iff.mp hc
        cases hq
        rfl
    exact ⟨hreturned ▸ rfl, hs.2⟩

theorem step_up_iff {p q : ServerProcess ι} {e : ServerEvent ι} (hp : p.Sound) (hup : p.Up)
    (h : step A p e = some q) : q.Up ↔ p.Stays e := by
  cases p with
  | overran => cases h
  | serving s =>
    cases steps_of_step h with
    | other ht he => exact iff_of_true (up_of_other he hup ht) (stays_other he)
    | @handled i v behind t ht =>
      obtain ⟨-, ht⟩ := Option.ite_none_right_eq_some.mp ht
      obtain ⟨c, hi, ht⟩ := Option.bind_eq_some_iff.mp ht
      obtain ⟨⟨c', l, r⟩, hc, rfl⟩ := Option.map_eq_some_iff.mp ht
      rw [stays_handle_iff hi, ← BufferedSession.handle_returned_iff (hp i c hi) hc behind,
        ← Server.loopAfter_eq_running]
      exact and_iff_left hup.2
    | @overran i v behind c m hi hm hr =>
      rw [stays_handle_iff hi]
      exact iff_of_false not_false fun hstays =>
        BufferedSession.not_terminated (hp i c hi) hm hr hstays.2

/-- However many clients there are and in whatever order the handlers run, the server
stays up exactly as long as each peer stays from the completion of its request to the
end of the handler, no request begins with `quit`, and an unknown one has a NUL or does
not fill the array. -/
theorem up_iff_stays (A : Allocation) (lot : CountingLot) (events : List (ServerEvent ι)) :
    Always (step A) Up (start lot) events ↔ Guarded (step A) Stays (start lot) events :=
  always_iff_guarded (fun _ _ _ hp hq => step_sound hp hq)
    (fun _ _ _ hp hup hq => step_up_iff hp hup hq) (start_sound lot) (start_up lot) events

end

/-- A peer that is gone when the handler of its request runs takes the server down. -/
theorem vanished_peer_ends_loop :
    let events : List (ServerEvent (Fin 1)) := [.accept 0 (ascii "127.0.0.1", ascii "50000"),
      .socket 0 (.arrive (ascii "free\n")), .socket 0 .vanish, .socket 0 (.handle .never [])]
    ∃ s, run (step .exact) (start (.new 5)) events = some (.serving s) ∧ s.loop = .left ∧
      ¬ Always (step .exact) Up (start (.new 5)) events := by
  intro events
  obtain ⟨s, hs, hleft⟩ : ∃ s, run (step .exact) (start (.new 5)) events = some (.serving s) ∧
      s.loop = .left := ⟨_, rfl, rfl⟩
  refine ⟨s, hs, hleft, fun halways => ?_⟩
  exact nomatch hleft.symm.trans (halways.run hs).1

end ServerProcess

end Vsys.CppAsio
