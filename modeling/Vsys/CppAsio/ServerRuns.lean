import Vsys.CppAsio.Conversation
import Vsys.CppAsio.Server
import Vsys.Schedule.Refinement
import Vsys.Schedule.Tally

/-! Whole runs of the C++ server: what its lot holds, and how its handlers use the
operations of the lot. -/

namespace Vsys.CppAsio

open CString NetParkingSim Schedule

namespace Session

def okResponse : Bytes := ascii "ok" ++ endl

/-- Behind the line feed of a request nothing matters for its kind. -/
theorem kind_append {request : Bytes} (h : 10 ∈ request) (behind : Bytes) :
    kind (request ++ behind) = kind request := by
  obtain ⟨line, more, rfl⟩ := List.append_of_mem h
  rw [List.append_assoc, List.cons_append, kind_line, kind_line]

/-- How a handler changes the lot that gets to its end: a car for each `ok` to `in`, one
less for each `ok` to `out`. -/
def share (k : RequestKind) (response : Bytes) : ℤ :=
  if response = okResponse then
    match k with
    | .in_ => 1
    | .out => -1
    | _ => 0
  else 0

theorem respond_inBounds {request response : Bytes} {l l' : CountingLot} {k : RequestKind}
    (h : respond request l k = some (response, l')) (hl : l.InBounds) :
    l'.InBounds ∧ l'.capacity = l.capacity := by
  cases k with
  | in_ =>
    cases h
    exact ⟨hl.enter, l.enter_capacity⟩
  | out =>
    cases h
    exact ⟨hl.leave, l.leave_capacity⟩
  | unknown =>
    obtain ⟨t, -, ht⟩ := Option.map_eq_some_iff.mp h
    cases ht
    exact ⟨hl, rfl⟩
  | free =>
    cases h
    exact ⟨hl, rfl⟩
  | quit =>
    cases h
    exact ⟨hl, rfl⟩

theorem respond_share {request response : Bytes} {l l' : CountingLot} {k : RequestKind}
    (h : respond request l k = some (response, l')) :
    l'.occupancy = l.occupancy + share k response := by
  have hfail : ascii "fail" ++ endl ≠ okResponse := by decide
  cases k with
  | in_ =>
    cases h
    cases he : l.enter.1 with
    | true => exact CountingLot.enter_of_true he
    | false =>
      rw [CountingLot.enter_of_false he]
      simp [share, hfail]
  | out =>
    cases h
    cases he : l.leave.1 with
    | true => exact CountingLot.leave_of_true he
    | false =>
      rw [CountingLot.leave_of_false he]
      simp [share, hfail]
  | unknown =>
    obtain ⟨t, -, ht⟩ := Option.map_eq_some_iff.mp h
    cases ht
    simp [share]
  | free =>
    cases h
    simp [share]
  | quit =>
    cases h
    simp [share]

/-- What has become of a request when its handler ends. -/
theorem doRead_cases {peer : Peer} {request : Bytes} {l : CountingLot} {k : RequestKind}
    {r : Served} (hk : kind request = some k) (hr : doRead peer (some request) l = some r) :
    (r.sent = [] ∧ r.lot = l ∧ r.ending ≠ .returned) ∨
      ∃ response, respond request l k = some (response, r.lot) ∧
        (r.sent = response ∨ r.sent = [] ∧ r.ending ≠ .returned) := by
  simp only [doRead, hk, Option.bind_eq_bind, Option.bind_some] at hr
  cases hlog : logReq (logName k) peer with
  | none =>
    rw [hlog] at hr
    cases hr
    exact Or.inl ⟨rfl, rfl, by simp⟩
  | some log =>
    simp only [hlog] at hr
    obtain ⟨⟨response, l'⟩, hrespond, hr⟩ := Option.bind_eq_some_iff.mp hr
    cases hrec : peer.receives with
    | true =>
      simp only [hrec, if_true] at hr
      cases hr
      exact Or.inr ⟨response, hrespond, Or.inl rfl⟩
    | false =>
      simp only [hrec] at hr
      cases hr
      exact Or.inr ⟨response, hrespond, Or.inr ⟨rfl, by simp⟩⟩

end Session

namespace Connection

/-- What a connection has added to the lot, read off its request and its responses. -/
def share (c : Connection) : ℤ :=
  match Session.kind c.request, c.responses with
  | some k, [response] => Session.share k response
  | _, _ => 0

/-- A connection on which nothing has been answered is still before its handler, and the
number in an answer to `free` is in range. -/
structure Possible (capacity : Int32) (c : Connection) : Prop where
  complete : c.Complete
  fresh : c.stage ≠ .over → c.responses = []
  free : Session.kind c.request = some .free → ∀ r ∈ c.responses,
    ∃ n : Int32, 0 ≤ n ∧ n ≤ capacity ∧ r = ascii (toString n) ++ Session.endl

theorem share_of_fresh {c : Connection} (h : c.responses = []) : c.share = 0 := by
  rw [share, h]
  cases Session.kind c.request <;> rfl

theorem start_possible (capacity : Int32) (address : Bytes × Bytes) :
    (start address).Possible capacity :=
  ⟨by simp [Complete, start], fun _ => rfl, by simp [start]⟩

/-- One event on a connection: the lot moves by what the connection's share moves, unless
the event ends the server. -/
theorem step_share {c c' : Connection} {l l' : CountingLot} {e : SocketEvent} {r : Ending}
    (h : c.Possible l.capacity) (hl : l.InBounds) (hs : c.step l e = some (c', l', r)) :
    c'.Possible l.capacity ∧ l'.InBounds ∧ l'.capacity = l.capacity ∧
      (r = .returned → l'.occupancy = l.occupancy + (c'.share - c.share)) := by
  have hcomplete := step_complete h.complete hs
  cases steps_of_step hs with
  | arrive chunk =>
    by_cases hstage : c.stage = .reading
    · have hfresh := h.fresh (by simp [hstage])
      have hresponses : (c.arrive chunk).responses = [] := by
        rw [arrive_of_reading hstage]
        exact hfresh
      refine ⟨⟨hcomplete, fun _ => hresponses, fun _ r hr => ?_⟩, hl, rfl, fun _ => ?_⟩
      · rw [hresponses] at hr
        cases hr
      · rw [share_of_fresh hresponses, share_of_fresh hfresh]
        omega
    · rw [arrive_of_ne hstage] at hcomplete ⊢
      exact ⟨h, hl, rfl, fun _ => by omega⟩
  | vanish => exact ⟨⟨hcomplete, h.fresh, h.free⟩, hl, rfl, fun _ => by simp [share]⟩
  | fail hstage =>
    have hfresh := h.fresh (by simp [hstage])
    exact ⟨⟨hcomplete, fun _ => hfresh, h.free⟩, hl, rfl, fun _ => by simp [share]⟩
  | dismiss hstage v =>
    have hfresh := h.fresh (by simp [hstage])
    have hresponses : (c.handled v ⟨[], [], l, .returned⟩).responses = [] := by
      simp [handled, hfresh]
    refine ⟨⟨hcomplete, fun _ => hresponses, fun _ r hr => ?_⟩, hl, rfl, fun _ => ?_⟩
    · rw [hresponses] at hr
      cases hr
    · rw [share_of_fresh hresponses, share_of_fresh hfresh]
      omega
  | @serve hstage v behind served hr =>
    have hfresh := h.fresh (by simp [hstage])
    obtain ⟨k, hk, -⟩ := Session.kind_of_mem (h.complete hstage) behind
    have hkind : Session.kind c.request = some k :=
      (Session.kind_append (h.complete hstage) behind).symm.trans hk
    have hquiet : served.sent = [] → (c.handled v served).responses = [] := fun hsent => by
      simp [handled, hfresh, hsent]
    rcases Session.doRead_cases hk hr with ⟨hsent, hlot, hended⟩ | ⟨response, hrespond, hsent⟩
    · have hresponses := hquiet hsent
      refine ⟨⟨hcomplete, fun _ => hresponses, fun _ r hr => ?_⟩, hlot ▸ hl, by rw [hlot],
        fun hreturned => absurd hreturned hended⟩
      rw [hresponses] at hr
      cases hr
    · obtain ⟨hin, hcap⟩ := Session.respond_inBounds hrespond hl
      rcases hsent with hsent | ⟨hsent, hended⟩
      · have hresponses : (c.handled v served).responses = [response] := by
          simp [handled, hfresh, hsent, Conversation.respond_ne_nil hrespond]
        refine ⟨⟨hcomplete, fun hover => absurd rfl hover, fun hfree r hr => ?_⟩, hin, hcap,
          fun _ => ?_⟩
        · rw [hresponses, List.mem_singleton] at hr
          cases hkind.symm.trans hfree
          cases hrespond
          exact ⟨_, hl.vacant_bounds.1, hl.vacant_bounds.2, hr⟩
        · have hshare : (c.handled v served).share = Session.share k response := by
            rw [share, hresponses, show (c.handled v served).request = c.request from rfl, hkind]
          rw [hshare, share_of_fresh hfresh, Session.respond_share hrespond]
          omega
      · have hresponses := hquiet hsent
        refine ⟨⟨hcomplete, fun hover => absurd rfl hover, fun _ r hr => ?_⟩, hin, hcap,
          fun hreturned => absurd hreturned hended⟩
        rw [hresponses] at hr
        cases hr

end Connection

namespace Server

variable {ι : Type*} {capacity : Int32}

def shareOf : Option Connection → ℤ
  | some c => c.share
  | none => 0

/-- The lot is between its bounds, and as long as the loop runs there is a car inside for
each `ok` sent in answer to `in`, less one for each sent in answer to `out`. -/
structure Accounted [Fintype ι] (capacity : Int32) (s : Server ι) : Prop where
  inBounds : s.lot.InBounds
  capacity_eq : s.lot.capacity = capacity
  possible : ∀ i c, s.session i = some c → c.Possible capacity
  occupancy_eq : s.loop = .running → s.lot.occupancy = ∑ i, shareOf (s.session i)

theorem start_accounted [Fintype ι] (h : 0 ≤ capacity) :
    Accounted capacity (start (.new capacity) : Server ι) :=
  ⟨CountingLot.new_inBounds h, rfl, by simp [start, doAccept],
    fun _ => by simp [start, doAccept, shareOf, CountingLot.new, CountingLot.occupancy]⟩

theorem step_accounted [Fintype ι] [DecidableEq ι] {s t : Server ι} {e : ServerEvent ι}
    (h : Accounted capacity s) (ht : step s e = some t) : Accounted capacity t := by
  have hrunning : s.loop = .running := (Option.ite_none_right_eq_some.mp ht).1
  have hsum := h.occupancy_eq hrunning
  have hpossible : ∀ {i c}, c.Possible capacity → ∀ j d,
      Function.update s.session i (some c) j = some d → d.Possible capacity := by
    intro i c hc j d hd
    rcases eq_or_ne j i with rfl | hj
    · rw [Function.update_self] at hd
      exact Option.some.inj hd ▸ hc
    · rw [Function.update_of_ne hj] at hd
      exact h.possible j d hd
  cases steps_of_step ht with
  | acceptFails => exact ⟨h.inBounds, h.capacity_eq, h.possible, fun _ => hsum⟩
  | accept i address =>
    refine ⟨h.inBounds, h.capacity_eq, hpossible (Connection.start_possible _ _), fun _ => ?_⟩
    have hreact := (Option.ite_none_right_eq_some.mp ht).2
    have hnew : s.session i = none := (Option.ite_none_right_eq_some.mp hreact).1.2
    change s.lot.occupancy =
      ∑ j, shareOf (Function.update s.session i (some (Connection.start address)) j)
    rw [sum_comp_update shareOf s.session i, hnew, ← hsum, shareOf, shareOf,
      Connection.share_of_fresh rfl]
    omega
  | @socket i e c c' l r hi hc =>
    obtain ⟨hc', hin, hcap, hoccupancy⟩ :=
      Connection.step_share (h.capacity_eq.symm ▸ h.possible i c hi) h.inBounds hc
    rw [h.capacity_eq] at hc' hcap
    refine ⟨hin, hcap, hpossible hc', fun hloop => ?_⟩
    have hmove := hoccupancy (loopAfter_eq_running.mp hloop)
    change l.occupancy = ∑ j, shareOf (Function.update s.session i (some c') j)
    rw [sum_comp_update shareOf s.session i (some c'), hi, ← hsum, hmove]
    rfl

/-- In every run of the event loop the lot stays between its bounds and the answers to
`free` are in range; and as long as the loop runs, the lot holds exactly the cars that
clients were told of. -/
theorem accounted [Fintype ι] [DecidableEq ι] (h : 0 ≤ capacity)
    (events : List (ServerEvent ι)) :
    Always step (Accounted capacity) (start (.new capacity)) events :=
  always_of_guarded (P := fun _ _ => True) (fun _ _ _ hs _ ht => step_accounted hs ht)
    (start_accounted h)
    (guarded_of_forall (I := fun _ => True) (fun _ _ _ _ _ => trivial)
      (fun _ _ _ _ _ => trivial) trivial events)

theorem accounted_one_in :
    (0 : Int32) ≤ 5 ∧ Always step (Accounted 5) (start (.new 5) : Server (Fin 1))
      [.accept 0 (ascii "127.0.0.1", ascii "50000"), .socket 0 (.arrive (ascii "in\n")),
        .socket 0 (.handle .never [0])] :=
  ⟨by decide, accounted (by decide) _⟩

end Server

end Vsys.CppAsio
