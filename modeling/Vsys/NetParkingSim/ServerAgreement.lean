import Mathlib.Algebra.Order.BigOperators.Group.Finset
import Mathlib.Data.Fintype.Basic
import Vsys.NetParkingSim.RequestDispatcher
import Vsys.Schedule.Pipeline
import Vsys.Schedule.Run
import Vsys.Schedule.Tally

/-! Concurrent `ServerSession`s over one lot. A session takes a request line and
calls the lot in one step, and sends the response in a later one; the lines and
the responses travel in order on each connection. -/

namespace Vsys.NetParkingSim

open Schedule

abbrev Connection := Pipeline Text Text

def gain (e : Text × Text) : ℤ :=
  if e = (inLine, okReply) then 1 else if e = (outLine, okReply) then -1 else 0

theorem dispatch_gain (line : Text) (l : SynchronizedParkingLot) :
    let r := RequestDispatcher.dispatch parkingLotRequestHandler line l
    r.state.occupancy = l.occupancy + gain (line, r.out) := by
  intro r
  cases hk : RequestDispatcher.kind line with
  | in_ =>
    obtain rfl := RequestDispatcher.kind_eq_in_iff.mp hk
    change (ParkingLotRequestHandler.handleIn l).state.occupancy =
      l.occupancy + gain (inLine, (ParkingLotRequestHandler.handleIn l).out)
    cases he : l.enter.1 with
    | true =>
      rw [ParkingLotRequestHandler.handleIn_of_true he]
      exact CountingLot.enter_of_true he
    | false =>
      rw [ParkingLotRequestHandler.handleIn_of_false he]
      exact (Int.add_zero _).symm
  | out =>
    obtain rfl := RequestDispatcher.kind_eq_out_iff.mp hk
    change (ParkingLotRequestHandler.handleOut l).state.occupancy =
      l.occupancy + gain (outLine, (ParkingLotRequestHandler.handleOut l).out)
    cases he : l.leave.1 with
    | true =>
      rw [ParkingLotRequestHandler.handleOut_of_true he]
      exact CountingLot.leave_of_true he
    | false =>
      rw [ParkingLotRequestHandler.handleOut_of_false he]
      exact (Int.add_zero _).symm
  | _ =>
    have hin : line ≠ inLine := fun h => by simp [RequestDispatcher.kind_eq_in_iff.mpr h] at hk
    have hout : line ≠ outLine := fun h => by simp [RequestDispatcher.kind_eq_out_iff.mpr h] at hk
    simp [r, RequestDispatcher.dispatch, hk, parkingLotRequestHandler, gain, hin, hout,
      ParkingLotRequestHandler.handleFree, ParkingLotRequestHandler.handleQuit,
      ParkingLotRequestHandler.handleUnknown]

def okIns (p : Connection) : ℕ := p.exchanges.count (inLine, okReply)

def okOuts (p : Connection) : ℕ := p.exchanges.count (outLine, okReply)

def balance (p : Connection) : ℤ := okIns p - okOuts p

theorem sum_gain (es : List (Text × Text)) :
    (es.map gain).sum = (es.count (inLine, okReply) : ℤ) - es.count (outLine, okReply) :=
  sum_signed (a := (inLine, okReply)) (b := (outLine, okReply)) (by decide) es

theorem balance_of_exchanges_eq {p q : Connection} (h : q.exchanges = p.exchanges) :
    balance q = balance p := by
  rw [balance, balance, okIns, okIns, okOuts, okOuts, h]

theorem balance_of_exchanges_concat {p q : Connection} {e : Text × Text}
    (h : q.exchanges = p.exchanges ++ [e]) : balance q = balance p + gain e := by
  rw [balance, balance, okIns, okIns, okOuts, okOuts, ← sum_gain, ← sum_gain, h, List.map_append,
    List.sum_append, List.map_singleton, List.sum_singleton]

theorem okOuts_le_served (p : Connection) : okOuts p ≤ p.served.count outLine := by
  have h := List.count_le_count_map (l := p.exchanges) (f := Prod.fst) (x := (outLine, okReply))
  rwa [p.exchanges_map_fst] at h

theorem served_lt_sent_of_next {p : Connection} {line : Text} (h : p.next = some line) :
    p.served.count line < p.sent.count line := by
  obtain ⟨rest, hr⟩ : ∃ rest, p.inbox = line :: rest := by
    rw [Pipeline.next] at h
    split at h
    · exact List.head?_eq_some_iff.mp h
    · cases h
  rw [Pipeline.sent, hr, List.count_append, List.count_cons_self]
  omega

theorem heard_le_okIns (p : Connection) : p.heard.count (inLine, okReply) ≤ okIns p :=
  p.heard_prefix.sublist.count_le _

/-- The lot, whether the process has exited, and for each session its connection
and whether it is in `System.exit`. -/
structure ServerState (ι : Type*) where
  lot : SynchronizedParkingLot
  exited : Bool
  exiting : ι → Bool
  conns : ι → Connection

inductive ServerAction where
  | send
  | serve
  | respond
  | receive
  | exit
  deriving DecidableEq, Repr

namespace ServerState

variable {ι : Type*}

def start (capacity : Int32) (scripts : ι → List Text) : ServerState ι where
  lot := .new capacity
  exited := false
  exiting := fun _ => false
  conns := fun i => .start (scripts i)

/-- A client sends `out` only while it has been told of more parks than it has
already asked to undo. -/
def Disciplined (s : ServerState ι) (m : ι × ServerAction) : Prop :=
  m.2 = .send → (s.conns m.1).script.head? = some outLine →
    (s.conns m.1).sent.count outLine < (s.conns m.1).heard.count (inLine, okReply)

section
variable [Fintype ι]

def booked (s : ServerState ι) : ℤ := ∑ i, balance (s.conns i)

structure Consistent (capacity : Int32) (s : ServerState ι) : Prop where
  capacity_eq : s.lot.capacity = capacity
  inBounds : s.lot.InBounds
  occupancy_eq : s.lot.occupancy = s.booked

theorem start_consistent {capacity : Int32} (h : 0 ≤ capacity) (scripts : ι → List Text) :
    Consistent capacity (start capacity scripts) :=
  ⟨rfl, CountingLot.new_inBounds h, (Finset.sum_eq_zero fun _ _ => rfl).symm⟩

theorem free_reply {capacity : Int32} {s : ServerState ι} (hs : Consistent capacity s) :
    (RequestDispatcher.dispatch parkingLotRequestHandler freeLine s.lot).out =
      println (toString (capacity.toInt - s.booked)).toList := by
  change println (toString s.lot.vacant.toInt).toList = _
  rw [hs.inBounds.vacant_toInt, hs.capacity_eq, hs.occupancy_eq]

end

def Prudent (s : ServerState ι) : Prop :=
  ∀ i, (s.conns i).sent.count outLine ≤ (s.conns i).heard.count (inLine, okReply) ∧
    ∀ e ∈ (s.conns i).exchanges, e.1 = outLine → e.2 = okReply

theorem Prudent.balance_nonneg {s : ServerState ι} (h : Prudent s) (i : ι) :
    0 ≤ balance (s.conns i) := by
  have h₁ := okOuts_le_served (s.conns i)
  have h₂ : (s.conns i).served.count outLine ≤ (s.conns i).sent.count outLine := by
    rw [Pipeline.sent, List.count_append]
    omega
  have h₃ := (h i).1
  have h₄ := heard_le_okIns (s.conns i)
  rw [balance]
  omega

theorem Prudent.booked_pos [Fintype ι] {s : ServerState ι} (h : Prudent s) {i : ι}
    (hi : (s.conns i).next = some outLine) : 0 < s.booked := by
  have hbal : 1 ≤ balance (s.conns i) := by
    have h₁ := okOuts_le_served (s.conns i)
    have h₂ := served_lt_sent_of_next hi
    have h₃ := (h i).1
    have h₄ := heard_le_okIns (s.conns i)
    rw [balance]
    omega
  have hsum := Finset.single_le_sum (fun j _ => h.balance_nonneg j) (Finset.mem_univ i)
  rw [booked]
  omega

variable [DecidableEq ι]

def withConn (s : ServerState ι) (i : ι) (p : Connection) : ServerState ι :=
  { s with conns := Function.update s.conns i p }

/-- Clients send and receive at any time; the server's own steps end with the
process, and a session that handles `quit` handles nothing after it. -/
def step (s : ServerState ι) : ι × ServerAction → Option (ServerState ι)
  | (i, .send) => (s.conns i).send.map (s.withConn i)
  | (i, .serve) =>
    if s.exited || s.exiting i then none
    else
      (s.conns i).next.bind fun line =>
        let r := RequestDispatcher.dispatch parkingLotRequestHandler line s.lot
        ((s.conns i).answer r.out).map fun p =>
          { s.withConn i p with
            lot := r.state
            exiting := Function.update s.exiting i r.exited }
  | (i, .respond) => if s.exited then none else (s.conns i).flush.map (s.withConn i)
  | (i, .receive) => (s.conns i).receive.map (s.withConn i)
  | (i, .exit) =>
    if s.exiting i && (s.conns i).pending.isNone then some { s with exited := true } else none

theorem step_cases {s t : ServerState ι} {i : ι} {a : ServerAction} (h : step s (i, a) = some t) :
    ∃ p, t.conns = Function.update s.conns i p ∧
      ((a = .serve ∧ ∃ line, (s.conns i).next = some line ∧
          let r := RequestDispatcher.dispatch parkingLotRequestHandler line s.lot
          t.lot = r.state ∧ p.exchanges = (s.conns i).exchanges ++ [(line, r.out)] ∧
          p.sent = (s.conns i).sent ∧ p.heard = (s.conns i).heard) ∨
        (t.lot = s.lot ∧ p.exchanges = (s.conns i).exchanges ∧
          (s.conns i).heard <+: p.heard ∧
          (p.sent = (s.conns i).sent ∨ a = .send ∧ ∃ line,
            (s.conns i).script.head? = some line ∧ p.sent = (s.conns i).sent ++ [line]))) := by
  cases a with
  | send =>
    simp only [step, Option.map_eq_some_iff] at h
    obtain ⟨p, hp, rfl⟩ := h
    obtain ⟨hsent, hex, hh⟩ := Pipeline.send_spec hp
    exact ⟨p, rfl, Or.inr ⟨rfl, hex, hh ▸ List.prefix_rfl, Or.inr ⟨rfl, hsent⟩⟩⟩
  | serve =>
    simp only [step] at h
    split at h
    · cases h
    · simp only [Option.bind_eq_some_iff, Option.map_eq_some_iff] at h
      obtain ⟨line, hline, p, hp, rfl⟩ := h
      obtain ⟨line', hline', hex, hsent, hh⟩ := Pipeline.answer_spec hp
      obtain rfl : line = line' := Option.some.inj (hline.symm.trans hline')
      exact ⟨p, rfl, Or.inl ⟨rfl, line, hline, rfl, hex, hsent, hh⟩⟩
  | respond =>
    simp only [step] at h
    split at h
    · cases h
    · obtain ⟨p, hp, rfl⟩ := Option.map_eq_some_iff.mp h
      obtain ⟨hex, hsent, hh⟩ := Pipeline.flush_spec hp
      exact ⟨p, rfl, Or.inr ⟨rfl, hex, hh ▸ List.prefix_rfl, Or.inl hsent⟩⟩
  | receive =>
    simp only [step, Option.map_eq_some_iff] at h
    obtain ⟨p, hp, rfl⟩ := h
    obtain ⟨hex, hsent, hh⟩ := Pipeline.receive_spec hp
    exact ⟨p, rfl, Or.inr ⟨rfl, hex, hh, Or.inl hsent⟩⟩
  | exit =>
    simp only [step] at h
    split at h
    · cases h
      exact ⟨s.conns i, (Function.update_eq_self i s.conns).symm,
        Or.inr ⟨rfl, rfl, List.prefix_rfl, Or.inl rfl⟩⟩
    · cases h

section
variable [Fintype ι]

theorem booked_update {s t : ServerState ι} {i : ι} {p : Connection}
    (h : t.conns = Function.update s.conns i p) :
    t.booked = s.booked + (balance p - balance (s.conns i)) := by
  rw [booked, h, sum_comp_update balance s.conns i p, booked]

theorem step_consistent {capacity : Int32} {s t : ServerState ι} {m : ι × ServerAction}
    (hs : Consistent capacity s) (h : step s m = some t) : Consistent capacity t := by
  obtain ⟨i, a⟩ := m
  obtain ⟨p, hconns, ⟨-, line, -, hlot, hex, -, -⟩ | ⟨hlot, hex, -, -⟩⟩ := step_cases h
  · refine ⟨?_, ?_, ?_⟩
    · rw [hlot, ParkingLotRequestHandler.dispatch_capacity]
      exact hs.capacity_eq
    · rw [hlot]
      exact ParkingLotRequestHandler.dispatch_inBounds line hs.inBounds
    · rw [hlot, dispatch_gain, booked_update hconns, balance_of_exchanges_concat hex,
        hs.occupancy_eq]
      omega
  · refine ⟨by rw [hlot, hs.capacity_eq], by rw [hlot]; exact hs.inBounds, ?_⟩
    rw [hlot, booked_update hconns, balance_of_exchanges_eq hex, hs.occupancy_eq]
    omega

theorem run_consistent {capacity : Int32} (h : 0 ≤ capacity) {scripts : ι → List Text}
    {schedule : List (ι × ServerAction)} {t : ServerState ι}
    (ht : run step (start capacity scripts) schedule = some t) : Consistent capacity t :=
  run_invariant (fun _ _ _ hs hstep => step_consistent hs hstep) (start_consistent h scripts) ht

theorem free_moment {capacity : Int32} (h : 0 ≤ capacity) {scripts : ι → List Text}
    {schedule : List (ι × ServerAction)} {t : ServerState ι}
    (ht : run step (start capacity scripts) schedule = some t) {i : ι} {k : ℕ} {r : Text}
    (hk : (t.conns i).exchanges[k]? = some (freeLine, r)) :
    ∃ pre post s, schedule = pre ++ (i, .serve) :: post ∧
      run step (start capacity scripts) pre = some s ∧ (s.conns i).exchanges.length = k ∧
      r = println (toString (capacity.toInt - s.booked)).toList := by
  induction schedule using List.reverseRecOn generalizing t with
  | nil =>
    cases ht
    simp [start] at hk
  | append_singleton schedule m ih =>
    obtain ⟨u, hu, hstep⟩ := run_concat_eq_some.mp ht
    have hearlier : (u.conns i).exchanges[k]? = some (freeLine, r) → ∃ pre post s,
        schedule ++ [m] = pre ++ (i, .serve) :: post ∧
        run step (start capacity scripts) pre = some s ∧ (s.conns i).exchanges.length = k ∧
        r = println (toString (capacity.toInt - s.booked)).toList := by
      intro hk
      obtain ⟨pre, post, s, rfl, hrest⟩ := ih hu hk
      exact ⟨pre, post ++ [m], s, by simp, hrest⟩
    obtain ⟨j, a⟩ := m
    obtain ⟨p, hconns, hcases⟩ := step_cases hstep
    rw [hconns] at hk
    by_cases hij : i = j
    · subst hij
      rw [Function.update_self] at hk
      obtain ⟨rfl, line, -, -, hex, -, -⟩ | ⟨-, hex, -, -⟩ := hcases
      · rw [hex] at hk
        by_cases hlt : k < (u.conns i).exchanges.length
        · exact hearlier (by rwa [List.getElem?_append_left hlt] at hk)
        · have hlen := (List.getElem?_eq_some_iff.mp hk).1
          simp only [List.length_append, List.length_singleton] at hlen
          obtain rfl : k = (u.conns i).exchanges.length := by omega
          rw [List.getElem?_concat_length, Option.some.injEq, Prod.mk.injEq] at hk
          obtain ⟨rfl, rfl⟩ := hk
          exact ⟨schedule, [], u, rfl, hu, rfl, free_reply (run_consistent h hu)⟩
      · exact hearlier (by rwa [hex] at hk)
    · rw [Function.update_of_ne hij] at hk
      exact hearlier hk

theorem step_prudent {capacity : Int32} {s t : ServerState ι} {m : ι × ServerAction}
    (hc : Consistent capacity s) (hs : Prudent s) (hm : Disciplined s m)
    (h : step s m = some t) : Prudent t := by
  obtain ⟨i, a⟩ := m
  obtain ⟨p, hconns, hcases⟩ := step_cases h
  intro j
  rw [hconns]
  by_cases hij : j = i
  · subst hij
    rw [Function.update_self]
    obtain ⟨-, line, hnext, hlot, hex, hsent, hheard⟩ | ⟨-, hex, hheard, hsent⟩ := hcases
    · refine ⟨by rw [hsent, hheard]; exact (hs j).1, fun e he hout => ?_⟩
      rw [hex] at he
      rcases List.mem_append.mp he with he | he
      · exact (hs j).2 e he hout
      · obtain rfl := List.mem_singleton.mp he
        obtain rfl : line = outLine := hout
        have hpos : 0 < s.lot.occupancy := by
          rw [hc.occupancy_eq]
          exact hs.booked_pos hnext
        change (ParkingLotRequestHandler.handleOut s.lot).out = okReply
        rw [ParkingLotRequestHandler.handleOut_of_true (CountingLot.leave_fst_iff.mpr hpos)]
    · refine ⟨?_, by rw [hex]; exact (hs j).2⟩
      have hle := hheard.sublist.count_le (inLine, okReply)
      have hold := (hs j).1
      obtain hsent | ⟨rfl, line, hhead, hsent⟩ := hsent
      · rw [hsent]
        omega
      · rw [hsent, List.count_append, List.count_singleton]
        by_cases hl : line = outLine
        · subst hl
          have hnew : (s.conns j).sent.count outLine <
              (s.conns j).heard.count (inLine, okReply) := hm rfl hhead
          simp only [beq_self_eq_true, if_true]
          omega
        · simp only [beq_iff_eq, hl, if_false]
          omega
  · rw [Function.update_of_ne hij]
    exact hs j

theorem prudent_of_disciplined {capacity : Int32} (h : 0 ≤ capacity) {scripts : ι → List Text}
    {schedule : List (ι × ServerAction)}
    (hg : Guarded step Disciplined (start capacity scripts) schedule) :
    Always step Prudent (start capacity scripts) schedule := by
  have hboth := always_of_guarded (I := fun s => Consistent capacity s ∧ Prudent s)
    (fun s m t hs hm ht => ⟨step_consistent hs.1 ht, step_prudent hs.1 hs.2 hm ht⟩)
    ⟨start_consistent h scripts, fun i => ⟨Nat.le_refl _, by simp [start]⟩⟩ hg
  exact hboth.mono fun _ hs => hs.2

/-- The lot, the answers and the clients agree in every interleaving. -/
theorem server_agreement {capacity : Int32} (h : 0 ≤ capacity) (scripts : ι → List Text)
    {schedule : List (ι × ServerAction)} {t : ServerState ι}
    (ht : run step (start capacity scripts) schedule = some t) :
    (0 ≤ t.lot.count ∧ t.lot.count ≤ capacity) ∧
      t.lot.count.toInt = ∑ i, ((okIns (t.conns i) : ℤ) - okOuts (t.conns i)) ∧
      (∀ i k r, (t.conns i).exchanges[k]? = some (freeLine, r) →
        ∃ pre post s, schedule = pre ++ (i, .serve) :: post ∧
          run step (start capacity scripts) pre = some s ∧ (s.conns i).exchanges.length = k ∧
          r = println (toString (capacity.toInt - s.booked)).toList) ∧
      (Guarded step Disciplined (start capacity scripts) schedule →
        ∀ i, (outLine, failReply) ∉ (t.conns i).exchanges) := by
  have hc := run_consistent h ht
  refine ⟨?_, hc.occupancy_eq, fun i k r hk => free_moment h ht hk, fun hg i hmem => ?_⟩
  · have hb := hc.inBounds
    rw [CountingLot.InBounds, hc.capacity_eq] at hb
    exact hb
  · have hp := (prudent_of_disciplined h hg).run ht
    exact absurd ((hp i).2 _ hmem rfl) (by decide)

end

def sharedPlace : List (Fin 2 × ServerAction) :=
  [(0, .send), (0, .serve), (1, .send), (1, .serve), (0, .respond), (0, .receive), (0, .send),
    (0, .serve), (1, .respond), (1, .send), (1, .serve)]

def sharedScripts (i : Fin 2) : List Text := if i = 0 then [inLine, outLine] else [inLine, freeLine]

theorem server_agreement_sharedPlace :
    ∃ t : ServerState (Fin 2), run step (start 1 sharedScripts) sharedPlace = some t ∧
      (0 ≤ t.lot.count ∧ t.lot.count ≤ 1) ∧
      (t.conns 1).exchanges = [(inLine, failReply), (freeLine, println "1".toList)] := by
  obtain ⟨t, ht, hexchanges⟩ : ∃ t ∈ run step (start 1 sharedScripts) sharedPlace,
      (t.conns 1).exchanges = [(inLine, failReply), (freeLine, println "1".toList)] := by decide
  exact ⟨t, ht, (server_agreement (by decide) sharedScripts ht).1, hexchanges⟩

end ServerState

end Vsys.NetParkingSim
