import Vsys.CppAsio.ServerRuns

/-! The event loop against the atomic operations of the lot. Each handler makes its call
on the lot with no other handler in between, so that the server runs only those
interleavings in which no check is overtaken. -/

namespace Vsys.CppAsio

open CString NetParkingSim Schedule

namespace AtomicParkingLot

variable {ι : Type*} [DecidableEq ι] {s t : AtomicParkingLot ι} {i : ι}

def Quiet (s : AtomicParkingLot ι) : Prop := ∀ i, s.site i = .idle

noncomputable abbrev exclusiveStep : AtomicParkingLot ι → ι × AtomicOp → Option (AtomicParkingLot ι) :=
  restrict step Exclusive

theorem Moves.site_of_ne {op : AtomicOp} (h : Moves s i op t) {j : ι} (hj : j ≠ i) :
    t.site j = s.site j := by
  cases h <;> exact Function.update_of_ne hj _ _

/-- The operations of one caller are exclusive when nobody else is between two of its own. -/
theorem exclusive_run {ops : List (ι × AtomicOp)} (hops : ∀ m ∈ ops, m.1 = i)
    (hothers : ∀ j, j ≠ i → s.site j = .idle) (h : run step s ops = some t) :
    run exclusiveStep s ops = some t := by
  induction ops generalizing s with
  | nil => exact h
  | cons m ops ih =>
    obtain ⟨u, hu, hrest⟩ := run_cons_eq_some.mp h
    obtain ⟨j, op⟩ := m
    obtain rfl : j = i := hops _ List.mem_cons_self
    have hmoves := moves_of_step hu
    have hexclusive : Exclusive s (j, op) := by
      intro hload k
      rcases eq_or_ne k j with rfl | hk
      · rcases hload with rfl | rfl <;> cases hmoves <;> assumption
      · exact hothers k hk
    refine run_cons_eq_some.mpr ⟨u, restrict_eq_some_iff.mpr ⟨hexclusive, hu⟩, ?_⟩
    exact ih (fun m hm => hops m (List.mem_cons_of_mem _ hm))
      (fun k hk => (hmoves.site_of_ne hk).trans (hothers k hk)) hrest

end AtomicParkingLot

namespace Returned

def kind : Returned → RequestKind
  | park _ => .in_
  | unpark _ => .out
  | remaining _ => .free

/-- What the handler makes of the result of its call. -/
def response : Returned → Bytes
  | park ok | unpark ok => ascii (if ok then "ok" else "fail") ++ Session.endl
  | remaining n => ascii (toString n) ++ Session.endl

end Returned

namespace AtomicParkingLot

variable {ι : Type*} [DecidableEq ι] {s : AtomicParkingLot ι}

/-- A request that is served as a whole is served by at most one call. -/
theorem run_respond (hs : s.Quiet) (i : ι) {request response : Bytes} {l' : CountingLot}
    {k : RequestKind} (h : Session.respond request s.lot k = some (response, l')) :
    ∃ ops t, run exclusiveStep s ops = some t ∧ t.Quiet ∧ t.lot = l' ∧
      ((k = .quit ∨ k = .unknown) ∧ t.returned = s.returned ∨
        ∃ r : Returned, r.kind = k ∧ r.response = response ∧
          t.returned = s.returned ++ [(i, r)]) := by
  cases k with
  | free =>
    cases h
    refine ⟨[(i, .remaining)], s.return_ i (.remaining s.lot.vacant), ?_, fun j => ?_, rfl,
      Or.inr ⟨_, rfl, rfl, rfl⟩⟩
    · refine exclusive_run (i := i) (by simp) (fun j _ => hs j) (run_single ?_)
      simp only [step, hs i]
      rfl
    · simp [return_, Function.update_apply, hs j]
  | in_ =>
    cases h
    obtain ⟨ops, t, hops, ht, hlot, hreturned, hsite⟩ := run_park_alone (hs i)
    have hown : ∀ m ∈ ops, m.1 = i := by
      intro m hm
      rcases hops m hm with rfl | rfl <;> rfl
    exact ⟨ops, t, exclusive_run hown (fun j _ => hs j) ht, fun j => (hsite ▸ hs j), hlot,
      Or.inr ⟨_, rfl, rfl, hreturned⟩⟩
  | out =>
    cases h
    obtain ⟨ops, t, hops, ht, hlot, hreturned, hsite⟩ := run_unpark_alone (hs i)
    exact ⟨ops, t, exclusive_run hops (fun j _ => hs j) ht, fun j => (hsite ▸ hs j), hlot,
      Or.inr ⟨_, rfl, rfl, hreturned⟩⟩
  | quit =>
    cases h
    exact ⟨[], s, rfl, hs, rfl, Or.inl ⟨Or.inl rfl, rfl⟩⟩
  | unknown =>
    obtain ⟨t, -, ht⟩ := Option.map_eq_some_iff.mp h
    cases ht
    exact ⟨[], s, rfl, hs, rfl, Or.inl ⟨Or.inr rfl, rfl⟩⟩

end AtomicParkingLot

namespace Connection

variable {c c' : Connection} {rs : List Returned}

/-- What the calls of a session have returned, against what it has sent. -/
structure Answers (c : Connection) (rs : List Returned) : Prop where
  complete : c.Complete
  fresh : c.stage ≠ .over → rs = [] ∧ c.responses = []
  once : rs.length ≤ 1
  kinds : ∀ r ∈ rs, Session.kind c.request = some r.kind
  responses : ∀ k, Session.kind c.request = some k → k ≠ .quit → k ≠ .unknown →
    c.responses <+: rs.map Returned.response

theorem Answers.of_fresh (hcomplete : c.Complete) (hresponses : c.responses = []) :
    c.Answers [] :=
  ⟨hcomplete, fun _ => ⟨rfl, hresponses⟩, Nat.zero_le 1, by simp,
    fun _ _ _ _ => hresponses ▸ List.nil_prefix⟩

theorem handled_answers {v : Vanishing} {served : Served} {r : Returned}
    (hfresh : c.responses = []) (hkind : Session.kind c.request = some r.kind)
    (hsent : served.sent = r.response ∨ served.sent = []) : (c.handled v served).Answers [r] where
  complete := fun hready => nomatch hready
  fresh := fun hover => absurd rfl hover
  once := le_rfl
  kinds := fun x hx => by
    rw [List.mem_singleton.mp hx]
    exact hkind
  responses := fun _ _ _ _ => by
    rcases hsent with hsent | hsent
    · simp only [handled, hfresh, hsent, List.nil_append, List.map_singleton]
      split
      · exact List.nil_prefix
      · exact List.prefix_refl _
    · simp [handled, hfresh, hsent]

/-- An event on one connection runs at most one call, and no other caller is under way. -/
theorem step_answers {ι : Type*} [DecidableEq ι] {a : AtomicParkingLot ι} {i : ι}
    {l' : CountingLot} {e : SocketEvent} {ending : Ending} (ha : a.Quiet) (h : c.Answers rs)
    (hs : c.step a.lot e = some (c', l', ending)) :
    ∃ ops b new, run AtomicParkingLot.exclusiveStep a ops = some b ∧ b.Quiet ∧ b.lot = l' ∧
      b.returned = a.returned ++ new.map (fun r => (i, r)) ∧ c'.Answers (rs ++ new) := by
  have hcomplete := step_complete h.complete hs
  have hnothing : ∀ {d : Connection}, d.Answers rs → ∃ ops b new,
      run AtomicParkingLot.exclusiveStep a ops = some b ∧ b.Quiet ∧ b.lot = a.lot ∧
        b.returned = a.returned ++ new.map (fun r => (i, r)) ∧ d.Answers (rs ++ new) :=
    fun hd => ⟨[], a, [], rfl, ha, rfl, (List.append_nil _).symm, by rwa [List.append_nil]⟩
  cases steps_of_step hs with
  | arrive chunk =>
    refine hnothing ?_
    by_cases hstage : c.stage = .reading
    · obtain ⟨rfl, hresponses⟩ := h.fresh (by simp [hstage])
      refine .of_fresh hcomplete ?_
      rw [arrive_of_reading hstage]
      exact hresponses
    · rwa [arrive_of_ne hstage]
  | vanish => exact hnothing ⟨hcomplete, h.fresh, h.once, h.kinds, h.responses⟩
  | fail hstage =>
    obtain ⟨rfl, hresponses⟩ := h.fresh (by simp [hstage])
    exact hnothing (.of_fresh hcomplete hresponses)
  | dismiss hstage v =>
    obtain ⟨rfl, hresponses⟩ := h.fresh (by simp [hstage])
    exact hnothing (.of_fresh hcomplete (by simp [handled, hresponses]))
  | @serve hstage v behind served hr =>
    obtain ⟨rfl, hfresh⟩ := h.fresh (by simp [hstage])
    obtain ⟨k, hk, -⟩ := Session.kind_of_mem (h.complete hstage) behind
    have hkind : Session.kind c.request = some k :=
      (Session.kind_append (h.complete hstage) behind).symm.trans hk
    rcases Session.doRead_cases hk hr with ⟨hsent, hlot, -⟩ | ⟨response, hrespond, hsent⟩
    · rw [hlot]
      exact hnothing (.of_fresh hcomplete (by simp [handled, hfresh, hsent]))
    · have hsent : served.sent = response ∨ served.sent = [] := hsent.imp_right And.left
      obtain ⟨ops, b, hrun, hquiet, hlot, ⟨hother, hreturned⟩ | ⟨r, rfl, rfl, hreturned⟩⟩ :=
        AtomicParkingLot.run_respond ha i hrespond
      · refine ⟨ops, b, [], hrun, hquiet, hlot, by simpa using hreturned, hcomplete,
          fun hover => absurd rfl hover, Nat.zero_le 1, by simp, fun k' hk' hquit hunknown => ?_⟩
        cases hkind.symm.trans hk'
        rcases hother with rfl | rfl
        · exact absurd rfl hquit
        · exact absurd rfl hunknown
      · exact ⟨ops, b, [r], hrun, hquiet, hlot, hreturned, handled_answers hfresh hkind hsent⟩

end Connection

namespace Server

variable {ι : Type*} [DecidableEq ι]

def returnedTo (returned : List (ι × Returned)) (i : ι) : List Returned :=
  (returned.filter fun m => m.1 = i).map Prod.snd

/-- The atomic lot is where the server's is, with nobody inside a call, and each session
has sent what its call returned. -/
structure Backed (s : Server ι) (a : AtomicParkingLot ι) : Prop where
  lot : a.lot = s.lot
  quiet : a.Quiet
  unused : ∀ i, s.session i = none → returnedTo a.returned i = []
  answers : ∀ i c, s.session i = some c → c.Answers (returnedTo a.returned i)

theorem start_backed (capacity : Int32) :
    Backed (start (.new capacity) : Server ι) (.start capacity) :=
  ⟨rfl, fun _ => rfl, fun _ _ => rfl, fun _ _ h => nomatch h⟩

theorem returnedTo_append (returned : List (ι × Returned)) (i j : ι) (new : List Returned) :
    returnedTo (returned ++ new.map fun r => (i, r)) j =
      returnedTo returned j ++ if i = j then new else [] := by
  rw [returnedTo, List.filter_append, List.map_append, returnedTo]
  congr 1
  split
  · next h => simp [h, List.filter_map, Function.comp_def]
  · next h => simp [h, List.filter_map, Function.comp_def]

/-- One session changes, and the calls of the others stay as they are. -/
theorem Backed.update {s t : Server ι} {a b : AtomicParkingLot ι} (h : Backed s a) {i : ι}
    {c : Connection} {new : List Returned} (hquiet : b.Quiet) (hlot : b.lot = t.lot)
    (ht : t.session = Function.update s.session i (some c))
    (hreturned : b.returned = a.returned ++ new.map fun r => (i, r))
    (hc : c.Answers (returnedTo a.returned i ++ new)) : Backed t b := by
  have hsame : returnedTo b.returned i = returnedTo a.returned i ++ new := by
    rw [hreturned, returnedTo_append, if_pos rfl]
  have hothers : ∀ j, j ≠ i → returnedTo b.returned j = returnedTo a.returned j := fun j hj => by
    rw [hreturned, returnedTo_append, if_neg hj.symm, List.append_nil]
  refine ⟨hlot, hquiet, fun j hj => ?_, fun j d hd => ?_⟩
  · rcases eq_or_ne j i with rfl | hji
    · rw [ht, Function.update_self] at hj
      cases hj
    · rw [ht, Function.update_of_ne hji] at hj
      exact (hothers j hji).trans (h.unused j hj)
  · rcases eq_or_ne j i with rfl | hji
    · rw [ht, Function.update_self] at hd
      cases hd
      rwa [hsame]
    · rw [ht, Function.update_of_ne hji] at hd
      rw [hothers j hji]
      exact h.answers j d hd

theorem refines_atomic_lot :
    Refines (step : Server ι → ServerEvent ι → Option (Server ι)) AtomicParkingLot.exclusiveStep Backed where
  matched := by
    intro s t e a h ht
    cases steps_of_step ht with
    | acceptFails => exact ⟨[], a, rfl, h.lot, h.quiet, h.unused, h.answers⟩
    | accept i address =>
      have hreact := (Option.ite_none_right_eq_some.mp ht).2
      have hnew : s.session i = none := (Option.ite_none_right_eq_some.mp hreact).1.2
      have hnone : a.returned = a.returned ++ ([] : List Returned).map fun r => (i, r) :=
        (List.append_nil _).symm
      refine ⟨[], a, rfl, h.update h.quiet h.lot rfl hnone ?_⟩
      rw [h.unused i hnew]
      exact .of_fresh (fun hready => nomatch hready) rfl
    | @socket i e c c' l r hi hc =>
      rw [← h.lot] at hc
      obtain ⟨ops, b, new, hrun, hquiet, hlot, hreturned, hanswers⟩ :=
        Connection.step_answers h.quiet (h.answers i c hi) hc
      exact ⟨ops, b, hrun, h.update hquiet hlot rfl hreturned hanswers⟩

/-- Every run of the server is a run of the atomic operations in which no call begins
while another is under way; its lot is the one of that run, which is between its bounds
at all times, and each session has been told what its call returned. -/
theorem calls_exclusive {capacity : Int32} (h : 0 ≤ capacity) {events : List (ServerEvent ι)}
    {t : Server ι} (ht : run step (start (.new capacity)) events = some t) :
    ∃ ops a, run AtomicParkingLot.step (.start capacity) ops = some a ∧
      Guarded AtomicParkingLot.step AtomicParkingLot.Exclusive (.start capacity) ops ∧
      Always AtomicParkingLot.step (AtomicParkingLot.Safe capacity) (.start capacity) ops ∧
      Backed t a := by
  obtain ⟨ops, a, ha, hbacked⟩ := refines_atomic_lot.run (start_backed capacity) ht
  obtain ⟨hrun, hguarded⟩ := run_of_restrict ha
  exact ⟨ops, a, hrun, hguarded, AtomicParkingLot.safe_of_exclusive h hguarded, hbacked⟩

/-- Two clients whose requests arrive before either handler runs: the second one is
refused. -/
theorem calls_exclusive_two :
    let events : List (ServerEvent (Fin 2)) :=
      [.accept 0 (ascii "127.0.0.1", ascii "50000"), .accept 1 (ascii "127.0.0.1", ascii "50001"),
        .socket 0 (.arrive (ascii "in\n")), .socket 1 (.arrive (ascii "in\n")),
        .socket 1 (.handle .never [0]), .socket 0 (.handle .never [0])]
    (0 : Int32) ≤ 1 ∧ ∃ t, run step (start (.new 1)) events = some t ∧ t.lot = ⟨1, 1⟩ ∧
      ∃ ops a, run AtomicParkingLot.step (.start 1) ops = some a ∧
        Guarded AtomicParkingLot.step AtomicParkingLot.Exclusive (.start 1) ops ∧
        Always AtomicParkingLot.step (AtomicParkingLot.Safe 1) (.start 1) ops ∧ Backed t a := by
  intro events
  obtain ⟨t, ht, hlot⟩ : ∃ t ∈ run step (start (.new 1)) events, t.lot = ⟨1, 1⟩ := by decide
  exact ⟨by decide, t, ht, hlot, calls_exclusive (by decide) ht⟩

end Server

end Vsys.CppAsio
