import Vsys.CppAsio.ClientAgreement
import Vsys.NetParkingSim.ServerAgreement
import Vsys.Schedule.RemoteObject

/-! The C++ servers as their clients see them: as lots on which requests are executed one at a
time, in the way of the Java dispatcher. A request takes effect in the handler of its
connection, and only its own client can be left without the answer. -/

namespace Vsys.CppAsio

open CString NetParkingSim Schedule

variable {ε η ι : Type}

/-- All lots as one object, on which a request is executed at its server. -/
def performAt [DecidableEq η] (c : (η × Fin 4) × Unit) (lots : η → CountingLot) :
    Text × (η → CountingLot) :=
  let r := performed c.1.2 (lots c.1.1)
  (r.out, Function.update lots c.1.1 r.state)

abbrev LogEntry (ι η : Type) := Schedule.Executed ι (η × Fin 4) Unit Text

abbrev Lots (ι η : Type) := RemoteObject ι (η × Fin 4) Unit Text (η → CountingLot)

namespace System

/-- The server's end of a connection. -/
def session (s : System ι ε η) (j : ι × ℕ) : Option Connection :=
  (s.link j).bind fun l => (s.server l.host).session j

variable [DecidableEq ι]

structure Related (S : Setting ι ε η) (s : System ι ε η) (o : Lots ι η) : Prop where
  object : o.object = fun host => (s.server host).lot
  owned : ∀ host j c, (s.server host).session j = some c →
    ∃ l, s.link j = some l ∧ l.host = host
  agrees : ∀ i, Agrees S i (s.caller i) (fun n => s.link (i, n)) (fun n => s.session (i, n))
    (RemoteObject.exchanges o.log i) (o.asked i) (o.told i)

variable {S : Setting ι ε η} {s t : System ι ε η} {o p : Lots ι η}

theorem start_related (lots : η → CountingLot) : Related S (start S lots) (.start lots) :=
  ⟨rfl, fun _ _ c hc => absurd hc (Option.some_ne_none c).symm, fun _ => start_agrees⟩

omit [DecidableEq ι] in
theorem session_of_link {j : ι × ℕ} {l : Link η} (hl : s.link j = some l) :
    s.session j = (s.server l.host).session j := by
  rw [session, hl, Option.bind_some]

omit [DecidableEq ι] in
theorem answered_eq {j : ι × ℕ} {l : Link η} (hl : s.link j = some l) :
    s.answered j l = answerOf (s.session j) := by
  rw [session_of_link hl, answered]
  cases (s.server l.host).session j <;> rfl

theorem Related.quiet (h : Related S s o) (hcaller : t.caller = s.caller)
    (hlink : t.link = s.link) (hlot : ∀ host, (t.server host).lot = (s.server host).lot)
    (hserver : ∀ host, (t.server host).session = (s.server host).session) : Related S t o := by
  have hsession : ∀ j, t.session j = s.session j := by
    intro j
    simp only [session, hlink, hserver]
  refine ⟨h.object.trans (funext fun host => (hlot host).symm), fun host j c hc => ?_, fun i => ?_⟩
  · rw [hlink]
    exact h.owned host j c (hserver host ▸ hc)
  · simp only [hcaller, hlink, hsession]
    exact h.agrees i

theorem Related.setCaller (h : Related S s o) {i : ι} {d : Caller ε η}
    (hobject : p.object = o.object)
    (hothers : ∀ k, k ≠ i → RemoteObject.exchanges p.log k = RemoteObject.exchanges o.log k ∧
      p.asked k = o.asked k ∧ p.told k = o.told k)
    (hi : Agrees S i d (fun n => s.link (i, n)) (fun n => s.session (i, n))
      (RemoteObject.exchanges p.log i) (p.asked i) (p.told i)) :
    Related S (s.setCaller i d) p := by
  refine ⟨hobject.trans h.object, h.owned, fun k => ?_⟩
  rcases eq_or_ne k i with rfl | hk
  · change Agrees S k (Function.update s.caller k d k) _ _ _ _ _
    rw [Function.update_self]
    exact hi
  · obtain ⟨hlog, hasked, htold⟩ := hothers k hk
    change Agrees S k (Function.update s.caller i d k) _ _ _ _ _
    rw [Function.update_of_ne hk, hlog, hasked, htold]
    exact h.agrees k

/-- What changes on one connection and at its server's end, and nowhere else. -/
structure Touches (s t : System ι ε η) (j : ι × ℕ) (l : Link η) : Prop where
  caller : t.caller = s.caller
  link : t.link = Function.update s.link j (some l)
  others : ∀ host k, k ≠ j → (t.server host).session k = (s.server host).session k
  own : ∀ host c, (t.server host).session j = some c → l.host = host

theorem Touches.session_of_ne {j k : ι × ℕ} {l : Link η} (h : Touches s t j l) (hk : k ≠ j) :
    t.link k = s.link k ∧ t.session k = s.session k := by
  have hlink : t.link k = s.link k := by rw [h.link, Function.update_of_ne hk]
  refine ⟨hlink, ?_⟩
  rw [session, session, hlink]
  congr 1
  exact funext fun m => h.others m.host k hk

theorem Touches.related {j : ι × ℕ} {l : Link η} (ht : Touches s t j l) (h : Related S s o)
    (hobject : p.object = fun host => (t.server host).lot)
    (hothers : ∀ k, k ≠ j.1 → RemoteObject.exchanges p.log k = RemoteObject.exchanges o.log k ∧
      p.asked k = o.asked k ∧ p.told k = o.told k)
    (hj : Agrees S j.1 (s.caller j.1) (Function.update (fun n => s.link (j.1, n)) j.2 (some l))
      (Function.update (fun n => s.session (j.1, n)) j.2 (t.session j))
      (RemoteObject.exchanges p.log j.1) (p.asked j.1) (p.told j.1)) :
    Related S t p := by
  refine ⟨hobject, fun host k c hc => ?_, fun i => ?_⟩
  · rcases eq_or_ne k j with rfl | hk
    · exact ⟨l, by rw [ht.link, Function.update_self], ht.own host c hc⟩
    · obtain ⟨m, hm, hhost⟩ := h.owned host k c (ht.others host k hk ▸ hc)
      exact ⟨m, by rw [(ht.session_of_ne hk).1, hm], hhost⟩
  · rw [ht.caller]
    rcases eq_or_ne i j.1 with rfl | hi
    · have hlink : (fun n => t.link (j.1, n)) =
          Function.update (fun n => s.link (j.1, n)) j.2 (some l) := by
        funext n
        rcases eq_or_ne n j.2 with rfl | hn
        · rw [Function.update_self, ht.link, Function.update_self]
        · have hne : (j.1, n) ≠ j := fun heq => hn (congrArg Prod.snd heq)
          rw [Function.update_of_ne hn, (ht.session_of_ne hne).1]
      have hsession : (fun n => t.session (j.1, n)) =
          Function.update (fun n => s.session (j.1, n)) j.2 (t.session j) := by
        funext n
        rcases eq_or_ne n j.2 with rfl | hn
        · rw [Function.update_self]
        · have hne : (j.1, n) ≠ j := fun heq => hn (congrArg Prod.snd heq)
          rw [Function.update_of_ne hn, (ht.session_of_ne hne).2]
      rw [hlink, hsession]
      exact hj
    · have hsame : ∀ n, t.link (i, n) = s.link (i, n) ∧ t.session (i, n) = s.session (i, n) :=
        fun n => ht.session_of_ne fun heq => hi (congrArg Prod.fst heq)
      obtain ⟨hlog, hasked, htold⟩ := hothers i hi
      simp only [hsame, hlog, hasked, htold]
      exact h.agrees i

/-- A connection goes on, and no call comes of it. -/
theorem Touches.keeps {j : ι × ℕ} {l l' : Link η} (ht : Touches s t j l') (h : Related S s o)
    (hl : s.link j = some l) (hsame : l'.host = l.host ∧ l'.ci = l.ci)
    (hlot : ∀ host, (t.server host).lot = (s.server host).lot)
    (hkeep : ∀ last, l.Sound (s.session j) last → l'.Sound (t.session j) last)
    (hover : ∀ e, s.session j = some e → e.stage = .over →
      ∃ e', t.session j = some e' ∧ e'.stage = .over) :
    Related S t o :=
  ht.related h (h.object.trans (funext fun host => (hlot host).symm)) (fun _ _ => ⟨rfl, rfl, rfl⟩)
    ((h.agrees j.1).move hl hsame hkeep hover)

theorem setLink_self {j : ι × ℕ} {l : Link η} (hl : s.link j = some l) : s.setLink j l = s := by
  rw [setLink, ← hl, Function.update_eq_self]

theorem Related.touches_link (h : Related S s o) {j : ι × ℕ} {l : Link η}
    (hown : ∀ m, s.link j = some m → l.host = m.host) : Touches s (s.setLink j l) j l where
  caller := rfl
  link := rfl
  others := fun _ _ _ => rfl
  own := by
    intro host c hc
    obtain ⟨m, hm, rfl⟩ := h.owned host j c hc
    exact hown m hm

theorem Related.receive (h : Related S s o) {j : ι × ℕ} {l : Link η} {chunk : Bytes}
    (hl : s.link j = some l) (hchunk : l.received ++ chunk <+: s.answered j l) :
    Related S (s.setLink j { l with received := l.received ++ chunk }) o := by
  have ht : Touches s (s.setLink j { l with received := l.received ++ chunk }) j
      { l with received := l.received ++ chunk } :=
    h.touches_link fun m hm => by cases hl.symm.trans hm; rfl
  have hself : (s.setLink j { l with received := l.received ++ chunk }).link j =
      some { l with received := l.received ++ chunk } := Function.update_self _ _ _
  have hsession : (s.setLink j { l with received := l.received ++ chunk }).session j =
      s.session j := (session_of_link hself).trans (session_of_link hl).symm
  refine ht.keeps h hl ⟨rfl, rfl⟩ (fun _ => rfl) (fun last hlast => ?_) fun e he hstage => ?_
  · rw [answered_eq hl] at hchunk
    rw [hsession]
    exact ⟨hlast.came, hchunk⟩
  · exact ⟨e, hsession.trans he, hstage⟩

theorem Related.connect (h : Related S s o) {i : ι} {c : Calling ε} {host : η}
    (hc : (s.caller i).calling = some c) (hnone : s.link (s.current i) = none)
    (hhost : host ∈ S.addresses c.endpoint) :
    Related S (s.setLink (s.current i) ⟨host, c.ci, requestText c.ci, []⟩) o := by
  -- a server knows a connection only from its client
  have hfresh : ∀ other e, (s.server other).session (s.current i) ≠ some e := by
    intro other e he
    obtain ⟨m, hm, -⟩ := h.owned other _ e he
    exact absurd (hnone.symm.trans hm) (Option.some_ne_none m).symm
  have ht := h.touches_link (j := s.current i) (l := ⟨host, c.ci, requestText c.ci, []⟩)
    fun m hm => absurd (hnone.symm.trans hm) (Option.some_ne_none m).symm
  have hself : (s.setLink (s.current i) ⟨host, c.ci, requestText c.ci, []⟩).link (s.current i) =
      some ⟨host, c.ci, requestText c.ci, []⟩ := Function.update_self _ _ _
  have hsession : (s.setLink (s.current i) ⟨host, c.ci, requestText c.ci, []⟩).session
      (s.current i) = none :=
    (session_of_link hself).trans (Option.eq_none_iff_forall_ne_some.mpr (hfresh host))
  have hset := (h.agrees i).setCurrent (l := ⟨host, c.ci, requestText c.ci, []⟩) (o := none)
    (fun hidle => absurd (hc.symm.trans hidle) (Option.some_ne_none c))
    (fun k hk => by cases hc.symm.trans hk; exact ⟨rfl, hhost⟩)
    (fun last hlast => by
      change Unheard (s.link (s.current i)) _ last at hlast
      rw [hnone] at hlast
      rw [show last = [] from hlast]
      exact ⟨.waiting rfl, List.nil_prefix⟩)
  rw [List.append_nil, List.map_nil, List.append_nil] at hset
  refine ht.related h h.object (fun _ _ => ⟨rfl, rfl, rfl⟩) ?_
  rw [hsession]
  exact hset

section
variable [DecidableEq η]

omit [DecidableEq ι] in
theorem setServer_server (host : η) (v : Server (ι × ℕ)) :
    (s.setServer host v).server = Function.update s.server host v := rfl

omit [DecidableEq ι] in
theorem setServer_lot {host : η} {v : Server (ι × ℕ)} (hv : v.lot = (s.server host).lot)
    (other : η) : ((s.setServer host v).server other).lot = (s.server other).lot := by
  rw [setServer_server]
  rcases eq_or_ne other host with rfl | hne
  · rw [Function.update_self, hv]
  · rw [Function.update_of_ne hne]

omit [DecidableEq ι] in
theorem setServer_session {host : η} {v : Server (ι × ℕ)}
    (hv : v.session = (s.server host).session) (other : η) :
    ((s.setServer host v).server other).session = (s.server other).session := by
  rw [setServer_server]
  rcases eq_or_ne other host with rfl | hne
  · rw [Function.update_self, hv]
  · rw [Function.update_of_ne hne]

theorem Related.touches_server (h : Related S s o) {j : ι × ℕ} {l l' : Link η}
    (hl : s.link j = some l) (hhost : l'.host = l.host) {v : Server (ι × ℕ)} {c : Connection}
    (hv : v.session = Function.update (s.server l.host).session j (some c)) :
    Touches s ((s.setLink j l').setServer l.host v) j l' ∧
      ((s.setLink j l').setServer l.host v).session j = some c := by
  have hserver : ((s.setLink j l').setServer l.host v).server =
      Function.update s.server l.host v := rfl
  have hlink : ((s.setLink j l').setServer l.host v).link =
      Function.update s.link j (some l') := rfl
  refine ⟨⟨rfl, hlink, fun host k hk => ?_, fun host d hd => ?_⟩, ?_⟩
  · rw [hserver]
    rcases eq_or_ne host l.host with rfl | hne
    · rw [Function.update_self, hv, Function.update_of_ne hk]
    · rw [Function.update_of_ne hne]
  · rw [hserver] at hd
    rcases eq_or_ne host l.host with rfl | hne
    · exact hhost
    · rw [Function.update_of_ne hne] at hd
      obtain ⟨m, hm, hmhost⟩ := h.owned host j d hd
      cases hl.symm.trans hm
      exact hhost.trans hmhost
  · have hself : ((s.setLink j l').setServer l.host v).link j = some l' := by
      rw [hlink, Function.update_self]
    rw [session_of_link hself, hserver, hhost, Function.update_self, hv, Function.update_self]

theorem answerOf_mono {c c' : Connection} (h : c.responses <+: c'.responses) :
    answerOf (some c) <+: answerOf (some c') := h.flatten

theorem Related.accept (h : Related S s o) {j : ι × ℕ} {l : Link η} (hl : s.link j = some l)
    (address : Bytes × Bytes) (hnew : (s.server l.host).session j = none) :
    Related S (s.setServer l.host ((s.server l.host).handleAccept (some (j, address)))) o := by
  obtain ⟨ht, hsession⟩ := h.touches_server hl rfl
    (show ((s.server l.host).handleAccept (some (j, address))).session = _ from rfl)
  rw [setLink_self hl] at ht hsession
  have hnone : s.session j = none := (session_of_link hl).trans hnew
  refine ht.keeps h hl ⟨rfl, rfl⟩ (setServer_lot rfl) (fun last hlast => ?_) fun e he => ?_
  · rw [hnone] at hlast
    rw [hsession]
    exact ⟨hlast.came.accept address, hlast.read⟩
  · exact absurd (hnone.symm.trans he) (Option.some_ne_none e).symm

theorem Related.arrive (h : Related S s o) {j : ι × ℕ} {l : Link η} {chunk : Bytes}
    {c : Connection} {v : Server (ι × ℕ)} (hl : s.link j = some l) (hchunk : chunk <+: l.flying)
    (hc : (s.server l.host).session j = some c) (hlot : v.lot = (s.server l.host).lot)
    (hv : v.session = Function.update (s.server l.host).session j (some (c.arrive chunk))) :
    Related S ((s.setLink j { l with flying := l.flying.drop chunk.length }).setServer l.host v)
      o := by
  obtain ⟨ht, hsession⟩ := h.touches_server hl
    (show ({ l with flying := l.flying.drop chunk.length } : Link η).host = l.host from rfl) hv
  have hold : s.session j = some c := (session_of_link hl).trans hc
  have hstep : c.step v.lot (.arrive chunk) = some (c.arrive chunk, v.lot, .returned) := rfl
  obtain ⟨hresponses, hover⟩ := step_responses hstep
  refine ht.keeps h hl ⟨rfl, rfl⟩ (setServer_lot hlot) (fun last hlast => ?_) fun e he hstage => ?_
  · rw [hold] at hlast
    rw [hsession]
    exact ⟨hlast.came.arrive hchunk, hlast.read.trans (answerOf_mono hresponses)⟩
  · cases hold.symm.trans he
    exact ⟨_, hsession, hover hstage⟩

omit [DecidableEq ι] in
theorem object_after {host : η} {v : Server (ι × ℕ)} {ci : Fin 4}
    (hobject : o.object = fun host => (s.server host).lot)
    (hlot : v.lot = (performed ci (s.server host).lot).state) :
    (performAt ((host, ci), ()) o.object).2 =
      fun other => ((s.setServer host v).server other).lot := by
  funext other
  rw [hobject, setServer_server]
  change Function.update (fun other => (s.server other).lot) host
    (performed ci (s.server host).lot).state other = _
  rcases eq_or_ne other host with rfl | hne
  · rw [Function.update_self, Function.update_self, hlot]
  · rw [Function.update_of_ne hne, Function.update_of_ne hne]

/-- The request of a connection takes effect: it is asked for and executed at once. -/
theorem Related.execute (h : Related S s o) {j : ι × ℕ} {l : Link η} {c c' : Connection}
    {v : Server (ι × ℕ)} (hl : s.link j = some l) (hc : s.session j = some c)
    (hready : c.stage = .ready) (hci : l.ci ≠ 3)
    (hlot : v.lot = (performed l.ci (s.server l.host).lot).state)
    (hv : v.session = Function.update (s.server l.host).session j (some c'))
    (hnew : ∀ last, l.Sound (some c) last → last = [] ∧
      l.Sound (some c') [((l.host, l.ci), (performed l.ci (s.server l.host).lot).out)]) :
    ∃ p, run (RemoteObject.step performAt) o [.ask j.1 (l.host, l.ci), .serve j.1 ()] = some p ∧
      Related S (s.setServer l.host v) p := by
  obtain ⟨ht, hsession⟩ := h.touches_server hl rfl hv
  rw [setLink_self hl] at ht hsession
  have hagrees := h.agrees j.1
  have hcalls : RemoteObject.calls o.log j.1 = o.asked j.1 :=
    (RemoteObject.calls_eq_exchanges o.log j.1).trans hagrees.asked_eq.symm
  have hnext : (Function.update o.asked j.1 (o.asked j.1 ++ [(l.host, l.ci)]) j.1)[
      (RemoteObject.calls o.log j.1).length]? = some (l.host, l.ci) := by
    rw [Function.update_self, hcalls, List.getElem?_concat_length]
  refine ⟨_, run_cons_eq_some.mpr ⟨_, rfl, run_single
    (Option.map_eq_some_iff.mpr ⟨_, hnext, rfl⟩)⟩, ht.related h ?_ (fun i hi => ⟨?_, ?_, rfl⟩) ?_⟩
  · exact object_after h.object hlot
  · rw [RemoteObject.exchanges_concat, if_neg hi.symm]
  · exact Function.update_of_ne hi _ _
  · rw [RemoteObject.exchanges_concat, if_pos rfl, hsession]
    change Agrees _ _ _ _ _ _ (Function.update o.asked j.1 _ j.1) _
    rw [Function.update_self, h.object]
    exact hagrees.execute hl hci hc hready hnew

theorem Related.socket (h : Related S s o) {host : η} {j : ι × ℕ} {e : SocketEvent}
    {c c' : Connection} {v : Server (ι × ℕ)} {r : Ending} (he : ∀ chunk, e ≠ .arrive chunk)
    (hc : (s.server host).session j = some c)
    (hs : c.step (s.server host).lot e = some (c', v.lot, r))
    (hv : v.session = Function.update (s.server host).session j (some c')) :
    ∃ as p, run (RemoteObject.step performAt) o as = some p ∧
      Related S (s.setServer host v) p := by
  obtain ⟨l, hl, rfl⟩ := h.owned host j c hc
  obtain ⟨ht, hsession⟩ := h.touches_server hl rfl hv
  rw [setLink_self hl] at ht hsession
  have hold : s.session j = some c := (session_of_link hl).trans hc
  obtain ⟨last, hsound⟩ := (h.agrees j.1).sound hl
  change l.Sound (s.session j) last at hsound
  rw [hold] at hsound
  obtain ⟨hresponses, hover⟩ := step_responses hs
  have hread : ∀ last', l.Sound (some c) last' → l.received <+: answerOf (some c') :=
    fun _ h' => h'.read.trans (answerOf_mono hresponses)
  rcases hsound.came.socket he hs with ⟨hcame, hlot⟩ | ⟨hready, rfl, hci, hlot, hcame⟩
  · refine ⟨[], o, rfl, ht.keeps h hl ⟨rfl, rfl⟩ (setServer_lot hlot) (fun last' h' => ?_)
      fun d hd hstage => ?_⟩
    · rw [hold] at h'
      rw [hsession]
      refine ⟨?_, hread last' h'⟩
      -- before its handler a connection has come to no call, so that both answers are one
      rcases h'.came.socket he hs with ⟨hcame', -⟩ | ⟨hready, rfl, -⟩
      · exact hcame'
      · rwa [(hsound.came.silent (by simp [hready])).1] at hcame
    · cases hold.symm.trans hd
      exact ⟨c', hsession, hover hstage⟩
  · obtain ⟨p, hp, hrelated⟩ := h.execute hl hold hready hci hlot hv fun last' h' =>
      ⟨(h'.came.silent (by simp [hready])).1, hcame, hread last' h'⟩
    exact ⟨_, p, hp, hrelated⟩

theorem Related.finish (h : Related S s o) {i : ι} {l : Link η} {reply : Reply} {d : Caller ε η}
    (hl : s.link (s.current i) = some l) (hreply : l.reply = some reply)
    (hd : (s.caller i).finish l.host reply = some d) :
    ∃ as p, run (RemoteObject.step performAt) o as = some p ∧ Related S (s.setCaller i d) p := by
  rcases (h.agrees i).finish hl hreply hd with ⟨-, hagrees⟩ | ⟨t, hserved, hagrees⟩
  · exact ⟨[], o, rfl, h.setCaller rfl (fun _ _ => ⟨rfl, rfl, rfl⟩) hagrees⟩
  · have hnext : (RemoteObject.results o.log i)[(o.told i).length]? = some t := by
      rw [RemoteObject.results_eq_exchanges, hserved, List.getElem?_concat_length]
    refine ⟨[.tell i], _, run_single (Option.map_eq_some_iff.mpr ⟨t, hnext, rfl⟩),
      h.setCaller rfl (fun k hk => ⟨rfl, rfl, Function.update_of_ne hk _ _⟩) ?_⟩
    change Agrees _ _ _ _ _ _ _ (Function.update o.told i _ i)
    rw [Function.update_self]
    exact hagrees

theorem refines : Refines (step S) (RemoteObject.step performAt) (Related (ι := ι) (η := η) S) where
  matched := by
    intro s t a o h hstep
    cases moves_of_step hstep with
    | @takeLine i d hd =>
      exact ⟨[], o, rfl, h.setCaller rfl (fun _ _ => ⟨rfl, rfl, rfl⟩) ((h.agrees i).takeLine hd)⟩
    | connect hc hnone hhost => exact ⟨[], o, rfl, h.connect hc hnone hhost⟩
    | accept hl address hnew => exact ⟨[], o, rfl, h.accept hl address hnew⟩
    | acceptFails =>
      exact ⟨[], o, rfl, h.quiet rfl rfl (setServer_lot rfl) (setServer_session rfl)⟩
    | arrive hl hchunk hc hlot hv => exact ⟨[], o, rfl, h.arrive hl hchunk hc hlot hv⟩
    | socket he hc hs hv => exact h.socket he hc hs hv
    | receive hl hchunk => exact ⟨[], o, rfl, h.receive hl hchunk⟩
    | finish hl hreply hd => exact h.finish hl hreply hd
    | @fail i d hd =>
      exact ⟨[], o, rfl, h.setCaller rfl (fun _ _ => ⟨rfl, rfl, rfl⟩) ((h.agrees i).fail hd)⟩
    | stop => exact ⟨[], o, rfl, h.quiet rfl rfl (setServer_lot rfl) (setServer_session rfl)⟩

/-- The cars that an executed request has put into the lot of a server. -/
def brought (host : η) (e : LogEntry ι η) : ℤ :=
  if e.call.1 = host then gain (commands.get e.call.2, e.result) else 0

/-- The log tells how the servers came to their lots, and what each client has read, but for
one call whose answer the client is still waiting for or that an exception has kept from it. -/
structure Explains (S : Setting ι ε η) (lots : η → CountingLot) (s : System ι ε η)
    (log : List (LogEntry ι η)) : Prop where
  replays : history performAt (log.map fun e => (e.call, e.world)) lots =
    (log.map Schedule.Executed.result, fun host => (s.server host).lot)
  served : ∀ i, ∃ before last, RemoteObject.exchanges log i = before ++ last ∧
    (s.caller i).heard = (before.map fun e => (e.1, encode e.2)) ∧ last.length ≤ 1 ∧
    ((s.caller i).calling = none → (s.caller i).client.place ≠ .caught → last = [])
  occupancy : ∀ host, (s.server host).lot.occupancy =
    (lots host).occupancy + (log.map (brought host)).sum
  follows : ∀ i, (s.caller i).calling = none → ∃ k, ∀ replies, (s.caller i).Had replies →
    Client.iterations (S.endpoints i) replies k (.start (S.input i)) = some (s.caller i).client
  paired : ∀ i, Paired S.addresses (s.caller i)

omit [DecidableEq ι] in
theorem occupancy_of_replays {lots lots' : η → CountingLot} {log : List (LogEntry ι η)}
    (h : history performAt (log.map fun e => (e.call, e.world)) lots =
      (log.map Schedule.Executed.result, lots')) (host : η) :
    (lots' host).occupancy = (lots host).occupancy + (log.map (brought host)).sum := by
  have hall := history_measure (f := performAt) (m := fun lots => (lots host).occupancy)
    (d := fun e : ((η × Fin 4) × Unit) × Text =>
      if e.1.1.1 = host then gain (commands.get e.1.1.2, e.2) else 0)
    (fun c lots => by
      rcases eq_or_ne c.1.1 host with hc | hc
      · subst hc
        simp only [performAt, performed, Function.update_self, if_true]
        exact dispatch_gain _ _
      · simp only [performAt, Function.update_of_ne hc.symm, if_neg hc, Int.add_zero])
    (log.map fun e => (e.call, e.world)) lots
  simp only [record, h, List.zip_map', List.map_map] at hall
  exact hall

theorem Related.explains {lots : η → CountingLot} (h : Related S s o)
    (ho : RemoteObject.Consistent performAt lots o) : Explains S lots s o.log := by
  have hreplays := h.object ▸ ho.replays
  refine ⟨hreplays, fun i => ?_, occupancy_of_replays hreplays, fun i hcalling => ?_,
    fun i => (h.agrees i).paired⟩
  · obtain ⟨before, last, hserved, hunheard, hheard, -⟩ := (h.agrees i).served_eq
    refine ⟨before, last, hserved, hheard, hunheard.length_le, fun hcalling hplace => ?_⟩
    rw [(h.agrees i).idle hcalling hplace] at hunheard
    exact hunheard
  · obtain ⟨k, hk⟩ := (h.agrees i).loops.follows
    refine ⟨k, fun replies hreplies => ?_⟩
    rw [hk replies hreplies, Caller.ahead_of_none hcalling]

/-- At any two moments of a run there is a log of requests executed one at a time, as the Java
dispatcher executes them, the earlier log the beginning of the later one. In both, it leads
to the lots as they are; and each client finds its requests in it once and in their order,
with the answers that it has read, and at most one more. -/
theorem requests_linear {lots : η → CountingLot} {as bs : List (Label ι η)}
    (hs : run (step S) (start S lots) as = some s) (ht : run (step S) s bs = some t) :
    ∃ log log', log <+: log' ∧ Explains S lots s log ∧ Explains S lots t log' := by
  obtain ⟨cs, o, ho, hso⟩ := refines.run (start_related lots) hs
  obtain ⟨ds, p, hp, htp⟩ := refines.run hso ht
  have hconsistent := RemoteObject.run_consistent RemoteObject.start_consistent ho
  exact ⟨o.log, p.log, RemoteObject.run_log hp, hso.explains hconsistent,
    htp.explains (RemoteObject.run_consistent hconsistent hp)⟩

/-- The first client gives up on a request that takes effect behind it; the second one
drives that car away. -/
theorem requests_linear_late :
    let S : Setting Bool Unit ℕ :=
      ⟨fun _ => [()], fun _ => [5000], fun i => if i then ascii "out 1\n" else ascii "in\n"⟩
    let address : Bytes × Bytes := (ascii "127.0.0.1", ascii "50000")
    let as : List (Label Bool ℕ) := [.takeLine false, .connect false 0,
      .event 5000 (.accept (false, 0) address),
      .event 5000 (.socket (false, 0) (.arrive (ascii "i"))),
      .event 5000 (.socket (false, 0) (.arrive (ascii "n\n"))), .fail false,
      .event 5000 (.socket (false, 0) (.handle .never []))]
    let bs : List (Label Bool ℕ) := [.takeLine true, .connect true 0,
      .event 5000 (.accept (true, 0) address),
      .event 5000 (.socket (true, 0) (.arrive (ascii "out\n"))),
      .event 5000 (.socket (true, 0) (.handle .never [])), .receive (true, 0) (ascii "o"),
      .receive (true, 0) (ascii "k\n"), .finish true]
    ∃ s t, run (step S) (start S fun _ => .new 1) as = some s ∧ run (step S) s bs = some t ∧
      (s.server 5000).lot.occupancy = 1 ∧ (s.caller false).heard = [] ∧
      (t.caller true).heard = [((5000, 2), ascii "ok\n")] ∧
      ∃ log log', log <+: log' ∧ Explains S (fun _ => .new 1) s log ∧
        Explains S (fun _ => .new 1) t log' := by
  intro S address as bs
  obtain ⟨s, hs, hoccupancy, hlost⟩ : ∃ s ∈ run (step S) (start S fun _ => .new 1) as,
      (s.server 5000).lot.occupancy = 1 ∧ (s.caller false).heard = [] := by decide
  obtain ⟨t, ht, hheard⟩ : ∃ t ∈ run (step S) (start S fun _ => .new 1) (as ++ bs),
      (t.caller true).heard = [((5000, 2), ascii "ok\n")] := by decide
  rw [run_append, hs] at ht
  exact ⟨s, t, hs, ht, hoccupancy, hlost, hheard, requests_linear hs ht⟩

end

end System

end Vsys.CppAsio
