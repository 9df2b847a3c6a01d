import Vsys.RpcParkingSim.RemoteCalls

/-! The simulation seen as one object that many parties call: whatever is typed, and
however the clients, the sessions and the network interleave, it is as if each line's
call were made on the service itself, one call at a time. -/

namespace Vsys.RpcParkingSim

open Schedule

namespace Phase

theorem settle_of_ne {e : Ending} (h : e ≠ .returned true) : settle e = .finished e := if_neg h

theorem after_writeResult (world : World) (r : Invoked) :
    (∃ v, r.outcome = .returns v ∧
        after (Session.writeResult world r) = .writing v (.returned true)) ∨
      ∃ e, after (Session.writeResult world r) = .finished e := by
  rw [Session.writeResult]
  split
  · next v hv =>
    split
    · exact Or.inl ⟨v, hv, rfl⟩
    · exact Or.inr ⟨_, rfl⟩
  all_goals exact Or.inr ⟨_, rfl⟩

end Phase

theorem Session.writeResult_lot (world : World) (r : Invoked) :
    (writeResult world r).lot = r.lot := by
  rw [writeResult]
  split
  · split <;> rfl
  all_goals rfl

namespace Connection

variable {jvm : Jvm} {c d : Connection} {asked : List Call} {results told : List Outcome}

def objects (calls : List Call) : List Received := calls.flatMap fun a => a.request.objects

/-- What has been written for a call is in the stream until the call is executed, and its
result is in the other until it is read. Both ends of an intact connection have all of
it; behind a break, or when the client has left, there is a first part. -/
structure Agrees (jvm : Jvm) (c : Connection) (asked : List Call) (results told : List Outcome) :
    Prop where
  typed_le : asked <+: c.typed.filterMap (Client.callOf jvm)
  typed : c.mode.hasLeft = false → asked = c.typed.filterMap (Client.callOf jvm)
  executed_le : results.length ≤ asked.length
  waiting_le : ∃ half : List Received, half.length ≤ 1 ∧ (c.mode.hasLeft = false → half = []) ∧
    c.toServer <+: objects (asked.drop results.length) ++ half
  waiting : c.intact = true → c.toServer = objects (asked.drop results.length)
  told_eq : told = c.received.map .returns
  coming_le : (c.received ++ c.toClient).map .returns <+: results
  coming : c.intact = true → c.phase.isFinished = false →
    (c.received ++ c.toClient ++ c.phase.pending).map .returns = results
  goesOn : ∀ v e, c.phase = .writing v e → e = .returned true

theorem start_agrees : Agrees jvm start [] [] [] where
  typed_le := List.prefix_refl _
  typed := fun _ => rfl
  executed_le := le_rfl
  waiting_le := ⟨[], Nat.zero_le 1, fun _ => rfl, List.prefix_refl _⟩
  waiting := fun _ => rfl
  told_eq := rfl
  coming_le := List.prefix_refl _
  coming := fun _ _ => rfl
  goesOn := by simp [start]

@[simp] theorem leave_intact (c : Connection) (e : Exit) : (c.leave e).intact = false :=
  Bool.and_false _

theorem intact_iff : c.intact = true ↔ c.cut = false ∧ c.mode.hasLeft = false := by
  rw [intact, Bool.and_eq_true, Bool.not_eq_true', Bool.not_eq_true']

theorem Agrees.received_le (h : Agrees jvm c asked results told) :
    c.received.map .returns <+: results :=
  ((List.prefix_append c.received c.toClient).map _).trans h.coming_le

theorem Agrees.leave (h : Agrees jvm c asked results told) (e : Exit) :
    Agrees jvm (c.leave e) asked results told where
  typed_le := h.typed_le
  typed := fun hleft => nomatch hleft
  executed_le := h.executed_le
  waiting_le := by
    obtain ⟨half, hhalf, -, hle⟩ := h.waiting_le
    exact ⟨half, hhalf, fun hleft => (nomatch hleft), hle⟩
  waiting := fun hc => by simp at hc
  told_eq := h.told_eq
  coming_le := by
    rw [Connection.leave, List.append_nil]
    exact h.received_le
  coming := fun hc => by simp at hc
  goesOn := h.goesOn

/-- Only whether the client has left matters of its mode. -/
theorem Agrees.mode (h : Agrees jvm c asked results told) (hc : c.mode.hasLeft = false)
    (m : Mode) : Agrees jvm { c with mode := m } asked results told where
  typed_le := h.typed_le
  typed := fun _ => h.typed hc
  executed_le := h.executed_le
  waiting_le := by
    obtain ⟨half, hhalf, hnil, hle⟩ := h.waiting_le
    exact ⟨half, hhalf, fun _ => hnil hc, hle⟩
  waiting := fun hi => h.waiting (intact_iff.mpr ⟨(intact_iff.mp hi).1, hc⟩)
  told_eq := h.told_eq
  coming_le := h.coming_le
  coming := fun hi => h.coming (intact_iff.mpr ⟨(intact_iff.mp hi).1, hc⟩)
  goesOn := h.goesOn

theorem Agrees.accept_none (h : Agrees jvm c asked results told) {line : List Char}
    (hcall : Client.callOf jvm line = none) :
    Agrees jvm (c.accept line []) asked results told where
  typed_le := by
    simpa [accept, List.filterMap_append, hcall] using h.typed_le
  typed := fun hd => by
    simpa [accept, List.filterMap_append, hcall] using h.typed hd
  executed_le := h.executed_le
  waiting_le := by
    simpa [accept] using h.waiting_le
  waiting := fun hi => by
    simpa [accept] using h.waiting hi
  told_eq := h.told_eq
  coming_le := h.coming_le
  coming := h.coming
  goesOn := h.goesOn

/-- A client that leaves with a request half written asks for nothing by it. -/
theorem Agrees.accept_half (h : Agrees jvm c asked results told) (hc : c.mode.hasLeft = false)
    (line : List Char) {written : List Received} (hw : written.length ≤ 1) (e : Exit) :
    Agrees jvm ((c.accept line written).leave e) asked results told where
  typed_le := h.typed_le.trans (by
    rw [Connection.leave, accept, List.filterMap_append]
    exact List.prefix_append _ _)
  typed := fun hleft => nomatch hleft
  executed_le := h.executed_le
  waiting_le := by
    cases hcut : c.cut with
    | true =>
      obtain ⟨half, hhalf, -, hle⟩ := h.waiting_le
      exact ⟨half, hhalf, fun hleft => (nomatch hleft), by simpa [accept, Connection.leave, hcut]⟩
    | false =>
      refine ⟨written, hw, fun hleft => (nomatch hleft), ?_⟩
      simp [accept, Connection.leave, hcut, h.waiting (intact_iff.mpr ⟨hcut, hc⟩)]
  waiting := fun hi => by simp at hi
  told_eq := h.told_eq
  coming_le := by
    rw [Connection.leave, List.append_nil]
    exact h.received_le
  coming := fun hi => by simp at hi
  goesOn := h.goesOn

theorem Agrees.accept_call (h : Agrees jvm c asked results told) (hc : c.mode.hasLeft = false)
    {line : List Char} {a : Call} (hcall : Client.callOf jvm line = some a) :
    Agrees jvm (c.accept line a.request.objects) (asked ++ [a]) results told := by
  have hdrop : objects ((asked ++ [a]).drop results.length) =
      objects (asked.drop results.length) ++ a.request.objects := by
    rw [List.drop_append_of_le_length h.executed_le, objects, List.flatMap_append,
      List.flatMap_singleton, objects]
  have htyped : asked ++ [a] = (c.accept line a.request.objects).typed.filterMap
      (Client.callOf jvm) := by
    simp [accept, List.filterMap_append, hcall, ← h.typed hc]
  refine ⟨htyped ▸ List.prefix_refl _, fun _ => htyped, ?_, ?_, fun hi => ?_, h.told_eq,
    h.coming_le, h.coming, h.goesOn⟩
  · exact h.executed_le.trans (by simp)
  · obtain ⟨half, -, hnil, hle⟩ := h.waiting_le
    rw [hnil hc, List.append_nil] at hle
    refine ⟨[], Nat.zero_le 1, fun _ => rfl, ?_⟩
    rw [hdrop, List.append_nil]
    cases hcut : c.cut with
    | true => simpa [accept, hcut] using hle.trans (List.prefix_append _ _)
    | false => simp [accept, hcut, h.waiting (intact_iff.mpr ⟨hcut, hc⟩)]
  · have hcut : c.cut = false := (intact_iff.mp hi).1
    simp [accept, hcut, hdrop, h.waiting (intact_iff.mpr ⟨hcut, hc⟩)]

/-- The calls are asked for in the order in which their lines are typed. -/
theorem Agrees.typeLine (h : Agrees jvm c asked results told) {tr ta : Bool} {line : List Char}
    (hd : c.typeLine jvm tr ta line = some d) :
    Agrees jvm d asked results told ∨ ∃ a, Agrees jvm d (asked ++ [a]) results told := by
  rw [Connection.typeLine] at hd
  split at hd
  swap
  · cases hd
  next hmode =>
  have hc : c.mode.hasLeft = false := by rw [hmode]; rfl
  rcases Client.ask_cases jvm tr ta line with
    ⟨a, turn, hcall, hask, rfl | rfl⟩ | ⟨e, os, r, hask, hos⟩ | ⟨hcall, hask⟩
  · rw [hask] at hd
    cases hd
    exact Or.inr ⟨a, (h.accept_call hc hcall).mode hc _⟩
  · rw [hask] at hd
    cases hd
    exact Or.inr ⟨a, (h.accept_call hc hcall).leave _⟩
  · rw [hask] at hd
    cases hd
    exact Or.inl (h.accept_half hc line hos.length_le e)
  · rcases hask with ⟨hask, -⟩ | ⟨hask, -⟩
    · rw [hask] at hd
      cases hd
      exact Or.inl (h.accept_none hcall)
    · rw [hask] at hd
      cases hd
      exact Or.inl ((h.accept_none hcall).mode hc _)

theorem drop_prefix_of_short {α : Type*} {xs : List α} (h : xs.length < 2) (n : ℕ) :
    xs.drop n <+: xs := by
  cases n with
  | zero => exact List.prefix_refl _
  | succ n =>
    rw [List.drop_eq_nil_of_le (by omega)]
    exact List.nil_prefix

theorem Agrees.serve_cases (h : Agrees jvm c asked results told) {world : World} {r : Served}
    (hd : c.serve jvm world = some (r, d)) :
    c.phase = .reading ∧
      ((∃ a q rest, asked[results.length]? = some a ∧ q = a.request ∧
          c.toServer = q.objects ++ rest ∧ r = q.answer jvm world ∧
          d = { c with toServer := rest, phase := .after r }) ∨
        c.intact = false ∧ r.lot = world.lot ∧
          ∃ e rest, rest <+: c.toServer ∧ d = { c with toServer := rest, phase := .finished e }) := by
  rw [serve] at hd
  split at hd
  swap
  · cases hd
  next hready =>
  obtain ⟨hphase, hready⟩ := hready
  refine ⟨hphase, ?_⟩
  obtain ⟨rfl, rfl⟩ := Prod.mk.inj (Option.some.inj hd)
  by_cases htwo : 2 ≤ c.toServer.length
  · obtain ⟨half, hhalf, -, hle⟩ := h.waiting_le
    rcases hrest : asked.drop results.length with _ | ⟨a, more⟩
    · rw [hrest] at hle
      have hshort := hle.length_le
      simp only [objects, List.flatMap_nil, List.nil_append] at hshort
      omega
    · rw [hrest, objects, List.flatMap_cons, List.append_assoc] at hle
      have hasked : asked[results.length]? = some a := by
        rw [← List.head?_drop, hrest, List.head?_cons]
      have hobjects : a.request.objects <+: c.toServer :=
        List.prefix_of_prefix_length_le (List.prefix_append _ _) hle htwo
      obtain ⟨rest, hstream⟩ := hobjects
      refine Or.inl ⟨a, a.request, rest, hasked, rfl, hstream.symm, ?_, ?_⟩
      · rw [← hstream, List.map_append]
        exact congrArg Prod.fst (Session.serveOnce_request jvm world a.request _)
      · rw [← hstream, List.map_append]
        rfl
  · refine Or.inr ⟨hready.resolve_left htwo, ?_⟩
    rcases Session.serveOnce_cases jvm world (c.toServer.map .object) with
      ⟨e, n, he, hserve⟩ | ⟨m, args, -, hargs, -⟩
    · rw [hserve]
      refine ⟨rfl, e, _, drop_prefix_of_short (Nat.not_le.mp htwo) n, ?_⟩
      rw [← Phase.settle_of_ne he]
      rfl
    · rcases hs : c.toServer with _ | ⟨x, _ | ⟨y, rest⟩⟩
      · rw [hs] at hargs
        cases hargs
      · rw [hs] at hargs
        cases hargs
      · rw [hs] at htwo
        simp at htwo

/-- Serving a request makes its call on the lot as it is at that moment; otherwise a session
leaves the lot alone. -/
theorem Agrees.serve (h : Agrees jvm c asked results told) (hjvm : jvm.FindsAgain) {world : World}
    {r : Served} (hd : c.serve jvm world = some (r, d)) :
    (r.lot = world.lot ∧ Agrees jvm d asked results told) ∨
      ∃ a, asked[results.length]? = some a ∧ r.lot = (invoke jvm world a.method a.args).lot ∧
        Agrees jvm d asked (results ++ [(invoke jvm world a.method a.args).outcome]) told := by
  obtain ⟨hphase, hcases⟩ := h.serve_cases hd
  rcases hcases with ⟨a, q, rest, ha, rfl, hstream, rfl, rfl⟩ | ⟨hgone, hlot, e, rest, hrest, rfl⟩
  · obtain ⟨line, -, hcall⟩ := List.mem_filterMap.mp (h.typed_le.subset (List.mem_of_getElem? ha))
    rw [Call.answer_request hjvm hcall]
    refine Or.inr ⟨a, ha, Session.writeResult_lot world _, ?_⟩
    have hlt : results.length < asked.length := (List.getElem?_eq_some_iff.mp ha).1
    have hdrop : objects (asked.drop results.length) =
        a.request.objects ++ objects (asked.drop (results.length + 1)) := by
      rw [List.drop_eq_getElem_cons hlt, (List.getElem?_eq_some_iff.mp ha).2, objects,
        List.flatMap_cons]
      rfl
    have hresult := Phase.after_writeResult world (invoke jvm world a.method a.args)
    refine ⟨h.typed_le, h.typed, ?_, ?_, fun hi => ?_, h.told_eq,
      h.coming_le.trans (List.prefix_append _ _), fun hi hover => ?_, fun v e hv => ?_⟩
    · rw [List.length_append, List.length_singleton]
      exact hlt
    · obtain ⟨half, hhalf, hnil, hle⟩ := h.waiting_le
      rw [hstream, hdrop, List.append_assoc, List.prefix_append_right_inj] at hle
      exact ⟨half, hhalf, hnil, by simpa using hle⟩
    · have hall := h.waiting hi
      rw [hstream, hdrop] at hall
      simpa using List.append_cancel_left hall
    · have hpending : c.phase.pending = [] := by rw [hphase]; rfl
      have hall := h.coming hi (by rw [hphase]; rfl)
      rw [hpending, List.append_nil] at hall
      rcases hresult with ⟨v, hv, hafter⟩ | ⟨e, hafter⟩
      · simp only [hafter, Phase.pending, List.map_append, List.map_singleton, hv] at hall ⊢
        rw [hall]
      · simp only [hafter, Phase.isFinished] at hover
        cases hover
    · rcases hresult with ⟨w, hw, hafter⟩ | ⟨e', hafter⟩
      · rw [hafter] at hv
        cases hv
        rfl
      · rw [hafter] at hv
        cases hv
  · refine Or.inl ⟨hlot, h.typed_le, h.typed, h.executed_le, ?_, fun hi => ?_, h.told_eq,
      h.coming_le, fun _ hover => (nomatch hover), fun v e hv => nomatch hv⟩
    · obtain ⟨half, hhalf, hnil, hle⟩ := h.waiting_le
      exact ⟨half, hhalf, hnil, hrest.trans hle⟩
    · rw [show c.intact = true from hi] at hgone
      cases hgone

theorem Agrees.write (h : Agrees jvm c asked results told) (hd : c.write = some d) :
    Agrees jvm d asked results told := by
  rw [Connection.write] at hd
  split at hd
  swap
  · cases hd
  next v e hphase =>
  cases hd
  obtain rfl := h.goesOn v e hphase
  have hover : c.phase.isFinished = false := by rw [hphase]; rfl
  refine ⟨h.typed_le, h.typed, h.executed_le, h.waiting_le, h.waiting, h.told_eq, ?_,
    fun hi _ => ?_, fun v e hv => nomatch hv⟩
  · cases hi : c.intact with
    | false => simpa using h.coming_le
    | true =>
      have hall := h.coming hi hover
      rw [hphase, Phase.pending, List.append_assoc] at hall
      simp only [if_true, hall]
      exact List.prefix_refl _
  · have hi : c.intact = true := hi
    have hall := h.coming hi hover
    rw [hphase, Phase.pending, List.append_assoc] at hall
    simpa [hi, Phase.settle, Phase.pending] using hall

theorem Agrees.read {running found : Bool} (h : Agrees jvm c asked results told)
    (hd : c.read running found = some d) :
    Agrees jvm d asked results told ∨
      ∃ r, results[told.length]? = some r ∧ Agrees jvm d asked results (told ++ [r]) := by
  rw [Connection.read] at hd
  split at hd
  swap
  · cases hd
  next hmode =>
  have hc : c.mode.hasLeft = false := by rw [hmode]; rfl
  split at hd
  · next v vs hstream =>
    split at hd
    swap
    · cases hd
      exact Or.inl (h.leave _)
    · cases hd
      have hsplit : c.received ++ c.toClient = c.received ++ [v] ++ vs := by
        rw [hstream, List.append_assoc, List.singleton_append]
      have hnext : told ++ [.returns v] = (c.received ++ [v]).map .returns := by
        rw [h.told_eq, List.map_append, List.map_singleton]
      have hle : told ++ [.returns v] <+: results := by
        rw [hnext]
        refine List.IsPrefix.trans ?_ h.coming_le
        rw [hsplit]
        exact (List.prefix_append _ _).map _
      refine Or.inr ⟨.returns v, ?_, h.typed_le, fun _ => h.typed hc, h.executed_le, ?_,
        fun hi => ?_, hnext, ?_, fun hi hover => ?_, h.goesOn⟩
      · obtain ⟨more, hmore⟩ := hle
        rw [← hmore, List.append_assoc, List.getElem?_append_right le_rfl, Nat.sub_self]
        rfl
      · obtain ⟨half, hhalf, hnil, hle⟩ := h.waiting_le
        exact ⟨half, hhalf, fun _ => hnil hc, hle⟩
      · exact h.waiting (intact_iff.mpr ⟨(intact_iff.mp hi).1, hc⟩)
      · rw [← hsplit]
        exact h.coming_le
      · rw [← hsplit]
        exact h.coming (intact_iff.mpr ⟨(intact_iff.mp hi).1, hc⟩) hover
  · split at hd
    · cases hd
      exact Or.inl (h.leave _)
    · cases hd

theorem Agrees.breakOff (h : Agrees jvm c asked results told) (m n : ℕ) :
    Agrees jvm (c.breakOff m n) asked results told where
  typed_le := h.typed_le
  typed := h.typed
  executed_le := h.executed_le
  waiting_le := by
    obtain ⟨half, hhalf, hnil, hle⟩ := h.waiting_le
    exact ⟨half, hhalf, hnil, (List.take_prefix m _).trans hle⟩
  waiting := fun hi => by simp [Connection.breakOff, intact] at hi
  told_eq := h.told_eq
  coming_le := by
    refine List.IsPrefix.trans ?_ h.coming_le
    exact ((List.prefix_append_right_inj _).mpr (List.take_prefix n _)).map _
  coming := fun hi => by simp [Connection.breakOff, intact] at hi
  goesOn := h.goesOn

end Connection

namespace System

variable {ι : Type*} [DecidableEq ι] {jvm : Jvm}

abbrev Service (ι : Type*) :=
  RemoteObject ι Call (Method → List Value → Outcome) Outcome SynchronizedParkingLot

/-- The service stands for the server's lot, and each connection is the state of its
client's calls. -/
structure Related (jvm : Jvm) (s : System ι) (o : Service ι) : Prop where
  lot : o.object = s.lot
  agrees : ∀ i, (s.connection i).Agrees jvm (o.asked i) (RemoteObject.results o.log i) (o.told i)

theorem start_related (capacity : Int32) :
    Related jvm (start capacity : System ι) (.start (.new capacity)) :=
  ⟨rfl, fun _ => Connection.start_agrees⟩

/-- A step of one connection. The other connections, and what the service knows of them,
stay as they are. -/
theorem Related.set {s : System ι} {o o' : Service ι} (h : Related jvm s o) {i : ι}
    {d : Connection}
    (hi : d.Agrees jvm (o'.asked i) (RemoteObject.results o'.log i) (o'.told i))
    (hasked : ∀ j, j ≠ i → o'.asked j = o.asked j)
    (hresults : ∀ j, j ≠ i → RemoteObject.results o'.log j = RemoteObject.results o.log j)
    (htold : ∀ j, j ≠ i → o'.told j = o.told j) (j : ι) :
    ((s.set i d).connection j).Agrees jvm (o'.asked j) (RemoteObject.results o'.log j)
      (o'.told j) := by
  rcases eq_or_ne j i with rfl | hj
  · simpa [System.set] using hi
  · simpa [System.set, Function.update_of_ne hj, hasked j hj, hresults j hj, htold j hj]
      using h.agrees j

theorem Related.set_same {s : System ι} {o : Service ι} (h : Related jvm s o) {i : ι}
    {d : Connection}
    (hi : d.Agrees jvm (o.asked i) (RemoteObject.results o.log i) (o.told i)) :
    Related jvm (s.set i d) o :=
  ⟨h.lot, h.set hi (fun _ _ => rfl) (fun _ _ => rfl) fun _ _ => rfl⟩

theorem Related.ask {s : System ι} {o : Service ι} (h : Related jvm s o) {i : ι} {d : Connection}
    {a : Call} (hi : d.Agrees jvm (o.asked i ++ [a]) (RemoteObject.results o.log i) (o.told i)) :
    ∃ o', RemoteObject.step (Call.perform jvm) o (.ask i a) = some o' ∧ Related jvm (s.set i d) o' :=
  ⟨_, rfl, h.lot, h.set (by simpa using hi) (fun _ hj => Function.update_of_ne hj _ _)
    (fun _ _ => rfl) fun _ _ => rfl⟩

theorem Related.tell {s : System ι} {o : Service ι} (h : Related jvm s o) {i : ι} {d : Connection}
    {r : Outcome} (hr : (RemoteObject.results o.log i)[(o.told i).length]? = some r)
    (hi : d.Agrees jvm (o.asked i) (RemoteObject.results o.log i) (o.told i ++ [r])) :
    ∃ o', RemoteObject.step (Call.perform jvm) o (.tell i) = some o' ∧
      Related jvm (s.set i d) o' := by
  refine ⟨_, Option.map_eq_some_iff.mpr ⟨r, hr, rfl⟩, h.lot, h.set ?_ (fun _ _ => rfl)
    (fun _ _ => rfl) fun _ hj => Function.update_of_ne hj _ _⟩
  simpa using hi

theorem Related.serve {s : System ι} {o : Service ι} (h : Related jvm s o) {i : ι} {d : Connection}
    {outcome : Method → List Value → Outcome} {writes : Value → Bool} {a : Call} (running : Bool)
    (ha : (o.asked i)[(RemoteObject.results o.log i).length]? = some a)
    (hi : let r := invoke jvm ⟨s.lot, outcome, writes⟩ a.method a.args
      d.Agrees jvm (o.asked i) (RemoteObject.results o.log i ++ [r.outcome]) (o.told i)) :
    ∃ o', RemoteObject.step (Call.perform jvm) o (.serve i outcome) = some o' ∧
      Related jvm
        { s.set i d with
          lot := (invoke jvm ⟨s.lot, outcome, writes⟩ a.method a.args).lot, running := running }
        o' := by
  rw [RemoteObject.length_results] at ha
  have hperform := Call.perform_eq jvm ⟨s.lot, outcome, writes⟩ a
  rw [← h.lot] at hperform hi ⊢
  refine ⟨_, Option.map_eq_some_iff.mpr ⟨a, ha, rfl⟩, congrArg Prod.snd hperform,
    h.set ?_ (fun _ _ => rfl) (fun j hj => ?_) fun _ _ => rfl⟩
  · rw [RemoteObject.results_concat_self o.log ⟨i, a, outcome, _⟩]
    exact hi
  · exact RemoteObject.results_concat_of_ne o.log (by exact hj.symm)

/-- Typing a line asks for a call, serving a request executes it, and reading a response
tells its result; the other steps change nothing that the service sees. -/
theorem refines (hjvm : jvm.FindsAgain) :
    Refines (step jvm) (RemoteObject.step (Call.perform jvm)) (Related (ι := ι) jvm) where
  matched := by
    intro s s' a o h hstep
    cases a with
    | typeLine i tr ta line =>
      obtain ⟨d, hd, rfl⟩ := Option.map_eq_some_iff.mp hstep
      rcases (h.agrees i).typeLine hd with hsame | ⟨a, hasked⟩
      · exact ⟨[], o, rfl, h.set_same hsame⟩
      · obtain ⟨o', ho', h'⟩ := h.ask hasked
        exact ⟨[.ask i a], o', run_single ho', h'⟩
    | endOfInput i =>
      obtain ⟨d, hd, rfl⟩ := Option.map_eq_some_iff.mp hstep
      refine ⟨[], o, rfl, h.set_same ?_⟩
      rw [Connection.endOfInput] at hd
      split at hd
      · cases hd
        exact (h.agrees i).leave _
      · cases hd
    | serve i outcome writes =>
      simp only [step] at hstep
      split at hstep
      swap
      · cases hstep
      obtain ⟨⟨r, d⟩, hd, rfl⟩ := Option.map_eq_some_iff.mp hstep
      rcases (h.agrees i).serve hjvm hd with ⟨hlot, hsame⟩ | ⟨a, ha, hlot, hnext⟩
      · have hset := h.set_same hsame
        exact ⟨[], o, rfl, h.lot.trans hlot.symm, hset.agrees⟩
      · obtain ⟨o', ho', h'⟩ := h.serve (decide (r.ending ≠ .exited)) ha hnext
        rw [← hlot] at h'
        exact ⟨[.serve i outcome], o', run_single ho', h'⟩
    | write i =>
      simp only [step] at hstep
      split at hstep
      swap
      · cases hstep
      obtain ⟨d, hd, rfl⟩ := Option.map_eq_some_iff.mp hstep
      exact ⟨[], o, rfl, h.set_same ((h.agrees i).write hd)⟩
    | read i found =>
      obtain ⟨d, hd, rfl⟩ := Option.map_eq_some_iff.mp hstep
      rcases (h.agrees i).read hd with hsame | ⟨r, hr, htold⟩
      · exact ⟨[], o, rfl, h.set_same hsame⟩
      · obtain ⟨o', ho', h'⟩ := h.tell hr htold
        exact ⟨[.tell i], o', run_single ho', h'⟩
    | breakOff i m n =>
      cases hstep
      exact ⟨[], o, rfl, h.set_same ((h.agrees i).breakOff m n)⟩
    | stop =>
      cases hstep
      exact ⟨[], o, rfl, h.lot, h.agrees⟩

/-- The log tells how the server came to its lot, and what the clients have seen. -/
structure Explains (jvm : Jvm) (capacity : Int32) (s : System ι)
    (log : List (Executed ι Call (Method → List Value → Outcome) Outcome)) : Prop where
  replays : history (Call.perform jvm) (log.map fun e => (e.call, e.world)) (.new capacity) =
    (log.map Executed.result, s.lot)
  calls : ∀ i, RemoteObject.calls log i <+: (s.connection i).typed.filterMap (Client.callOf jvm)
  received : ∀ i, (s.connection i).received.map .returns <+: RemoteObject.results log i

theorem Related.explains {capacity : Int32} {s : System ι} {o : Service ι} (h : Related jvm s o)
    (ho : RemoteObject.Consistent (Call.perform jvm) (.new capacity) o) :
    Explains jvm capacity s o.log where
  replays := h.lot ▸ ho.replays
  calls := fun i => (ho.asked i).trans (h.agrees i).typed_le
  received := fun i => (h.agrees i).received_le

/-- At any two moments of a run there is a log of calls made one at a time on the lot, the
earlier one the beginning of the later one. In both, each client finds the calls of the
lines it has typed until then, in that order and none twice, and as their results the
responses it has printed. -/
theorem calls_linear (hjvm : jvm.FindsAgain) {capacity : Int32} {as bs : List (Label ι)}
    {s t : System ι} (hs : run (step jvm) (start capacity) as = some s)
    (ht : run (step jvm) s bs = some t) :
    ∃ log log', log <+: log' ∧ Explains jvm capacity s log ∧ Explains jvm capacity t log' := by
  obtain ⟨cs, o, ho, hso⟩ := (refines hjvm).run (start_related capacity) hs
  obtain ⟨ds, o', ho', hto⟩ := (refines hjvm).run hso ht
  have hconsistent := RemoteObject.run_consistent RemoteObject.start_consistent ho
  exact ⟨o.log, o'.log, RemoteObject.run_log ho', hso.explains hconsistent,
    hto.explains (RemoteObject.run_consistent hconsistent ho')⟩

end System

theorem Jvm.bare_findsAgain : Jvm.bare.FindsAgain := by
  intro name types m h
  rw [getMethod, if_pos rfl] at h
  split at h
  · next s _ =>
    cases h
    cases s <;> decide
  · cases h

namespace System

/-- Two clients, one of which types a line that makes no call. -/
theorem calls_linear_pair :
    let as : List (Label (Fin 2)) :=
      [.typeLine 0 true true "in 2".toList, .typeLine 1 true true "in 1 2".toList,
        .serve 0 (fun _ _ => .throws) fun _ => true, .write 0, .read 0 true]
    let bs : List (Label (Fin 2)) := [.breakOff 1 0 0, .stop]
    Jvm.bare.FindsAgain ∧
      ∃ s t, run (step Jvm.bare) (start 5) as = some s ∧ run (step Jvm.bare) s bs = some t ∧
        ∃ log log', log <+: log' ∧ Explains Jvm.bare 5 s log ∧ Explains Jvm.bare 5 t log' := by
  intro as bs
  obtain ⟨s, hs⟩ : ∃ s, run (step Jvm.bare) (start 5) as = some s := ⟨_, rfl⟩
  obtain ⟨t, ht⟩ : ∃ t, run (step Jvm.bare) s bs = some t := ⟨_, rfl⟩
  exact ⟨Jvm.bare_findsAgain, s, t, hs, ht, calls_linear Jvm.bare_findsAgain hs ht⟩

end System

end Vsys.RpcParkingSim
