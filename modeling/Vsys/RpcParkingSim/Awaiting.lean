import Vsys.RpcParkingSim.AtomicCalls

/-! Clients that wait for a response. Of all that may be typed, only a line without a
call keeps its client waiting for ever. -/

namespace Vsys.RpcParkingSim

open Schedule

namespace Connection

variable {jvm : Jvm} {c d : Connection} {asked : List Call} {results told : List Outcome}

def callsOf (jvm : Jvm) (c : Connection) : List Call := c.typed.filterMap (Client.callOf jvm)

/-- Before the prompt every call has its response; a client that waits has one response
less than calls, or its last line made no call. -/
structure Turned (jvm : Jvm) (c : Connection) : Prop where
  prompting : c.mode = .prompting → (callsOf jvm c).length = c.received.length
  awaiting : c.mode = .awaiting → ∃ line, c.typed.getLast? = some line ∧
    (Client.Unasked line ∧ (callsOf jvm c).length = c.received.length ∨
      ¬ Client.Unasked line ∧ (callsOf jvm c).length = c.received.length + 1)

theorem start_turned : Turned jvm start := ⟨fun _ => rfl, by simp [start]⟩

theorem Turned.same (h : Turned jvm c) (htyped : d.typed = c.typed) (hmode : d.mode = c.mode)
    (hreceived : d.received = c.received) : Turned jvm d := by
  obtain ⟨hp, ha⟩ := h
  refine ⟨fun hd => ?_, fun hd => ?_⟩
  · rw [callsOf, htyped, hreceived]
    exact hp (hmode ▸ hd)
  · rw [callsOf, htyped, hreceived]
    exact ha (hmode ▸ hd)

theorem leave_turned (c : Connection) (e : Exit) : Turned jvm (c.leave e) :=
  ⟨fun h => Mode.noConfusion h, fun h => Mode.noConfusion h⟩

theorem callsOf_accept (jvm : Jvm) (c : Connection) (line : List Char) (written : List Received) :
    callsOf jvm (c.accept line written) = callsOf jvm c ++ (Client.callOf jvm line).toList := by
  rw [callsOf, accept, List.filterMap_append, callsOf]
  cases h : Client.callOf jvm line <;> simp [h]

theorem not_unasked_of_call {line : List Char} {a : Call} (h : Client.callOf jvm line = some a) :
    ¬ Client.Unasked line := by
  rintro ⟨hone, htwo⟩
  simp only [Client.callOf] at h
  split at h
  · next hs => exact hone (by rw [hs]; rfl)
  · next hs => exact htwo (by rw [hs]; rfl)
  · cases h

theorem Turned.typeLine (h : Turned jvm c) {tr ta : Bool} {line : List Char}
    (hd : c.typeLine jvm tr ta line = some d) : Turned jvm d := by
  rw [Connection.typeLine] at hd
  split at hd
  swap
  · cases hd
  next hmode =>
  have hcount := h.prompting hmode
  have hlast : (c.typed ++ [line]).getLast? = some line := List.getLast?_concat
  rcases Client.ask_cases jvm tr ta line with
    ⟨a, turn, hcall, hask, rfl | rfl⟩ | ⟨e, os, r, hask, -⟩ | ⟨hcall, hask⟩
  · rw [hask] at hd
    cases hd
    refine ⟨fun hp => Mode.noConfusion hp, fun _ =>
      ⟨line, hlast, Or.inr ⟨not_unasked_of_call hcall, ?_⟩⟩⟩
    have hmore := congrArg List.length (callsOf_accept jvm c line a.request.objects)
    rw [hcall, List.length_append, hcount] at hmore
    exact hmore
  · rw [hask] at hd
    cases hd
    exact leave_turned _ _
  · rw [hask] at hd
    cases hd
    exact leave_turned _ _
  · have hmore := congrArg List.length (callsOf_accept jvm c line [])
    rw [hcall, Option.toList_none, List.append_nil, hcount] at hmore
    rcases hask with ⟨hask, -⟩ | ⟨hask, hunasked⟩
    · rw [hask] at hd
      cases hd
      exact ⟨fun _ => hmore, fun ha => by simp [accept, hmode] at ha⟩
    · rw [hask] at hd
      cases hd
      exact ⟨fun hp => Mode.noConfusion hp, fun _ => ⟨line, hlast, Or.inl ⟨hunasked, hmore⟩⟩⟩

/-- A response that can be read answers a call. -/
theorem Agrees.lt_of_stream (h : Agrees jvm c asked results told) {v : Value} {vs : List Value}
    (hstream : c.toClient = v :: vs) : c.received.length < (callsOf jvm c).length := by
  have hle := h.coming_le.length_le
  have hasked := h.typed_le.length_le
  have hexecuted := h.executed_le
  simp only [hstream, List.length_map, List.length_append, List.length_cons] at hle
  rw [callsOf]
  omega

theorem Turned.read (h : Turned jvm c) (hagrees : Agrees jvm c asked results told)
    {running found : Bool} (hd : c.read running found = some d) : Turned jvm d := by
  rw [Connection.read] at hd
  split at hd
  swap
  · cases hd
  next hmode =>
  split at hd
  · next v vs hstream =>
    split at hd
    swap
    · cases hd
      exact leave_turned _ _
    · cases hd
      refine ⟨fun _ => ?_, fun ha => Mode.noConfusion ha⟩
      have hlt := hagrees.lt_of_stream hstream
      obtain ⟨line, -, ⟨-, hcount⟩ | ⟨-, hcount⟩⟩ := h.awaiting hmode
      · omega
      · rw [callsOf] at hcount
        rw [callsOf, List.length_append, hcount]
        rfl
  · split at hd
    · cases hd
      exact leave_turned _ _
    · cases hd

theorem serve_eq_none_iff {world : World} :
    c.serve jvm world = none ↔
      (c.phase = .reading → c.toServer.length < 2 ∧ c.intact = true) := by
  rw [serve]
  split
  · next h =>
    refine iff_of_false (by simp) fun hshort => ?_
    obtain ⟨hlen, hintact⟩ := hshort h.1
    rcases h.2 with htwo | hgone
    · omega
    · exact Bool.false_ne_true (hgone.symm.trans hintact)
  · next h =>
    refine iff_of_true rfl fun hphase => ?_
    simpa [hphase] using h

theorem write_eq_none_iff : c.write = none ↔ ∀ v e, c.phase ≠ .writing v e := by
  rw [write]
  split
  · next v e hphase => exact iff_of_false (by simp) fun h => h v e hphase
  · next h => exact iff_of_true rfl h

theorem read_eq_none_iff (hmode : c.mode = .awaiting) {running found : Bool} :
    c.read running found = none ↔ c.toClient = [] ∧ c.ended running = false := by
  rw [read, if_pos hmode]
  split
  · next v vs hstream =>
    refine iff_of_false ?_ fun h => by simp [hstream] at h
    split <;> simp
  · next hstream =>
    rw [and_iff_right hstream]
    cases c.ended running <;> simp

theorem ended_eq_false_iff {running : Bool} :
    c.ended running = false ↔
      c.cut = false ∧ running = true ∧ ∀ b, c.phase ≠ .finished (.returned b) := by
  simp only [ended, Bool.or_eq_false_iff, Bool.not_eq_false', decide_eq_false_iff_not, and_assoc,
    Bool.forall_bool]
  tauto

theorem typeLine_phase {tr ta : Bool} {line : List Char} (hd : c.typeLine jvm tr ta line = some d) :
    d.phase = c.phase := by
  simp only [typeLine] at hd
  split at hd
  · split at hd <;> (cases hd; rfl)
  · cases hd

theorem read_phase {running found : Bool} (hd : c.read running found = some d) :
    d.phase = c.phase := by
  simp only [read] at hd
  split at hd
  · split at hd
    · split at hd <;> (cases hd; rfl)
    · split at hd
      · cases hd
        rfl
      · cases hd
  · cases hd

theorem serve_exited {world : World} {r : Served} (hd : c.serve jvm world = some (r, d))
    (hphase : d.phase = .finished .exited) : r.ending = .exited := by
  rw [serve] at hd
  split at hd
  · obtain ⟨rfl, rfl⟩ := Prod.mk.inj (Option.some.inj hd)
    simp only [Phase.after, Phase.settle] at hphase
    split at hphase
    · split at hphase
      · cases hphase
      · exact Phase.finished.inj hphase
    · cases hphase
  · cases hd

theorem objects_length (calls : List Call) : (objects calls).length = 2 * calls.length := by
  induction calls with
  | nil => rfl
  | cons a calls ih =>
    rw [objects, List.flatMap_cons, List.length_append, ← objects, ih, List.length_cons]
    simp only [Request.objects, List.length_cons, List.length_nil]
    omega

/-- An intact session that reads has no more requests before it, and no response on its
way, exactly when every call of its client has been answered. -/
theorem Agrees.idle_iff (h : Agrees jvm c asked results told) (hi : c.intact = true)
    (hphase : c.phase = .reading) :
    (c.toServer.length < 2 ∧ c.toClient = []) ↔
      (callsOf jvm c).length = c.received.length := by
  have hwaiting := congrArg List.length (h.waiting hi)
  have hcoming := congrArg List.length (h.coming hi (by rw [hphase]; rfl))
  have hpending : c.phase.pending = [] := by rw [hphase]; rfl
  have hexecuted := h.executed_le
  have hasked := congrArg List.length (h.typed (intact_iff.mp hi).2)
  rw [objects_length, List.length_drop] at hwaiting
  simp only [hpending, List.append_nil, List.length_map, List.length_append] at hcoming
  rw [callsOf, ← List.length_eq_zero_iff]
  omega

end Connection

namespace System

variable {ι : Type*} [DecidableEq ι] {jvm : Jvm} {s t : System ι}

/-- Neither end of the connection can go on. -/
structure Stuck (jvm : Jvm) (s : System ι) (i : ι) : Prop where
  serve : ∀ outcome writes, step jvm s (.serve i outcome writes) = none
  write : step jvm s (.write i) = none
  read : ∀ found, step jvm s (.read i found) = none

def Stands (s : System ι) (i : ι) : Prop := s.running = true ∧ (s.connection i).cut = false

/-- The connection that a step is about. -/
def Label.party : Label ι → Option ι
  | .typeLine i _ _ _ | .endOfInput i | .serve i _ _ | .write i | .read i _ | .breakOff i _ _ =>
    some i
  | .stop => none

structure Orderly (jvm : Jvm) (s : System ι) : Prop where
  turned : ∀ i, (s.connection i).Turned jvm
  exited : ∀ i, (s.connection i).phase = .finished .exited → s.running = false

theorem Orderly.update (h : Orderly jvm s) {i : ι} {d : Connection} {running : Bool}
    {lot : SynchronizedParkingLot} (hd : d.Turned jvm)
    (hrunning : s.running = false → running = false)
    (hphase : d.phase = .finished .exited → running = false) :
    Orderly jvm { s.set i d with lot := lot, running := running } := by
  refine ⟨fun j => ?_, fun j => ?_⟩
  · rcases eq_or_ne j i with rfl | hj
    · simpa [System.set] using hd
    · simpa [System.set, Function.update_of_ne hj] using h.turned j
  · rcases eq_or_ne j i with rfl | hj
    · simpa [System.set] using hphase
    · simpa [System.set, Function.update_of_ne hj] using fun he => hrunning (h.exited j he)

theorem Orderly.set (h : Orderly jvm s) {i : ι} {d : Connection} (hd : d.Turned jvm)
    (hphase : d.phase = .finished .exited → s.running = false) : Orderly jvm (s.set i d) :=
  h.update hd id hphase

theorem step_orderly {o : Service ι} {a : Label ι} (h : Orderly jvm s) (ho : Related jvm s o)
    (ht : step jvm s a = some t) : Orderly jvm t := by
  cases a with
  | typeLine i tr ta line =>
    obtain ⟨d, hd, rfl⟩ := Option.map_eq_some_iff.mp ht
    exact h.set ((h.turned i).typeLine hd)
      fun hphase => h.exited i (Connection.typeLine_phase hd ▸ hphase)
  | endOfInput i =>
    obtain ⟨d, hd, rfl⟩ := Option.map_eq_some_iff.mp ht
    rw [Connection.endOfInput] at hd
    split at hd
    · cases hd
      exact h.set (Connection.leave_turned _ _) (h.exited i)
    · cases hd
  | serve i outcome writes =>
    simp only [step] at ht
    split at ht
    swap
    · cases ht
    next hrunning =>
    obtain ⟨⟨r, d⟩, hd, rfl⟩ := Option.map_eq_some_iff.mp ht
    refine h.update ?_ (fun hstopped => ?_) fun hphase => ?_
    · obtain ⟨-, ⟨a, q, rest, -, -, -, -, rfl⟩ | ⟨-, -, e, rest, -, rfl⟩⟩ :=
        (ho.agrees i).serve_cases hd
      · exact (h.turned i).same rfl rfl rfl
      · exact (h.turned i).same rfl rfl rfl
    · rw [hrunning] at hstopped
      cases hstopped
    · rw [Connection.serve_exited hd hphase]
      rfl
  | write i =>
    simp only [step] at ht
    split at ht
    swap
    · cases ht
    obtain ⟨d, hd, rfl⟩ := Option.map_eq_some_iff.mp ht
    rw [Connection.write] at hd
    split at hd
    · next v e hphase =>
      cases hd
      obtain rfl := (ho.agrees i).goesOn v e hphase
      exact h.set ((h.turned i).same rfl rfl rfl) fun hover => by simp [Phase.settle] at hover
    · cases hd
  | read i found =>
    obtain ⟨d, hd, rfl⟩ := Option.map_eq_some_iff.mp ht
    exact h.set ((h.turned i).read (ho.agrees i) hd)
      fun hphase => h.exited i (Connection.read_phase hd ▸ hphase)
  | breakOff i m n =>
    cases ht
    exact h.set ((h.turned i).same rfl rfl rfl) (h.exited i)
  | stop =>
    cases ht
    exact ⟨h.turned, fun _ _ => rfl⟩

theorem run_orderly (hjvm : jvm.FindsAgain) {capacity : Int32} {labels : List (Label ι)}
    (hs : run (step jvm) (start capacity) labels = some s) :
    Orderly jvm s ∧ ∃ o : Service ι, Related jvm s o := by
  refine run_invariant (I := fun s => Orderly jvm s ∧ ∃ o : Service ι, Related jvm s o) ?_
    ⟨⟨fun _ => Connection.start_turned, by simp [start, Connection.start]⟩, _, start_related capacity⟩ hs
  rintro s a t ⟨hs, o, ho⟩ ht
  obtain ⟨-, o', -, ho'⟩ := (refines hjvm).matched ho ht
  exact ⟨step_orderly hs ho ht, o', ho'⟩

theorem stuck_iff_disabled {i : ι} (hmode : (s.connection i).mode = .awaiting) :
    Stuck jvm s i ↔
      (s.running = true ∧ (s.connection i).cut = false ∧ (s.connection i).toClient = []) ∧
        (∀ b, (s.connection i).phase ≠ .finished (.returned b)) ∧
        (∀ v e, (s.connection i).phase ≠ .writing v e) ∧
        ((s.connection i).phase = .reading → (s.connection i).toServer.length < 2) := by
  have hleft : (s.connection i).mode.hasLeft = false := by rw [hmode]; rfl
  constructor
  · rintro ⟨hserve, hwrite, hread⟩
    obtain ⟨hstream, hended⟩ := (Connection.read_eq_none_iff hmode).mp
      (Option.map_eq_none_iff.mp (hread true))
    obtain ⟨hcut, hrunning, hover⟩ := Connection.ended_eq_false_iff.mp hended
    simp only [step, hrunning, if_true, Option.map_eq_none_iff] at hserve hwrite
    refine ⟨⟨hrunning, hcut, hstream⟩, hover, Connection.write_eq_none_iff.mp hwrite, ?_⟩
    exact fun hphase => (Connection.serve_eq_none_iff.mp
      (hserve (fun _ _ => .throws) fun _ => true) hphase).1
  · rintro ⟨⟨hrunning, hcut, hstream⟩, hover, hwriting, hreading⟩
    have hintact := Connection.intact_iff.mpr ⟨hcut, hleft⟩
    refine ⟨fun outcome writes => ?_, ?_, fun found => ?_⟩
    · simp only [step, hrunning, if_true, Option.map_eq_none_iff]
      exact Connection.serve_eq_none_iff.mpr fun hphase => ⟨hreading hphase, hintact⟩
    · simp only [step, hrunning, if_true, Option.map_eq_none_iff]
      exact Connection.write_eq_none_iff.mpr hwriting
    · exact Option.map_eq_none_iff.mpr ((Connection.read_eq_none_iff hmode).mpr
        ⟨hstream, Connection.ended_eq_false_iff.mpr ⟨hcut, hrunning, hover⟩⟩)

theorem step_connection {a : Label ι} (ht : step jvm s a = some t) {i : ι}
    (hi : a.party ≠ some i) : t.connection i = s.connection i := by
  have hset : ∀ {j : ι} (d : Connection), some j ≠ some i → (s.set j d).connection i =
      s.connection i := fun d hj => Function.update_of_ne (fun he => hj (congrArg some he.symm)) _ _
  cases a with
  | typeLine j | endOfInput j | read j =>
    obtain ⟨d, -, rfl⟩ := Option.map_eq_some_iff.mp ht
    exact hset d hi
  | serve j | write j =>
    simp only [step] at ht
    split at ht
    · obtain ⟨d, -, rfl⟩ := Option.map_eq_some_iff.mp ht
      exact hset _ hi
    · cases ht
  | breakOff j =>
    cases ht
    exact hset _ hi
  | stop =>
    cases ht
    rfl

/-- The client and the session of a stuck connection take no step, so it stays as it is. -/
theorem Stuck.step {i : ι} (h : Stuck jvm s i) (hmode : (s.connection i).mode = .awaiting)
    {a : Label ι} (ht : System.step jvm s a = some t) (hstands : t.Stands i) :
    Stuck jvm t i ∧ (t.connection i).mode = .awaiting := by
  have hparty : a.party ≠ some i := by
    intro hi
    cases a with
    | typeLine j | endOfInput j =>
      cases hi
      simp [System.step, Connection.typeLine, Connection.endOfInput, hmode] at ht
    | serve j =>
      cases hi
      cases (h.serve _ _).symm.trans ht
    | write j =>
      cases hi
      cases h.write.symm.trans ht
    | read j =>
      cases hi
      cases (h.read _).symm.trans ht
    | breakOff j =>
      cases hi
      cases ht
      simp [Stands, set, Connection.breakOff] at hstands
    | stop => cases hi
  have hsame := step_connection ht hparty
  rw [stuck_iff_disabled hmode] at h
  rw [← hsame] at h hmode
  exact ⟨(stuck_iff_disabled hmode).mpr ⟨⟨hstands.1, h.1.2⟩, h.2⟩, hmode⟩

/-- A client that is stuck stays so as long as the server runs and its connection stands. -/
theorem Stuck.lasts {i : ι} {labels : List (Label ι)} (h : Stuck jvm s i)
    (hmode : (s.connection i).mode = .awaiting)
    (hstands : Always (System.step jvm) (fun t => t.Stands i) s labels) :
    Always (System.step jvm) (fun t => Stuck jvm t i) s labels := by
  induction labels generalizing s with
  | nil => exact h
  | cons a labels ih =>
    refine ⟨h, fun t ht => ?_⟩
    have hlater := hstands.2 t ht
    obtain ⟨hstuck, hawaiting⟩ := h.step hmode ht hlater.head
    exact ih hstuck hawaiting hlater

/-- While the server runs and the connection stands, a client waits for a response that
nobody is going to send exactly when its last line made no call, or when its session has
been left by an error or hangs in a method from outside the repository. -/
theorem stuck_iff (hjvm : jvm.FindsAgain) {capacity : Int32} {labels : List (Label ι)}
    (hs : run (step jvm) (start capacity) labels = some s) {i : ι}
    (hmode : (s.connection i).mode = .awaiting) :
    Stuck jvm s i ↔ s.running = true ∧ (s.connection i).cut = false ∧
      ((s.connection i).phase = .reading ∧
          (∃ line, (s.connection i).typed.getLast? = some line ∧ Client.Unasked line) ∨
        (s.connection i).toClient = [] ∧
          ((s.connection i).phase = .finished .escaped ∨ (s.connection i).phase = .finished .hung)) := by
  obtain ⟨horderly, o, ho⟩ := run_orderly hjvm hs
  have hagrees := ho.agrees i
  have hleft : (s.connection i).mode.hasLeft = false := by rw [hmode]; rfl
  obtain ⟨last, hlast, hcount⟩ := (horderly.turned i).awaiting hmode
  rw [stuck_iff_disabled hmode]
  constructor
  · rintro ⟨⟨hrunning, hcut, hstream⟩, hover, hwriting, hreading⟩
    refine ⟨hrunning, hcut, ?_⟩
    cases hphase : (s.connection i).phase with
    | reading =>
      have hall := (hagrees.idle_iff (Connection.intact_iff.mpr ⟨hcut, hleft⟩) hphase).mp
        ⟨hreading hphase, hstream⟩
      rcases hcount with ⟨hunasked, -⟩ | ⟨-, hmore⟩
      · exact Or.inl ⟨rfl, last, hlast, hunasked⟩
      · omega
    | writing v e => exact absurd hphase (hwriting v e)
    | finished e =>
      refine Or.inr ⟨hstream, ?_⟩
      cases e with
      | returned b => exact absurd hphase (hover b)
      | escaped => exact Or.inl rfl
      | hung => exact Or.inr rfl
      | exited =>
        have hstopped := horderly.exited i hphase
        rw [hrunning] at hstopped
        cases hstopped
  · rintro ⟨hrunning, hcut, ⟨hphase, line, hline, hunasked⟩ | ⟨hstream, hphase⟩⟩
    · cases hlast.symm.trans hline
      rcases hcount with ⟨-, hall⟩ | ⟨hasked, -⟩
      · obtain ⟨hshort, hstream⟩ :=
          (hagrees.idle_iff (Connection.intact_iff.mpr ⟨hcut, hleft⟩) hphase).mpr hall
        refine ⟨⟨hrunning, hcut, hstream⟩, ?_, ?_, fun _ => hshort⟩ <;> simp [hphase]
      · exact absurd hunasked hasked
    · refine ⟨⟨hrunning, hcut, hstream⟩, ?_⟩
      rcases hphase with hphase | hphase <;> simp [hphase]

/-- A line of three tokens: no request is written, and a response is awaited. -/
theorem stuck_iff_three_tokens :
    let labels : List (Label (Fin 1)) := [.typeLine 0 true true "in 1 2".toList]
    Jvm.bare.FindsAgain ∧
      ∃ s, run (step Jvm.bare) (start 5) labels = some s ∧
        (s.connection 0).mode = .awaiting ∧ Stuck Jvm.bare s 0 := by
  intro labels
  obtain ⟨s, hs, hmode, hrunning, hcut, hphase, htyped⟩ :
      ∃ s, run (step Jvm.bare) (start 5) labels = some s ∧ (s.connection 0).mode = .awaiting ∧
        s.running = true ∧ (s.connection 0).cut = false ∧ (s.connection 0).phase = .reading ∧
        (s.connection 0).typed = ["in 1 2".toList] := ⟨_, rfl, rfl, rfl, rfl, rfl, rfl⟩
  have hlast : (s.connection 0).typed.getLast? = some "in 1 2".toList := by rw [htyped]; rfl
  have hunasked : Client.Unasked "in 1 2".toList := ⟨by decide, by decide⟩
  exact ⟨Jvm.bare_findsAgain, s, hs, hmode, (stuck_iff Jvm.bare_findsAgain hs hmode).mpr
    ⟨hrunning, hcut, Or.inl ⟨hphase, _, hlast, hunasked⟩⟩⟩

end System

end Vsys.RpcParkingSim
