import Vsys.RpcParkingSim.Session

/-! The responses of a session against its requests: one for each, in order,
unless a request has arguments that the `switch` has no branch for. -/

namespace Vsys.RpcParkingSim

open Schedule

namespace Request

def answer (jvm : Jvm) (world : World) (q : Request) : Served :=
  Session.answer jvm world (some (.readObject q.reference)) (some q.args)

def Resolves (jvm : Jvm) (q : Request) : Prop := ∃ m, q.reference.ResolvesTo jvm m

/-- There is a branch for the number of arguments, unless the request fails before
the `switch`: the reference resolves to no method, or an argument cannot be shown. -/
def Answerable (jvm : Jvm) (q : Request) : Prop :=
  q.Resolves jvm → q.args.all Value.prints = true → q.args.length ≤ 2

theorem answer_of_resolves {jvm : Jvm} {q : Request} (h : q.Resolves jvm) (world : World) :
    ∃ m : SerializableMethod, (∃ found, m.method_ jvm = .ok (found, m)) ∧
      ((q.args.all Value.prints = true ∧ q.answer jvm world = Session.dispatch jvm world m q.args) ∨
        (q.args.all Value.prints ≠ true ∧ ∃ e, e ≠ .returned true ∧
          q.answer jvm world = ⟨e, [], [], world.lot⟩)) := by
  obtain ⟨found, hfound⟩ := h
  refine ⟨.ofMethod found, ⟨found, rfl⟩, ?_⟩
  have hiff := @Value.arraysToString_eq_prints_iff q.args
  simp only [answer, Session.answer, hfound.method_eq]
  cases hp : Value.arraysToString q.args with
  | prints => exact Or.inl ⟨hiff.mp hp, rfl⟩
  | throws =>
    refine Or.inr ⟨fun hall => ?_, .returned false, by simp, rfl⟩
    cases hp.symm.trans (hiff.mpr hall)
  | errs =>
    refine Or.inr ⟨fun hall => ?_, .escaped, by simp, rfl⟩
    cases hp.symm.trans (hiff.mpr hall)

theorem answer_of_not_resolves {jvm : Jvm} {q : Request} (h : ¬ q.Resolves jvm) (world : World) :
    q.answer jvm world = Session.failed world := by
  rcases Session.answer_cases jvm world (some (.readObject q.reference)) (some q.args) with
    hfail | ⟨m, m', found, args, hm, -, hmethod, -, -⟩
  · exact hfail
  · cases hm
    exact absurd ⟨found, Reference.resolvesTo_of_method hmethod⟩ h

end Request

namespace Session

theorem serveOnce_request (jvm : Jvm) (world : World) (q : Request) (rest : List Incoming) :
    serveOnce jvm world (q.incoming ++ rest) = (q.answer jvm world, 2) := rfl

theorem serveOnce_nil (jvm : Jvm) (world : World) :
    serveOnce jvm world [] = (failed world, 1) := rfl

theorem dispatch_of_long {jvm : Jvm} {world : World} {m : SerializableMethod} {args : List Value}
    (h : 2 < args.length) : dispatch jvm world m args = ⟨.returned true, [], [], world.lot⟩ := by
  rcases args with _ | ⟨a, _ | ⟨b, _ | ⟨c, args⟩⟩⟩
  · cases h
  · cases h
    contradiction
  · simp at h
  · rfl

theorem dispatch_written {jvm : Jvm} (world : World) {m m' : SerializableMethod} {found : Method}
    (hm : m.method_ jvm = .ok (found, m')) (args : List Value) :
    (dispatch jvm world m args).written.length ≤ 1 ∧
      (((dispatch jvm world m args).ending = .returned true →
        (dispatch jvm world m args).written.length = 1) ↔ args.length ≤ 2) := by
  by_cases hlong : 2 < args.length
  · rw [dispatch_of_long hlong]
    refine ⟨Nat.zero_le 1, iff_of_false (fun h => ?_) (Nat.not_le.mpr hlong)⟩
    exact nomatch h rfl
  · rw [iff_true_right (Nat.not_lt.mp hlong)]
    rcases args with _ | ⟨a, _ | ⟨b, args⟩⟩
    · rw [dispatch, respond_of_method world hm]
      exact writeResult_written world _
    · rw [dispatch, respond_of_method world hm]
      exact writeResult_written world _
    · simp only [List.length_cons] at hlong
      obtain rfl : args = [] := List.length_eq_zero_iff.mp (by omega)
      refine ⟨?_, fun h => nomatch h⟩
      simp only [dispatch]
      split <;> simp

theorem answer_written (jvm : Jvm) (world : World) (q : Request) :
    (q.answer jvm world).written.length ≤ 1 ∧
      (((q.answer jvm world).ending = .returned true → (q.answer jvm world).written.length = 1) ↔
        q.Answerable jvm) := by
  by_cases hq : q.Resolves jvm
  · obtain ⟨m, ⟨found, hm⟩, hanswer⟩ := Request.answer_of_resolves hq world
    rw [Request.Answerable]
    rcases hanswer with ⟨hprints, hdispatch⟩ | ⟨hprints, e, he, hended⟩
    · rw [hdispatch]
      simp only [hprints, hq, true_imp_iff]
      exact dispatch_written world hm q.args
    · rw [hended]
      exact ⟨Nat.zero_le 1, iff_of_true (fun h => absurd h he) fun _ h => absurd h hprints⟩
  · rw [Request.answer_of_not_resolves hq]
    exact ⟨Nat.zero_le 1, iff_of_true (by rintro ⟨⟩) fun h => absurd h hq⟩

structure Reads (requests : List Request) (s : Session) : Prop where
  input : s.input = (requests.drop s.served.length).flatMap Request.incoming
  continued : s.running = true → ∀ r ∈ s.served, r.ending = .returned true

/-- A request served with success is answered by one object, the `k`-th object
answers the `k`-th request, and whenever the loop reads on every request before has
its answer. -/
structure InStep (jvm : Jvm) (requests : List Request) (s : Session) : Prop where
  answered : ∀ r ∈ s.served, r.ending = .returned true → r.written.length = 1
  matched : ∀ (k : ℕ) (v : Value), (s.served.flatMap Served.written)[k]? = some v →
    ∃ (q : Request) (world : World), requests[k]? = some q ∧
      s.served[k]? = some (q.answer jvm world) ∧ (q.answer jvm world).written = [v]
  upToDate : s.running = true → (s.served.flatMap Served.written).length = s.served.length

def NextAnswerable (jvm : Jvm) (requests : List Request) (s : Session) (_ : World) : Prop :=
  ∀ q, requests[s.served.length]? = some q → q.Answerable jvm

variable {jvm : Jvm} {requests : List Request}

theorem start_reads : Reads requests (start (requests.flatMap Request.incoming)) :=
  ⟨rfl, fun _ _ hr => nomatch hr⟩

theorem start_inStep : InStep jvm requests (start (requests.flatMap Request.incoming)) :=
  ⟨fun _ hr => (nomatch hr), fun k v h => by simp [start] at h, fun _ => rfl⟩

theorem serveOnce_drop (jvm : Jvm) (world : World) (requests : List Request) (n : ℕ) :
    let input := (requests.drop n).flatMap Request.incoming
    let r := serveOnce jvm world input
    input.drop r.2 = (requests.drop (n + 1)).flatMap Request.incoming ∧
      ((∃ q, requests[n]? = some q ∧ r.1 = q.answer jvm world) ∨
        (requests[n]? = none ∧ r.1 = failed world)) := by
  intro input r
  cases hq : requests[n]? with
  | none =>
    have hlen := List.getElem?_eq_none_iff.mp hq
    have hinput : input = [] := by
      rw [show input = (requests.drop n).flatMap Request.incoming from rfl,
        List.drop_eq_nil_of_le hlen]
      rfl
    have hr : r = (failed world, 1) := by
      rw [show r = serveOnce jvm world input from rfl, hinput, serveOnce_nil]
    rw [hr, hinput, List.drop_eq_nil_of_le (show requests.length ≤ n + 1 by omega)]
    exact ⟨rfl, Or.inr ⟨rfl, rfl⟩⟩
  | some q =>
    have hinput : input = q.incoming ++ (requests.drop (n + 1)).flatMap Request.incoming := by
      rw [show input = (requests.drop n).flatMap Request.incoming from rfl,
        List.drop_eq_getElem?_toList_append, hq]
      rfl
    have hr : r = (q.answer jvm world, 2) := by
      rw [show r = serveOnce jvm world input from rfl, hinput, serveOnce_request]
    rw [hr, hinput]
    exact ⟨rfl, Or.inl ⟨q, rfl, rfl⟩⟩

theorem step_served {s t : Session} {world : World} (hs : Reads requests s)
    (h : step jvm s world = some t) :
    s.running = true ∧ t.input = (requests.drop t.served.length).flatMap Request.incoming ∧
      ∃ r, t.served = s.served ++ [r] ∧ (t.running = true ↔ r.ending = .returned true) ∧
        ((∃ q, requests[s.served.length]? = some q ∧ r = q.answer jvm world) ∨
          (requests[s.served.length]? = none ∧ r = failed world)) := by
  rw [step] at h
  split at h
  · next hrun =>
    cases h
    obtain ⟨hdrop, hcase⟩ := serveOnce_drop jvm world requests s.served.length
    rw [← hs.input] at hdrop hcase
    refine ⟨hrun, ?_, _, rfl, by simp, hcase⟩
    rw [List.length_append, List.length_singleton]
    exact hdrop
  · cases h

theorem step_reads {s t : Session} {world : World} (hs : Reads requests s)
    (h : step jvm s world = some t) : Reads requests t := by
  obtain ⟨hrun, hinput, r, hserved, hgoes, -⟩ := step_served hs h
  refine ⟨hinput, fun ht r' hr' => ?_⟩
  rw [hserved] at hr'
  rcases List.mem_append.mp hr' with hr' | hr'
  · exact hs.continued hrun r' hr'
  · rw [List.mem_singleton.mp hr']
    exact hgoes.mp ht

theorem step_inStep_iff {s t : Session} {world : World} (hs : Reads requests s)
    (hi : InStep jvm requests s) (h : step jvm s world = some t) :
    InStep jvm requests t ↔ NextAnswerable jvm requests s world := by
  obtain ⟨hrun, -, r, hserved, hgoes, hcase⟩ := step_served hs h
  have hr : r ∈ t.served := by rw [hserved]; exact List.mem_append_right _ List.mem_cons_self
  constructor
  · intro ht q hget
    rcases hcase with ⟨q', hget', rfl⟩ | ⟨hnone, -⟩
    · obtain rfl : q' = q := Option.some.inj (hget'.symm.trans hget)
      exact (answer_written jvm world q').2.mp (ht.answered _ hr)
    · exact nomatch hnone.symm.trans hget
  · intro hnext
    have hlen := hi.upToDate hrun
    have hr1 : r.written.length ≤ 1 ∧ (r.ending = .returned true → r.written.length = 1) := by
      rcases hcase with ⟨q, hget, rfl⟩ | ⟨-, rfl⟩
      · obtain ⟨hle, hiff⟩ := answer_written jvm world q
        exact ⟨hle, hiff.mpr (hnext q hget)⟩
      · exact ⟨Nat.zero_le 1, fun he => nomatch he⟩
    refine ⟨fun r' hr' => ?_, fun k v hv => ?_, fun ht => ?_⟩
    · rw [hserved] at hr'
      rcases List.mem_append.mp hr' with hr' | hr'
      · exact hi.answered r' hr'
      · rw [List.mem_singleton.mp hr']
        exact hr1.2
    · rw [hserved, List.flatMap_append, List.flatMap_singleton] at hv
      rw [hserved]
      by_cases hk : k < s.served.length
      · rw [List.getElem?_append_left (by omega)] at hv
        rw [List.getElem?_append_left hk]
        exact hi.matched k v hv
      · rw [List.getElem?_append_right (by omega), hlen] at hv
        have hlt := (List.getElem?_eq_some_iff.mp hv).1
        obtain rfl : k = s.served.length := by omega
        rw [Nat.sub_self] at hv
        have hone : r.written = [v] := by
          obtain ⟨w, hw⟩ := List.length_eq_one_iff.mp (by omega : r.written.length = 1)
          rw [hw] at hv ⊢
          cases hv
          rfl
        rcases hcase with ⟨q, hget, rfl⟩ | ⟨-, rfl⟩
        · exact ⟨q, world, hget, List.getElem?_concat_length, hone⟩
        · cases hone
    · rw [hserved, List.flatMap_append, List.flatMap_singleton, List.length_append, hlen,
        hr1.2 (hgoes.mp ht), List.length_append]
      rfl

/-- A request is answered, if `serveOnce` reports success, exactly when it is
answerable; and throughout a session responses and requests stay in step exactly
when each request it reads is. -/
theorem in_step_iff (jvm : Jvm) (requests : List Request) (worlds : List World) :
    (∀ q world rest, let r := (serveOnce jvm world (Request.incoming q ++ rest)).1
      (r.ending = .returned true → r.written.length = 1) ↔ q.Answerable jvm) ∧
      (Always (step jvm) (InStep jvm requests) (start (requests.flatMap Request.incoming)) worlds ↔
        Guarded (step jvm) (NextAnswerable jvm requests)
          (start (requests.flatMap Request.incoming)) worlds) := by
  refine ⟨fun q world rest => ?_, ?_⟩
  · rw [serveOnce_request]
    exact (answer_written jvm world q).2
  · exact always_iff_guarded (fun _ _ _ hs ht => step_reads hs ht)
      (fun _ _ _ hs hi ht => step_inStep_iff hs hi ht) start_reads start_inStep worlds

theorem three_arguments_unanswered :
    let free : Reference := ⟨some serviceClass, "free", some []⟩
    let long : Request := ⟨free, [.integer 1, .integer 2, .integer 3]⟩
    let world : World := ⟨⟨5, 0⟩, fun _ _ => .returns .null, fun _ => true⟩
    (serveOnce Jvm.bare world long.incoming).1.ending = .returned true ∧
      (serveOnce Jvm.bare world long.incoming).1.written = [] ∧
      ∃ s, run (step Jvm.bare) (start ([long, ⟨free, []⟩].flatMap Request.incoming))
          [world, world] = some s ∧
        s.served.flatMap Served.written = [.string "5 spot(s) vacant"] :=
  ⟨by decide, by decide, _, rfl, by decide⟩

end Session

end Vsys.RpcParkingSim
