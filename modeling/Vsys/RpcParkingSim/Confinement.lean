import Vsys.RpcParkingSim.Session

/-! Which methods a peer can make a session execute. -/

namespace Vsys.RpcParkingSim

theorem Jvm.getMethod_own {jvm : Jvm} {c : ClassName} {name : String} {types : List ClassName}
    {m : Method} (h : jvm.getMethod c name types = some m) (hm : m.declaringClass = serviceClass) :
    ∃ s : ServiceMethod, m = s.method := by
  rw [getMethod] at h
  split at h
  · split at h
    · next s _ => exact ⟨s, (Option.some.inj h).symm⟩
    · exact jvm.own h hm
  · exact jvm.own h hm

theorem Reference.ResolvesTo.own {jvm : Jvm} {r : Reference} {m : Method}
    (h : r.ResolvesTo jvm m) (hm : m.declaringClass = serviceClass) :
    ∃ s : ServiceMethod, m = s.method := by
  obtain ⟨c, name, types⟩ := r
  simp only [ResolvesTo, SerializableMethod.lookup] at h
  split at h
  · split at h
    · split at h
      · next hget =>
        cases h
        exact Jvm.getMethod_own hget hm
      · cases h
    · cases h
  · cases h

namespace Session

theorem castWith_value {α : Type} {cast : Received → Option α} {o : Option Incoming} {a : α}
    (h : castWith cast o = .value a) : ∃ v, o = some (.object v) ∧ cast v = some a := by
  simp only [castWith] at h
  split at h
  · next v =>
    split at h
    · next hc =>
      cases h
      exact ⟨v, rfl, hc⟩
    · cases h
  all_goals cases h

theorem readMethod_reference {o : Option Incoming} {m : SerializableMethod}
    (h : readMethod o = .value (some m)) :
    ∃ r, o = some (.object (.reference r)) ∧ m = .readObject r := by
  obtain ⟨v, ho, hv⟩ := castWith_value h
  cases v with
  | reference r =>
    cases hv
    exact ⟨r, ho, rfl⟩
  | null => cases hv
  | array args => cases hv
  | other => cases hv

theorem readArgs_array {o : Option Incoming} {args : List Value}
    (h : readArgs o = .value (some args)) : o = some (.object (.array args)) := by
  obtain ⟨v, ho, hv⟩ := castWith_value h
  cases v with
  | array args' =>
    cases hv
    exact ho
  | null => cases hv
  | reference r => cases hv
  | other => cases hv

theorem dispatch_executed {jvm : Jvm} (world : World) {m m' : SerializableMethod} {found : Method}
    (hm : m.method_ jvm = .ok (found, m')) (args : List Value) :
    (dispatch jvm world m args).executed = [] ∨
      args.length ≤ 1 ∧
        (dispatch jvm world m args).executed = (invoke jvm world found args).executed := by
  cases args with
  | nil =>
    refine Or.inr ⟨Nat.zero_le 1, ?_⟩
    rw [dispatch, respond_of_method world hm, writeResult_executed]
  | cons a args =>
    cases args with
    | nil =>
      refine Or.inr ⟨le_rfl, ?_⟩
      rw [dispatch, respond_of_method world hm, writeResult_executed]
    | cons b args =>
      refine Or.inl ?_
      cases args <;> rfl

/-- Whatever a peer sends, a session executes at most one method for a request: the
one the reference resolves to, when at most one argument comes with it; and that is
a method of `ParkingLotService`, an instance method it inherits from `Object`, or a
static method of any class. -/
theorem serveOnce_confined {jvm : Jvm} {world : World} {input : List Incoming} {n : Method}
    (h : n ∈ (serveOnce jvm world input).1.executed) :
    (serveOnce jvm world input).1.executed = [n] ∧
      (∃ r args, input.head? = some (.object (.reference r)) ∧
        input.tail.head? = some (.object (.array args)) ∧ r.ResolvesTo jvm n ∧ args.length ≤ 1) ∧
      ((∃ s : ServiceMethod, n = s.method) ∨ n.declaringClass = objectClass ∨
        n.isStatic = true) := by
  rcases serveOnce_cases jvm world input with ⟨e, k, -, hread⟩ | ⟨m, args, hm, ha, hread⟩
  · rw [hread] at h
    cases h
  rw [hread] at h ⊢
  rcases answer_cases jvm world m args with hfail |
    ⟨m₀, m', found, args', rfl, rfl, hmethod, hagain, ⟨-, herr⟩ | ⟨-, hdispatch⟩⟩
  · rw [hfail] at h
    cases h
  · rw [herr] at h
    cases h
  obtain ⟨r, hr, rfl⟩ := readMethod_reference hm
  have hresolves := Reference.resolvesTo_of_method hmethod
  rw [hdispatch] at h ⊢
  rcases dispatch_executed world hagain args' with hnone | ⟨hlen, hexec⟩
  · rw [hnone] at h
    cases h
  rw [hexec] at h ⊢
  obtain ⟨hone, rfl, hallowed⟩ := invoke_executed h
  refine ⟨hone, ⟨r, args', hr, readArgs_array ha, hresolves, hlen⟩, ?_⟩
  rcases hallowed with hstatic | hinstance
  · exact Or.inr (Or.inr hstatic)
  · rcases serviceIsInstance_iff.mp hinstance with hown | hobject
    · exact Or.inl (hresolves.own hown)
    · exact Or.inr (Or.inl hobject)

def systemJvm : Jvm where
  foreign := fun c name types =>
    if c = "java.lang.System" ∧ name = "exit" ∧ types = ["int"] then
      some ⟨"java.lang.System", "exit", ["int"], true⟩
    else none
  accepts := fun _ args => args.all fun v => v.toInt.isSome
  own := by
    intro c name types m h hm
    split at h
    · cases h
      exact absurd hm (by decide)
    · cases h

theorem serveOnce_confined_free :
    let world : World := ⟨⟨5, 0⟩, fun _ _ => .exits, fun _ => true⟩
    let input := [.object (.reference ⟨some serviceClass, "free", some []⟩), .object (.array [])]
    ServiceMethod.free.method ∈ (serveOnce systemJvm world input).1.executed ∧
      (serveOnce systemJvm world input).1.executed = [ServiceMethod.free.method] := by
  intro world input
  have h : ServiceMethod.free.method ∈ (serveOnce systemJvm world input).1.executed := by decide
  exact ⟨h, (serveOnce_confined h).1⟩

/-- A peer that sends the static method `System.exit(int)` and a number makes the
session execute it, and the server exits. -/
theorem system_exit_executed :
    let world : World := ⟨⟨5, 0⟩, fun _ _ => .exits, fun _ => true⟩
    let input :=
      [.object (.reference ⟨some "java.lang.System", "exit", some [some "int"]⟩),
        .object (.array [.integer 0])]
    let served := (serveOnce systemJvm world input).1
    served.executed = [⟨"java.lang.System", "exit", ["int"], true⟩] ∧ served.ending = .exited ∧
      ∀ s : ServiceMethod, s.method ∉ served.executed := by
  refine ⟨by decide, by decide, fun s => ?_⟩
  cases s <;> decide

end Session

end Vsys.RpcParkingSim
