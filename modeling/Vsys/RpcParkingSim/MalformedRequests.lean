import Vsys.RpcParkingSim.Confinement

/-! Requests that do not make sense to a session: what they do to the lot, and how
the session ends. -/

namespace Vsys.RpcParkingSim

/-- Where `run` is when its loop is over: before the closing of both streams, or
not in `run` any more. -/
inductive RunEnd where
  | closing
  | escaped
  | exited
  | hung
  deriving DecidableEq, Repr

namespace Session

def runEnd (s : Session) : Option RunEnd :=
  if s.running then none
  else
    s.served.getLast?.map fun r =>
      match r.ending with
      | .returned _ => .closing
      | .escaped => .escaped
      | .exited => .exited
      | .hung => .hung

/-- A reference and an array do not both arrive; or the reference leads nowhere; or
it leads to a method of the service that does not take the arguments, of which there
are at most two. -/
def Malformed (jvm : Jvm) (input : List Incoming) : Prop :=
  ∀ r args, input.head? = some (.object (.reference r)) →
    input.tail.head? = some (.object (.array args)) →
    (¬ ∃ m, r.ResolvesTo jvm m) ∨
      ∃ s : ServiceMethod, r.ResolvesTo jvm s.method ∧ args.length ≤ 2 ∧ ∀ l, s.call args l = none

/-- No object of another class stands where a reference or an array is read, and no
read ends otherwise than by an object or the two exceptions the session expects. -/
structure Readable (input : List Incoming) : Prop where
  first : ∀ o, input.head? = some o →
    o ≠ .runtimeException ∧ o ≠ .error ∧ o ≠ .object .other ∧ ∀ args, o ≠ .object (.array args)
  second : ∀ v o, input.head? = some (.object v) → input.tail.head? = some o →
    o ≠ .runtimeException ∧ o ≠ .error ∧ o ≠ .object .other ∧ ∀ r, o ≠ .object (.reference r)

/-- Where the session comes to show the arguments, this does not end in an error. -/
def Showable (jvm : Jvm) (input : List Incoming) : Prop :=
  ∀ r args m, input.head? = some (.object (.reference r)) →
    input.tail.head? = some (.object (.array args)) → r.ResolvesTo jvm m →
      Value.arraysToString args ≠ .errs

theorem castWith_escaped {α : Type} {cast : Received → Option α} {o : Option Incoming} :
    castWith cast o = .escaped ↔
      o = some .runtimeException ∨ o = some .error ∨ ∃ v, o = some (.object v) ∧ cast v = none := by
  rcases o with _ | ⟨v⟩ | _ | _ | _ | _
  · simp [castWith]
  · cases hv : cast v <;> simp [castWith, hv]
  · simp [castWith]
  · simp [castWith]
  · simp [castWith]
  · simp [castWith]

theorem readMethod_escaped {o : Option Incoming} :
    readMethod o = .escaped ↔
      o = some .runtimeException ∨ o = some .error ∨ o = some (.object .other) ∨
        ∃ args, o = some (.object (.array args)) := by
  rw [readMethod, castWith_escaped]
  refine or_congr_right (or_congr_right ⟨?_, ?_⟩)
  · rintro ⟨v, rfl, hv⟩
    cases v with
    | null => cases hv
    | reference r => cases hv
    | array args => exact Or.inr ⟨args, rfl⟩
    | other => exact Or.inl rfl
  · rintro (rfl | ⟨args, rfl⟩)
    · exact ⟨.other, rfl, rfl⟩
    · exact ⟨.array args, rfl, rfl⟩

theorem readArgs_escaped {o : Option Incoming} :
    readArgs o = .escaped ↔
      o = some .runtimeException ∨ o = some .error ∨ o = some (.object .other) ∨
        ∃ r, o = some (.object (.reference r)) := by
  rw [readArgs, castWith_escaped]
  refine or_congr_right (or_congr_right ⟨?_, ?_⟩)
  · rintro ⟨v, rfl, hv⟩
    cases v with
    | null => cases hv
    | reference r => exact Or.inr ⟨r, rfl⟩
    | array args => cases hv
    | other => exact Or.inl rfl
  · rintro (rfl | ⟨r, rfl⟩)
    · exact ⟨.other, rfl, rfl⟩
    · exact ⟨.reference r, rfl, rfl⟩

theorem dispatch_unfit {jvm : Jvm} (world : World) {s : ServiceMethod} {args : List Value}
    (hlen : args.length ≤ 2) (hcall : ∀ l, s.call args l = none) :
    (dispatch jvm world (.ofMethod s.method) args).ending = .returned false ∧
      (dispatch jvm world (.ofMethod s.method) args).lot = world.lot := by
  have hmethod : (SerializableMethod.ofMethod s.method).method_ jvm =
      .ok (s.method, .ofMethod s.method) := rfl
  have hrespond : respond jvm world (.ofMethod s.method) args = failed world := by
    rw [respond_of_method world hmethod, invoke_service, hcall]
    rfl
  rcases args with _ | ⟨a, _ | ⟨b, _ | ⟨c, args⟩⟩⟩
  · rw [dispatch, hrespond]
    exact ⟨rfl, rfl⟩
  · rw [dispatch, hrespond]
    exact ⟨rfl, rfl⟩
  · exact ⟨rfl, rfl⟩
  · simp at hlen

theorem answer_malformed {jvm : Jvm} {input : List Incoming} (h : Malformed jvm input)
    (world : World) {m : Option SerializableMethod} {args : Option (List Value)}
    (hm : readMethod input.head? = .value m) (ha : readArgs input.tail.head? = .value args)
    (hshow : Showable jvm input) :
    (answer jvm world m args).ending = .returned false ∧
      (answer jvm world m args).lot = world.lot := by
  rcases answer_cases jvm world m args with hfail |
    ⟨m₀, m', found, args', rfl, rfl, hmethod, -, hshown⟩
  · rw [hfail]
    exact ⟨rfl, rfl⟩
  · obtain ⟨r, hr, rfl⟩ := readMethod_reference hm
    have hresolves := Reference.resolvesTo_of_method hmethod
    rcases hshown with ⟨herr, -⟩ | ⟨-, hdispatch⟩
    · exact absurd herr (hshow r args' found hr (readArgs_array ha) hresolves)
    · rcases h r args' hr (readArgs_array ha) with hnone | ⟨s, hs, hlen, hcall⟩
      · exact absurd ⟨found, hresolves⟩ hnone
      · have hm' : m' = .ofMethod s.method := by
          cases hs.method_eq.symm.trans hmethod
          rfl
        rw [hdispatch, hm']
        exact dispatch_unfit world hlen hcall

theorem serveOnce_unshowable {jvm : Jvm} {input : List Incoming} (h : ¬ Showable jvm input)
    (world : World) : serveOnce jvm world input = (escaped world, 2) := by
  simp only [Showable, not_forall, not_not] at h
  obtain ⟨r, args, m, hr, hargs, hresolves, herr⟩ := h
  have hm : readMethod input.head? = .value (some (.readObject r)) := by rw [hr]; rfl
  have ha : readArgs input.tail.head? = .value (some args) := by rw [hargs]; rfl
  simp only [serveOnce, hm, ha, answer, hresolves.method_eq, herr]

theorem readable_iff {input : List Incoming} :
    Readable input ↔ readMethod input.head? ≠ .escaped ∧
      ∀ m, readMethod input.head? = .value m → readArgs input.tail.head? ≠ .escaped := by
  constructor
  · intro h
    refine ⟨fun he => ?_, fun m hm he => ?_⟩
    · rcases readMethod_escaped.mp he with ho | ho | ho | ⟨args, ho⟩
      · exact (h.first _ ho).1 rfl
      · exact (h.first _ ho).2.1 rfl
      · exact (h.first _ ho).2.2.1 rfl
      · exact (h.first _ ho).2.2.2 args rfl
    · obtain ⟨v, hv, -⟩ := castWith_value hm
      rcases readArgs_escaped.mp he with ho | ho | ho | ⟨r, ho⟩
      · exact (h.second v _ hv ho).1 rfl
      · exact (h.second v _ hv ho).2.1 rfl
      · exact (h.second v _ hv ho).2.2.1 rfl
      · exact (h.second v _ hv ho).2.2.2 r rfl
  · rintro ⟨hfirst, hsecond⟩
    have hfits : ∀ o, input.head? = some o → o ≠ .runtimeException ∧ o ≠ .error ∧
        o ≠ .object .other ∧ ∀ args, o ≠ .object (.array args) := by
      intro o ho
      rw [ho, Ne, readMethod_escaped, not_or, not_or, not_or, not_exists] at hfirst
      simpa only [Option.some.injEq] using hfirst
    refine ⟨hfits, fun v o hv ho => ?_⟩
    obtain ⟨-, -, hother, harray⟩ := hfits _ hv
    have hvalue : ∃ m, readMethod input.head? = .value m := by
      rw [hv]
      cases v with
      | null => exact ⟨none, rfl⟩
      | reference r => exact ⟨some (.readObject r), rfl⟩
      | array args => exact absurd rfl (harray args)
      | other => exact absurd rfl hother
    obtain ⟨m, hm⟩ := hvalue
    have hargs := hsecond m hm
    rw [ho, Ne, readArgs_escaped, not_or, not_or, not_or, not_exists] at hargs
    simpa only [Option.some.injEq] using hargs

theorem serveOnce_malformed {jvm : Jvm} {input : List Incoming} (h : Malformed jvm input)
    (world : World) :
    (serveOnce jvm world input).1.lot = world.lot ∧
      (((Readable input ∧ Showable jvm input) ∧
          (serveOnce jvm world input).1.ending = .returned false) ∨
        (¬ (Readable input ∧ Showable jvm input) ∧
          (serveOnce jvm world input).1.ending = .escaped)) := by
  by_cases hshow : Showable jvm input
  · rw [and_iff_left hshow, readable_iff]
    cases hm : readMethod input.head? with
    | failed => simp [serveOnce, hm, failed]
    | escaped => simp [serveOnce, hm, escaped]
    | value m =>
      cases ha : readArgs input.tail.head? with
      | failed =>
        have hserve : serveOnce jvm world input = (failed world, 2) := by
          simp only [serveOnce, hm, ha]
        simp [hserve, failed]
      | escaped =>
        have hserve : serveOnce jvm world input = (escaped world, 2) := by
          simp only [serveOnce, hm, ha]
        simp [hserve, escaped]
      | value args =>
        obtain ⟨hending, hlot⟩ := answer_malformed h world hm ha hshow
        have hserve : serveOnce jvm world input = (answer jvm world m args, 2) := by
          simp only [serveOnce, hm, ha]
        simp [hserve, hending, hlot]
  · rw [serveOnce_unshowable hshow]
    exact ⟨rfl, Or.inr ⟨fun hclean => hshow hclean.2, rfl⟩⟩

theorem step_runEnd {jvm : Jvm} {s t : Session} {world : World} (h : step jvm s world = some t) :
    ((serveOnce jvm world s.input).1.ending = .returned false → t.runEnd = some .closing) ∧
      ((serveOnce jvm world s.input).1.ending = .escaped → t.runEnd = some .escaped) := by
  rw [step] at h
  split at h
  · cases h
    refine ⟨fun he => ?_, fun he => ?_⟩ <;> simp [runEnd, he]
  · cases h

/-- A malformed request never touches the lot; and it makes `serveOnce` return false,
so that `run` comes to close the streams, exactly when the session can read it and the
arguments it shows end in no error. -/
theorem malformed_ends_cleanly_iff {jvm : Jvm} {input : List Incoming} (h : Malformed jvm input)
    (world : World) :
    (serveOnce jvm world input).1.lot = world.lot ∧
      (((serveOnce jvm world input).1.ending = .returned false ∧
        ∀ s t, s.input = input → step jvm s world = some t → t.runEnd = some .closing) ↔
        Readable input ∧ Showable jvm input) := by
  obtain ⟨hlot, hcases⟩ := serveOnce_malformed h world
  refine ⟨hlot, ?_⟩
  rcases hcases with ⟨hclean, hending⟩ | ⟨hclean, hending⟩
  · refine iff_of_true ⟨hending, fun s t hs ht => (step_runEnd ht).1 ?_⟩ hclean
    rw [hs, hending]
  · refine iff_of_false (fun hended => ?_) hclean
    cases hended.1.symm.trans hending

theorem malformed_ends_cleanly_unfit :
    let input : List Incoming :=
      [.object (.reference ⟨some serviceClass, "free", some []⟩), .object (.array [.integer 1])]
    let world : World := ⟨⟨5, 2⟩, fun _ _ => .returns .null, fun _ => true⟩
    Malformed Jvm.bare input ∧ (serveOnce Jvm.bare world input).1.lot = ⟨5, 2⟩ ∧
      (serveOnce Jvm.bare world input).1.ending = .returned false := by
  intro input world
  have h : Malformed Jvm.bare input := by
    intro r args hr ha
    cases hr
    cases ha
    exact Or.inr ⟨.free, rfl, by decide, fun _ => rfl⟩
  have hread : Readable input := readable_iff.mpr ⟨nofun, nofun⟩
  have hshow : Showable Jvm.bare input := by
    intro r args m hr hargs _
    cases hr
    cases hargs
    decide
  obtain ⟨hlot, hclean⟩ := malformed_ends_cleanly_iff h world
  exact ⟨h, hlot, (hclean.mpr ⟨hread, hshow⟩).1⟩

/-- An object of another class in place of the reference takes the session out of
`run` before it has closed anything. -/
theorem other_object_escapes :
    let input : List Incoming := [.object .other, .object (.array [])]
    let world : World := ⟨⟨5, 2⟩, fun _ _ => .returns .null, fun _ => true⟩
    Malformed Jvm.bare input ∧ (serveOnce Jvm.bare world input).1.ending = .escaped ∧
      ∃ t, step Jvm.bare (start input) world = some t ∧ t.runEnd = some .escaped := by
  intro input world
  refine ⟨fun r args hr => ?_, by decide, _, rfl, by decide⟩
  cases hr

/-- So does an argument that contains itself, for which `toString()` runs out of stack. -/
theorem cyclic_argument_escapes :
    let input : List Incoming := [.object (.reference ⟨some serviceClass, "free", some []⟩),
      .object (.array [.object "java.util.ArrayList" .errs])]
    let world : World := ⟨⟨5, 2⟩, fun _ _ => .returns .null, fun _ => true⟩
    Malformed Jvm.bare input ∧ Readable input ∧
      (serveOnce Jvm.bare world input).1.ending = .escaped := by
  intro input world
  refine ⟨fun r args hr ha => ?_, readable_iff.mpr ⟨nofun, nofun⟩, by decide⟩
  cases hr
  cases ha
  exact Or.inr ⟨.free, rfl, by decide, fun _ => rfl⟩

end Session

end Vsys.RpcParkingSim
