import Mathlib.Data.List.Chain
import Vsys.RpcParkingSim.SerializableMethod
import Vsys.Schedule.Run

/-! The life of a method wrapper: it is sent and received again, and asked for its
method, in any order. -/

namespace Vsys.RpcParkingSim

open Schedule

namespace SerializableMethod

inductive Use where
  | roundTrip
  | method
  deriving DecidableEq, Repr

structure Life where
  wrapper : SerializableMethod
  returned : List Method
  deriving DecidableEq

/-- One use of the wrapper; it has no result where the wrapper throws. -/
def Life.step (jvm : Jvm) (s : Life) : Use → Option Life
  | .roundTrip =>
    match s.wrapper.writeObject with
    | .ok r => some { s with wrapper := readObject r }
    | .error _ => none
  | .method =>
    match s.wrapper.method_ jvm with
    | .ok (m, wrapper) => some ⟨wrapper, s.returned ++ [m]⟩
    | .error _ => none

/-- Either the method itself is there, or all three parts are and lead to it. -/
def Denotes (jvm : Jvm) (m : Method) (w : SerializableMethod) : Prop :=
  w.method = some m ∨
    w.method = none ∧ w.declaringClass.isSome ∧ w.methodName.isSome ∧ w.parameterTypes.isSome ∧
      lookup jvm w.declaringClass w.methodName w.parameterTypes = .ok m

theorem lookup_parts {jvm : Jvm} {m : Method}
    (hget : jvm.getMethod m.declaringClass m.name m.parameterTypes = some m) :
    lookup jvm (some m.declaringClass) (some m.name) (some (m.parameterTypes.map some)) =
      .ok m := by
  have htypes : (m.parameterTypes.map some).mapM id = some m.parameterTypes := by
    induction m.parameterTypes with
    | nil => rfl
    | cons t ts ih => simp [ih]
  simp only [lookup, Option.getD_some, htypes, hget]

theorem Denotes.method_ {jvm : Jvm} {m : Method} {w : SerializableMethod}
    (h : Denotes jvm m w) : ∃ w', w.method_ jvm = .ok (m, w') ∧ w'.method = some m := by
  rcases h with hm | ⟨hm, -, -, -, hl⟩
  · exact ⟨w, by rw [SerializableMethod.method_, hm], hm⟩
  · exact ⟨⟨some m, none, none, none⟩, by simp only [SerializableMethod.method_, hm, hl], rfl⟩

theorem Denotes.resolved {jvm : Jvm} {m : Method} {w : SerializableMethod}
    (h : Denotes jvm m w) (hw : w.method ≠ none) : w.method = some m :=
  h.resolve_right fun hu => hw hu.1

section
variable {jvm : Jvm} {m : Method}

theorem Life.step_method {s : Life} (h : Denotes jvm m s.wrapper) :
    ∃ t, s.step jvm .method = some t ∧ t.wrapper.method = some m ∧
      t.returned = s.returned ++ [m] := by
  obtain ⟨w, hw, hm⟩ := h.method_
  exact ⟨⟨w, s.returned ++ [m]⟩, by simp only [step, hw], hm, rfl⟩

theorem Life.step_roundTrip {s : Life}
    (hget : jvm.getMethod m.declaringClass m.name m.parameterTypes = some m)
    (hm : s.wrapper.method = some m) :
    ∃ t, s.step jvm .roundTrip = some t ∧ Denotes jvm m t.wrapper ∧ t.wrapper.method = none ∧
      t.returned = s.returned := by
  let r : Reference := ⟨some m.declaringClass, m.name, some (m.parameterTypes.map some)⟩
  have hw : s.wrapper.writeObject = .ok r := by rw [writeObject, hm]
  exact ⟨⟨readObject r, s.returned⟩, by simp only [step, hw],
    Or.inr ⟨rfl, rfl, rfl, rfl, lookup_parts hget⟩, rfl, rfl⟩

theorem Life.step_unresolved {s : Life} (hm : s.wrapper.method = none) :
    s.step jvm .roundTrip = none := by
  simp only [step, writeObject, hm]

theorem Life.step_denotes {s t : Life} {u : Use} (h : Denotes jvm m s.wrapper)
    (hget : jvm.getMethod m.declaringClass m.name m.parameterTypes = some m)
    (ht : s.step jvm u = some t) :
    Denotes jvm m t.wrapper ∧ (t.wrapper.method = none ↔ u = .roundTrip) ∧
      t.returned = s.returned ++ (if u = .method then [m] else []) := by
  cases u with
  | method =>
    obtain ⟨t', ht', hm, hr⟩ := step_method h
    cases ht'.symm.trans ht
    exact ⟨Or.inl hm, iff_of_false (by simp [hm]) (by simp), hr⟩
  | roundTrip =>
    cases hm : s.wrapper.method with
    | none =>
      rw [step_unresolved hm] at ht
      cases ht
    | some found =>
      obtain ⟨t', ht', hd, hn, hr⟩ := step_roundTrip hget (h.resolved (by simp [hm]))
      cases ht'.symm.trans ht
      exact ⟨hd, iff_of_true hn rfl, by simpa using hr⟩

theorem Life.step_isSome_iff {s : Life} (h : Denotes jvm m s.wrapper) (u : Use)
    (hget : jvm.getMethod m.declaringClass m.name m.parameterTypes = some m) :
    (∃ t, s.step jvm u = some t) ↔ (s.wrapper.method = none → u ≠ .roundTrip) := by
  cases u with
  | method =>
    obtain ⟨t, ht, -⟩ := step_method h
    exact iff_of_true ⟨t, ht⟩ fun _ he => absurd he (by decide)
  | roundTrip =>
    cases hm : s.wrapper.method with
    | none =>
      rw [step_unresolved hm]
      exact iff_of_false (by rintro ⟨_, ⟨⟩⟩) fun h => h rfl rfl
    | some found =>
      obtain ⟨t, ht, -⟩ := step_roundTrip hget (h.resolved (by simp [hm]))
      exact iff_of_true ⟨t, ht⟩ fun hnone => absurd hnone (Option.some_ne_none found)

theorem Life.run_denotes {s t : Life} {uses : List Use} (h : Denotes jvm m s.wrapper)
    (hget : jvm.getMethod m.declaringClass m.name m.parameterTypes = some m)
    (ht : run (step jvm) s uses = some t) :
    Denotes jvm m t.wrapper ∧ t.returned = s.returned ++ List.replicate (uses.count .method) m := by
  induction uses generalizing s with
  | nil =>
    cases ht
    exact ⟨h, (List.append_nil _).symm⟩
  | cons u uses ih =>
    obtain ⟨v, hv, ht⟩ := run_cons_eq_some.mp ht
    obtain ⟨hd, -, hr⟩ := step_denotes h hget hv
    obtain ⟨hdt, hrt⟩ := ih hd ht
    refine ⟨hdt, ?_⟩
    rw [hrt, hr]
    cases u with
    | method => simp [List.replicate_succ]
    | roundTrip => simp

theorem Life.run_isSome_iff {s : Life} {uses : List Use} (h : Denotes jvm m s.wrapper)
    (hget : jvm.getMethod m.declaringClass m.name m.parameterTypes = some m) :
    (∃ t, run (step jvm) s uses = some t) ↔
      (s.wrapper.method = none → uses.head? ≠ some .roundTrip) ∧
        uses.IsChain fun u v => ¬ (u = .roundTrip ∧ v = .roundTrip) := by
  induction uses generalizing s with
  | nil => exact iff_of_true ⟨s, rfl⟩ ⟨fun _ he => absurd he (by simp), .nil⟩
  | cons u uses ih =>
    have hfirst := step_isSome_iff h u hget
    rw [List.head?_cons, List.isChain_cons]
    constructor
    · rintro ⟨t, ht⟩
      obtain ⟨v, hv, ht⟩ := run_cons_eq_some.mp ht
      obtain ⟨hd, hnone, -⟩ := step_denotes h hget hv
      obtain ⟨hhead, hchain⟩ := (ih hd).mp ⟨t, ht⟩
      refine ⟨fun hm he => hfirst.mp ⟨v, hv⟩ hm (Option.some.inj he), ?_, hchain⟩
      rintro w hw ⟨hu, rfl⟩
      exact hhead (hnone.mpr hu) hw
    · rintro ⟨hm, hnext, hchain⟩
      obtain ⟨v, hv⟩ := hfirst.mpr fun hn he => hm hn (congrArg some he)
      obtain ⟨hd, hnone, -⟩ := step_denotes h hget hv
      obtain ⟨t, ht⟩ := (ih hd).mpr
        ⟨fun hn he => hnext _ he ⟨hnone.mp hn, rfl⟩, hchain⟩
      exact ⟨t, run_cons_eq_some.mpr ⟨v, hv, ht⟩⟩

end

/-- A wrapper made from a method lives through a sequence of uses, with that method
returned at each call, exactly when it is never sent twice without a call in
between; and as long as it lives it denotes the method. -/
theorem life_iff {jvm : Jvm} {c : ClassName} {name : String} {types : List ClassName}
    {m : Method} {w : SerializableMethod} (hc : jvm.getMethod c name types = some m)
    (hw : serialize jvm c name types = .ok w)
    (hget : jvm.getMethod m.declaringClass m.name m.parameterTypes = some m) (uses : List Use) :
    ((∃ t, run (Life.step jvm) ⟨w, []⟩ uses = some t ∧
        t.returned = List.replicate (uses.count .method) m) ↔
      uses.IsChain fun u v => ¬ (u = .roundTrip ∧ v = .roundTrip)) ∧
    ∀ t, run (Life.step jvm) ⟨w, []⟩ uses = some t → Denotes jvm m t.wrapper := by
  rw [serialize, hc] at hw
  cases hw
  have hd : Denotes jvm m (ofMethod m) := Or.inl rfl
  have hiff : (∃ t, run (Life.step jvm) ⟨ofMethod m, []⟩ uses = some t) ↔ _ :=
    Life.run_isSome_iff hd hget
  refine ⟨⟨?_, fun h => ?_⟩, fun t ht => (Life.run_denotes hd hget ht).1⟩
  · rintro ⟨t, ht, -⟩
    exact (hiff.mp ⟨t, ht⟩).2
  · have hset : (ofMethod m).method ≠ none := Option.some_ne_none m
    obtain ⟨t, ht⟩ := hiff.mpr ⟨fun hnone => absurd hnone hset, h⟩
    exact ⟨t, ht, (Life.run_denotes hd hget ht).2⟩

theorem life_iff_free :
    Jvm.bare.getMethod serviceClass "free" [] = some ServiceMethod.free.method ∧
      ((∃ t, run (Life.step Jvm.bare) ⟨ofMethod ServiceMethod.free.method, []⟩
          [.roundTrip, .method] = some t ∧ t.returned = [ServiceMethod.free.method]) ↔
        [Use.roundTrip, .method].IsChain fun u v => ¬ (u = .roundTrip ∧ v = .roundTrip)) :=
  ⟨by decide, (@life_iff Jvm.bare serviceClass "free" [] _ _ (by decide) (by decide) (by decide)
    [.roundTrip, .method]).1⟩

/-- A wrapper that has been received cannot be sent on. -/
theorem resent_throws :
    serialize Jvm.bare serviceClass "free" [] = .ok (ofMethod ServiceMethod.free.method) ∧
      (ofMethod ServiceMethod.free.method).writeObject =
        .ok ⟨some serviceClass, "free", some []⟩ ∧
      (readObject ⟨some serviceClass, "free", some []⟩).writeObject = .error .nullPointer ∧
      run (Life.step Jvm.bare) ⟨ofMethod ServiceMethod.free.method, []⟩
        [.roundTrip, .roundTrip] = none :=
  ⟨by decide, by decide, by decide, by decide⟩

end SerializableMethod

end Vsys.RpcParkingSim
