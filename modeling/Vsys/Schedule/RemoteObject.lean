import Mathlib.Data.List.Infix
import Mathlib.Logic.Function.Basic
import Vsys.Schedule.Machine
import Vsys.Schedule.Refinement

/-! An object that many parties call from afar, as they should see it. A party asks
for calls one after the other; the object executes the calls of one party in the
order in which it asked for them, one call at a time; and the party is told the
results in that order. A call that was asked for may never be executed, and the
result of one that was executed may never be told. -/

namespace Schedule

variable {ι κ ε ρ σ : Type*}

/-- A call that has been executed, with what it met besides the object. -/
structure Executed (ι κ ε ρ : Type*) where
  party : ι
  call : κ
  world : ε
  result : ρ
  deriving DecidableEq, Repr

structure RemoteObject (ι κ ε ρ σ : Type*) where
  object : σ
  log : List (Executed ι κ ε ρ)
  asked : ι → List κ
  told : ι → List ρ

namespace RemoteObject

inductive Action (ι κ ε : Type*) where
  | ask (i : ι) (c : κ)
  | serve (i : ι) (e : ε)
  | tell (i : ι)
  deriving DecidableEq, Repr

variable [DecidableEq ι]

def entries (log : List (Executed ι κ ε ρ)) (i : ι) : List (Executed ι κ ε ρ) :=
  log.filter fun e => e.party = i

def calls (log : List (Executed ι κ ε ρ)) (i : ι) : List κ := (entries log i).map Executed.call

def results (log : List (Executed ι κ ε ρ)) (i : ι) : List ρ :=
  (entries log i).map Executed.result

/-- The calls of one party, each with its result. -/
def exchanges (log : List (Executed ι κ ε ρ)) (i : ι) : List (κ × ρ) :=
  (entries log i).map fun e => (e.call, e.result)

def step (perform : κ × ε → σ → ρ × σ) (s : RemoteObject ι κ ε ρ σ) :
    Action ι κ ε → Option (RemoteObject ι κ ε ρ σ)
  | .ask i c => some { s with asked := Function.update s.asked i (s.asked i ++ [c]) }
  | .serve i e =>
    (s.asked i)[(calls s.log i).length]?.map fun c =>
      let r := perform (c, e) s.object
      { s with object := r.2, log := s.log ++ [⟨i, c, e, r.1⟩] }
  | .tell i =>
    (results s.log i)[(s.told i).length]?.map fun r =>
      { s with told := Function.update s.told i (s.told i ++ [r]) }

def start (object : σ) : RemoteObject ι κ ε ρ σ := ⟨object, [], fun _ => [], fun _ => []⟩

/-- The log is a history of the object, and every party finds its own part in it. -/
structure Consistent (perform : κ × ε → σ → ρ × σ) (object : σ) (s : RemoteObject ι κ ε ρ σ) :
    Prop where
  replays : history perform (s.log.map fun e => (e.call, e.world)) object =
    (s.log.map Executed.result, s.object)
  asked : ∀ i, calls s.log i <+: s.asked i
  told : ∀ i, s.told i <+: results s.log i

theorem length_results (log : List (Executed ι κ ε ρ)) (i : ι) :
    (results log i).length = (calls log i).length := by
  rw [results, calls, List.length_map, List.length_map]

theorem entries_concat (log : List (Executed ι κ ε ρ)) (e : Executed ι κ ε ρ) (i : ι) :
    entries (log ++ [e]) i = if e.party = i then entries log i ++ [e] else entries log i := by
  rw [entries, List.filter_append]
  split
  · next h => rw [List.filter_singleton, decide_eq_true h]; rfl
  · next h => rw [List.filter_singleton, decide_eq_false h]; exact List.append_nil _

@[simp] theorem calls_concat_self (log : List (Executed ι κ ε ρ)) (e : Executed ι κ ε ρ) :
    calls (log ++ [e]) e.party = calls log e.party ++ [e.call] := by
  rw [calls, entries_concat, if_pos rfl, List.map_append]
  rfl

@[simp] theorem results_concat_self (log : List (Executed ι κ ε ρ)) (e : Executed ι κ ε ρ) :
    results (log ++ [e]) e.party = results log e.party ++ [e.result] := by
  rw [results, entries_concat, if_pos rfl, List.map_append]
  rfl

theorem calls_concat_of_ne (log : List (Executed ι κ ε ρ)) {e : Executed ι κ ε ρ} {i : ι}
    (h : e.party ≠ i) : calls (log ++ [e]) i = calls log i := by
  rw [calls, entries_concat, if_neg h, calls]

theorem results_concat_of_ne (log : List (Executed ι κ ε ρ)) {e : Executed ι κ ε ρ} {i : ι}
    (h : e.party ≠ i) : results (log ++ [e]) i = results log i := by
  rw [results, entries_concat, if_neg h, results]

theorem calls_eq_exchanges (log : List (Executed ι κ ε ρ)) (i : ι) :
    calls log i = (exchanges log i).map Prod.fst := by
  rw [exchanges, List.map_map]
  rfl

theorem results_eq_exchanges (log : List (Executed ι κ ε ρ)) (i : ι) :
    results log i = (exchanges log i).map Prod.snd := by
  rw [exchanges, List.map_map]
  rfl

theorem exchanges_concat (log : List (Executed ι κ ε ρ)) (e : Executed ι κ ε ρ) (i : ι) :
    exchanges (log ++ [e]) i =
      if e.party = i then exchanges log i ++ [(e.call, e.result)] else exchanges log i := by
  rw [exchanges, entries_concat]
  split
  · rw [List.map_append]
    rfl
  · rfl

theorem prefix_concat_of_getElem? {α : Type*} {xs ys : List α} {x : α} (h : xs <+: ys)
    (hx : ys[xs.length]? = some x) : xs ++ [x] <+: ys := by
  obtain ⟨zs, rfl⟩ := h
  rw [List.getElem?_append_right le_rfl, Nat.sub_self] at hx
  cases zs with
  | nil => simp at hx
  | cons z zs =>
    cases hx
    exact ⟨zs, by simp⟩

theorem history_concat (perform : κ → σ → ρ × σ) (cs : List κ) (c : κ) (s : σ) :
    history perform (cs ++ [c]) s =
      ((history perform cs s).1 ++ [(perform c (history perform cs s).2).1],
        (perform c (history perform cs s).2).2) := by
  induction cs generalizing s with
  | nil => rfl
  | cons d cs ih => simp only [List.cons_append, history, ih]

section
variable {perform : κ × ε → σ → ρ × σ} {object : σ}

theorem start_consistent : Consistent perform object (start object : RemoteObject ι κ ε ρ σ) :=
  ⟨rfl, fun _ => List.prefix_refl _, fun _ => List.prefix_refl _⟩

theorem step_consistent {s t : RemoteObject ι κ ε ρ σ} {a : Action ι κ ε}
    (hs : Consistent perform object s) (h : step perform s a = some t) :
    Consistent perform object t := by
  cases a with
  | ask i c =>
    cases h
    refine ⟨hs.replays, fun j => ?_, hs.told⟩
    rcases eq_or_ne j i with rfl | hj
    · simpa using (hs.asked j).trans (List.prefix_append _ _)
    · simpa [Function.update_of_ne hj] using hs.asked j
  | serve i e =>
    obtain ⟨c, hc, rfl⟩ := Option.map_eq_some_iff.mp h
    refine ⟨?_, fun j => ?_, fun j => ?_⟩
    · simp only [List.map_append, List.map_cons, List.map_nil, history_concat, hs.replays]
    · rcases eq_or_ne i j with rfl | hj
      · exact (calls_concat_self s.log _).symm ▸ prefix_concat_of_getElem? (hs.asked i) hc
      · rw [calls_concat_of_ne s.log (by exact hj)]
        exact hs.asked j
    · rcases eq_or_ne i j with rfl | hj
      · exact (results_concat_self s.log _).symm ▸ (hs.told i).trans (List.prefix_append _ _)
      · rw [results_concat_of_ne s.log (by exact hj)]
        exact hs.told j
  | tell i =>
    obtain ⟨r, hr, rfl⟩ := Option.map_eq_some_iff.mp h
    refine ⟨hs.replays, hs.asked, fun j => ?_⟩
    rcases eq_or_ne j i with rfl | hj
    · simpa using prefix_concat_of_getElem? (hs.told j) hr
    · simpa [Function.update_of_ne hj] using hs.told j

theorem run_consistent {s t : RemoteObject ι κ ε ρ σ} {as : List (Action ι κ ε)}
    (hs : Consistent perform object s) (h : run (step perform) s as = some t) :
    Consistent perform object t :=
  run_invariant (fun _ _ _ hi ht => step_consistent hi ht) hs h

theorem step_log {s t : RemoteObject ι κ ε ρ σ} {a : Action ι κ ε}
    (h : step perform s a = some t) : s.log <+: t.log := by
  cases a with
  | ask i c =>
    cases h
    exact List.prefix_refl _
  | serve i e =>
    obtain ⟨c, -, rfl⟩ := Option.map_eq_some_iff.mp h
    exact List.prefix_append _ _
  | tell i =>
    obtain ⟨r, -, rfl⟩ := Option.map_eq_some_iff.mp h
    exact List.prefix_refl _

/-- What was executed before stays in front of what is executed later. -/
theorem run_log {s t : RemoteObject ι κ ε ρ σ} {as : List (Action ι κ ε)}
    (h : run (step perform) s as = some t) : s.log <+: t.log :=
  run_mono (r := fun s t => s.log <+: t.log) (fun _ => List.prefix_refl _)
    (fun _ _ _ => List.IsPrefix.trans) (fun _ _ _ => step_log) h

end

end RemoteObject

end Schedule
