import Mathlib.Data.Fintype.Card
import Vsys.ParkingSim.CarRun

/-! When every car that finds no space leaves quietly. Between the capacity check
of a run and its `park` another run may take the last place, and `park` then
throws. -/

namespace Vsys.ParkingSim.Simulation

open Schedule

variable {ι : Type*}

def Quiet (s : Simulation ι) : Prop :=
  ∀ i e, s.phase i = .ended e → e = .left ∨ e = .noSpace

/-- No sleep gets a negative time, and the lot has a place left when a run comes
to park in it. -/
def Stands (car : ι → Car) (s : Simulation ι) (i : ι) : Prop :=
  match s.phase i with
  | .starting => 0 ≤ (car i).startDelay
  | .parking => 0 < s.lot.remainingCapacity
  | .parked => 0 ≤ (car i).parkTime
  | _ => True

theorem start_quiet (lot : ParkingLot Car) : Quiet (start lot : Simulation ι) := by
  intro i e he
  simp [start] at he

section
variable [DecidableEq ι] {car : ι → Car} {lot : ParkingLot Car}

theorem quiet_update {s t : Simulation ι} {i : ι} {p : Phase} (hs : Quiet s)
    (ht : t.phase = Function.update s.phase i p) :
    Quiet t ↔ ∀ e, p = .ended e → e = .left ∨ e = .noSpace := by
  have hiff := @Function.forall_update_iff ι (fun _ => Phase) _ s.phase i p
    fun _ q => ∀ e, q = .ended e → e = .left ∨ e = .noSpace
  rw [Quiet, ht]
  exact hiff.trans (and_iff_left fun j _ => hs j)

theorem stands_of_full (hfull : lot.cars.length = lot.capacity)
    (hs : ∀ i, 0 ≤ (car i).startDelay) (order : List ι) :
    Guarded (advance car) (Stands car) (start lot) order := by
  have hrem : ¬ 0 < lot.remainingCapacity := by
    rw [ParkingLot.remainingCapacity_pos_iff]
    omega
  refine guarded_of_forall (I := fun s => s.lot = lot ∧
      ∀ i, s.phase i = .starting ∨ s.phase i = .checking ∨ ∃ e, s.phase i = .ended e)
    (fun s i t hI ht => ?_) (fun s i t hI ht => ?_) ⟨rfl, fun i => Or.inl rfl⟩ order
  · obtain ⟨hlot, hphase⟩ := hI
    have hgoto : ∀ p : Phase, (p = .checking ∨ ∃ e, p = .ended e) → (s.goto i p).lot = lot ∧
        ∀ j, (s.goto i p).phase j = .starting ∨ (s.goto i p).phase j = .checking ∨
          ∃ e, (s.goto i p).phase j = .ended e := by
      intro p hp
      refine ⟨hlot, fun j => ?_⟩
      by_cases hij : j = i
      · subst hij
        exact Or.inr (by simpa [goto] using hp)
      · simpa [goto, Function.update_of_ne hij] using hphase j
    have hi := hphase i
    cases advances_of_advance ht with
    | started => exact hgoto _ (Or.inl rfl)
    | badStart => exact hgoto _ (Or.inr ⟨_, rfl⟩)
    | found hp hr => exact absurd (hlot ▸ hr) hrem
    | noSpace => exact hgoto _ (Or.inr ⟨_, rfl⟩)
    | park hp | refused hp | waited hp | badWait hp | unpark hp | missing hp => simp [hp] at hi
  · rcases hI.2 i with hp | hp | ⟨e, hp⟩ <;> simp only [Stands, hp]
    exact hs i

variable [Fintype ι]

theorem advance_quiet_iff {s t : Simulation ι} {i : ι} (h : Tracks car lot s) (hs : Quiet s)
    (ht : advance car s i = some t) : Quiet t ↔ Stands car s i := by
  cases advances_of_advance ht with
  | started hp hd =>
    rw [quiet_update hs rfl, Stands, hp]
    exact iff_of_true (by simp) hd
  | badStart hp hd =>
    rw [quiet_update hs rfl, Stands, hp]
    exact iff_of_false (by simp) hd
  | found hp =>
    rw [quiet_update hs rfl, Stands, hp]
    exact iff_of_true (by simp) trivial
  | noSpace hp =>
    rw [quiet_update hs rfl, Stands, hp]
    exact iff_of_true (by simp) trivial
  | park hp hl =>
    rw [quiet_update hs rfl, Stands, hp]
    have hlt := (ParkingLot.park_eq_ok h.fits hl).1
    exact iff_of_true (by simp) ((s.lot.remainingCapacity_pos_iff).mpr hlt)
  | refused hp hl =>
    rw [quiet_update hs rfl, Stands, hp]
    refine iff_of_false (by simp) fun hr => ?_
    obtain ⟨l, hok, -, -⟩ := ParkingLot.park_of_lt ((s.lot.remainingCapacity_pos_iff).mp hr) (car i)
    rw [hok] at hl
    cases hl
  | waited hp hd =>
    rw [quiet_update hs rfl, Stands, hp]
    exact iff_of_true (by simp) hd
  | badWait hp hd =>
    rw [quiet_update hs rfl, Stands, hp]
    exact iff_of_false (by simp) hd
  | unpark hp hl =>
    rw [quiet_update hs rfl, Stands, hp]
    exact iff_of_true (by simp) trivial
  | missing hp hl => exact absurd hl (h.unpark_ne_error hp _)

theorem quiet_iff_stands (h : lot.Fits) (order : List ι) :
    Always (advance car) Quiet (start lot) order ↔
      Guarded (advance car) (Stands car) (start lot) order :=
  always_iff_guarded (fun _ _ _ hs ht => advance_tracks hs ht)
    (fun _ _ _ hs hq ht => advance_quiet_iff hs hq ht) (start_tracks h) (start_quiet lot) order

theorem stands_of_room (h : lot.Fits) (hs : ∀ i, 0 ≤ (car i).startDelay)
    (hp : ∀ i, 0 ≤ (car i).parkTime) (hroom : lot.cars.length + Fintype.card ι ≤ lot.capacity)
    (order : List ι) : Guarded (advance car) (Stands car) (start lot) order := by
  refine guarded_of_forall (fun _ _ _ hs ht => advance_tracks hs ht) (fun s i t ht _ => ?_)
    (start_tracks h) order
  cases hphase : s.phase i with
  | starting => simpa only [Stands, hphase] using hs i
  | parked => simpa only [Stands, hphase] using hp i
  | parking =>
    have hi : i ∉ s.insideRuns := by
      have hc := ht.coherent i
      rw [hphase] at hc
      simp [insideRuns, show s.inside i = false from hc]
    have hcard : s.insideRuns.card < Fintype.card ι :=
      Finset.card_lt_univ_of_notMem hi
    have hlen := ht.length_eq
    have hcap := ht.capacity_eq
    rw [Stands, hphase]
    refine (s.lot.remainingCapacity_pos_iff).mpr ?_
    omega
  | _ => simp only [Stands, hphase]

end

section
variable [DecidableEq ι] {car : ι → Car}

theorem advance_starting {s : Simulation ι} {i : ι} (hp : s.phase i = .starting)
    (hd : 0 ≤ (car i).startDelay) : advance car s i = some (s.goto i .checking) := by
  simp only [advance, hp, if_neg (Int32.not_lt.mpr hd)]

theorem advance_checking {s : Simulation ι} {i : ι} (hp : s.phase i = .checking)
    (hr : 0 < s.lot.remainingCapacity) : advance car s i = some (s.goto i .parking) := by
  simp only [advance, hp]
  exact if_pos hr

theorem pass {p q : Phase} {l : ParkingLot Car} {order : List ι} (hnd : order.Nodup)
    (hstep : ∀ s i, i ∈ order → s.lot = l → s.phase i = p → advance car s i = some (s.goto i q))
    {s : Simulation ι} (hl : s.lot = l) (hp : ∀ i ∈ order, s.phase i = p) :
    ∃ t, run (advance car) s order = some t ∧ t.lot = l ∧ (∀ i ∈ order, t.phase i = q) ∧
      ∀ i, i ∉ order → t.phase i = s.phase i := by
  induction order generalizing s with
  | nil => exact ⟨s, rfl, hl, by simp, fun _ _ => rfl⟩
  | cons i is ih =>
    have hi : i ∉ is := (List.nodup_cons.mp hnd).1
    have hothers : ∀ j, j ≠ i → (s.goto i q).phase j = s.phase j :=
      fun j hj => Function.update_of_ne hj _ _
    have hrestp : ∀ j ∈ is, (s.goto i q).phase j = p := by
      intro j hj
      rw [hothers j (fun he => hi (he ▸ hj))]
      exact hp j (List.mem_cons_of_mem i hj)
    have hrestl : (s.goto i q).lot = l := hl
    obtain ⟨t, ht, hlot, hphase, hrest⟩ := ih (List.nodup_cons.mp hnd).2
      (fun u j hj => hstep u j (List.mem_cons_of_mem i hj)) hrestl hrestp
    refine ⟨t, ?_, hlot, fun j hj => ?_, fun j hj => ?_⟩
    · exact run_cons_eq_some.mpr ⟨_, hstep s i (by simp) hl (hp i (by simp)), ht⟩
    · rcases List.mem_cons.mp hj with rfl | hj
      · rw [hrest j hi]
        exact Function.update_self _ _ _
      · exact hphase j hj
    · rw [hrest j (fun h => hj (List.mem_cons_of_mem i h)),
        hothers j (fun he => hj (he ▸ List.mem_cons_self))]

theorem fill {order : List ι} (hnd : order.Nodup) {s : Simulation ι} (hs : s.lot.Fits)
    (hp : ∀ i ∈ order, s.phase i = .parking) (hq : Always (advance car) Quiet s order) :
    ∃ t, run (advance car) s order = some t ∧ t.lot.Fits ∧ t.lot.capacity = s.lot.capacity ∧
      t.lot.cars.length = s.lot.cars.length + order.length := by
  induction order generalizing s with
  | nil => exact ⟨s, rfl, hs, rfl, rfl⟩
  | cons i is ih =>
    have hi : i ∉ is := (List.nodup_cons.mp hnd).1
    have hpi := hp i (by simp)
    cases hl : s.lot.park (car i) with
    | error e =>
      have hstep : advance car s i = some (s.goto i (.ended (.illegalState e))) := by
        simp only [advance, hpi, hl]
      have hbad := (hq.2 _ hstep).head i (.illegalState e) (Function.update_self _ _ _)
      simp at hbad
    | ok l =>
      obtain ⟨hlt, hcap, hcars⟩ := ParkingLot.park_eq_ok hs hl
      have hstep : advance car s i = some { s.goto i .parked with
          lot := l, inside := Function.update s.inside i true } := by
        simp only [advance, hpi, hl]
      have hfits : l.Fits := by
        rw [ParkingLot.Fits, hcap, hcars, List.length_append, List.length_singleton]
        exact hlt
      have hothers : ∀ j ∈ is, { s.goto i .parked with
          lot := l, inside := Function.update s.inside i true }.phase j = .parking := by
        intro j hj
        have hji : j ≠ i := fun he => hi (he ▸ hj)
        simpa [goto, Function.update_of_ne hji] using hp j (List.mem_cons_of_mem i hj)
      obtain ⟨t, ht, htfits, htcap, hlen⟩ :=
        ih (List.nodup_cons.mp hnd).2 hfits hothers (hq.2 _ hstep)
      refine ⟨t, run_cons_eq_some.mpr ⟨_, hstep, ht⟩, htfits, htcap.trans hcap, ?_⟩
      rw [hlen, hcars, List.length_append, List.length_singleton, List.length_cons]
      omega

variable [Fintype ι] {lot : ParkingLot Car}

/-- When more runs share the lot than it has places, all of them can pass the
check before the first parks. -/
theorem room_of_quiet (h : lot.Fits) (hlt : lot.cars.length < lot.capacity)
    (hs : ∀ i, 0 ≤ (car i).startDelay)
    (hq : ∀ order, Always (advance car) Quiet (start lot) order) :
    lot.cars.length + Fintype.card ι ≤ lot.capacity := by
  have hnd : (Finset.univ : Finset ι).toList.Nodup := Finset.nodup_toList _
  have hstart : ∀ (u : Simulation ι) i, i ∈ (Finset.univ : Finset ι).toList → u.lot = lot →
      u.phase i = .starting → advance car u i = some (u.goto i .checking) :=
    fun _ i _ _ hp => advance_starting hp (hs i)
  have hcheck : ∀ (u : Simulation ι) i, i ∈ (Finset.univ : Finset ι).toList → u.lot = lot →
      u.phase i = .checking → advance car u i = some (u.goto i .parking) :=
    fun _ i _ hl hp => advance_checking hp (hl ▸ (lot.remainingCapacity_pos_iff).mpr hlt)
  obtain ⟨s, hrun, hlot, hphase, -⟩ := pass hnd hstart (s := start lot) rfl (fun _ _ => rfl)
  obtain ⟨t, hrun', hlot', hphase', -⟩ := pass hnd hcheck hlot hphase
  have hquiet : Always (advance car) Quiet t (Finset.univ : Finset ι).toList :=
    ((hq (_ ++ (_ ++ _))).append_right hrun).append_right hrun'
  obtain ⟨u, -, hfits, hcap, hlen⟩ := fill hnd (by rwa [hlot']) hphase' hquiet
  rw [Finset.length_toList, Finset.card_univ, hlot'] at hlen
  rw [hlot'] at hcap
  rw [ParkingLot.Fits, hlen, hcap] at hfits
  exact hfits

theorem startDelay_of_quiet (hl : lot.Fits)
    (hq : ∀ order, Always (advance car) Quiet (start lot) order) (i : ι) :
    0 ≤ (car i).startDelay := by
  have hg := (quiet_iff_stands hl [i]).mp (hq [i])
  by_contra hd
  have hstep : advance car (start lot) i = some ((start lot).goto i (.ended .illegalArgument)) :=
    if_pos (Int32.not_le.mp hd)
  exact hd (hg _ hstep).1

theorem parkTime_of_quiet (hl : lot.Fits) (hlt : lot.cars.length < lot.capacity)
    (hs : ∀ i, 0 ≤ (car i).startDelay)
    (hq : ∀ order, Always (advance car) Quiet (start lot) order) (i : ι) :
    0 ≤ (car i).parkTime := by
  have hg := (quiet_iff_stands hl [i, i, i, i]).mp (hq [i, i, i, i])
  obtain ⟨l, hpark, -, -⟩ := ParkingLot.park_of_lt hlt (car i)
  have h₁ : advance car (start lot) i = some ((start lot).goto i .checking) :=
    advance_starting rfl (hs i)
  have h₂ : advance car ((start lot).goto i .checking) i =
      some (((start lot).goto i .checking).goto i .parking) :=
    advance_checking (Function.update_self _ _ _) ((lot.remainingCapacity_pos_iff).mpr hlt)
  let s₂ : Simulation ι := ((start lot).goto i .checking).goto i .parking
  let s₃ : Simulation ι :=
    { s₂.goto i .parked with lot := l, inside := Function.update s₂.inside i true }
  have h₃ : advance car s₂ i = some s₃ := by
    have hp : s₂.phase i = .parking := Function.update_self _ _ _
    have hlot : s₂.lot.park (car i) = .ok l := hpark
    simp only [advance, hp, hlot, s₃]
  have hp : s₃.phase i = .parked := Function.update_self _ _ _
  have hg₃ : Guarded (advance car) (Stands car) s₃ [i] := (((hg _ h₁).2 _ h₂).2 _ h₃).2
  by_contra hd
  have h₄ : advance car s₃ i = some (s₃.goto i (.ended .illegalArgument)) := by
    simp only [advance, hp, if_pos (Int32.not_le.mp hd)]
  have hstands := (hg₃ _ h₄).1
  rw [Stands, hp] at hstands
  exact hd hstands

omit [Fintype ι] in
theorem advance_eq_none_iff {s : Simulation ι} {i : ι} :
    advance car s i = none ↔ ∃ e, s.phase i = .ended e := by
  rw [advance]
  split <;> simp_all <;> split <;> simp

/-- One interleaving of the runs is quiet exactly when no check in it is
overtaken; then every run that cannot go on has left after it was parked, or has
found no space. All interleavings are quiet exactly when no time is negative and
the lot has a place for every run, or none at all. -/
theorem car_runs_quiet_iff (h : lot.Fits) :
    (∀ order, (Always (advance car) Quiet (start lot) order ↔
        Guarded (advance car) (Stands car) (start lot) order) ∧
      (Always (advance car) Quiet (start lot) order → ∀ t,
        run (advance car) (start lot) order = some t → ∀ i, advance car t i = none →
          t.phase i = .ended .left ∨ t.phase i = .ended .noSpace)) ∧
    ((∀ order, Always (advance car) Quiet (start lot) order) ↔
      (∀ i, 0 ≤ (car i).startDelay) ∧ (lot.cars.length = lot.capacity ∨
        (∀ i, 0 ≤ (car i).parkTime) ∧ lot.cars.length + Fintype.card ι ≤ lot.capacity)) := by
  refine ⟨fun order => ⟨quiet_iff_stands h order, fun hq t ht i hi => ?_⟩, fun hq => ?_, ?_⟩
  · obtain ⟨e, he⟩ := advance_eq_none_iff.mp hi
    rcases hq.run ht i e he with rfl | rfl
    · exact Or.inl he
    · exact Or.inr he
  · have hs := startDelay_of_quiet h hq
    rcases Nat.lt_or_eq_of_le h with hlt | heq
    · exact ⟨hs, Or.inr ⟨parkTime_of_quiet h hlt hs hq, room_of_quiet h hlt hs hq⟩⟩
    · exact ⟨hs, Or.inl heq⟩
  · rintro ⟨hs, hfull | ⟨hp, hroom⟩⟩ order
    · exact (quiet_iff_stands h order).mpr (stands_of_full hfull hs order)
    · exact (quiet_iff_stands h order).mpr (stands_of_room h hs hp hroom order)

end

def twoCars (i : Fin 2) : Car := ⟨i, 30, 40⟩

theorem car_runs_quiet_twoCars : (ParkingLot.synchronized (⟨2, []⟩ : CarList Car)).Fits ∧
    ∀ order, Always (advance twoCars) Quiet (start (.synchronized ⟨2, []⟩)) order := by
  have hfits : (ParkingLot.synchronized (⟨2, []⟩ : CarList Car)).Fits := by decide
  exact ⟨hfits, (car_runs_quiet_iff hfits).2.mpr ⟨by decide, Or.inr ⟨by decide, by decide⟩⟩⟩

/-- Two cars both find the only place free before either parks, and the second
ends in the exception of `park`. -/
theorem second_car_throws :
    ∃ t, run (advance twoCars) (start (.synchronized ⟨1, []⟩)) [0, 0, 1, 1, 0, 1] = some t ∧
      t.phase 1 = .ended (.illegalState fullException) ∧
      ¬ Always (advance twoCars) Quiet (start (.synchronized ⟨1, []⟩)) [0, 0, 1, 1, 0, 1] := by
  refine ⟨_, rfl, rfl, fun hq => ?_⟩
  have hbad := hq.run rfl 1 _ rfl
  simp at hbad

end Vsys.ParkingSim.Simulation
