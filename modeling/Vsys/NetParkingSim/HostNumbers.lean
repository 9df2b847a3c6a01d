import Vsys.CppAsio.EndpointNumbers
import Vsys.NetParkingSim.HostArguments

/-! Commands with a host number, as the Java client and the C++ client take them. -/

namespace Vsys.NetParkingSim

open JavaString

namespace ParkingLotClientMain

open CommandDispatchers

variable {α : Type}

section
variable (args : List Text) (ds : List (UnicastCommandDispatcher α)) (replies : ℕ → Executed)

/-- The dispatcher behind a host number; the name of the host is looked up before it. -/
def addressed (hostNumber : Int32) : Option (UnicastCommandDispatcher α) :=
  let i := hostNumber.toInt.toNat - 1
  if i < args.length then ds[i]? else none

/-- The calls of `execute` that a typed line leads to. -/
def calls (n : ℕ) (input : Text) : List (UnicastCommandDispatcher α × Text) :=
  match tokens isDelimiter input with
  | [] => []
  | [command] =>
    (ds.take ((multicast args replies command 0 n ds).2.1 - n)).map fun d => (d, command)
  | command :: number :: _ =>
    let hostNumber := (valueOf number).getD (-1)
    if hostNumber > 0 then (addressed args ds hostNumber).toList.map fun d => (d, command) else []

end

/-- What a typed line has printed on the error stream. -/
def complaints (input : Text) : List Text :=
  match tokens isDelimiter input with
  | _ :: number :: _ =>
    let hostNumber := (valueOf number).getD (-1)
    (if valueOf number = none then ["Invalid host identifier".toList] else []) ++
      if hostNumber > 0 then []
      else ["Invalid host identifier: ".toList ++ (toString hostNumber).toList]
  | _ => []

theorem multicast_calls (args : List Text) (replies : ℕ → Executed) (command : Text) (i n : ℕ)
    (ds : List (UnicastCommandDispatcher α)) :
    let r := multicast args replies command i n ds
    n ≤ r.2.1 ∧ r.2.1 ≤ n + ds.length ∧
      r.1.map Printed.dispatcher <+: ds.take (r.2.1 - n) ∧ r.2.2 ≠ .thrown .hostNumber := by
  induction ds generalizing i n with
  | nil =>
    refine ⟨Nat.le_refl n, Nat.le_refl n, List.nil_prefix, ?_⟩
    rw [multicast]
    split <;> simp
  | cons d ds ih =>
    intro r
    cases hreply : replies n with
    | failed =>
      simp only [r, multicast, hreply, List.length_cons]
      exact ⟨by omega, by omega, List.nil_prefix, by simp⟩
    | returned resp =>
      cases harg : args[i]? with
      | none =>
        simp only [r, multicast, hreply, harg, List.length_cons]
        exact ⟨by omega, by omega, List.nil_prefix, by simp⟩
      | some arg =>
        cases resp with
        | none =>
          simp only [r, multicast, hreply, harg, List.length_cons]
          exact ⟨by omega, by omega, by simp, by simp⟩
        | some t =>
          by_cases hok : t = "ok".toList ∧ command ≠ quitLine
          · simp only [r, multicast, hreply, harg, if_pos hok, List.length_cons]
            exact ⟨by omega, by omega, by simp, by simp⟩
          · obtain ⟨hle, hlen, hbegin, hne⟩ := ih (i + 1) (n + 1)
            simp only [r, multicast, hreply, harg, if_neg hok, List.length_cons]
            refine ⟨by omega, by omega, ?_, hne⟩
            obtain ⟨k, hk⟩ : ∃ k, (multicast args replies command (i + 1) (n + 1) ds).2.1 - n =
                k + 1 := ⟨_, (Nat.sub_add_cancel (by omega)).symm⟩
            rw [hk, List.take_succ_cons, List.map_cons, List.cons_prefix_cons]
            refine ⟨rfl, ?_⟩
            have hk' : (multicast args replies command (i + 1) (n + 1) ds).2.1 - (n + 1) = k := by
              omega
            rwa [hk'] at hbegin

theorem addressed_eq_some_iff {args : List Text} {ds : List (UnicastCommandDispatcher α)}
    {hostNumber : Int32} {d : UnicastCommandDispatcher α} :
    addressed args ds hostNumber = some d ↔
      hostNumber.toInt.toNat - 1 < args.length ∧ ds[hostNumber.toInt.toNat - 1]? = some d := by
  rw [addressed]
  split_ifs with h
  · exact (and_iff_right h).symm
  · exact iff_of_false (by simp) fun hd => h hd.1

theorem unicast_calls (args : List Text) (replies : ℕ → Executed) (command : Text)
    (ds : List (UnicastCommandDispatcher α)) (n : ℕ) (hostNumber : Int32) :
    let r := unicast args replies command ds n hostNumber
    let d := addressed args ds hostNumber
    r.2.1 = n + d.toList.length ∧ r.1.map Printed.dispatcher <+: d.toList ∧
      (r.2.2 = .thrown .hostNumber ↔ d = none) ∧ r.2.2 ≠ .thrown .argsIndex := by
  intro r d
  cases harg : args[hostNumber.toInt.toNat - 1]? with
  | none =>
    have hd : d = none := if_neg (Nat.not_lt.mpr (List.getElem?_eq_none_iff.mp harg))
    simp only [r, unicast, harg, hd]
    exact ⟨rfl, List.nil_prefix, by simp, by simp⟩
  | some arg =>
    have hlt := (List.getElem?_eq_some_iff.mp harg).1
    have hd : d = ds[hostNumber.toInt.toNat - 1]? := if_pos hlt
    cases hds : ds[hostNumber.toInt.toNat - 1]? with
    | none =>
      simp only [r, unicast, harg, hds, hd]
      exact ⟨rfl, List.nil_prefix, by simp, by simp⟩
    | some e =>
      cases hreply : replies n with
      | failed =>
        simp only [r, unicast, harg, hds, hd, hreply]
        exact ⟨rfl, List.nil_prefix, by simp, by simp⟩
      | returned resp =>
        simp only [r, unicast, harg, hds, hd, hreply]
        refine ⟨rfl, List.prefix_rfl, ?_, ?_⟩ <;> split <;> simp

theorem map_fst_calls (ds : List (UnicastCommandDispatcher α)) (command : Text) :
    (ds.map fun d => (d, command)).map Prod.fst = ds := by
  rw [List.map_map]
  exact List.map_id ds

/-- The calls are those whose replies a typed line uses up, and what it prints comes
from them. -/
theorem typed_calls (args : List Text) (replies : ℕ → Executed)
    (ds : List (UnicastCommandDispatcher α)) (n : ℕ) (input : Text) :
    let r := typed args ds replies n input
    let cs := calls args ds replies n input
    r.2.1 = n + cs.length ∧ r.1.map Printed.dispatcher <+: cs.map Prod.fst := by
  intro r cs
  cases htokens : tokens isDelimiter input with
  | nil =>
    simp only [r, cs, typed, calls, htokens]
    exact ⟨rfl, List.nil_prefix⟩
  | cons command more =>
    cases more with
    | nil =>
      obtain ⟨hle, hlen, hbegin, -⟩ := multicast_calls args replies command 0 n ds
      simp only [r, cs, typed, calls, htokens, List.length_map, List.length_take, map_fst_calls]
      exact ⟨by omega, hbegin⟩
    | cons number more =>
      by_cases hpos : (valueOf number).getD (-1) > 0
      · obtain ⟨hcount, hbegin, -⟩ :=
          unicast_calls args replies command ds n ((valueOf number).getD (-1))
        simp only [r, cs, typed, calls, htokens, if_pos hpos, List.length_map, map_fst_calls]
        exact ⟨hcount, hbegin⟩
      · simp only [r, cs, typed, calls, htokens, if_neg hpos]
        exact ⟨rfl, List.nil_prefix⟩

/-- A command with a host number goes to the dispatcher in that place and to no other, or
is complained about and not sent, and the next line is read; and no line leads behind the
end of a list. -/
def Checked (getByName : Text → α) (args : List Text) (ds : List (UnicastCommandDispatcher α))
    (replies : ℕ → Executed) (n : ℕ) (input : Text) : Prop :=
  (∀ command token more, tokens isDelimiter input = command :: token :: more →
    command ∈ commands →
      (∃ (i : ℕ) (arg : Text) (d : UnicastCommandDispatcher α), numeral token = some (i + 1 : ℤ) ∧
        args[i]? = some arg ∧ ds[i]? = some d ∧ Writes getByName arg d ∧
        calls args ds replies n input = [(d, command)]) ∨
      (calls args ds replies n input = [] ∧ complaints input ≠ [] ∧
        (typed args ds replies n input).2.2 = .prompt)) ∧
    (typed args ds replies n input).2.2 ≠ .thrown .argsIndex ∧
    (typed args ds replies n input).2.2 ≠ .thrown .hostNumber

/-- A host number that can be read is not beyond the hosts. -/
def Within (args : List Text) (input : Text) : Prop :=
  ∀ command token more, tokens isDelimiter input = command :: token :: more →
    ∀ v, valueOf token = some v → v.toInt ≤ args.length

theorem within_of_tokens {args : List Text} {input command token : Text} {more : List Text}
    (h : tokens isDelimiter input = command :: token :: more)
    (hle : (valueOf token).all (fun v => v.toInt ≤ (args.length : ℤ)) = true) :
    Within args input := by
  intro command' token' more' h' v hv
  obtain ⟨rfl, rfl, rfl⟩ : command = command' ∧ token = token' ∧ more = more' := by
    simpa [h] using h'
  rw [hv] at hle
  exact of_decide_eq_true hle

theorem typed_of_number {args : List Text} {ds : List (UnicastCommandDispatcher α)}
    {replies : ℕ → Executed} {input command token : Text} {more : List Text} (n : ℕ)
    (h : tokens isDelimiter input = command :: token :: more) {v : Int32}
    (hv : valueOf token = some v) (hpos : 0 < v) :
    typed args ds replies n input = unicast args replies command ds n v ∧
      calls args ds replies n input =
        (addressed args ds v).toList.map fun d => (d, command) := by
  have hget : (valueOf token).getD (-1) = v := by rw [hv, Option.getD_some]
  have hgt : v > 0 := hpos
  simp only [typed, calls, h, hget, if_pos hgt, and_self]

theorem typed_of_no_number {args : List Text} {ds : List (UnicastCommandDispatcher α)}
    {replies : ℕ → Executed} {input command token : Text} {more : List Text} (n : ℕ)
    (h : tokens isDelimiter input = command :: token :: more)
    (hneg : ¬ (valueOf token).getD (-1) > 0) :
    typed args ds replies n input = ([], n, .prompt) ∧ calls args ds replies n input = [] ∧
      complaints input ≠ [] := by
  simp only [typed, calls, complaints, h, if_neg hneg, true_and]
  exact List.append_ne_nil_of_right_ne_nil _ (List.cons_ne_nil _ _)

theorem value_of_pos {token : Text} (h : (valueOf token).getD (-1) > 0) :
    ∃ v, valueOf token = some v ∧ 0 < v := by
  cases hv : valueOf token with
  | none =>
    rw [hv] at h
    exact absurd h (by decide)
  | some v =>
    rw [hv] at h
    exact ⟨v, rfl, h⟩

section
variable {getByName : Text → α} {args : List Text} {ds : List (UnicastCommandDispatcher α)}

theorem addressed_of_le (hall : List.Forall₂ (Writes getByName) args ds) {v : Int32} (hpos : 0 < v)
    (hle : v.toInt ≤ args.length) :
    ∃ (i : ℕ) (arg : Text) (d : UnicastCommandDispatcher α), v.toInt = i + 1 ∧
      args[i]? = some arg ∧ ds[i]? = some d ∧ Writes getByName arg d ∧
      addressed args ds v = some d := by
  have hv := Word32.pos_iff.mp hpos
  have hi : v.toInt.toNat - 1 < args.length := by omega
  have hj : v.toInt.toNat - 1 < ds.length := hall.length_eq ▸ hi
  have hd := List.getElem?_eq_getElem hj
  exact ⟨_, _, _, by omega, List.getElem?_eq_getElem hi, hd, hall.get hi hj,
    addressed_eq_some_iff.mpr ⟨hi, hd⟩⟩

theorem addressed_of_gt {v : Int32} (hgt : (args.length : ℤ) < v.toInt) :
    addressed args ds v = none := by
  have hi : ¬ v.toInt.toNat - 1 < args.length := by omega
  exact if_neg hi

theorem typed_ne_hostNumber (hall : List.Forall₂ (Writes getByName) args ds)
    {input : Text} (hwithin : Within args input) (replies : ℕ → Executed) (n : ℕ) :
    (typed args ds replies n input).2.2 ≠ .thrown .hostNumber := by
  cases htokens : tokens isDelimiter input with
  | nil =>
    simp [typed, htokens]
  | cons command more =>
    cases more with
    | nil =>
      obtain ⟨-, -, -, hne⟩ := multicast_calls args replies command 0 n ds
      simpa only [typed, htokens] using hne
    | cons token more =>
      by_cases hpos : (valueOf token).getD (-1) > 0
      · obtain ⟨v, hv, hvpos⟩ := value_of_pos hpos
        obtain ⟨htyped, -⟩ := @typed_of_number α args ds replies _ _ _ _ n htokens v hv hvpos
        obtain ⟨-, -, d, -, -, -, -, hd⟩ :=
          addressed_of_le hall hvpos (hwithin command token more htokens v hv)
        obtain ⟨-, -, hthrown, -⟩ := unicast_calls args replies command ds n v
        rw [htyped]
        intro hc
        rw [hthrown.mp hc] at hd
        exact Option.some_ne_none d hd.symm
      · simp [(typed_of_no_number n htokens hpos).1]

theorem checked_iff (hall : List.Forall₂ (Writes getByName) args ds) (replies : ℕ → Executed)
    (n : ℕ) (input : Text) : Checked getByName args ds replies n input ↔ Within args input := by
  constructor
  · rintro ⟨-, -, hhost⟩ command token more htokens v hv
    by_contra hgt
    have hbeyond := @addressed_of_gt α args ds v (by omega)
    have hpos : 0 < v := Word32.pos_iff.mpr (by omega)
    obtain ⟨htyped, -⟩ := @typed_of_number α args ds replies _ _ _ _ n htokens v hv hpos
    obtain ⟨-, -, hthrown, -⟩ := unicast_calls args replies command ds n v
    rw [htyped] at hhost
    exact hhost (hthrown.mpr hbeyond)
  · intro hwithin
    refine ⟨fun command token more htokens _ => ?_, (typed_labelled replies hall n input).index,
      typed_ne_hostNumber hall hwithin replies n⟩
    by_cases hpos : (valueOf token).getD (-1) > 0
    · obtain ⟨v, hv, hvpos⟩ := value_of_pos hpos
      obtain ⟨-, hcalls⟩ := @typed_of_number α args ds replies _ _ _ _ n htokens v hv hvpos
      obtain ⟨i, arg, d, hi, harg, hd, hwrites, haddressed⟩ :=
        addressed_of_le hall hvpos (hwithin command token more htokens v hv)
      rw [haddressed] at hcalls
      exact Or.inl ⟨i, arg, d, (numeral_of_valueOf hv).trans (congrArg some hi), harg, hd, hwrites,
        hcalls⟩
    · obtain ⟨htyped, hcalls, hcomplaints⟩ :=
        @typed_of_no_number α args ds replies _ _ _ _ n htokens hpos
      exact Or.inr ⟨hcalls, hcomplaints, by rw [htyped]⟩

end

end ParkingLotClientMain

open CommandDispatchers CppAsio CString

/-- Each client meets the range check of host numbers on a line exactly when the number
lies in the range anyway: the Java client lacks the upper bound, the C++ client both, and
the latter also takes a number for what its first digits are. -/
theorem host_numbers_checked_iff {α : Type} {ε : Type*} {getByName : Text → α} {args : List Text}
    (hargs : ∀ arg ∈ args, IpPort arg) (endpoints : List ε) :
    (∃ ds, createUnicastDispatchers getByName args = some ds ∧
      ∀ (replies : ℕ → Executed) (n : ℕ) (input : Text),
        ParkingLotClientMain.Checked getByName args ds replies n input ↔
          ParkingLotClientMain.Within args input) ∧
      ∀ (replies : ℕ → Option Reply) (s : Client ε), s.place = .prompting →
        (Client.Checked endpoints replies s ↔ Client.Within endpoints s) := by
  obtain ⟨ds, hds, hall⟩ := @create_of_ipPort α getByName args hargs
  exact ⟨⟨ds, hds, fun replies n input => ParkingLotClientMain.checked_iff hall replies n input⟩,
    fun replies s hplace => Client.checked_iff hplace⟩

theorem host_numbers_checked_iff_local :
    let args := ["127.0.0.1:5000".toList]
    (∀ arg ∈ args, IpPort arg) ∧
      (∃ ds : List (UnicastCommandDispatcher Text), createUnicastDispatchers id args = some ds ∧
        ParkingLotClientMain.Checked id args ds (fun _ => .returned none) 0 "in one".toList ∧
        ParkingLotClientMain.Checked id args ds (fun _ => .returned none) 0 "in 1".toList) ∧
      Client.Checked args (fun _ => none) (Client.start (ascii "in one\n")) ∧
      Client.Checked args (fun _ => none) (Client.start (ascii "in 1\n")) := by
  intro args
  have hargs : ∀ arg ∈ args, IpPort arg := by
    intro arg harg
    obtain rfl := List.mem_singleton.mp harg
    exact ⟨"127.0.0.1".toList, "5000".toList, 5000, by decide⟩
  obtain ⟨⟨ds, hds, hjava⟩, hcpp⟩ := @host_numbers_checked_iff Text Text id args hargs args
  refine ⟨hargs, ⟨ds, hds, (hjava _ 0 _).mpr ?_, (hjava _ 0 _).mpr ?_⟩, (hcpp _ _ rfl).mpr ?_,
    (hcpp _ _ rfl).mpr ?_⟩
  · have htokens : JavaString.tokens ParkingLotClientMain.isDelimiter "in one".toList =
        ["in".toList, "one".toList] := by decide
    exact ParkingLotClientMain.within_of_tokens htokens (by decide)
  · have htokens : JavaString.tokens ParkingLotClientMain.isDelimiter "in 1".toList =
        ["in".toList, "1".toList] := by decide
    exact ParkingLotClientMain.within_of_tokens htokens (by decide)
  · have hnext : Istream.nextLine (ascii "in one\n") = some (ascii "in one", []) := by decide
    have hwords : strtok ' ' (ascii "in one") = ["in".toList, "one".toList] := by decide
    exact Client.within_of_line hnext hwords
      ⟨by decide, "one".toList, [], by decide, Or.inr (by decide)⟩
  · have hnext : Istream.nextLine (ascii "in 1\n") = some (ascii "in 1", []) := by decide
    have hwords : strtok ' ' (ascii "in 1") = ["in".toList, "1".toList] := by decide
    exact Client.within_of_line hnext hwords
      ⟨by decide, "1".toList, [], by decide, Or.inl ⟨0, 1, by decide⟩⟩

/-- With one host, `in 2` ends the Java client in an exception and leads the C++ client
behind the end of its vector. -/
theorem second_of_one_host :
    let args := ["127.0.0.1:5000".toList]
    let ds : List (UnicastCommandDispatcher Text) := [⟨"127.0.0.1".toList, 5000⟩]
    let replies : ℕ → Option Reply := fun _ => some ⟨ascii "ok\n", by decide⟩
    (ParkingLotClientMain.typed args ds (fun _ => .returned none) 0 "in 2".toList =
        ([], 0, .thrown .hostNumber) ∧
      ¬ ParkingLotClientMain.Checked id args ds (fun _ => .returned none) 0 "in 2".toList) ∧
      Client.iteration args replies (Client.start (ascii "in 2\n")) = none ∧
      ¬ Client.Checked args replies (Client.start (ascii "in 2\n")) := by
  intro args ds replies
  have hjava : ParkingLotClientMain.typed args ds (fun _ => .returned none) 0 "in 2".toList =
      ([], 0, .thrown .hostNumber) := by decide
  have hcpp : Client.iteration args replies (Client.start (ascii "in 2\n")) = none := by decide
  refine ⟨⟨hjava, fun h => ?_⟩, hcpp, fun h => h.2 hcpp⟩
  exact h.2.2 (by rw [hjava])

end Vsys.NetParkingSim
