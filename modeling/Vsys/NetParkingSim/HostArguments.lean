import Mathlib.Data.List.Forall2
import Vsys.NetParkingSim.RequestDispatcher
import Vsys.Text.JavaString

/-! The command-line arguments of the Java client, the dispatchers made from them, and
the responses that are printed under them. -/

namespace Vsys.NetParkingSim

open JavaString

structure UnicastCommandDispatcher (α : Type*) where
  addr : α
  port : Int32
  deriving DecidableEq, Repr

namespace CommandDispatchers

variable {α : Type}

/-- The `while` loop over the tokens of one argument; a last token without a partner
makes no dispatcher. -/
def fromTokens (getByName : Text → α) : List Text → Option (List (UnicastCommandDispatcher α))
  | host :: port :: rest => do
    let p ← valueOf port
    let ds ← fromTokens getByName rest
    return ⟨getByName host, p⟩ :: ds
  | _ => some []

def fromArgument (getByName : Text → α) (s : Text) :
    Option (List (UnicastCommandDispatcher α)) :=
  fromTokens getByName (tokens (· = ':') s)

def createUnicastDispatchers (getByName : Text → α) :
    List Text → Option (List (UnicastCommandDispatcher α))
  | [] => some []
  | s :: pairs => do
    let ds ← fromArgument getByName s
    let rest ← createUnicastDispatchers getByName pairs
    return ds ++ rest

/-- The dispatcher addresses the host and the port written in the argument: the port
stands behind the last colon, the host before it. -/
def Writes (getByName : Text → α) (arg : Text) (d : UnicastCommandDispatcher α) : Prop :=
  ∃ host port p, arg = host ++ ':' :: port ∧ ':' ∉ port ∧ valueOf port = some p ∧
    d = ⟨getByName host, p⟩

/-- One host and one port, and a port that can be read. -/
def IpPort (arg : Text) : Prop :=
  ∃ host port p, arg = host ++ ':' :: port ∧ ':' ∉ host ∧ ':' ∉ port ∧ host ≠ [] ∧ port ≠ [] ∧
    valueOf port = some p

variable {getByName : Text → α}

theorem tokens_host_port {host port : Text} (hhost : ':' ∉ host) (hport : ':' ∉ port)
    (hhost0 : host ≠ []) (hport0 : port ≠ []) :
    tokens (· = ':') (host ++ ':' :: port) = [host, port] := by
  have hplain : ∀ {t : Text}, ':' ∉ t → ∀ c ∈ t, decide (c = ':') = false :=
    fun ht c hc => decide_eq_false fun he => ht (he ▸ hc)
  exact tokens_pair (by decide) (hplain hhost) (hplain hport) hhost0 hport0

theorem fromTokens_cons {host port : Text} {rest : List Text}
    {ds : List (UnicastCommandDispatcher α)}
    (h : fromTokens getByName (host :: port :: rest) = some ds) :
    ∃ p es, valueOf port = some p ∧ fromTokens getByName rest = some es ∧
      ds = ⟨getByName host, p⟩ :: es := by
  obtain ⟨p, hp, h⟩ := Option.bind_eq_some_iff.mp h
  obtain ⟨es, hes, h⟩ := Option.bind_eq_some_iff.mp h
  exact ⟨p, es, hp, hes, (Option.some.inj h).symm⟩

theorem addr_of_fromTokens {ts : List Text} {ds : List (UnicastCommandDispatcher α)}
    (h : fromTokens getByName ts = some ds) {d : UnicastCommandDispatcher α} (hd : d ∈ ds) :
    ∃ host ∈ ts, d.addr = getByName host := by
  induction ts using fromTokens.induct generalizing ds with
  | case1 host port rest ih =>
    obtain ⟨p, es, -, hes, rfl⟩ := fromTokens_cons h
    rcases List.mem_cons.mp hd with rfl | hd
    · exact ⟨host, List.mem_cons_self, rfl⟩
    · obtain ⟨host', hhost', haddr⟩ := ih hes hd
      exact ⟨host', List.mem_cons_of_mem _ (List.mem_cons_of_mem _ hhost'), haddr⟩
  | case2 ts hts =>
    rw [fromTokens] at h
    · cases h
      cases hd
    · exact hts

theorem create_cons {s : Text} {pairs : List Text} {ds : List (UnicastCommandDispatcher α)}
    (h : createUnicastDispatchers getByName (s :: pairs) = some ds) :
    ∃ es rest, fromArgument getByName s = some es ∧
      createUnicastDispatchers getByName pairs = some rest ∧ ds = es ++ rest := by
  obtain ⟨es, hes, h⟩ := Option.bind_eq_some_iff.mp h
  obtain ⟨rest, hrest, h⟩ := Option.bind_eq_some_iff.mp h
  exact ⟨es, rest, hes, hrest, (Option.some.inj h).symm⟩

/-- The hosts that are looked up have no colon in them and are not empty. -/
theorem addr_of_create {args : List Text} {ds : List (UnicastCommandDispatcher α)}
    (h : createUnicastDispatchers getByName args = some ds) {d : UnicastCommandDispatcher α}
    (hd : d ∈ ds) : ∃ host, ':' ∉ host ∧ host ≠ [] ∧ d.addr = getByName host := by
  induction args generalizing ds with
  | nil =>
    cases h
    cases hd
  | cons s pairs ih =>
    obtain ⟨es, rest, hes, hrest, rfl⟩ := create_cons h
    rcases List.mem_append.mp hd with hd | hd
    · obtain ⟨host, hhost, haddr⟩ := addr_of_fromTokens hes hd
      have hplain := delim_of_mem_tokens hhost
      have hne := (List.mem_filter.mp hhost).2
      refine ⟨host, fun hmem => ?_, ?_, haddr⟩
      · exact absurd (hplain ':' hmem) (by decide)
      · rintro rfl
        exact absurd hne (by decide)
    · exact ih hrest hd

theorem fromArgument_pair {host port : Text} {p : Int32} (hhost : ':' ∉ host) (hport : ':' ∉ port)
    (hhost0 : host ≠ []) (hport0 : port ≠ []) (hp : valueOf port = some p) :
    fromArgument getByName (host ++ ':' :: port) = some [⟨getByName host, p⟩] := by
  rw [fromArgument, tokens_host_port hhost hport hhost0 hport0, fromTokens, hp]
  rfl

theorem create_of_ipPort {args : List Text} (h : ∀ arg ∈ args, IpPort arg) :
    ∃ ds, createUnicastDispatchers getByName args = some ds ∧
      List.Forall₂ (Writes getByName) args ds := by
  induction args with
  | nil => exact ⟨[], rfl, .nil⟩
  | cons s pairs ih =>
    obtain ⟨host, port, p, rfl, hhost, hport, hhost0, hport0, hp⟩ := h s List.mem_cons_self
    obtain ⟨rest, hrest, hall⟩ := ih fun arg harg => h arg (List.mem_cons_of_mem _ harg)
    have hone : fromArgument getByName (host ++ ':' :: port) = some [⟨getByName host, p⟩] :=
      fromArgument_pair hhost hport hhost0 hport0 hp
    refine ⟨⟨getByName host, p⟩ :: rest, ?_, .cons ⟨host, port, p, rfl, hport, hp, rfl⟩ hall⟩
    rw [createUnicastDispatchers, hone, hrest]
    rfl

theorem ipPort_of_writes {arg : Text} {d : UnicastCommandDispatcher Text}
    (h : Writes id arg d) (hcolon : ':' ∉ d.addr) (hne : d.addr ≠ []) : IpPort arg := by
  obtain ⟨host, port, p, rfl, hport, hp, rfl⟩ := h
  have hport0 : port ≠ [] := by
    rintro rfl
    cases hp
  exact ⟨host, port, p, rfl, hcolon, hport, hne, hport0, hp⟩

/-- Where names are kept as they are, a dispatcher for what is written in an argument has
been made from a host without colons. -/
theorem ipPort_of_forall₂ {args : List Text} {ds : List (UnicastCommandDispatcher Text)}
    (h : createUnicastDispatchers id args = some ds) (hall : List.Forall₂ (Writes id) args ds) :
    ∀ arg ∈ args, IpPort arg := by
  intro arg harg
  obtain ⟨i, hi, rfl⟩ := List.mem_iff_getElem.mp harg
  have hd : i < ds.length := hall.length_eq ▸ hi
  obtain ⟨host, hcolon, hne, haddr⟩ := addr_of_create h (List.getElem_mem hd)
  have haddr : ds[i].addr = host := haddr
  exact ipPort_of_writes (hall.get hi hd) (haddr ▸ hcolon) (haddr ▸ hne)

theorem fromTokens_resolved {β : Type} (resolve : Text → β) {ts : List Text}
    {ds : List (UnicastCommandDispatcher α)} (h : fromTokens getByName ts = some ds) :
    ∃ es, fromTokens resolve ts = some es := by
  induction ts using fromTokens.induct generalizing ds with
  | case1 host port rest ih =>
    obtain ⟨p, es, hp, hes, -⟩ := fromTokens_cons h
    obtain ⟨fs, hfs⟩ := ih hes
    exact ⟨⟨resolve host, p⟩ :: fs, by rw [fromTokens, hp, hfs]; rfl⟩
  | case2 ts hts => exact ⟨[], by rw [fromTokens]; exact hts⟩

theorem create_resolved {β : Type} (resolve : Text → β) {args : List Text}
    {ds : List (UnicastCommandDispatcher α)}
    (h : createUnicastDispatchers getByName args = some ds) :
    ∃ es, createUnicastDispatchers resolve args = some es := by
  induction args generalizing ds with
  | nil => exact ⟨[], rfl⟩
  | cons s pairs ih =>
    obtain ⟨es, rest, hes, hrest, -⟩ := create_cons h
    obtain ⟨fs, hfs⟩ := fromTokens_resolved resolve hes
    obtain ⟨more, hmore⟩ := ih hrest
    exact ⟨fs ++ more, by rw [createUnicastDispatchers, fromArgument, hfs, hmore]; rfl⟩

end CommandDispatchers

/-- What a call of `execute` ends with: the line it has read, which is `null` at the end
of the input, or a `RuntimeException`. -/
inductive Executed where
  | returned (resp : Option Text)
  | failed
  deriving DecidableEq, Repr

inductive Escape where
  | argsIndex
  | hostNumber
  | execute
  | nullPointer
  deriving DecidableEq, Repr

inductive Continuation where
  | prompt
  | exit
  | thrown (e : Escape)
  deriving DecidableEq, Repr

structure Printed (α : Type*) where
  label : Text
  dispatcher : UnicastCommandDispatcher α
  resp : Option Text
  deriving DecidableEq, Repr

namespace ParkingLotClientMain

open CommandDispatchers

variable {α : Type}

section
variable (args : List Text) (replies : ℕ → Executed) (command : Text)

/-- The loop over the dispatchers from index `i` on. The replies of the servers come in
the order of the calls of `execute`, of which there have been `n`. -/
def multicast : ℕ → ℕ → List (UnicastCommandDispatcher α) → List (Printed α) × ℕ × Continuation
  | _, n, [] => ([], n, if command = quitLine then .exit else .prompt)
  | i, n, d :: ds =>
    match replies n with
    | .failed => ([], n + 1, .thrown .execute)
    | .returned resp =>
      match args[i]? with
      | none => ([], n + 1, .thrown .argsIndex)
      | some arg =>
        match resp with
        | none => ([⟨arg, d, none⟩], n + 1, .thrown .nullPointer)
        | some t =>
          if t = "ok".toList ∧ command ≠ quitLine then ([⟨arg, d, some t⟩], n + 1, .prompt)
          else
            let r := multicast (i + 1) (n + 1) ds
            (⟨arg, d, some t⟩ :: r.1, r.2)

def unicast (dispatchers : List (UnicastCommandDispatcher α)) (n : ℕ) (hostNumber : Int32) :
    List (Printed α) × ℕ × Continuation :=
  let i := hostNumber.toInt.toNat - 1
  match args[i]?, dispatchers[i]? with
  | some arg, some d =>
    match replies n with
    | .failed => ([], n + 1, .thrown .execute)
    | .returned resp =>
      ([⟨arg, d, resp⟩], n + 1, if command = quitLine then .exit else .prompt)
  | _, _ => ([], n, .thrown .hostNumber)

end

def isDelimiter (c : Char) : Bool :=
  c = ' ' || c = '\t' || c = '\n' || c = '\r' || c = '\x0c'

def typed (args : List Text) (dispatchers : List (UnicastCommandDispatcher α))
    (replies : ℕ → Executed) (n : ℕ) (input : Text) : List (Printed α) × ℕ × Continuation :=
  match tokens isDelimiter input with
  | [] => ([], n, .prompt)
  | [command] => multicast args replies command 0 n dispatchers
  | command :: number :: _ =>
    let hostNumber := (valueOf number).getD (-1)
    if hostNumber > 0 then unicast args replies command dispatchers n hostNumber
    else ([], n, .prompt)

/-- The loop over the typed lines; at the end of the input `main` returns. -/
def loop (args : List Text) (dispatchers : List (UnicastCommandDispatcher α))
    (replies : ℕ → Executed) : ℕ → List Text → List (Printed α) × Continuation
  | _, [] => ([], .prompt)
  | n, input :: inputs =>
    let r := typed args dispatchers replies n input
    match r.2.2 with
    | .prompt =>
      let rest := loop args dispatchers replies r.2.1 inputs
      (r.1 ++ rest.1, rest.2)
    | e => (r.1, e)

def main (getByName : Text → α) (replies : ℕ → Executed) (args inputs : List Text) :
    Option (List (Printed α) × Continuation) :=
  if args.length < 1 then some ([], .prompt)
  else (createUnicastDispatchers getByName args).map fun ds => loop args ds replies 0 inputs

/-- Every response is printed under the argument that its endpoint was read from, and
no index of the loop over the dispatchers is behind the arguments. -/
structure Labelled (getByName : Text → α) (printed : List (Printed α)) (c : Continuation) :
    Prop where
  label : ∀ p ∈ printed, Writes getByName p.label p.dispatcher
  index : c ≠ .thrown .argsIndex

section
variable {getByName : Text → α} {args : List Text} {ds : List (UnicastCommandDispatcher α)}

theorem Labelled.nothing {c : Continuation} (hc : c ≠ .thrown .argsIndex) :
    Labelled getByName [] c := ⟨fun _ h => absurd h List.not_mem_nil, hc⟩

theorem Labelled.cons {p : Printed α} {printed : List (Printed α)} {c : Continuation}
    (hp : Writes getByName p.label p.dispatcher) (h : Labelled getByName printed c) :
    Labelled getByName (p :: printed) c := by
  refine ⟨fun q hq => ?_, h.index⟩
  rcases List.mem_cons.mp hq with rfl | hq
  · exact hp
  · exact h.label q hq

theorem Labelled.append {printed more : List (Printed α)} {c : Continuation}
    (hp : ∀ p ∈ printed, Writes getByName p.label p.dispatcher)
    (h : Labelled getByName more c) : Labelled getByName (printed ++ more) c := by
  refine ⟨fun q hq => ?_, h.index⟩
  rcases List.mem_append.mp hq with hq | hq
  · exact hp q hq
  · exact h.label q hq

theorem lastOf_ne {command : Text} :
    (if command = quitLine then Continuation.exit else .prompt) ≠ .thrown .argsIndex := by
  split <;> simp

theorem multicast_labelled (replies : ℕ → Executed) (command : Text) {done rest : List Text}
    (h : List.Forall₂ (Writes getByName) rest ds) (hargs : args = done ++ rest) (n : ℕ) :
    let r := multicast args replies command done.length n ds
    Labelled getByName r.1 r.2.2 := by
  induction h generalizing done n with
  | nil => exact .nothing lastOf_ne
  | @cons arg d rest ds hd _ ih =>
    have hat : args[done.length]? = some arg := by simp [hargs]
    have hnext := @ih (done ++ [arg]) (by simp [hargs]) (n + 1)
    rw [List.length_append, List.length_singleton] at hnext
    intro r
    cases hreply : replies n with
    | failed =>
      simp only [r, multicast, hreply]
      exact .nothing (by simp)
    | returned resp =>
      cases resp with
      | none =>
        simp only [r, multicast, hreply, hat]
        exact .cons hd (.nothing (by simp))
      | some t =>
        by_cases hok : t = "ok".toList ∧ command ≠ quitLine
        · simp only [r, multicast, hreply, hat, if_pos hok]
          exact .cons hd (.nothing (by simp))
        · simp only [r, multicast, hreply, hat, if_neg hok]
          exact .cons hd hnext

theorem unicast_labelled (replies : ℕ → Executed) (command : Text)
    (h : List.Forall₂ (Writes getByName) args ds) (n : ℕ) (hostNumber : Int32) :
    let r := unicast args replies command ds n hostNumber
    Labelled getByName r.1 r.2.2 := by
  intro r
  let i := hostNumber.toInt.toNat - 1
  cases hargs : args[i]? with
  | none =>
    simp only [r, unicast, i, hargs]
    exact .nothing (by simp)
  | some arg =>
    cases hds : ds[i]? with
    | none =>
      simp only [r, unicast, i, hargs, hds]
      exact .nothing (by simp)
    | some d =>
      obtain ⟨hi, rfl⟩ := List.getElem?_eq_some_iff.mp hargs
      obtain ⟨hj, rfl⟩ := List.getElem?_eq_some_iff.mp hds
      have hwrites : Writes getByName args[i] ds[i] := h.get hi hj
      cases hreply : replies n with
      | failed =>
        simp only [r, unicast, i, hargs, hds, hreply]
        exact .nothing (by simp)
      | returned resp =>
        simp only [r, unicast, i, hargs, hds, hreply]
        exact .cons hwrites (.nothing lastOf_ne)

theorem typed_labelled (replies : ℕ → Executed) (h : List.Forall₂ (Writes getByName) args ds)
    (n : ℕ) (input : Text) :
    let r := typed args ds replies n input
    Labelled getByName r.1 r.2.2 := by
  intro r
  cases htokens : tokens isDelimiter input with
  | nil =>
    simp only [r, typed, htokens]
    exact .nothing (by simp)
  | cons command more =>
    cases more with
    | nil =>
      simp only [r, typed, htokens]
      exact @multicast_labelled _ _ _ _ replies command [] _ h rfl n
    | cons number more =>
      by_cases hpos : (valueOf number).getD (-1) > 0
      · simp only [r, typed, htokens, if_pos hpos]
        exact unicast_labelled replies command h n _
      · simp only [r, typed, htokens, if_neg hpos]
        exact .nothing (by simp)

theorem loop_labelled (replies : ℕ → Executed) (h : List.Forall₂ (Writes getByName) args ds)
    (n : ℕ) (inputs : List Text) :
    Labelled getByName (loop args ds replies n inputs).1 (loop args ds replies n inputs).2 := by
  induction inputs generalizing n with
  | nil => exact .nothing (c := .prompt) (by simp)
  | cons input inputs ih =>
    have htyped : Labelled getByName (typed args ds replies n input).1
        (typed args ds replies n input).2.2 := typed_labelled replies h n input
    cases hr : (typed args ds replies n input).2.2 with
    | prompt =>
      simp only [loop, hr]
      exact .append htyped.label (ih _)
    | exit | thrown =>
      simp only [loop, hr]
      rwa [hr] at htyped

theorem main_labelled (replies : ℕ → Executed)
    (h : createUnicastDispatchers getByName args = some ds)
    (hall : List.Forall₂ (Writes getByName) args ds) (inputs : List Text) :
    ∃ r, main getByName replies args inputs = some r ∧ Labelled getByName r.1 r.2 := by
  by_cases hargs : args.length < 1
  · exact ⟨_, if_pos hargs, .nothing (by simp)⟩
  · refine ⟨loop args ds replies 0 inputs, ?_, loop_labelled replies hall 0 inputs⟩
    rw [main, if_neg hargs, h, Option.map_some]

/-- The dispatchers and the arguments correspond one to one, and every response of a
session is printed under its own argument, however the names of hosts are resolved. -/
def Correspond (args : List Text) : Prop :=
  ∀ (α : Type) (getByName : Text → α) (ds : List (UnicastCommandDispatcher α)),
    createUnicastDispatchers getByName args = some ds →
      List.Forall₂ (Writes getByName) args ds ∧ ∀ (replies : ℕ → Executed) (inputs : List Text),
        ∃ printed c, main getByName replies args inputs = some (printed, c) ∧
          (∀ p ∈ printed, Writes getByName p.label p.dispatcher) ∧ c ≠ .thrown .argsIndex

theorem correspond_of_ipPort (hargs : ∀ arg ∈ args, IpPort arg) : Correspond args := by
  intro α getByName ds h
  obtain ⟨es, hes, hall⟩ := @create_of_ipPort α getByName args hargs
  obtain rfl : es = ds := Option.some.inj (hes.symm.trans h)
  refine ⟨hall, fun replies inputs => ?_⟩
  obtain ⟨⟨printed, c⟩, hsome, hlabelled⟩ := main_labelled replies h hall inputs
  exact ⟨printed, c, hsome, hlabelled.label, hlabelled.index⟩

/-- Of arguments that are read without an exception, this is so exactly when each is one
host and one port with a colon between them. -/
theorem hosts_correspond_iff (getByName : Text → α)
    (h : createUnicastDispatchers getByName args = some ds) :
    Correspond args ↔ ∀ arg ∈ args, IpPort arg := by
  refine ⟨fun hcorrespond => ?_, correspond_of_ipPort⟩
  obtain ⟨es, hes⟩ := create_resolved id h
  exact ipPort_of_forall₂ hes (hcorrespond Text id es hes).1

end

theorem hosts_correspond_iff_local :
    let args := ["127.0.0.1:5000".toList, "localhost:5001".toList]
    ∃ ds : List (UnicastCommandDispatcher Text),
      createUnicastDispatchers id args = some ds ∧ List.Forall₂ (Writes id) args ds := by
  intro args
  have hcreate : createUnicastDispatchers id args =
      some [⟨"127.0.0.1".toList, 5000⟩, ⟨"localhost".toList, 5001⟩] := by decide
  have hargs : ∀ arg ∈ args, IpPort arg := by
    intro arg harg
    simp only [args, List.mem_cons, List.not_mem_nil, or_false] at harg
    rcases harg with rfl | rfl
    · exact ⟨"127.0.0.1".toList, "5000".toList, 5000, by decide⟩
    · exact ⟨"localhost".toList, "5001".toList, 5001, by decide⟩
  exact ⟨_, hcreate, ((hosts_correspond_iff id hcreate).mpr hargs Text id _ hcreate).1⟩

/-- An argument without a port shifts the labels of those behind it, one with two pairs
leads the loop behind the arguments, and of an address with more colons a piece is taken
for the host. -/
theorem shifted_labels :
    let replies : ℕ → Executed := fun _ => .returned (some "5".toList)
    (∃ ds : List (UnicastCommandDispatcher Text),
      createUnicastDispatchers id ["localhost".toList, "127.0.0.1:5000".toList] = some ds ∧
      ¬ List.Forall₂ (Writes id) ["localhost".toList, "127.0.0.1:5000".toList] ds) ∧
    main id replies ["localhost".toList, "127.0.0.1:5000".toList] ["free".toList] =
      some ([⟨"localhost".toList, ⟨"127.0.0.1".toList, 5000⟩, some "5".toList⟩], .prompt) ∧
    (∃ printed, main id replies ["a:1:b:2".toList] ["free".toList] =
      some (printed, .thrown .argsIndex)) ∧
    createUnicastDispatchers id ["::1:5000".toList] = some [⟨"1".toList, 5000⟩] ∧
    ¬ Correspond ["localhost".toList, "127.0.0.1:5000".toList] := by
  intro replies
  have hshift : createUnicastDispatchers id ["localhost".toList, "127.0.0.1:5000".toList] =
      some [⟨"127.0.0.1".toList, 5000⟩] := by decide
  have hne : ∀ ds : List (UnicastCommandDispatcher Text), ds.length = 1 →
      ¬ List.Forall₂ (Writes id) ["localhost".toList, "127.0.0.1:5000".toList] ds := by
    intro ds hone hall
    exact absurd (hall.length_eq.trans hone) (by decide)
  refine ⟨⟨_, hshift, hne _ rfl⟩, by decide, ⟨_, rfl⟩, by decide, fun hcorrespond => ?_⟩
  exact hne _ rfl (hcorrespond Text id _ hshift).1

end ParkingLotClientMain

end Vsys.NetParkingSim
