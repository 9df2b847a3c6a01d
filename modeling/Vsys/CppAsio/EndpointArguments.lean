import Vsys.CppAsio.Client
import Vsys.NetParkingSim.HostArguments

/-! The arguments of the C++ client: the pairs that `strtok` makes of them, the endpoints
that the resolver finds, and the numbers under which it lists them. -/

namespace Vsys.CppAsio

open JavaString NetParkingSim

structure Query where
  hostName : Text
  serviceName : Text
  deriving DecidableEq, Repr

/-- Where `main` is when it has looked at its arguments. -/
inductive Setup (ε : Type*) where
  | usage
  | invalidPair (i : ℕ)
  | unresolved (q : Query)
  | prompts (servers : List Query) (endpoints : List ε)
  deriving DecidableEq, Repr

namespace Setup

variable {ε α : Type}

/-- The `while` loop over the tokens of one argument; a host without a port ends it. -/
def pairs : List Text → Option (List Query)
  | [] => some []
  | [_] => none
  | ip :: port :: rest => (pairs rest).map fun qs => ⟨ip, port⟩ :: qs

/-- The loop over the arguments from number `i` on; with an invalid one it is left. -/
def parse : ℕ → List Text → Except ℕ (List Query)
  | _, [] => .ok []
  | i, arg :: args =>
    match pairs (tokens (· = ':') arg) with
    | none => .error i
    | some qs => (parse (i + 1) args).map fun rest => qs ++ rest

def resolveAll (resolve : Query → Option ε) : List Query → Except Query (List ε)
  | [] => .ok []
  | q :: qs =>
    match resolve q with
    | none => .error q
    | some ep => (resolveAll resolve qs).map fun eps => ep :: eps

def ofArguments (resolve : Query → Option ε) (args : List Text) : Setup ε :=
  if args.length < 1 then .usage
  else
    match parse 1 args with
    | .error i => .invalidPair i
    | .ok servers =>
      match resolveAll resolve servers with
      | .error q => .unresolved q
      | .ok endpoints => .prompts servers endpoints

/-- What is written to the standard error; no name is given for the usage line. -/
def errors (name : Text) : Setup ε → List Text
  | .usage => ["Usage: ".toList ++ name ++ " <IP-ADDRESS:PORT>  ... ".toList]
  | .invalidPair i =>
    ["Argument number [".toList ++ (toString i).toList ++ "] - Invalid IP:PORT pair".toList]
  | .unresolved q => ["Couldn't resolve host: ".toList ++ q.hostName ++ [':'] ++ q.serviceName]
  | .prompts _ _ => []

def listed (q : Query) (i : ℕ) : Text :=
  (toString i).toList ++ ". [".toList ++ q.hostName ++ [':'] ++ q.serviceName ++ "] ".toList

/-- The lines before the first prompt. -/
def greeting (servers : List Query) : Text :=
  "Commands: ".toList ++ commands.flatMap (fun c => c ++ [' ']) ++ ['\n'] ++
    "Endpoints: ".toList ++ (servers.zipIdx 1).flatMap (fun p => listed p.1 p.2) ++ ['\n']

theorem pairs_isSome_iff {ts : List Text} : (∃ qs, pairs ts = some qs) ↔ 2 ∣ ts.length := by
  induction ts using pairs.induct with
  | case1 => exact iff_of_true ⟨[], rfl⟩ (by decide)
  | case2 t => exact iff_of_false (by simp [pairs]) (by simp)
  | case3 ip port rest ih =>
    have htwo : 2 ∣ (ip :: port :: rest).length ↔ 2 ∣ rest.length := by
      rw [List.length_cons, List.length_cons]
      omega
    rw [htwo, ← ih]
    simp [pairs]

theorem parse_cons {i : ℕ} {arg : Text} {args : List Text} {qs : List Query}
    (h : parse i (arg :: args) = .ok qs) :
    ∃ front rest, pairs (tokens (· = ':') arg) = some front ∧ parse (i + 1) args = .ok rest ∧
      qs = front ++ rest := by
  rw [parse] at h
  split at h
  · cases h
  · next front hfront =>
    cases hrest : parse (i + 1) args with
    | error j => simp [hrest, Except.map] at h
    | ok rest =>
      simp only [hrest, Except.map, Except.ok.injEq] at h
      exact ⟨front, rest, hfront, rfl, h.symm⟩

/-- The number in the message is that of the first argument in which a port is missing. -/
theorem parse_eq_error_iff {i j : ℕ} {args : List Text} :
    parse i args = .error j ↔ ∃ front arg back, args = front ++ arg :: back ∧
      j = i + front.length ∧ (∀ a ∈ front, 2 ∣ (tokens (· = ':') a).length) ∧
      ¬2 ∣ (tokens (· = ':') arg).length := by
  induction args generalizing i with
  | nil => exact iff_of_false (by simp [parse]) (by simp)
  | cons arg args ih =>
    cases hpairs : pairs (tokens (· = ':') arg) with
    | none =>
      have hodd : ¬2 ∣ (tokens (· = ':') arg).length := by
        rw [← pairs_isSome_iff, hpairs]
        simp
      simp only [parse, hpairs, Except.error.injEq]
      constructor
      · rintro rfl
        exact ⟨[], arg, args, rfl, rfl, by simp, hodd⟩
      · rintro ⟨front, arg', back, hargs, rfl, hfront, -⟩
        cases front with
        | nil => rfl
        | cons a front =>
          obtain ⟨rfl, -⟩ := List.cons.inj hargs
          exact absurd (hfront arg List.mem_cons_self) hodd
    | some qs =>
      have heven : 2 ∣ (tokens (· = ':') arg).length := pairs_isSome_iff.mp ⟨qs, hpairs⟩
      have hrest : parse i (arg :: args) = .error j ↔ parse (i + 1) args = .error j := by
        simp only [parse, hpairs]
        cases parse (i + 1) args <;> simp [Except.map]
      rw [hrest, ih]
      constructor
      · rintro ⟨front, arg', back, rfl, rfl, hfront, hodd⟩
        refine ⟨arg :: front, arg', back, rfl, ?_, ?_, hodd⟩
        · rw [List.length_cons]
          omega
        · exact List.forall_mem_cons.mpr ⟨heven, hfront⟩
      · rintro ⟨front, arg', back, hargs, rfl, hfront, hodd⟩
        cases front with
        | nil =>
          obtain ⟨rfl, -⟩ := List.cons.inj hargs
          exact absurd heven hodd
        | cons a front =>
          obtain ⟨rfl, rfl⟩ := List.cons.inj hargs
          refine ⟨front, arg', back, rfl, ?_, (List.forall_mem_cons.mp hfront).2, hodd⟩
          rw [List.length_cons]
          omega

theorem resolveAll_eq_ok_iff {resolve : Query → Option ε} {qs : List Query} {eps : List ε} :
    resolveAll resolve qs = .ok eps ↔ List.Forall₂ (fun q ep => resolve q = some ep) qs eps := by
  induction qs generalizing eps with
  | nil =>
    rw [List.forall₂_nil_left_iff, resolveAll, Except.ok.injEq]
    exact eq_comm
  | cons q qs ih =>
    rw [List.forall₂_cons_left_iff, resolveAll]
    cases hq : resolve q with
    | none => exact iff_of_false (by simp) (by simp)
    | some ep =>
      cases hrest : resolveAll resolve qs with
      | error p =>
        refine iff_of_false (by simp [Except.map]) ?_
        rintro ⟨e, rest, -, h, -⟩
        exact nomatch hrest.symm.trans (ih.mpr h)
      | ok rest =>
        simp only [Except.map, Except.ok.injEq, Option.some.injEq]
        constructor
        · rintro rfl
          exact ⟨ep, rest, rfl, ih.mp hrest, rfl⟩
        · rintro ⟨e, rest', rfl, h, rfl⟩
          rw [Except.ok.inj (hrest.symm.trans (ih.mpr h))]

theorem resolveAll_eq_error_iff {resolve : Query → Option ε} {qs : List Query} {q : Query} :
    resolveAll resolve qs = .error q ↔ ∃ front back, qs = front ++ q :: back ∧
      (∀ p ∈ front, resolve p ≠ none) ∧ resolve q = none := by
  induction qs with
  | nil => exact iff_of_false (by simp [resolveAll]) (by simp)
  | cons p qs ih =>
    cases hp : resolve p with
    | none =>
      simp only [resolveAll, hp, Except.error.injEq]
      constructor
      · rintro rfl
        exact ⟨[], qs, rfl, by simp, hp⟩
      · rintro ⟨front, back, hqs, hfront, -⟩
        cases front with
        | nil => exact (List.cons.inj hqs).1
        | cons p' front =>
          obtain ⟨rfl, -⟩ := List.cons.inj hqs
          exact absurd hp (hfront p List.mem_cons_self)
    | some ep =>
      have hrest : resolveAll resolve (p :: qs) = .error q ↔ resolveAll resolve qs = .error q := by
        simp only [resolveAll, hp]
        cases resolveAll resolve qs <;> simp [Except.map]
      have hsome : resolve p ≠ none := by simp [hp]
      rw [hrest, ih]
      constructor
      · rintro ⟨front, back, rfl, hfront, hq⟩
        exact ⟨p :: front, back, rfl, List.forall_mem_cons.mpr ⟨hsome, hfront⟩, hq⟩
      · rintro ⟨front, back, hqs, hfront, hq⟩
        cases front with
        | nil =>
          obtain ⟨rfl, -⟩ := List.cons.inj hqs
          exact absurd hq hsome
        | cons p' front =>
          obtain ⟨rfl, rfl⟩ := List.cons.inj hqs
          exact ⟨front, back, rfl, (List.forall_mem_cons.mp hfront).2, hq⟩

/-- `main` says what is wrong exactly when it does not get to its prompt. -/
theorem errors_eq_nil_iff {name : Text} {s : Setup ε} :
    s.errors name = [] ↔ ∃ servers endpoints, s = .prompts servers endpoints := by
  cases s with
  | usage => exact iff_of_false (by simp [errors]) (by simp)
  | invalidPair i => exact iff_of_false (by simp [errors]) (by simp)
  | unresolved q => exact iff_of_false (by simp [errors]) (by simp)
  | prompts servers endpoints => exact iff_of_true rfl ⟨servers, endpoints, rfl⟩

theorem listed_infix_greeting {servers : List Query} {p : Query × ℕ}
    (h : p ∈ servers.zipIdx 1) : listed p.1 p.2 <:+: greeting servers := by
  have hline := List.infix_of_mem_flatten (List.mem_map_of_mem (f := fun p => listed p.1 p.2) h)
  unfold greeting
  exact List.infix_append_of_infix_left (List.infix_append_of_infix_right hline)

theorem ofArguments_eq_prompts_iff {resolve : Query → Option ε} {args : List Text}
    {servers : List Query} {endpoints : List ε} :
    ofArguments resolve args = .prompts servers endpoints ↔
      args ≠ [] ∧ parse 1 args = .ok servers ∧
        List.Forall₂ (fun q ep => resolve q = some ep) servers endpoints := by
  rw [← resolveAll_eq_ok_iff, ofArguments]
  by_cases hargs : args.length < 1
  · rw [if_pos hargs]
    refine iff_of_false (by simp) fun h => h.1 ?_
    exact List.length_eq_zero_iff.mp (by omega)
  · have hne : args ≠ [] := fun hnil => hargs (by rw [hnil]; exact Nat.one_pos)
    rw [if_neg hargs]
    cases parse 1 args with
    | error i => exact iff_of_false (by simp) (by simp)
    | ok qs =>
      simp only [hne, ne_eq, not_false_eq_true, true_and, Except.ok.injEq]
      cases hresolve : resolveAll resolve qs with
      | error q =>
        refine iff_of_false (by simp) ?_
        rintro ⟨rfl, h⟩
        exact nomatch hresolve.symm.trans h
      | ok eps =>
        simp only [Setup.prompts.injEq]
        constructor
        · rintro ⟨rfl, rfl⟩
          exact ⟨rfl, hresolve⟩
        · rintro ⟨rfl, h⟩
          exact ⟨rfl, Except.ok.inj (hresolve.symm.trans h)⟩

section
variable {getByName : Text → α} {resolve : Query → Option ε} {servers : List Query}

/-- A dispatcher of the Java client for the same host and port. -/
def SameHost (getByName : Text → α) (q : Query) (d : UnicastCommandDispatcher α) : Prop :=
  d.addr = getByName q.hostName ∧ valueOf q.serviceName = some d.port

theorem fromTokens_iff {ts : List Text} {qs : List Query} (h : pairs ts = some qs)
    {ds : List (UnicastCommandDispatcher α)} :
    CommandDispatchers.fromTokens getByName ts = some ds ↔
      List.Forall₂ (SameHost getByName) qs ds := by
  induction ts using pairs.induct generalizing qs ds with
  | case1 =>
    obtain rfl := Option.some.inj h
    rw [List.forall₂_nil_left_iff, CommandDispatchers.fromTokens, Option.some.injEq]
    · exact eq_comm
    · intro host port rest h
      cases h
  | case2 t => cases h
  | case3 host port rest ih =>
    obtain ⟨qs, hqs, rfl⟩ := Option.map_eq_some_iff.mp h
    rw [List.forall₂_cons_left_iff]
    constructor
    · intro hds
      obtain ⟨p, es, hp, hes, rfl⟩ := CommandDispatchers.fromTokens_cons hds
      exact ⟨⟨getByName host, p⟩, es, ⟨rfl, hp⟩, (ih hqs).mp hes, rfl⟩
    · rintro ⟨d, es, ⟨haddr, hp⟩, hes, rfl⟩
      obtain ⟨addr, p⟩ := d
      obtain rfl : addr = getByName host := haddr
      rw [CommandDispatchers.fromTokens]
      simp only [Option.bind_eq_bind, hp, (ih hqs).mpr hes, Option.bind_some]
      rfl

theorem create_iff {i : ℕ} {args : List Text} (h : parse i args = .ok servers)
    {ds : List (UnicastCommandDispatcher α)} :
    CommandDispatchers.createUnicastDispatchers getByName args = some ds ↔
      List.Forall₂ (SameHost getByName) servers ds := by
  induction args generalizing i servers ds with
  | nil =>
    cases h
    rw [List.forall₂_nil_left_iff, CommandDispatchers.createUnicastDispatchers, Option.some.injEq]
    exact eq_comm
  | cons arg args ih =>
    obtain ⟨front, rest, hfront, hrest, rfl⟩ := parse_cons h
    constructor
    · intro hds
      obtain ⟨es, es', hes, hes', rfl⟩ := CommandDispatchers.create_cons hds
      exact List.rel_append ((fromTokens_iff hfront).mp hes) ((ih hrest).mp hes')
    · intro hds
      obtain ⟨es, es', rfl, hes, hes'⟩ : ∃ es es', ds = es ++ es' ∧
          List.Forall₂ (SameHost getByName) front es ∧
          List.Forall₂ (SameHost getByName) rest es' := by
        have htake := List.forall₂_take front.length hds
        have hdrop := List.forall₂_drop front.length hds
        rw [List.take_left] at htake
        rw [List.drop_left] at hdrop
        exact ⟨_, _, (List.take_append_drop front.length ds).symm, htake, hdrop⟩
      rw [CommandDispatchers.createUnicastDispatchers]
      simp only [CommandDispatchers.fromArgument, (fromTokens_iff hfront).mpr hes,
        (ih hrest).mpr hes', Option.bind_eq_bind, Option.bind_some]
      rfl

theorem endpoint_iff {args : List Text} {endpoints : List ε}
    (h : ofArguments resolve args = .prompts servers endpoints) {i : ℕ} {ep : ε} :
    endpoints[i]? = some ep ↔ ∃ q, (q, i + 1) ∈ servers.zipIdx 1 ∧ resolve q = some ep := by
  obtain ⟨-, -, hall⟩ := ofArguments_eq_prompts_iff.mp h
  have hmap : servers.map resolve = endpoints.map some := by
    rw [← List.forall₂_eq_eq_eq, List.forall₂_map_left_iff, List.forall₂_map_right_iff]
    exact hall
  have hat := congrArg (fun l => l[i]?) hmap
  simp only [List.getElem?_map] at hat
  calc endpoints[i]? = some ep
      ↔ endpoints[i]?.map some = some (some ep) := by simp
    _ ↔ servers[i]?.map resolve = some (some ep) := by rw [hat]
    _ ↔ ∃ q, servers[i]? = some q ∧ resolve q = some ep := Option.map_eq_some_iff
    _ ↔ ∃ q, (q, i + 1) ∈ servers.zipIdx 1 ∧ resolve q = some ep := by
      simp only [Nat.add_comm i 1, List.mk_add_mem_zipIdx_iff_getElem?]

/-- A number stands for the endpoint that the greeting lists under it; and the Java client
with the same arguments, if Java knows all hosts, has the same hosts and ports under the same
numbers. -/
theorem clients_agree {args : List Text} {endpoints : List ε}
    (h : ofArguments resolve args = .prompts servers endpoints) (getByName : Text → α) :
    (∀ v i ep, Client.subscript endpoints v = some (i, ep) ↔
        v.toInt = i + 1 ∧ ∃ q, (q, i + 1) ∈ servers.zipIdx 1 ∧ resolve q = some ep) ∧
      (∀ p ∈ servers.zipIdx 1, listed p.1 p.2 <:+: greeting servers) ∧
      ∀ ds, CommandDispatchers.createUnicastDispatchers getByName args = some ds ↔
        List.Forall₂ (SameHost getByName) servers ds := by
  obtain ⟨-, hparse, -⟩ := ofArguments_eq_prompts_iff.mp h
  refine ⟨fun v i ep => ?_, fun p hp => listed_infix_greeting hp, fun ds => create_iff hparse⟩
  rw [Client.subscript_eq_some_iff, endpoint_iff h]

theorem clients_agree_two_hosts :
    let args := ["localhost:5000:127.0.0.1:5001".toList]
    let servers : List Query := [⟨"localhost".toList, "5000".toList⟩,
      ⟨"127.0.0.1".toList, "5001".toList⟩]
    ofArguments some args = .prompts servers servers ∧
      (∀ v i ep, Client.subscript servers v = some (i, ep) ↔
        v.toInt = i + 1 ∧ ∃ q, (q, i + 1) ∈ servers.zipIdx 1 ∧ some q = some ep) ∧
      (∀ p ∈ servers.zipIdx 1, listed p.1 p.2 <:+: greeting servers) ∧
      ∀ ds : List (UnicastCommandDispatcher Text),
        CommandDispatchers.createUnicastDispatchers id args = some ds ↔
          List.Forall₂ (SameHost id) servers ds := by
  intro args servers
  have h : ofArguments some args = .prompts servers servers := by decide
  exact ⟨h, clients_agree h id⟩

end

end Setup

end Vsys.CppAsio
