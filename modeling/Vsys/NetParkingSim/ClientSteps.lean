import Vsys.NetParkingSim.HostArguments
import Vsys.NetParkingSim.RequestStream

/-! The Java client call by call. Between two calls of `execute` it stands at the prompt or
inside a loop over its dispatchers; what it prints on the way is what the loops print as
a whole. -/

namespace Vsys.NetParkingSim

open JavaString ParkingLotClientMain

variable {α : Type}

/-- A call of `execute` that is about to be made or under way. A loop goes on with the other
dispatchers behind it; a call with a host number has none. -/
structure Calling (α : Type) where
  command : Text
  index : ℕ
  target : UnicastCommandDispatcher α
  others : Option (List (UnicastCommandDispatcher α))
  deriving DecidableEq, Repr

inductive Place (α : Type) where
  | prompting
  | calling (c : Calling α)
  | left (k : Continuation)
  deriving DecidableEq, Repr

namespace Place

def settle (command : Text) : Place α := if command = quitLine then .left .exit else .prompting

def tryNext (command : Text) (i : ℕ) : List (UnicastCommandDispatcher α) → Place α
  | [] => settle command
  | d :: ds => .calling ⟨command, i, d, some ds⟩

/-- Where a typed line leads to. -/
def begin (args : List Text) (ds : List (UnicastCommandDispatcher α)) (input : Text) : Place α :=
  match tokens isDelimiter input with
  | [] => .prompting
  | [command] => tryNext command 0 ds
  | command :: number :: _ =>
    let hostNumber := (valueOf number).getD (-1)
    if hostNumber > 0 then
      let i := hostNumber.toInt.toNat - 1
      match args[i]?, ds[i]? with
      | some _, some d => .calling ⟨command, i, d, none⟩
      | _, _ => .left (.thrown .hostNumber)
    else .prompting

def continuation : Place α → Continuation
  | .left k => k
  | _ => .prompt

@[simp] theorem continuation_left (k : Continuation) : (left k : Place α).continuation = k := rfl

theorem continuation_settle (command : Text) :
    (settle command : Place α).continuation =
      if command = quitLine then Continuation.exit else .prompt := by
  rw [settle]
  split <;> rfl

end Place

/-- What the end of `execute` has printed, and where it leads to. -/
def Calling.resume (args : List Text) (c : Calling α) : Executed → List (Printed α) × Place α
  | .failed => ([], .left (.thrown .execute))
  | .returned resp =>
    match args[c.index]? with
    | none => ([], .left (.thrown .argsIndex))
    | some arg =>
      match c.others with
      | none => ([⟨arg, c.target, resp⟩], .settle c.command)
      | some ds =>
        match resp with
        | none => ([⟨arg, c.target, none⟩], .left (.thrown .nullPointer))
        | some t =>
          ([⟨arg, c.target, some t⟩],
            if t = "ok".toList ∧ c.command ≠ quitLine then .prompting
            else .tryNext c.command (c.index + 1) ds)

/-- A command with the dispatcher that it is given to. -/
abbrev Request (α : Type) := UnicastCommandDispatcher α × Text

/-- A running client: the lines it has read, its calls of `execute` that have ended, and what it
has printed. -/
structure ClientState (α : Type) where
  typed : List Text
  calls : List (Request α × Executed)
  printed : List (Printed α)
  place : Place α
  deriving DecidableEq, Repr

namespace ClientState

def start : ClientState α := ⟨[], [], [], .prompting⟩

def typeLine (args : List Text) (ds : List (UnicastCommandDispatcher α)) (line : Text)
    (c : ClientState α) : Option (ClientState α) :=
  match c.place with
  | .prompting => some { c with typed := c.typed ++ [line], place := .begin args ds line }
  | _ => none

/-- `readLine` returns null, and `main` returns. -/
def endOfInput (c : ClientState α) : Option (ClientState α) :=
  match c.place with
  | .prompting => some { c with place := .left .prompt }
  | _ => none

def finish (args : List Text) (e : Executed) (c : ClientState α) : Option (ClientState α) :=
  match c.place with
  | .calling k =>
    let r := k.resume args e
    some { c with
      calls := c.calls ++ [((k.target, k.command), e)]
      printed := c.printed ++ r.1
      place := r.2 }
  | _ => none

end ClientState

theorem plain_of_mem_tokens {input token : Text} (h : token ∈ tokens isDelimiter input) :
    Plain token := by
  intro c hc
  have hdelim := delim_of_mem_tokens h c hc
  simp only [isDelimiter, Bool.or_eq_false_iff, decide_eq_false_iff_not] at hdelim
  exact ⟨hdelim.1.1.2, hdelim.1.2⟩

namespace Place

/-- The command of a call has no line break in it, so that it is one request line. -/
def PlainCommand (p : Place α) : Prop := ∀ c, p = .calling c → Plain c.command

theorem prompting_plain : (prompting : Place α).PlainCommand := fun _ hc => by cases hc

theorem left_plain (k : Continuation) : (left k : Place α).PlainCommand := fun _ hc => by cases hc

theorem settle_plain (command : Text) : (settle command : Place α).PlainCommand := by
  rw [settle]
  split
  · exact left_plain _
  · exact prompting_plain

theorem tryNext_plain {command : Text} (h : Plain command) (i : ℕ)
    (ds : List (UnicastCommandDispatcher α)) : (tryNext command i ds).PlainCommand := by
  cases ds with
  | nil => exact settle_plain command
  | cons d ds =>
    intro c hc
    cases hc
    exact h

theorem begin_plain (args : List Text) (ds : List (UnicastCommandDispatcher α)) (input : Text) :
    (begin args ds input).PlainCommand := by
  cases htokens : tokens isDelimiter input with
  | nil =>
    rw [begin, htokens]
    exact prompting_plain
  | cons command more =>
    have hcommand : Plain command := plain_of_mem_tokens (htokens ▸ List.mem_cons_self)
    cases more with
    | nil =>
      rw [begin, htokens]
      exact tryNext_plain hcommand 0 ds
    | cons number more =>
      intro c hc
      simp only [begin, htokens] at hc
      split at hc
      · split at hc
        · cases hc
          exact hcommand
        · cases hc
      · cases hc

end Place

theorem Calling.resume_plain {args : List Text} {c : Calling α} (h : Plain c.command)
    (e : Executed) : (c.resume args e).2.PlainCommand := by
  cases e with
  | failed => exact Place.left_plain _
  | returned resp =>
    rw [resume]
    split
    · exact Place.left_plain _
    · split
      · exact Place.settle_plain _
      · split
        · exact Place.left_plain _
        · change Place.PlainCommand (if _ then _ else _)
          split
          · exact Place.prompting_plain
          · exact Place.tryNext_plain h _ _

namespace ParkingLotClientMain

/-- The loop over the typed lines, with the number of calls that it has made. -/
def loopCalls (args : List Text) (dispatchers : List (UnicastCommandDispatcher α))
    (replies : ℕ → Executed) : ℕ → List Text → List (Printed α) × ℕ × Continuation
  | n, [] => ([], n, .prompt)
  | n, input :: inputs =>
    let r := typed args dispatchers replies n input
    match r.2.2 with
    | .prompt =>
      let rest := loopCalls args dispatchers replies r.2.1 inputs
      (r.1 ++ rest.1, rest.2)
    | _ => r

variable {args : List Text} {ds : List (UnicastCommandDispatcher α)} {replies : ℕ → Executed}

theorem loop_eq (n : ℕ) (inputs : List Text) : loop args ds replies n inputs =
    ((loopCalls args ds replies n inputs).1, (loopCalls args ds replies n inputs).2.2) := by
  induction inputs generalizing n with
  | nil => rfl
  | cons input inputs ih =>
    simp only [loop, loopCalls, ih]
    cases hr : (typed args ds replies n input).2.2 <;> simp [hr]

theorem loopCalls_concat (n : ℕ) (inputs : List Text) (input : Text)
    (h : (loopCalls args ds replies n inputs).2.2 = .prompt) :
    loopCalls args ds replies n (inputs ++ [input]) =
      let r := loopCalls args ds replies n inputs
      let s := typed args ds replies r.2.1 input
      (r.1 ++ s.1, s.2) := by
  induction inputs generalizing n with
  | nil =>
    simp only [List.nil_append, loopCalls, List.append_nil]
    cases hr : (typed args ds replies n input).2.2 <;> simp [← hr]
  | cons first inputs ih =>
    simp only [List.cons_append, loopCalls] at h ⊢
    cases hr : (typed args ds replies n first).2.2 with
    | prompt =>
      rw [hr] at h
      simp only [ih _ h, List.append_assoc]
    | exit | thrown =>
      rw [hr] at h
      exact absurd (hr.symm.trans h) (by simp)

/-- What is still printed for a line from a place on. -/
def ahead (args : List Text) (replies : ℕ → Executed) (n : ℕ) :
    Place α → List (Printed α) × ℕ × Continuation
  | .prompting => ([], n, .prompt)
  | .left k => ([], n, k)
  | .calling c =>
    match c.others with
    | some ds => multicast args replies c.command c.index n (c.target :: ds)
    | none =>
      let r := c.resume args (replies n)
      (r.1, n + 1, r.2.continuation)

@[simp] theorem ahead_prompting (n : ℕ) :
    ahead args replies n (.prompting : Place α) = ([], n, .prompt) := rfl

@[simp] theorem ahead_left (n : ℕ) (k : Continuation) :
    ahead args replies n (.left k : Place α) = ([], n, k) := rfl

theorem ahead_loop (command : Text) (i n : ℕ) (d : UnicastCommandDispatcher α)
    (ds : List (UnicastCommandDispatcher α)) :
    ahead args replies n (.calling ⟨command, i, d, some ds⟩) =
      multicast args replies command i n (d :: ds) := rfl

theorem ahead_single (command : Text) (i n : ℕ) (d : UnicastCommandDispatcher α) :
    ahead args replies n (.calling ⟨command, i, d, none⟩) =
      let r := (⟨command, i, d, none⟩ : Calling α).resume args (replies n)
      (r.1, n + 1, r.2.continuation) := rfl

theorem ahead_settle (command : Text) (n : ℕ) :
    ahead args replies n (.settle command : Place α) =
      ([], n, if command = quitLine then .exit else .prompt) := by
  rw [Place.settle]
  split <;> rfl

theorem ahead_tryNext (command : Text) (i n : ℕ) (ds : List (UnicastCommandDispatcher α)) :
    ahead args replies n (.tryNext command i ds) = multicast args replies command i n ds := by
  cases ds with
  | nil => exact ahead_settle command n
  | cons d ds => rfl

theorem ahead_calling (c : Calling α) (n : ℕ) : ahead args replies n (.calling c) =
    let r := c.resume args (replies n)
    let s := ahead args replies (n + 1) r.2
    (r.1 ++ s.1, s.2) := by
  obtain ⟨command, i, d, others⟩ := c
  cases others with
  | none =>
    rw [ahead_single]
    cases hreply : replies n with
    | failed => simp only [Calling.resume, ahead_left, Place.continuation_left, List.append_nil]
    | returned resp =>
      cases harg : args[i]? with
      | none =>
        simp only [Calling.resume, harg, ahead_left, Place.continuation_left, List.append_nil]
      | some arg =>
        simp only [Calling.resume, harg, ahead_settle, Place.continuation_settle, List.append_nil]
  | some ds =>
    rw [ahead_loop]
    cases hreply : replies n with
    | failed => simp only [Calling.resume, multicast, hreply, ahead_left, List.append_nil]
    | returned resp =>
      cases harg : args[i]? with
      | none => simp only [Calling.resume, multicast, hreply, harg, ahead_left, List.append_nil]
      | some arg =>
        cases resp with
        | none => simp only [Calling.resume, multicast, hreply, harg, ahead_left, List.append_nil]
        | some t =>
          by_cases hok : t = "ok".toList ∧ command ≠ quitLine
          · simp only [Calling.resume, multicast, hreply, harg, if_pos hok, ahead_prompting,
              List.append_nil]
          · simp only [Calling.resume, multicast, hreply, harg, if_neg hok, ahead_tryNext,
              List.singleton_append]

theorem typed_eq_ahead (n : ℕ) (input : Text) :
    typed args ds replies n input = ahead args replies n (.begin args ds input) := by
  cases htokens : tokens isDelimiter input with
  | nil => simp only [typed, Place.begin, htokens, ahead_prompting]
  | cons command more =>
    cases more with
    | nil => simp only [typed, Place.begin, htokens, ahead_tryNext]
    | cons number more =>
      by_cases hpos : (valueOf number).getD (-1) > 0
      · simp only [typed, Place.begin, htokens, if_pos hpos, unicast]
        generalize ((valueOf number).getD (-1)).toInt.toNat - 1 = i
        cases harg : args[i]? with
        | none => simp only [ahead_left]
        | some arg =>
          cases hd : ds[i]? with
          | none => simp only [ahead_left]
          | some d =>
            cases hreply : replies n with
            | failed => simp only [ahead_single, Calling.resume, hreply, Place.continuation_left]
            | returned resp =>
              simp only [ahead_single, Calling.resume, hreply, harg, Place.continuation_settle]
      · simp only [typed, Place.begin, htokens, if_neg hpos, ahead_prompting]

end ParkingLotClientMain

namespace ClientState

/-- Whatever its further calls end with, the client has printed what the loop prints for the
lines it has read, but for what the line that is under way still prints. -/
def Prints (args : List Text) (ds : List (UnicastCommandDispatcher α)) (c : ClientState α) : Prop :=
  ∀ replies : ℕ → Executed, (∀ k e, (c.calls[k]?).map Prod.snd = some e → replies k = e) →
    loopCalls args ds replies 0 c.typed =
      let r := ahead args replies c.calls.length c.place
      (c.printed ++ r.1, r.2)

variable {args : List Text} {ds : List (UnicastCommandDispatcher α)} {c d : ClientState α}

theorem start_prints : Prints args ds (start : ClientState α) := fun _ _ => rfl

theorem Prints.typeLine {line : Text} (h : Prints args ds c)
    (hd : c.typeLine args ds line = some d) : Prints args ds d := by
  rw [ClientState.typeLine] at hd
  split at hd
  · next hplace =>
    cases hd
    intro replies hreplies
    have hbefore := h replies hreplies
    simp only [hplace, ahead, List.append_nil] at hbefore
    rw [loopCalls_concat 0 c.typed line (by rw [hbefore]), hbefore]
    simp only [typed_eq_ahead]
  · cases hd

theorem Prints.endOfInput (h : Prints args ds c) (hd : c.endOfInput = some d) :
    Prints args ds d := by
  rw [ClientState.endOfInput] at hd
  split at hd
  · next hplace =>
    cases hd
    intro replies hreplies
    rw [h replies hreplies, hplace]
    rfl
  · cases hd

theorem Prints.finish {e : Executed} (h : Prints args ds c) (hd : c.finish args e = some d) :
    Prints args ds d := by
  rw [ClientState.finish] at hd
  split at hd
  · next k hplace =>
    cases hd
    intro replies hreplies
    have hlast : replies c.calls.length = e := hreplies _ _ (by simp)
    rw [h replies fun n f hf => hreplies n f ?_, hplace]
    · simp only [ahead_calling, hlast, List.length_append, List.length_singleton,
        List.append_assoc]
    · have hn : n < c.calls.length := by
        by_contra hge
        rw [List.getElem?_eq_none (Nat.not_lt.mp hge)] at hf
        cases hf
      rwa [List.getElem?_append_left hn]
  · cases hd

theorem Prints.loop_eq (h : Prints args ds c) (hplace : ∀ k, c.place ≠ .calling k)
    (replies : ℕ → Executed)
    (hreplies : ∀ k e, (c.calls[k]?).map Prod.snd = some e → replies k = e) :
    loop args ds replies 0 c.typed = (c.printed, c.place.continuation) := by
  rw [ParkingLotClientMain.loop_eq, h replies hreplies]
  cases hp : c.place with
  | prompting | left => simp [Place.continuation]
  | calling k => exact absurd hp (hplace k)

end ClientState

end Vsys.NetParkingSim
