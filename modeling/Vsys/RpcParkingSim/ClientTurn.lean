import Vsys.RpcParkingSim.Client
import Vsys.RpcParkingSim.MethodLife
import Vsys.RpcParkingSim.ResponseOrder

/-! What one typed line makes the client write, and the call it stands for. -/

namespace Vsys.RpcParkingSim

structure Call where
  method : Method
  args : List Value
  deriving DecidableEq, Repr

namespace Call

def request (c : Call) : Request :=
  ⟨⟨some c.method.declaringClass, c.method.name, some (c.method.parameterTypes.map some)⟩, c.args⟩

end Call

/-- What `getMethod` finds for the service, it finds again under the class, the name and
the parameter types of what it found. -/
def Jvm.FindsAgain (jvm : Jvm) : Prop :=
  ∀ name types m, jvm.getMethod serviceClass name types = some m →
    jvm.getMethod m.declaringClass m.name m.parameterTypes = some m

namespace Client

/-- Where the first half of a pass leaves the client: before the next line, before the
response, or out of the loop. -/
inductive Turn where
  | prompts
  | awaits
  | leaves (e : Exit)
  deriving DecidableEq, Repr

def writeBoth (takesReference takesArray : Bool) (r : Reference) (args : Option (List Value))
    (turn : Turn) : List Received × Turn :=
  if takesReference then
    match args with
    | none => ([.reference r], .leaves .numberFormat)
    | some args =>
      if takesArray then ([.reference r, .array args], turn)
      else ([.reference r], .leaves .ioException)
  else ([], .leaves .ioException)

/-- The first `try` block of the loop: the objects written for a line. -/
def ask (jvm : Jvm) (takesReference takesArray : Bool) (line : List Char) :
    List Received × Turn :=
  match JavaString.split line with
  | [name] =>
    match SerializableMethod.serialize jvm serviceClass (String.ofList name) [] with
    | .error _ => ([], .prompts)
    | .ok m =>
      match m.writeObject with
      | .error _ => ([], .leaves .nullPointer)
      | .ok r =>
        writeBoth takesReference takesArray r (some [])
          (if name = "exit".toList then .leaves .exitTyped else .awaits)
  | [name, number] =>
    match SerializableMethod.serialize jvm serviceClass (String.ofList name) ["int"] with
    | .error _ => ([], .prompts)
    | .ok m =>
      match m.writeObject with
      | .error _ => ([], .leaves .nullPointer)
      | .ok r =>
        writeBoth takesReference takesArray r
          ((JavaString.valueOf number).map fun n => [.integer n]) .awaits
  | _ => ([], .awaits)

/-- The call a line stands for: a method of the service without parameters, or one with
an `int`, and the number for it. -/
def callOf (jvm : Jvm) (line : List Char) : Option Call :=
  match JavaString.split line with
  | [name] => (jvm.getMethod serviceClass (String.ofList name) []).map fun m => ⟨m, []⟩
  | [name, number] =>
    (jvm.getMethod serviceClass (String.ofList name) ["int"]).bind fun m =>
      (JavaString.valueOf number).map fun n => ⟨m, [.integer n]⟩
  | _ => none

/-- A response is awaited for every line that has neither one token nor two. -/
def Unasked (line : List Char) : Prop :=
  (JavaString.split line).length ≠ 1 ∧ (JavaString.split line).length ≠ 2

/-- The second half of the pass. -/
def endTurn (s : Client) (reply : Reply) : Turn → Client
  | .prompts => s
  | .awaits => s.readReply reply
  | .leaves e => s.leave e

theorem step_eq_ask (jvm : Jvm) {s : Client} {line : List Char} {lines : List (List Char)}
    (hl : s.left = none) (hlines : s.lines = line :: lines) (link : Link) :
    step jvm s link =
      let a := ask jvm link.takesReference link.takesArray line
      some (endTurn { s with lines := lines, pending := s.pending ++ a.1 } link.reply a.2) := by
  have hnil : ∀ s : Client, { s with pending := s.pending ++ [] } = s := fun s => by
    rw [List.append_nil]
  rw [step, hl, hlines]
  simp only [ask]
  rcases JavaString.split line with _ | ⟨name, _ | ⟨number, _ | ⟨token, rest⟩⟩⟩
  · simp [endTurn]
  · simp only [requestWithout]
    rcases SerializableMethod.serialize_cases jvm serviceClass (String.ofList name) [] with
      ⟨-, hs⟩ | ⟨m, r, -, hs, hw⟩
    · simp [hs, endTurn]
    · simp only [hs, hw, writeBoth]
      cases link.takesReference <;> cases link.takesArray <;>
        by_cases he : name = "exit".toList <;>
        simp only [he, if_true, if_false, Bool.false_eq_true, List.append_nil, endTurn, write,
          leave, List.append_assoc, List.cons_append, List.nil_append]
  · simp only [requestWith]
    rcases SerializableMethod.serialize_cases jvm serviceClass (String.ofList name) ["int"] with
      ⟨-, hs⟩ | ⟨m, r, -, hs, hw⟩
    · simp [hs, endTurn]
    · simp only [hs, hw, writeBoth]
      cases link.takesReference <;> cases JavaString.valueOf number <;>
        cases link.takesArray <;> simp [endTurn, write, leave]
  · simp [endTurn]

theorem writeBoth_cases (takesReference takesArray : Bool) (r : Reference)
    (args : Option (List Value)) (turn : Turn) :
    (∃ vs, args = some vs ∧
      writeBoth takesReference takesArray r args turn = ([.reference r, .array vs], turn)) ∨
    ∃ e os, writeBoth takesReference takesArray r args turn = (os, .leaves e) ∧
      os <+: [.reference r] := by
  cases takesReference with
  | false => exact Or.inr ⟨_, [], rfl, List.nil_prefix⟩
  | true =>
    cases args with
    | none => exact Or.inr ⟨_, _, rfl, List.prefix_refl _⟩
    | some vs =>
      cases takesArray with
      | false => exact Or.inr ⟨_, _, rfl, List.prefix_refl _⟩
      | true => exact Or.inl ⟨vs, rfl, rfl⟩

/-- All that can be written for a line is the request of its call, or a part of a request
with which the client leaves the loop. -/
theorem ask_cases (jvm : Jvm) (takesReference takesArray : Bool) (line : List Char) :
    (∃ c turn, callOf jvm line = some c ∧
      ask jvm takesReference takesArray line = (c.request.objects, turn) ∧
      (turn = .awaits ∨ turn = .leaves .exitTyped)) ∨
    (∃ e os r, ask jvm takesReference takesArray line = (os, .leaves e) ∧
      os <+: [.reference r]) ∨
    callOf jvm line = none ∧
      (ask jvm takesReference takesArray line = ([], .prompts) ∧ ¬ Unasked line ∨
        ask jvm takesReference takesArray line = ([], .awaits) ∧ Unasked line) := by
  have hwrites : ∀ m r, SerializableMethod.writeObject (.ofMethod m) = .ok r →
      r = (⟨m, []⟩ : Call).request.reference := fun m r h => (Except.ok.inj h).symm
  simp only [ask, callOf, Unasked]
  rcases JavaString.split line with _ | ⟨name, _ | ⟨number, _ | ⟨token, rest⟩⟩⟩
  · exact Or.inr (Or.inr ⟨rfl, Or.inr ⟨rfl, by simp⟩⟩)
  · cases hget : jvm.getMethod serviceClass (String.ofList name) [] with
    | none =>
      simp only [SerializableMethod.serialize, hget]
      exact Or.inr (Or.inr ⟨rfl, Or.inl ⟨trivial, by simp⟩⟩)
    | some m =>
      simp only [SerializableMethod.serialize, hget]
      rcases writeBoth_cases takesReference takesArray (⟨m, []⟩ : Call).request.reference
        (some []) (if name = "exit".toList then .leaves .exitTyped else .awaits) with
        ⟨vs, hvs, hw⟩ | ⟨e, os, hw, hos⟩
      · cases hvs
        refine Or.inl ⟨⟨m, []⟩, _, rfl, hw, ?_⟩
        by_cases he : name = "exit".toList
        · exact Or.inr (if_pos he)
        · exact Or.inl (if_neg he)
      · exact Or.inr (Or.inl ⟨e, os, _, hw, hos⟩)
  · cases hget : jvm.getMethod serviceClass (String.ofList name) ["int"] with
    | none =>
      simp only [SerializableMethod.serialize, hget]
      exact Or.inr (Or.inr ⟨rfl, Or.inl ⟨trivial, by simp⟩⟩)
    | some m =>
      simp only [SerializableMethod.serialize, hget]
      rcases writeBoth_cases takesReference takesArray (⟨m, []⟩ : Call).request.reference
        ((JavaString.valueOf number).map fun n => [.integer n]) .awaits with
        ⟨vs, hvs, hw⟩ | ⟨e, os, hw, hos⟩
      · obtain ⟨n, hn, rfl⟩ := Option.map_eq_some_iff.mp hvs
        refine Or.inl ⟨⟨m, [.integer n]⟩, _, ?_, hw, Or.inl rfl⟩
        simp [hn]
      · exact Or.inr (Or.inl ⟨e, os, _, hw, hos⟩)
  · exact Or.inr (Or.inr ⟨rfl, Or.inr ⟨rfl, by simp⟩⟩)

theorem callOf_spec {jvm : Jvm} {line : List Char} {c : Call} (h : callOf jvm line = some c) :
    (∃ name types, jvm.getMethod serviceClass name types = some c.method) ∧
      c.args.length ≤ 1 ∧ c.args.all Value.prints = true := by
  simp only [callOf] at h
  split at h
  · obtain ⟨m, hm, rfl⟩ := Option.map_eq_some_iff.mp h
    exact ⟨⟨_, _, hm⟩, Nat.zero_le 1, rfl⟩
  · obtain ⟨m, hm, h⟩ := Option.bind_eq_some_iff.mp h
    obtain ⟨n, -, rfl⟩ := Option.map_eq_some_iff.mp h
    exact ⟨⟨_, _, hm⟩, le_rfl, rfl⟩
  · cases h

end Client

/-- The session answers the request of a call with the result of the call itself. -/
theorem Call.answer_request {jvm : Jvm} (hjvm : jvm.FindsAgain) {line : List Char} {c : Call}
    (hc : Client.callOf jvm line = some c) (world : World) :
    c.request.answer jvm world = Session.writeResult world (invoke jvm world c.method c.args) := by
  obtain ⟨⟨name, types, hget⟩, hlength, hprints⟩ := Client.callOf_spec hc
  have hresolves : c.request.reference.ResolvesTo jvm c.method :=
    SerializableMethod.lookup_parts (hjvm name types c.method hget)
  have hmethod : (SerializableMethod.ofMethod c.method).method_ jvm =
      .ok (c.method, .ofMethod c.method) := rfl
  have hanswer : c.request.answer jvm world =
      Session.dispatch jvm world (.ofMethod c.method) c.args := by
    have hshown : Value.arraysToString c.request.args = .prints :=
      Value.arraysToString_eq_prints_iff.mpr hprints
    simp only [Request.answer, Session.answer, hresolves.method_eq, hshown]
    rfl
  rw [hanswer]
  rcases hargs : c.args with _ | ⟨a, _ | ⟨b, args⟩⟩
  · exact Session.respond_of_method world hmethod []
  · exact Session.respond_of_method world hmethod [a]
  · rw [hargs] at hlength
    simp at hlength

end Vsys.RpcParkingSim
