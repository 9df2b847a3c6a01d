import Vsys.RpcParkingSim.Session
import Vsys.Text.JavaString

/-! The loop of the RPC client: one typed line, at most one request, and one
response read. -/

namespace Vsys.RpcParkingSim

open Schedule

inductive Reply where
  | string
  | otherObject
  | classNotFound
  | ioException
  deriving DecidableEq, Repr

/-- The connection during one pass of the loop: whether it takes the objects of a
request, and the reply it brings. -/
structure Link where
  takesReference : Bool
  takesArray : Bool
  reply : Reply
  deriving DecidableEq, Repr

inductive Exit where
  | exitTyped
  | classNotFound
  | nullPointer
  | numberFormat
  | classCast
  | ioException
  deriving DecidableEq, Repr

/-- The lines not yet read, the objects written since a response was last read, and
for each response what had been written when the client began to read it. -/
structure Client where
  lines : List (List Char)
  pending : List Received
  reads : List (List Received)
  left : Option Exit
  deriving DecidableEq

namespace Client

def start (lines : List (List Char)) : Client := ⟨lines, [], [], none⟩

def write (s : Client) (o : Received) : Client := { s with pending := s.pending ++ [o] }

def leave (s : Client) (e : Exit) : Client := { s with left := some e }

def readReply (s : Client) (reply : Reply) : Client :=
  let s := { s with reads := s.reads ++ [s.pending], pending := [] }
  match reply with
  | .string => s
  | .otherObject => s.leave .classCast
  | .classNotFound => s.leave .classNotFound
  | .ioException => s.leave .ioException

def requestWithout (s : Client) (jvm : Jvm) (link : Link) (name : List Char) : Client :=
  match SerializableMethod.serialize jvm serviceClass (String.ofList name) [] with
  | .error _ => s
  | .ok m =>
    match m.writeObject with
    | .error _ => s.leave .nullPointer
    | .ok r =>
      if link.takesReference then
        let s := s.write (.reference r)
        if link.takesArray then
          let s := s.write (.array [])
          if name = "exit".toList then s.leave .exitTyped else s.readReply link.reply
        else s.leave .ioException
      else s.leave .ioException

/-- The branch for two tokens. The number is converted when the method has already
been written. -/
def requestWith (s : Client) (jvm : Jvm) (link : Link) (name number : List Char) : Client :=
  match SerializableMethod.serialize jvm serviceClass (String.ofList name) ["int"] with
  | .error _ => s
  | .ok m =>
    match m.writeObject with
    | .error _ => s.leave .nullPointer
    | .ok r =>
      if link.takesReference then
        let s := s.write (.reference r)
        match JavaString.valueOf number with
        | none => s.leave .numberFormat
        | some n =>
          if link.takesArray then (s.write (.array [.integer n])).readReply link.reply
          else s.leave .ioException
      else s.leave .ioException

def step (jvm : Jvm) (s : Client) (link : Link) : Option Client :=
  match s.left, s.lines with
  | some _, _ => none
  | none, [] => some (s.leave .nullPointer)
  | none, line :: lines =>
    let s := { s with lines := lines }
    match JavaString.split line with
    | [name] => some (s.requestWithout jvm link name)
    | [name, number] => some (s.requestWith jvm link name number)
    | _ => some (s.readReply link.reply)

/-- Between two passes, and when the loop is left, no request is half written, and
each response was awaited after exactly one request. -/
structure InLockstep (s : Client) : Prop where
  reads : ∀ os ∈ s.reads, ∃ q : Request, os = q.objects
  pending : s.pending = [] ∨ ∃ q : Request, s.pending = q.objects

/-- A line makes one request or none: it has one token, or two of which the second
is a number if the first names a method with an `int` parameter; and the connection
does not fail between the objects of the request. -/
def Fits (jvm : Jvm) (line : List Char) (link : Link) : Prop :=
  match JavaString.split line with
  | [name] =>
    jvm.getMethod serviceClass (String.ofList name) [] ≠ none → link.takesReference = true →
      link.takesArray = true
  | [name, number] =>
    jvm.getMethod serviceClass (String.ofList name) ["int"] ≠ none → link.takesReference = true →
      JavaString.valueOf number ≠ none ∧ link.takesArray = true
  | _ => False

def NextFits (jvm : Jvm) (s : Client) (link : Link) : Prop :=
  ∀ line lines, s.lines = line :: lines → Fits jvm line link

structure Adds (before : List (List Received)) (t : Client) (ok : Prop) : Prop where
  idle : t.left = none → t.pending = []
  complete : ok → (∀ os ∈ t.reads, os ∈ before ∨ ∃ q : Request, os = q.objects) ∧
    (t.pending = [] ∨ ∃ q : Request, t.pending = q.objects)
  broken : ¬ ok → [] ∈ t.reads ∨ ∃ r, t.pending = [.reference r]

theorem readReply_reads (s : Client) (reply : Reply) :
    (s.readReply reply).reads = s.reads ++ [s.pending] := by
  cases reply <;> rfl

theorem readReply_pending (s : Client) (reply : Reply) : (s.readReply reply).pending = [] := by
  cases reply <;> rfl

section
variable {before : List (List Received)} {t : Client} {ok : Prop}

theorem Adds.nothing (hok : ok) (hr : t.reads = before) (hp : t.pending = []) :
    Adds before t ok :=
  ⟨fun _ => hp, fun _ => ⟨fun _ h => Or.inl (hr ▸ h), Or.inl hp⟩, fun h => absurd hok h⟩

theorem Adds.response (hok : ok) (q : Request) (hr : t.reads = before ++ [q.objects])
    (hp : t.pending = []) : Adds before t ok where
  idle := fun _ => hp
  complete := fun _ => ⟨fun os h => by
    rw [hr] at h
    rcases List.mem_append.mp h with h | h
    · exact Or.inl h
    · exact Or.inr ⟨q, List.mem_singleton.mp h⟩, Or.inl hp⟩
  broken := fun h => absurd hok h

theorem Adds.sent (hok : ok) (q : Request) (hl : t.left ≠ none) (hr : t.reads = before)
    (hp : t.pending = q.objects) : Adds before t ok :=
  ⟨fun h => absurd h hl, fun _ => ⟨fun _ h => Or.inl (hr ▸ h), Or.inr ⟨q, hp⟩⟩,
    fun h => absurd hok h⟩

theorem Adds.half (hok : ¬ ok) (r : Reference) (hl : t.left ≠ none)
    (hp : t.pending = [.reference r]) : Adds before t ok :=
  ⟨fun h => absurd h hl, fun h => absurd h hok, fun _ => Or.inr ⟨r, hp⟩⟩

theorem Adds.unasked (hok : ¬ ok) (hr : t.reads = before ++ [[]]) (hp : t.pending = []) :
    Adds before t ok :=
  ⟨fun _ => hp, fun h => absurd h hok,
    fun _ => Or.inl (hr ▸ List.mem_append_right _ List.mem_cons_self)⟩

end

theorem requestWithout_adds {jvm : Jvm} {s : Client} (hp : s.pending = []) (link : Link)
    (name : List Char) :
    Adds s.reads (s.requestWithout jvm link name)
      (jvm.getMethod serviceClass (String.ofList name) [] ≠ none → link.takesReference = true →
        link.takesArray = true) := by
  rcases SerializableMethod.serialize_cases jvm serviceClass (String.ofList name) [] with
    ⟨hnone, hs⟩ | ⟨m, r, hsome, hs, hw⟩
  · simp only [requestWithout, hs]
    exact .nothing (fun h => absurd hnone h) rfl hp
  · simp only [requestWithout, hs, hw]
    cases hr : link.takesReference with
    | false => exact .nothing (fun _ h => nomatch h) rfl hp
    | true =>
      cases ha : link.takesArray with
      | false =>
        refine .half (fun h => nomatch h hsome rfl) r nofun ?_
        exact congrArg (· ++ [Received.reference r]) hp
      | true =>
        have hobjects : s.pending ++ [.reference r] ++ [.array []] =
            (⟨r, []⟩ : Request).objects := by rw [hp]; rfl
        by_cases he : name = "exit".toList
        · simp only [he, if_true]
          exact .sent (fun _ _ => trivial) ⟨r, []⟩ nofun rfl hobjects
        · simp only [he, if_true, if_false]
          refine .response (fun _ _ => trivial) ⟨r, []⟩ ?_ (readReply_pending _ _)
          rw [readReply_reads, ← hobjects]
          rfl

theorem requestWith_adds {jvm : Jvm} {s : Client} (hp : s.pending = []) (link : Link)
    (name number : List Char) :
    Adds s.reads (s.requestWith jvm link name number)
      (jvm.getMethod serviceClass (String.ofList name) ["int"] ≠ none →
        link.takesReference = true → JavaString.valueOf number ≠ none ∧ link.takesArray = true) := by
  rcases SerializableMethod.serialize_cases jvm serviceClass (String.ofList name) ["int"] with
    ⟨hnone, hs⟩ | ⟨m, r, hsome, hs, hw⟩
  · simp only [requestWith, hs]
    exact .nothing (fun h => absurd hnone h) rfl hp
  · simp only [requestWith, hs, hw]
    have hhalf : s.pending ++ [.reference r] = [.reference r] := by rw [hp]; rfl
    cases hr : link.takesReference with
    | false => exact .nothing (fun _ h => nomatch h) rfl hp
    | true =>
      cases hn : JavaString.valueOf number with
      | none =>
        refine .half (fun h => ?_) r nofun hhalf
        exact (h hsome rfl).1 rfl
      | some n =>
        cases ha : link.takesArray with
        | false =>
          refine .half (fun h => ?_) r nofun hhalf
          exact Bool.false_ne_true (h hsome rfl).2
        | true =>
          refine .response (fun _ _ => ⟨nofun, rfl⟩) ⟨r, [.integer n]⟩ ?_ (readReply_pending _ _)
          simp only [if_true, readReply_reads, write, hp]
          rfl

theorem nextFits_iff {jvm : Jvm} {s : Client} {link : Link} {line : List Char}
    {lines : List (List Char)} (h : s.lines = line :: lines) :
    NextFits jvm s link ↔ Fits jvm line link := by
  refine ⟨fun hn => hn line lines h, fun hf line' lines' hc => ?_⟩
  cases h.symm.trans hc
  exact hf

theorem step_adds {jvm : Jvm} {s t : Client} {link : Link} (hp : s.left = none → s.pending = [])
    (h : step jvm s link = some t) : Adds s.reads t (NextFits jvm s link) := by
  rw [step] at h
  split at h
  · cases h
  · next hl hlines =>
    cases h
    refine .nothing (fun line lines hc => ?_) rfl (hp hl)
    exact nomatch hlines.symm.trans hc
  · next line lines hl hlines =>
    have hidle := hp hl
    rw [nextFits_iff hlines, Fits]
    rcases hsplit : JavaString.split line with _ | ⟨name, _ | ⟨number, _ | ⟨token, rest⟩⟩⟩
    · simp only [hsplit] at h
      cases h
      refine .unasked id ?_ (readReply_pending _ _)
      rw [readReply_reads, hidle]
    · simp only [hsplit] at h
      cases h
      exact requestWithout_adds (s := { s with lines := lines }) hidle link name
    · simp only [hsplit] at h
      cases h
      exact requestWith_adds (s := { s with lines := lines }) hidle link name number
    · simp only [hsplit] at h
      cases h
      refine .unasked id ?_ (readReply_pending _ _)
      rw [readReply_reads, hidle]

theorem not_complete_nil (q : Request) : [] ≠ q.objects := (List.cons_ne_nil _ _).symm

theorem not_complete_half (r : Reference) (q : Request) : [.reference r] ≠ q.objects := by
  intro h
  have hlen : 1 = 2 := congrArg List.length h
  omega

theorem step_inLockstep_iff {jvm : Jvm} {s t : Client} {link : Link}
    (hp : s.left = none → s.pending = []) (hs : InLockstep s) (h : step jvm s link = some t) :
    InLockstep t ↔ NextFits jvm s link := by
  have hadds := step_adds hp h
  constructor
  · intro ht
    by_contra hn
    rcases hadds.broken hn with hread | ⟨r, hhalf⟩
    · obtain ⟨q, hq⟩ := ht.reads _ hread
      exact not_complete_nil q hq
    · rcases ht.pending with hnil | ⟨q, hq⟩
      · exact nomatch hnil.symm.trans hhalf
      · exact not_complete_half r q (hhalf.symm.trans hq)
  · intro hfits
    obtain ⟨hreads, hpending⟩ := hadds.complete hfits
    exact ⟨fun os hos => (hreads os hos).elim (hs.reads os) id, hpending⟩

theorem start_inLockstep (lines : List (List Char)) : InLockstep (start lines) :=
  ⟨fun _ h => absurd h List.not_mem_nil, Or.inl rfl⟩

/-- Whatever is typed, and whatever the connection brings, requests and responses
stay in lockstep exactly when each line that is reached fits. -/
theorem lockstep_iff (jvm : Jvm) (lines : List (List Char)) (links : List Link) :
    Always (step jvm) InLockstep (start lines) links ↔
      Guarded (step jvm) (NextFits jvm) (start lines) links :=
  always_iff_guarded (I := fun s => s.left = none → s.pending = [])
    (fun _ _ _ hs ht => (step_adds hs ht).idle) (fun _ _ _ hs hi ht => step_inLockstep_iff hs hi ht)
    (fun _ => rfl) (start_inLockstep lines) links

theorem in_x_half_written :
    let link : Link := ⟨true, true, .string⟩
    (∃ s, run (step Jvm.bare) (start ["in x".toList]) [link] = some s ∧
        s.left = some .numberFormat ∧
        s.pending = [.reference ⟨some serviceClass, "in", some [some "int"]⟩] ∧ ¬ InLockstep s) ∧
      ∃ s, run (step Jvm.bare) (start ["in 1 2".toList]) [link] = some s ∧
        s.reads = [[]] ∧ ¬ InLockstep s := by
  refine ⟨⟨_, rfl, by decide, by decide, fun h => ?_⟩, ⟨_, rfl, by decide, fun h => ?_⟩⟩
  · rcases h.pending with hnil | ⟨q, hq⟩
    · exact absurd hnil (by decide)
    · exact not_complete_half _ q hq
  · obtain ⟨q, hq⟩ := h.reads [] List.mem_cons_self
    exact not_complete_nil q hq

end Client

end Vsys.RpcParkingSim
