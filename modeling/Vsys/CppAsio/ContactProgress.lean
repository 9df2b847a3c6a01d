import Vsys.CppAsio.Contacts

/-! One connection between a C++ client and a C++ server, from the request on its way to the
answer that has been read: what its handler makes of the request is what the Java dispatcher
makes of that line. -/

namespace Vsys.CppAsio

open CString NetParkingSim

variable {η : Type}

/-- What the Java dispatcher makes of a command line. -/
def performed (ci : Fin 4) (lot : CountingLot) : Handled CountingLot :=
  RequestDispatcher.dispatch parkingLotRequestHandler (commands.get ci) lot

theorem requestText_eq :
    ∀ ci, requestText ci = encode (commands.get ci) ++ Session.endl := by decide

theorem lf_notMem_command : ∀ ci : Fin 4, 10 ∉ encode (commands.get ci) := by decide

theorem decode_encode_command (ci : Fin 4) :
    decode (encode (commands.get ci)) = commands.get ci := by
  have hall : ∀ w ∈ commands, decode (encode w) = w := by decide
  exact hall _ (List.get_mem commands ci)

theorem command_known :
    ∀ {ci : Fin 4}, ci ≠ 3 → encode (commands.get ci) ∈ Conversation.known := by decide

theorem prefixKind_command :
    ∀ {ci : Fin 4}, Session.prefixKind (commands.get ci) = .quit ↔ ci = 3 := by decide

theorem kind_requestText (ci : Fin 4) (behind : Bytes) :
    Session.kind (requestText ci ++ behind) = some (Session.prefixKind (commands.get ci)) := by
  have hline := Session.kind_line (encode (commands.get ci)) behind
  rw [decode_encode_command] at hline
  rw [requestText_eq, Session.endl, List.append_assoc]
  exact hline

/-- A part of a request that has its line feed is the whole of it. -/
theorem request_whole {request flying : Bytes} {ci : Fin 4}
    (h : request ++ flying = requestText ci) (hlf : 10 ∈ request) :
    request = requestText ci := by
  rw [requestText_eq] at h ⊢
  have hstream : request <+: Conversation.stream [encode (commands.get ci)] := by
    rw [Conversation.stream, List.flatMap_singleton, ← h]
    exact List.prefix_append _ _
  exact Conversation.request_whole (lf_notMem_command ci) hstream hlf

/-- What a handler does with the request of a client, and when it does nothing with it. -/
theorem doRead_requestText {peer : Peer} {ci : Fin 4} {behind : Bytes} {lot : CountingLot}
    {r : Served} (hr : Session.doRead peer (some (requestText ci ++ behind)) lot = some r) :
    (r.lot = lot ∧ (ci = 3 ∨ r.sent = [])) ∨
      (ci ≠ 3 ∧ r.lot = (performed ci lot).state ∧ ∃ t, 10 ∉ encode t ∧
        (performed ci lot).out = println t ∧ (r.sent = encode (println t) ∨ r.sent = [])) := by
  have hk := kind_requestText ci behind
  by_cases hquit : ci = 3
  · refine Or.inl ⟨?_, Or.inl hquit⟩
    by_contra hne
    have hkind := prefixKind_command.mpr hquit
    rcases (Session.doRead_effect hk hr).1 hne with h | h
    · exact nomatch hkind.symm.trans h
    · exact nomatch hkind.symm.trans h
  · rcases Session.doRead_cases hk hr with ⟨hsent, hlot, -⟩ | ⟨response, hrespond, hsent⟩
    · exact Or.inl ⟨hlot, Or.inr hsent⟩
    · obtain ⟨t, ht, hout, hsame⟩ :=
        Conversation.respond_known (command_known hquit) (requestText ci ++ behind) lot
      rw [decode_encode_command] at hout hsame
      obtain ⟨hresponse, hlot⟩ := Prod.mk.inj (Option.some.inj (hrespond.symm.trans hsame))
      refine Or.inr ⟨hquit, hlot, t, ht, hout, ?_⟩
      rw [← hresponse]
      exact hsent.imp_right fun h => h.1

/-- What has become of a request, with the call that its handler has made of it. A `quit` makes
no call. -/
inductive Came (q : η × Fin 4) (flying : Bytes) :
    Option Connection → List ((η × Fin 4) × Text) → Prop
  | waiting (hflying : flying = requestText q.2) : Came q flying none []
  | reading {c : Connection} (hstage : c.stage = .reading)
    (htext : c.request ++ flying = requestText q.2) (hopen : 10 ∉ c.request)
    (hsilent : c.responses = []) : Came q flying (some c) []
  | ready {c : Connection} (hstage : c.stage = .ready) (htext : c.request = requestText q.2)
    (hsilent : c.responses = []) : Came q flying (some c) []
  | failed {c : Connection} (hstage : c.stage = .failed) (hsilent : c.responses = []) :
    Came q flying (some c) []
  | quit {c : Connection} (hstage : c.stage = .over) (hquit : q.2 = 3) : Came q flying (some c) []
  | dropped {c : Connection} (hstage : c.stage = .over) (hsilent : c.responses = []) :
    Came q flying (some c) []
  | lost {c : Connection} (hstage : c.stage = .over) (hci : q.2 ≠ 3) (t : Text)
    (hsilent : c.responses = []) : Came q flying (some c) [(q, t)]
  | answered {c : Connection} (hstage : c.stage = .over) (hci : q.2 ≠ 3) {t : Text}
    (hline : 10 ∉ encode t) (hanswer : c.responses = [encode (println t)]) :
    Came q flying (some c) [(q, println t)]

def answerOf : Option Connection → Bytes
  | some c => c.responses.flatten
  | none => []

structure Link.Sound (l : Link η) (o : Option Connection) (last : List ((η × Fin 4) × Text)) :
    Prop where
  came : Came (l.host, l.ci) l.flying o last
  read : l.received <+: answerOf o

section
variable {q : η × Fin 4} {flying : Bytes} {o : Option Connection} {c c' : Connection}
  {last : List ((η × Fin 4) × Text)}

theorem Came.length_le (h : Came q flying o last) : last.length ≤ 1 := by
  cases h <;> simp

theorem Came.nil_of_quit (h : Came q flying o last) (hquit : q.2 = 3) : last = [] := by
  cases h with
  | lost hstage hci => exact absurd hquit hci
  | answered hstage hci => exact absurd hquit hci
  | _ => rfl

theorem Came.silent (h : Came q flying (some c) last) (hstage : c.stage ≠ .over) :
    last = [] ∧ c.responses = [] := by
  cases h with
  | reading _ _ _ hsilent => exact ⟨rfl, hsilent⟩
  | ready _ _ hsilent => exact ⟨rfl, hsilent⟩
  | failed _ hsilent => exact ⟨rfl, hsilent⟩
  | quit hover | dropped hover | lost hover | answered hover => exact absurd hover hstage

theorem Came.reading_of_stage (h : Came q flying (some c) last) (hstage : c.stage = .reading) :
    c.request ++ flying = requestText q.2 := by
  cases h with
  | reading _ htext => exact htext
  | failed h | ready h | quit h | dropped h | lost h | answered h =>
    exact nomatch hstage.symm.trans h

theorem Came.ready_of_stage (h : Came q flying (some c) last) (hstage : c.stage = .ready) :
    c.request = requestText q.2 := by
  cases h with
  | ready _ htext => exact htext
  | reading h | failed h | quit h | dropped h | lost h | answered h =>
    exact nomatch hstage.symm.trans h

/-- What is still on its way does not matter once the server reads no more. -/
theorem Came.congr {flying' : Bytes} (h : Came q flying (some c) last)
    (hs : c'.stage = c.stage) (hrequest : c'.request = c.request)
    (hresponses : c'.responses = c.responses) (hflying : c.stage = .reading → flying' = flying) :
    Came q flying' (some c') last := by
  cases h with
  | reading hstage htext hopen hsilent =>
    rw [← hflying hstage, ← hrequest] at htext
    exact .reading (hs.trans hstage) htext (hrequest ▸ hopen) (hresponses.trans hsilent)
  | ready hstage htext hsilent =>
    exact .ready (hs.trans hstage) (hrequest.trans htext) (hresponses.trans hsilent)
  | failed hstage hsilent => exact .failed (hs.trans hstage) (hresponses.trans hsilent)
  | quit hstage hquit => exact .quit (hs.trans hstage) hquit
  | dropped hstage hsilent => exact .dropped (hs.trans hstage) (hresponses.trans hsilent)
  | lost hstage hci t hsilent => exact .lost (hs.trans hstage) hci t (hresponses.trans hsilent)
  | answered hstage hci hline hanswer =>
    exact .answered (hs.trans hstage) hci hline (hresponses.trans hanswer)

theorem Came.accept (h : Came q flying none last) (address : Bytes × Bytes) :
    Came q flying (some (Connection.start address)) last := by
  cases h with
  | waiting hflying => exact .reading rfl hflying List.not_mem_nil rfl

theorem Came.arrive {chunk : Bytes} (h : Came q flying (some c) last)
    (hchunk : chunk <+: flying) :
    Came q (flying.drop chunk.length) (some (c.arrive chunk)) last := by
  by_cases hstage : c.stage = .reading
  · obtain ⟨rfl, hsilent⟩ := h.silent (by simp [hstage])
    have htext := h.reading_of_stage hstage
    obtain ⟨rest, rfl⟩ := hchunk
    rw [← List.append_assoc] at htext
    rw [List.drop_left, Connection.arrive_of_reading hstage]
    by_cases hlf : 10 ∈ c.request ++ chunk
    · exact .ready (if_pos hlf) (request_whole htext hlf) hsilent
    · exact .reading (if_neg hlf) htext hlf hsilent
  · rw [Connection.arrive_of_ne hstage]
    exact h.congr rfl rfl rfl fun h => absurd h hstage

theorem handled_responses {v : Vanishing} {r : Served} (h : c.responses = []) :
    (c.handled v r).responses = if r.sent = [] then [] else [r.sent] := by
  rw [Connection.handled, h, List.nil_append]

/-- A handler either leaves the lot alone or does with it what the command says. -/
theorem Came.serve {v : Vanishing} {behind : Bytes} {lot : CountingLot} {r : Served}
    (h : Came q flying (some c) last) (hready : c.stage = .ready)
    (hr : Session.doRead (c.peer v) (some (c.request ++ behind)) lot = some r) :
    (Came q flying (some (c.handled v r)) last ∧ r.lot = lot) ∨
      (last = [] ∧ q.2 ≠ 3 ∧ r.lot = (performed q.2 lot).state ∧
        Came q flying (some (c.handled v r)) [(q, (performed q.2 lot).out)]) := by
  obtain ⟨rfl, hsilent⟩ := h.silent (by simp [hready])
  have hresponses := @handled_responses c v r hsilent
  rw [h.ready_of_stage hready] at hr
  rcases doRead_requestText hr with ⟨hlot, hquit | hsent⟩ | ⟨hci, hlot, t, ht, hout, hsent | hsent⟩
  · exact Or.inl ⟨.quit rfl hquit, hlot⟩
  · rw [if_pos hsent] at hresponses
    exact Or.inl ⟨.dropped rfl hresponses, hlot⟩
  · have hne : encode (println t) ≠ [] := by
      rw [Conversation.encode_println]
      exact List.append_ne_nil_of_right_ne_nil _ (List.cons_ne_nil _ _)
    rw [hsent, if_neg hne] at hresponses
    rw [hout]
    exact Or.inr ⟨rfl, hci, hlot, .answered rfl hci ht hresponses⟩
  · rw [if_pos hsent] at hresponses
    exact Or.inr ⟨rfl, hci, hlot, .lost rfl hci _ hresponses⟩

theorem Came.socket {e : SocketEvent} {lot lot' : CountingLot} {r : Ending}
    (h : Came q flying (some c) last) (he : ∀ chunk, e ≠ .arrive chunk)
    (hs : c.step lot e = some (c', lot', r)) :
    (Came q flying (some c') last ∧ lot' = lot) ∨
      (c.stage = .ready ∧ last = [] ∧ q.2 ≠ 3 ∧ lot' = (performed q.2 lot).state ∧
        Came q flying (some c') [(q, (performed q.2 lot).out)]) := by
  cases Connection.steps_of_step hs with
  | arrive chunk => exact absurd rfl (he chunk)
  | vanish => exact Or.inl ⟨h.congr rfl rfl rfl fun _ => rfl, rfl⟩
  | fail hstage =>
    obtain ⟨rfl, hsilent⟩ := h.silent (by simp [hstage])
    exact Or.inl ⟨.failed rfl hsilent, rfl⟩
  | dismiss hstage v =>
    obtain ⟨rfl, hsilent⟩ := h.silent (by simp [hstage])
    exact Or.inl ⟨.dropped rfl (handled_responses hsilent), rfl⟩
  | serve hready hr => exact (h.serve hready hr).imp_right fun hnew => ⟨hready, hnew⟩

theorem step_responses {e : SocketEvent} {lot lot' : CountingLot} {r : Ending}
    (hs : c.step lot e = some (c', lot', r)) :
    c.responses <+: c'.responses ∧ (c.stage = .over → c'.stage = .over) := by
  cases Connection.steps_of_step hs with
  | arrive chunk =>
    by_cases hstage : c.stage = .reading
    · rw [Connection.arrive_of_reading hstage]
      exact ⟨List.prefix_refl _, fun hover => nomatch hstage.symm.trans hover⟩
    · rw [Connection.arrive_of_ne hstage]
      exact ⟨List.prefix_refl _, id⟩
  | vanish => exact ⟨List.prefix_refl _, id⟩
  | fail hstage => exact ⟨List.prefix_refl _, fun hover => nomatch hstage.symm.trans hover⟩
  | dismiss => exact ⟨List.prefix_append _ _, fun _ => rfl⟩
  | serve => exact ⟨List.prefix_append _ _, fun _ => rfl⟩

/-- A reply that the client has read is the answer to the call that its request has become. -/
theorem Link.Sound.reply_of_command {l : Link η} {reply : Reply} (h : l.Sound o last)
    (hci : l.ci ≠ 3) (hreply : l.reply = some reply) :
    ∃ t, last = [((l.host, l.ci), t)] ∧ reply.bytes = encode t ∧
      ∃ c, o = some c ∧ c.stage = .over := by
  rw [Link.reply, if_neg hci] at hreply
  split at hreply
  · next hlf =>
    cases hreply
    obtain ⟨hcame, hread⟩ := h
    have hanswer := hread.subset hlf
    cases hcame with
    | answered hstage _ hline hresponses =>
      rw [answerOf, hresponses, List.flatten_singleton] at hread
      refine ⟨_, rfl, ?_, _, rfl, hstage⟩
      rw [Conversation.encode_println] at hread ⊢
      rcases List.prefix_concat_iff.mp hread with hwhole | hpart
      · exact hwhole
      · exact absurd (hpart.subset hlf) hline
    | waiting => cases hanswer
    | quit _ hquit => exact absurd hquit hci
    | reading _ _ _ hsilent | ready _ _ hsilent | failed _ hsilent | dropped _ hsilent
    | lost _ _ _ hsilent =>
      rw [answerOf, hsilent] at hanswer
      cases hanswer
  · cases hreply

end

end Vsys.CppAsio
