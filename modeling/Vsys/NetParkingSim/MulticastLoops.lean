import Vsys.CppAsio.Client
import Vsys.NetParkingSim.HostArguments
import Vsys.NetParkingSim.Multicast

/-! The loops of the two clients over their endpoints. On the replies that the contacts of a
command got, each makes these contacts, in their order, and no others. -/

namespace Vsys

open CString Schedule Scan NetParkingSim

variable {ι S ρ κ : Type*}

namespace NetParkingSim.ParkingLotClientMain

variable {α : Type}

def answers (printed : List (Printed α)) : List (UnicastCommandDispatcher α × Option Text) :=
  printed.map fun p => (p.dispatcher, p.resp)

theorem multicast_ended {args : List Text} {replies : ℕ → Executed} {command : Text}
    (hcommand : command ≠ quitLine) (dispatcher : S → UnicastCommandDispatcher α)
    (text : Scan.Contact ι S ρ κ → Text) {entries : List S} {ok : Bool}
    {cs : List (Scan.Contact ι S ρ κ)} (h : Ended entries cs ok) {i n : ℕ}
    (hargs : i + entries.length ≤ args.length)
    (hreplies : ∀ j d, cs[j]? = some d → replies (n + j) = .returned (some (text d)))
    (htext : ∀ d ∈ cs, d.accepted = true ↔ text d = "ok".toList) :
    let r := multicast args replies command i n (entries.map dispatcher)
    answers r.1 = cs.map (fun d => (dispatcher d.place, some (text d))) ∧
      r.2 = (n + cs.length, .prompt) := by
  induction entries generalizing cs i n with
  | nil =>
    obtain rfl := h.nil
    simp [multicast, hcommand, answers]
  | cons e entries ih =>
    obtain ⟨d, ds, rfl, rfl, hrest⟩ := h.cons
    have hreply : replies n = .returned (some (text d)) := hreplies 0 d rfl
    rw [List.length_cons] at hargs
    obtain ⟨arg, harg⟩ : ∃ arg, args[i]? = some arg :=
      ⟨_, List.getElem?_eq_getElem (by omega)⟩
    have hd := htext d List.mem_cons_self
    rcases hrest with ⟨hacc, rfl⟩ | ⟨hacc, hended⟩
    · simp [multicast, hreply, harg, hd.mp hacc, hcommand, answers]
    · have hne : text d ≠ "ok".toList := fun heq =>
        Bool.false_ne_true (hacc.symm.trans (hd.mpr heq))
      obtain ⟨hanswers, hend⟩ := @ih ds hended (i + 1) (n + 1)
        (by omega)
        (fun j c hc => by rw [Nat.add_right_comm]; exact hreplies (j + 1) c hc)
        (fun c hc => htext c (List.mem_cons_of_mem d hc))
      simp only [List.map_cons, multicast, hreply, harg, hne, false_and, if_false]
      refine ⟨?_, ?_⟩
      · rw [answers, List.map_cons, ← answers, hanswers]
      · rw [hend, List.length_cons, Nat.add_right_comm, Nat.add_assoc]

end NetParkingSim.ParkingLotClientMain

namespace CppAsio.Client

variable {ε : Type*}

def contacted (ci : Fin 4) (s : Client ε) (visits : List (ε × ℕ)) : Client ε :=
  { s with contacts := s.contacts ++ visits.map fun v => ⟨v.2, v.1, commandsNl ci⟩ }

theorem contact_contacted (ci : Fin 4) (i : ℕ) (ep : ε) (s : Client ε)
    (visits : List (ε × ℕ)) :
    contacted ci (s.contact ci i ep) visits = contacted ci s ((ep, i) :: visits) := by
  simp [contacted, contact]

theorem multicast_ended {replies : ℕ → Option Reply} {ci : Fin 4} (hci : ci ≠ quitIndex)
    (endpoint : S → ε) (reply : Scan.Contact ι S ρ κ → Reply) {entries : List S} {ok : Bool}
    {cs : List (Scan.Contact ι S ρ κ)} (h : Ended entries cs ok) {i : ℕ} {s : Client ε}
    (hreplies : ∀ j d, cs[j]? = some d → replies (s.contacts.length + j) = some (reply d))
    (hok : ∀ d ∈ cs, d.accepted = (reply d).isOk) :
    multicast replies ci ((entries.map endpoint).zipIdx i) s =
      contacted ci s ((cs.map fun d => endpoint d.place).zipIdx i) := by
  induction entries generalizing cs i s with
  | nil =>
    obtain rfl := h.nil
    simp [multicast, hci, contacted]
  | cons e entries ih =>
    obtain ⟨d, ds, rfl, rfl, hrest⟩ := h.cons
    have hreply : replies s.contacts.length = some (reply d) := hreplies 0 d rfl
    have hd := hok d List.mem_cons_self
    rcases hrest with ⟨hacc, rfl⟩ | ⟨hacc, hended⟩
    · have hstop : ci ≠ 3 ∧ (reply d).isOk = true := ⟨hci, hd.symm.trans hacc⟩
      simp only [List.map_cons, List.zipIdx_cons, multicast, hreply, if_pos hstop]
      rfl
    · have hgo : ¬ (ci ≠ 3 ∧ (reply d).isOk = true) := fun hok =>
        Bool.false_ne_true (hacc.symm.trans (hd.trans hok.2))
      have hlater := @ih ds hended (i + 1) (s.contact ci i (endpoint d.place))
        (fun j c hc => by
          rw [contact, List.length_append, List.length_singleton, Nat.add_right_comm]
          exact hreplies (j + 1) c hc)
        (fun c hc => hok c (List.mem_cons_of_mem d hc))
      simp only [List.map_cons, List.zipIdx_cons, multicast, hreply, if_neg hgo, hlater,
        contact_contacted]

end CppAsio.Client

namespace NetParkingSim.Network

open CppAsio

/-- What the Java client reads of a contact. -/
def response (net : Network ι S) (d : Scan.Contact ι S CountingLot Command) : Option Text := do
  let (reply, _) ← net.exchange d.party d.place (encode (println d.command.word.toList)) d.before
  let (resp, _) ← readLine (decode reply)
  return resp

/-- What the C++ client receives of it. -/
def reply (net : Network ι S) (d : Scan.Contact ι S CountingLot Command) : Option Bytes :=
  (net.exchange d.party d.place (ascii d.command.word ++ ascii "\n") d.before).map Prod.fst

def text (ok : Bool) : Text := if ok then "ok".toList else "fail".toList

theorem println_word (c : Command) :
    encode (println c.word.toList) = ascii c.word ++ ascii "\n" := by
  cases c <;> decide

theorem response_eq (net : Network ι S) {d : Scan.Contact ι S CountingLot Command}
    (h : net.contact d.party d.place d.command d.before = some (d.accepted, d.after)) :
    net.response d = some (text d.accepted) := by
  rw [contact_eq] at h
  rw [response, println_word, exchange_eq, Option.some.inj h]
  simp only [Option.bind_eq_bind, Option.bind_some, readLine_reply, Option.pure_def]
  rfl

theorem reply_eq (net : Network ι S) {d : Scan.Contact ι S CountingLot Command}
    (h : net.contact d.party d.place d.command d.before = some (d.accepted, d.after)) :
    net.reply d = some (replyTo d.accepted) := by
  rw [contact_eq] at h
  rw [reply, exchange_eq, Option.some.inj h]
  rfl

theorem line_of_replyTo (ok : Bool) : 10 ∈ replyTo ok := by cases ok <;> decide

theorem isOk_replyTo (ok : Bool) : Reply.isOk ⟨replyTo ok, line_of_replyTo ok⟩ = ok := by
  cases ok <;> decide

variable [DecidableEq ι] [DecidableEq S]
variable {net : Network ι S} {lots : S → CountingLot} {programs : ι → List Command}
  {schedule : List ι} {t : State ι S CountingLot Command} {i : ι} {k : ℕ} {c : Command}
  {ok : Bool}

/-- The Java client that types the command, and reads what its contacts answered, has
printed these answers and prompts again. -/
theorem typed_eq_contacts
    (ht : run (step net.endpoints net.contact) (start lots programs) schedule = some t)
    (hr : (t.results i)[k]? = some (c, ok)) {α : Type} {args : List Text}
    (dispatcher : S → UnicastCommandDispatcher α) {replies : ℕ → Executed} {n : ℕ}
    (hargs : args.length = (net.endpoints i).length)
    (hreplies : ∀ j d, (contactsOf i k t.contacts)[j]? = some d →
      replies (n + j) = .returned (net.response d)) :
    let r := ParkingLotClientMain.typed args ((net.endpoints i).map dispatcher) replies n
      c.word.toList
    ParkingLotClientMain.answers r.1 =
        (contactsOf i k t.contacts).map (fun d => (dispatcher d.place, net.response d)) ∧
      r.2 = (n + (contactsOf i k t.contacts).length, .prompt) := by
  have h := run_orderly ht
  have hresponse : ∀ d ∈ contactsOf i k t.contacts, net.response d = some (text d.accepted) :=
    fun d hd => net.response_eq (h.attempt_eq d hd)
  have htokens : JavaString.tokens ParkingLotClientMain.isDelimiter c.word.toList =
      [c.word.toList] := by cases c <;> decide
  have hquit : c.word.toList ≠ quitLine := by cases c <;> decide
  have hended : Ended (net.endpoints i) (contactsOf i k t.contacts) ok :=
    (h.progress i).ended k _ hr
  have hanswered : ∀ j d, (contactsOf i k t.contacts)[j]? = some d →
      replies (n + j) = .returned (some (text d.accepted)) := fun j d hd => by
    rw [hreplies j d hd, hresponse d (List.mem_of_getElem? hd)]
  have htext : ∀ d ∈ contactsOf i k t.contacts, d.accepted = true ↔
      text d.accepted = "ok".toList := fun d _ => by cases d.accepted <;> decide
  have hloop := ParkingLotClientMain.multicast_ended hquit dispatcher (fun d => text d.accepted)
    hended (Nat.le_of_eq ((Nat.zero_add _).trans hargs.symm)) hanswered htext
  have hmap := List.map_congr_left fun d hd =>
    congrArg (Prod.mk (dispatcher d.place)) (hresponse d hd)
  intro r
  rw [hmap]
  simp only [r, ParkingLotClientMain.typed, htokens]
  exact hloop

/-- The C++ client that has the command in its buffer, and receives what its contacts sent,
makes these contacts and goes on. -/
theorem perform_eq_contacts
    (ht : run (step net.endpoints net.contact) (start lots programs) schedule = some t)
    (hr : (t.results i)[k]? = some (c, ok)) {ε : Type*} (endpoint : S → ε)
    {replies : ℕ → Option Reply} {s : Client ε}
    (hreplies : ∀ j d, (contactsOf i k t.contacts)[j]? = some d →
      (replies (s.contacts.length + j)).map Reply.bytes = net.reply d) :
    ∃ ci, Client.treat ((net.endpoints i).map endpoint) (ascii c.word) = some (.multicast ci) ∧
      Client.perform ((net.endpoints i).map endpoint) replies s (.multicast ci) =
        Client.contacted ci s
          ((contactsOf i k t.contacts).map fun d => endpoint d.place).zipIdx := by
  have h := run_orderly ht
  obtain ⟨ci, hci, htokens⟩ : ∃ ci, Client.cindex c.word.toList = some ci ∧
      strtok ' ' (ascii c.word) = [c.word.toList] := by
    cases c with
    | in_ => exact ⟨1, by decide, by decide⟩
    | out => exact ⟨2, by decide, by decide⟩
  have hquit : ci ≠ Client.quitIndex := by
    rintro rfl
    exact absurd hci (by cases c <;> decide)
  refine ⟨ci, by simp only [Client.treat, htokens, hci], ?_⟩
  refine Client.multicast_ended hquit endpoint
    (fun d => ⟨replyTo d.accepted, line_of_replyTo d.accepted⟩)
    ((h.progress i).ended k _ hr) (fun j d hd => ?_) fun d _ => (isOk_replyTo d.accepted).symm
  have hsent := hreplies j d hd
  rw [net.reply_eq (h.attempt_eq d (List.mem_of_getElem? hd)), Option.map_eq_some_iff] at hsent
  obtain ⟨⟨bytes, hline⟩, hreply, rfl⟩ := hsent
  exact hreply

end NetParkingSim.Network

end Vsys
