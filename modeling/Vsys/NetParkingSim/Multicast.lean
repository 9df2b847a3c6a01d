import Vsys.CppAsio.RequestLanguage
import Vsys.Schedule.Scan

/-! Commands without a host number: a client, Java or C++, tries its endpoints
one after the other until a server, Java or C++, answers `ok`. -/

namespace Vsys.NetParkingSim

open CString Schedule Scan CppAsio

inductive Program where
  | java
  | cpp
  deriving DecidableEq, Repr

inductive Command where
  | in_
  | out
  deriving DecidableEq, Repr

namespace Command

def word : Command → String
  | in_ => "in"
  | out => "out"

def act : Command → CountingLot → Bool × CountingLot
  | in_ => CountingLot.enter
  | out => CountingLot.leave

def kind : Command → RequestKind
  | in_ => .in_
  | out => .out

def Possible : Command → CountingLot → Prop
  | in_, l => l.occupancy < l.capacity.toInt
  | out, l => 0 < l.occupancy

def change : Command → ℤ
  | in_ => 1
  | out => -1

theorem act_fst_iff {c : Command} {l : CountingLot} : (c.act l).1 = true ↔ c.Possible l := by
  cases c with
  | in_ => exact CountingLot.enter_fst_iff
  | out => exact CountingLot.leave_fst_iff

theorem act_of_true {c : Command} {l : CountingLot} (h : (c.act l).1 = true) :
    (c.act l).2.occupancy = l.occupancy + c.change := by
  cases c with
  | in_ => exact CountingLot.enter_of_true h
  | out => exact CountingLot.leave_of_true h

theorem act_of_false {c : Command} {l : CountingLot} (h : (c.act l).1 = false) :
    (c.act l).2 = l := by
  cases c with
  | in_ => exact CountingLot.enter_of_false h
  | out => exact CountingLot.leave_of_false h

end Command

/-- The running servers and clients. Every contact succeeds: a peer has an address
and receives, and the buffers, being zeroed, hold a NUL behind what was received. -/
structure Network (ι S : Type*) where
  client : ι → Program
  endpoints : ι → List S
  server : S → Program
  address : ι → Bytes × Bytes
  behind : Bytes
  zeroed : 0 ∈ behind

namespace Network

variable {ι S : Type*}

def exchange (net : Network ι S) (i : ι) (e : S) (request : Bytes) (l : CountingLot) :
    Option (Bytes × CountingLot) :=
  match net.server e with
  | .java =>
    let r := RequestDispatcher.apply parkingLotRequestHandler (decode request) l
    some (encode r.out, r.state)
  | .cpp =>
    (Session.doRead ⟨some (net.address i), true⟩ (some (request ++ net.behind)) l).map fun r =>
      (r.sent, r.lot)

def contact (net : Network ι S) : Attempt ι S CountingLot Command := fun i e c l =>
  match net.client i with
  | .java => do
    let (reply, l') ← net.exchange i e (encode (println c.word.toList)) l
    let (resp, _) ← readLine (decode reply)
    return (resp = "ok".toList && c.word ≠ "quit", l')
  | .cpp => do
    let (reply, l') ← net.exchange i e (ascii c.word ++ ascii "\n") l
    if 10 ∈ reply then
      let _ ← read (reply ++ net.behind)
      return ((← memcmp (reply ++ net.behind) (literal "ok") 2) = 0, l')
    else none

def replyTo (ok : Bool) : Bytes := if ok then ascii "ok\n" else ascii "fail\n"

theorem exchange_java (c : Command) (l : CountingLot) :
    let r := RequestDispatcher.apply parkingLotRequestHandler (decode (ascii c.word ++ ascii "\n")) l
    encode r.out = replyTo (c.act l).1 ∧ r.state = (c.act l).2 := by
  intro r
  cases c with
  | in_ =>
    have hline : readLine (decode (ascii "in" ++ ascii "\n")) = some (inLine, []) := by decide
    have hr : r = ParkingLotRequestHandler.handleIn l :=
      RequestDispatcher.apply_singleLine _ l hline
    rw [hr, ParkingLotRequestHandler.handleIn]
    refine ⟨?_, rfl⟩
    change encode (println (if l.enter.1 then "ok" else "fail").toList) = replyTo l.enter.1
    cases l.enter.1 <;> decide
  | out =>
    have hline : readLine (decode (ascii "out" ++ ascii "\n")) = some (outLine, []) := by decide
    have hr : r = ParkingLotRequestHandler.handleOut l :=
      RequestDispatcher.apply_singleLine _ l hline
    rw [hr, ParkingLotRequestHandler.handleOut]
    refine ⟨?_, rfl⟩
    change encode (println (if l.leave.1 then "ok" else "fail").toList) = replyTo l.leave.1
    cases l.leave.1 <;> decide

theorem kind_word (c : Command) (behind : Bytes) :
    Session.kind (ascii c.word ++ ascii "\n" ++ behind) = some (c.kind) := by
  cases c with
  | in_ =>
    have hk := Session.kind_line (ascii "in") behind
    exact hk.trans (by decide)
  | out =>
    have hk := Session.kind_line (ascii "out") behind
    exact hk.trans (by decide)

theorem respond_command (request : Bytes) (c : Command) (l : CountingLot) :
    Session.respond request l c.kind = some (replyTo (c.act l).1, (c.act l).2) := by
  cases c with
  | in_ =>
    change some (ascii (if l.enter.1 then "ok" else "fail") ++ Session.endl, l.enter.2) = _
    change _ = some (replyTo l.enter.1, l.enter.2)
    cases l.enter.1 <;> rfl
  | out =>
    change some (ascii (if l.leave.1 then "ok" else "fail") ++ Session.endl, l.leave.2) = _
    change _ = some (replyTo l.leave.1, l.leave.2)
    cases l.leave.1 <;> rfl

theorem exchange_eq (net : Network ι S) (i : ι) (e : S) (c : Command) (l : CountingLot) :
    net.exchange i e (ascii c.word ++ ascii "\n") l = some (replyTo (c.act l).1, (c.act l).2) := by
  cases hs : net.server e with
  | java =>
    obtain ⟨hout, hstate⟩ := exchange_java c l
    simp only [exchange, hs, hout, hstate]
  | cpp =>
    obtain ⟨log, hread⟩ := Session.doRead_connected (net.address i) (kind_word c net.behind)
      (respond_command _ c l)
    simp only [exchange, hs, hread, Option.map_some]

theorem readLine_reply (ok : Bool) :
    readLine (decode (replyTo ok)) = some (if ok then "ok".toList else "fail".toList, []) := by
  cases ok <;> decide

theorem memcmp_reply (ok : Bool) (behind : Bytes) :
    ∃ z, memcmp (replyTo ok ++ behind) (literal "ok") 2 = some z ∧ (z = 0 ↔ ok = true) := by
  cases ok with
  | true => exact ⟨0, rfl, by decide⟩
  | false => exact ⟨-9, rfl, by decide⟩

theorem contact_eq (net : Network ι S) (i : ι) (e : S) (c : Command) (l : CountingLot) :
    net.contact i e c l = some (c.act l) := by
  rcases hact : c.act l with ⟨ok, l'⟩
  have hexchange := net.exchange_eq i e c l
  rw [hact] at hexchange
  cases hc : net.client i with
  | java =>
    have hline : encode (println c.word.toList) = ascii c.word ++ ascii "\n" := by
      cases c <;> decide
    simp only [contact, hc, hline, hexchange, readLine_reply, Option.bind_eq_bind,
      Option.bind_some, Option.pure_def]
    cases c <;> cases ok <;> rfl
  | cpp =>
    have hlf : 10 ∈ replyTo ok := by cases ok <;> decide
    obtain ⟨t, ht⟩ := read_append net.zeroed (replyTo ok)
    obtain ⟨z, hz, hok⟩ := memcmp_reply ok net.behind
    simp only [contact, hc, hexchange, hlf, if_true, ht, hz, hok, Option.bind_eq_bind,
      Option.bind_some, Option.pure_def, Bool.decide_eq_true]

theorem contact_inert (net : Network ι S) : Inert net.contact := by
  intro i e c l l' h
  rw [contact_eq] at h
  have hact : c.act l = (false, l') := Option.some.inj h
  rw [← Command.act_of_false (congrArg Prod.fst hact), hact]

theorem contact_changes (net : Network ι S) :
    Changes net.contact CountingLot.occupancy Command.change := by
  intro i e c l l' h
  rw [contact_eq] at h
  have hact : c.act l = (true, l') := Option.some.inj h
  rw [← Command.act_of_true (congrArg Prod.fst hact), hact]

theorem contact_accepts_iff (net : Network ι S) {i : ι} {e : S} {c : Command} {l : CountingLot} :
    (∃ l', net.contact i e c l = some (true, l')) ↔ c.Possible l := by
  rw [← Command.act_fst_iff, contact_eq]
  constructor
  · rintro ⟨l', h⟩
    rw [Option.some.inj h]
  · intro h
    exact ⟨(c.act l).2, by rw [← h]⟩

theorem earned_eq (results : List (Command × Bool)) :
    earned Command.change results =
      (results.count (.in_, true) : ℤ) - results.count (.out, true) := by
  have hne : ((.in_, true) : Command × Bool) ≠ (.out, true) := by decide
  rw [earned, ← sum_signed hne]
  congr 2
  funext r
  obtain ⟨c, ok⟩ := r
  cases c <;> cases ok <;> rfl

variable [DecidableEq ι] [DecidableEq S] [Fintype ι] [Fintype S]

/-- In every interleaving of the contacts, each command goes through its client's
list in order and stops at the first `ok`; together its contacts change one lot by
one car if it ends with an `ok`, and no lot otherwise; the cars inside all lots are
those of the beginning, the `in`s that got an `ok` more and the `out`s that did
less; and a command with no other contact between its own gets an `ok` exactly when
a lot of its list allowed it at its beginning. -/
theorem multicast_effect (net : Network ι S) (lots : S → CountingLot)
    (programs : ι → List Command) {schedule : List ι} {t : State ι S CountingLot Command}
    (ht : run (step net.endpoints net.contact) (start lots programs) schedule = some t) :
    (∀ i k, (contactsOf i k t.contacts).map Contact.place <+: net.endpoints i ∧
        ∀ d ∈ (contactsOf i k t.contacts).dropLast, d.accepted = false) ∧
      (∀ i k c ok, (t.results i)[k]? = some (c, ok) →
        (ok = true ↔ ∃ d ∈ contactsOf i k t.contacts, d.accepted = true)) ∧
      (Genuine net.contact lots t.contacts ∧ t.resource = replay lots t.contacts) ∧
      (∀ i k c, (t.results i)[k]? = some (c, true) →
        ((contactsOf i k t.contacts).map fun d => d.after.occupancy - d.before.occupancy).sum =
          c.change) ∧
      (∀ i k, (∀ c, (t.results i)[k]? ≠ some (c, true)) →
        ∀ d ∈ contactsOf i k t.contacts, d.after = d.before) ∧
      (∑ e, (t.resource e).occupancy = ∑ e, (lots e).occupancy +
        ∑ i, (((t.results i).count (.in_, true) : ℤ) - (t.results i).count (.out, true))) ∧
      (∀ i, (t.results i).map Prod.fst ++ t.todo i = programs i) ∧
      ∀ i k c ok before after, (t.results i)[k]? = some (c, ok) →
        t.contacts = before ++ contactsOf i k t.contacts ++ after →
        (ok = true ↔ ∃ e ∈ net.endpoints i, c.Possible (replay lots before e)) := by
  have h := run_orderly ht
  refine ⟨h.order, fun i k c ok hr => h.result_iff hr, ⟨h.genuine, h.resource⟩,
    fun i k c hr => h.amount net.contact_inert net.contact_changes hr,
    fun i k hr => h.unchanged net.contact_inert hr, ?_, h.program,
    fun i k c ok before after hr hs => ?_⟩
  · simp only [run_measure net.contact_inert net.contact_changes ht, earned_eq]
  · rw [h.isolated net.contact_inert hr hs]
    simp only [contact_accepts_iff]

theorem multicast_effect_mixed :
    let net : Network Bool Bool :=
      ⟨fun b => if b then .java else .cpp, fun _ => [true, false],
        fun e => if e then .cpp else .java, fun _ => (ascii "127.0.0.1", ascii "50000"), [0],
        List.mem_singleton_self 0⟩
    let lots : Bool → CountingLot := fun _ => ⟨1, 0⟩
    ∃ t, run (step net.endpoints net.contact) (start lots fun _ => [.in_]) [true, false, false] =
        some t ∧ t.results false = [(.in_, true)] ∧
      ∑ e, (t.resource e).occupancy = ∑ e, (lots e).occupancy +
        ∑ i, (((t.results i).count (.in_, true) : ℤ) - (t.results i).count (.out, true)) := by
  intro net lots
  obtain ⟨t, ht, hresults⟩ : ∃ t ∈ run (step net.endpoints net.contact)
      (start lots fun _ => [.in_]) [true, false, false], t.results false = [(.in_, true)] := by
    decide
  obtain ⟨-, -, -, -, -, htotal, -⟩ := multicast_effect net lots _ ht
  exact ⟨t, ht, hresults, htotal⟩

end Network

end Vsys.NetParkingSim
