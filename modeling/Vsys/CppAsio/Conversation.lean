import Vsys.CppAsio.Connection
import Vsys.NetParkingSim.RequestStream
import Vsys.Schedule.Run

/-! What a client hears that sends requests on one connection and waits: from the C++
session, which reads once, and from the Java dispatcher, which reads on. -/

namespace Vsys.CppAsio.Conversation

open CString NetParkingSim Schedule

def serve (s : Connection × CountingLot) (e : SocketEvent) : Option (Connection × CountingLot) :=
  (s.1.step s.2 e).map fun r => (r.1, r.2.1)

def stream (requests : List Bytes) : Bytes := requests.flatMap fun q => q ++ Session.endl

def known : List Bytes := [ascii "free", ascii "in", ascii "out"]

def java (requests : List Bytes) (l : CountingLot) : Handled CountingLot :=
  RequestDispatcher.apply parkingLotRequestHandler (decode (stream requests)) l

/-- What a line does to the lot of the Java server. -/
def turn (l : CountingLot) (line : Text) : CountingLot :=
  if line = inLine then l.enter.2 else if line = outLine then l.leave.2 else l

/-- A CR ends a line for the Java reader as well, so that a request may be several. Up to
a `quit`, these park and unpark so that the count is in the end what it was. -/
def Neutral (q : Bytes) (l : CountingLot) : Prop :=
  (((lines (decode (stream [q]))).takeWhile (· ≠ quitLine)).foldl turn l).count = l.count

theorem respond_ne_nil {request response : Bytes} {l l' : CountingLot} {k : RequestKind}
    (h : Session.respond request l k = some (response, l')) : response ≠ [] := by
  rintro rfl
  cases k with
  | unknown =>
    obtain ⟨t, -, ht⟩ := Option.map_eq_some_iff.mp h
    simp [Session.endl] at ht
  | _ => simp [Session.respond, Session.endl] at h

theorem request_whole {request q : Bytes} (hq : 10 ∉ q) (h : request <+: stream [q])
    (hlf : 10 ∈ request) : request = q ++ Session.endl := by
  rw [stream, List.flatMap_singleton] at h
  rcases List.prefix_concat_iff.mp h with hwhole | hpart
  · exact hwhole
  · exact absurd (hpart.subset hlf) hq

theorem mem_decode {b : UInt8} {q : Bytes} (h : charOf b ∈ decode q) : b ∈ q := by
  obtain ⟨a, ha, heq⟩ := List.mem_map.mp h
  exact charOf_injective heq ▸ ha

theorem decode_stream_single (q : Bytes) : decode (stream [q]) = decode q ++ '\n' :: [] := by
  rw [stream, List.flatMap_singleton, decode, List.map_append]
  rfl

theorem plain_decode {q : Bytes} (hlf : 10 ∉ q) (hcr : 13 ∉ q) : Plain (decode q) := by
  intro c hc
  refine ⟨?_, ?_⟩
  · rintro rfl
    exact hlf (mem_decode hc)
  · rintro rfl
    exact hcr (mem_decode hc)

theorem readLine_single {q : Bytes} (hlf : 10 ∉ q) (hcr : 13 ∉ q) :
    readLine (decode (stream [q])) = some (decode q, []) := by
  rw [decode_stream_single]
  exact readLine_line (plain_decode hlf hcr) []

-- Behind a CR the Java reader finds an `in` in an unknown request.
example : (java [ascii "x\rin\r\x00"] (.new 5)).state.count = 1 := by decide

/-- Without a CR, an unknown request is one line to the Java reader too, and leaves the lot
as it is. -/
theorem neutral_of_noCr {q : Bytes} (hlf : 10 ∉ q) (hcr : 13 ∉ q)
    (hq : ∀ w ∈ commands, ¬ w <+: decode q) (l : CountingLot) : Neutral q l := by
  have hlines : lines (decode (stream [q])) = [decode q] :=
    Splitting.all_of_some readLine_shortens (readLine_single hlf hcr)
  have hne : ∀ w ∈ commands, decode q ≠ w := fun w hw heq => hq w hw (heq ▸ List.prefix_rfl)
  have hquit := hne quitLine (by decide)
  rw [Neutral, hlines, List.takeWhile_cons_of_pos (by simpa using hquit)]
  simp [turn, hne inLine (by decide), hne outLine (by decide)]

theorem encode_println (t : Text) : encode (println t) = encode t ++ Session.endl := by
  rw [println, encode, List.map_append]
  rfl

theorem ofNat_ne_lf {c : Char} (hc : c = '-' ∨ c.isDigit = true) : UInt8.ofNat c.toNat ≠ 10 := by
  rcases hc with rfl | hdigit
  · decide
  · intro h
    have hmod := congrArg UInt8.toNat h
    rw [UInt8.toNat_ofNat'] at hmod
    change c.toNat % 2 ^ 8 = 10 at hmod
    have hval : c.toNat = c.val.toNat := rfl
    simp [Char.isDigit, UInt32.le_iff_toNat_le] at hdigit
    omega

theorem lf_notMem_number (n : Int32) : 10 ∉ encode (toString n).toList := by
  intro h
  obtain ⟨c, hc, heq⟩ := List.mem_map.mp h
  exact ofNat_ne_lf (ParkingLotRequestHandler.mem_toString hc) heq

/-- To a known request the two servers answer alike, in one line. -/
theorem respond_known {q : Bytes} (hq : q ∈ known) (request : Bytes) (l : CountingLot) :
    let r := RequestDispatcher.dispatch parkingLotRequestHandler (decode q) l
    ∃ t, 10 ∉ encode t ∧ r.out = println t ∧
      Session.respond request l (Session.prefixKind (decode q)) =
        some (encode (println t), r.state) := by
  intro r
  simp only [known, List.mem_cons, List.not_mem_nil, or_false] at hq
  rcases hq with rfl | rfl | rfl
  · refine ⟨(toString l.vacant).toList, ?_, rfl, ?_⟩
    · exact lf_notMem_number l.vacant
    · rw [encode_println]
      rfl
  · refine ⟨(if l.enter.1 then "ok" else "fail").toList, ?_, rfl, ?_⟩
    · cases l.enter.1 <;> decide
    · rw [encode_println]
      rfl
  · refine ⟨(if l.leave.1 then "ok" else "fail").toList, ?_, rfl, ?_⟩
    · cases l.leave.1 <;> decide
    · rw [encode_println]
      rfl

end Vsys.CppAsio.Conversation
