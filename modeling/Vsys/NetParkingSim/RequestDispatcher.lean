import Vsys.CountingLot

/-! The Java line server: the lot, the request handler over it, and the
dispatcher that reads requests line by line and passes each to the handler. -/

namespace Vsys.NetParkingSim

abbrev Text := List Char

abbrev SynchronizedParkingLot := CountingLot

namespace SynchronizedParkingLot

def park (l : SynchronizedParkingLot) : Bool × SynchronizedParkingLot := l.enter

def unpark (l : SynchronizedParkingLot) : Bool × SynchronizedParkingLot := l.leave

def remaining (l : SynchronizedParkingLot) : Int32 := l.vacant

end SynchronizedParkingLot

def println (t : Text) : Text := t ++ ['\n']

structure Handled (σ : Type*) where
  out : Text
  state : σ
  exited : Bool := false
  deriving DecidableEq, Repr

structure RequestHandler (σ : Type*) where
  handleFree : σ → Handled σ
  handleIn : σ → Handled σ
  handleOut : σ → Handled σ
  handleQuit : σ → Handled σ
  handleUnknown : Text → σ → Handled σ

namespace ParkingLotRequestHandler

def handleFree (l : SynchronizedParkingLot) : Handled SynchronizedParkingLot :=
  ⟨println (toString l.remaining).toList, l, false⟩

def handleIn (l : SynchronizedParkingLot) : Handled SynchronizedParkingLot :=
  let r := l.park
  ⟨println (if r.1 then "ok" else "fail").toList, r.2, false⟩

def handleOut (l : SynchronizedParkingLot) : Handled SynchronizedParkingLot :=
  let r := l.unpark
  ⟨println (if r.1 then "ok" else "fail").toList, r.2, false⟩

def handleQuit (l : SynchronizedParkingLot) : Handled SynchronizedParkingLot :=
  ⟨println "ok".toList, l, true⟩

def handleUnknown (data : Text) (l : SynchronizedParkingLot) : Handled SynchronizedParkingLot :=
  ⟨println ("Unknown request: ".toList ++ data), l, false⟩

end ParkingLotRequestHandler

def parkingLotRequestHandler : RequestHandler SynchronizedParkingLot where
  handleFree := ParkingLotRequestHandler.handleFree
  handleIn := ParkingLotRequestHandler.handleIn
  handleOut := ParkingLotRequestHandler.handleOut
  handleQuit := ParkingLotRequestHandler.handleQuit
  handleUnknown := ParkingLotRequestHandler.handleUnknown

/-- The rest of the current line and what follows its terminator; LF, CR and
CRLF each end one line. -/
def takeLine : Text → Text × Text
  | [] => ([], [])
  | '\n' :: cs => ([], cs)
  | '\r' :: '\n' :: cs => ([], cs)
  | '\r' :: cs => ([], cs)
  | c :: cs => (c :: (takeLine cs).1, (takeLine cs).2)

def readLine : Text → Option (Text × Text)
  | [] => none
  | c :: cs => some (takeLine (c :: cs))

theorem takeLine_line {line : Text} (h : ∀ c ∈ line, c ≠ '\n' ∧ c ≠ '\r') (rest : Text) :
    takeLine (line ++ '\n' :: rest) = (line, rest) := by
  induction line with
  | nil => rfl
  | cons c cs ih =>
    obtain ⟨hlf, hcr⟩ := h c List.mem_cons_self
    have ih := ih fun d hd => h d (List.mem_cons_of_mem _ hd)
    rw [List.cons_append, takeLine, ih]
    · exact fun hc => absurd hc hlf
    · exact fun _ hc => absurd hc hcr
    · exact fun hc => absurd hc hcr

theorem readLine_line {line : Text} (h : ∀ c ∈ line, c ≠ '\n' ∧ c ≠ '\r') (rest : Text) :
    readLine (line ++ '\n' :: rest) = some (line, rest) := by
  rw [← takeLine_line h rest]
  cases line <;> rfl

def freeLine : Text := "free".toList

def inLine : Text := "in".toList

def outLine : Text := "out".toList

def quitLine : Text := "quit".toList

def commands : List Text := [freeLine, inLine, outLine, quitLine]

def okReply : Text := println "ok".toList

def failReply : Text := println "fail".toList

inductive RequestKind where
  | free
  | in_
  | out
  | quit
  | unknown
  deriving DecidableEq, Repr

namespace RequestDispatcher

variable {σ : Type*}

def kind (line : Text) : RequestKind :=
  if line = freeLine then .free
  else if line = inLine then .in_
  else if line = outLine then .out
  else if line = quitLine then .quit
  else .unknown

theorem kind_of_not_mem {line : Text} (h : line ∉ commands) : kind line = .unknown := by
  simp only [commands, List.mem_cons, List.not_mem_nil, or_false, not_or] at h
  obtain ⟨hfree, hin, hout, hquit⟩ := h
  rw [kind, if_neg hfree, if_neg hin, if_neg hout, if_neg hquit]

theorem kind_eq_kind_iff {w line : Text} (hw : w ∈ commands) :
    kind line = kind w ↔ line = w := by
  refine ⟨fun h => ?_, fun h => h ▸ rfl⟩
  by_cases hline : line ∈ commands
  · have hinj : ∀ u ∈ commands, ∀ v ∈ commands, kind u = kind v → u = v := by decide
    exact hinj line hline w hw h
  · have hknown : ∀ v ∈ commands, kind v ≠ .unknown := by decide
    exact absurd (h.symm.trans (kind_of_not_mem hline)) (hknown w hw)

theorem kind_eq_in_iff {line : Text} : kind line = .in_ ↔ line = inLine :=
  kind_eq_kind_iff (w := inLine) (by decide)

theorem kind_eq_out_iff {line : Text} : kind line = .out ↔ line = outLine :=
  kind_eq_kind_iff (w := outLine) (by decide)

theorem kind_eq_quit_iff {line : Text} : kind line = .quit ↔ line = quitLine :=
  kind_eq_kind_iff (w := quitLine) (by decide)

def dispatch (handler : RequestHandler σ) (line : Text) (s : σ) : Handled σ :=
  match kind line with
  | .free => handler.handleFree s
  | .in_ => handler.handleIn s
  | .out => handler.handleOut s
  | .quit => handler.handleQuit s
  | .unknown => handler.handleUnknown line s

/-- The loop of `apply`; the bound on its passes is never what ends it. -/
def serveLines (handler : RequestHandler σ) : ℕ → Text → σ → Handled σ
  | 0, _, s => ⟨[], s, false⟩
  | n + 1, input, s =>
    match readLine input with
    | none => ⟨[], s, false⟩
    | some (line, rest) =>
      let r := dispatch handler line s
      if r.exited then r
      else
        let rs := serveLines handler n rest r.state
        ⟨r.out ++ rs.out, rs.state, rs.exited⟩

def apply (handler : RequestHandler σ) (input : Text) (s : σ) : Handled σ :=
  serveLines handler input.length input s

theorem takeLine_length (cs : Text) : (takeLine cs).2.length ≤ cs.length - 1 := by
  induction cs using takeLine.induct with
  | case1 => exact Nat.le_refl 0
  | case2 cs => exact Nat.le_refl cs.length
  | case3 cs =>
    simp only [takeLine, List.length_cons]
    omega
  | case4 cs h =>
    rw [takeLine]
    · exact Nat.le_refl cs.length
    · exact h
  | case5 c cs _ _ _ ih =>
    rw [takeLine]
    · simp only [List.length_cons]
      omega
    all_goals assumption

theorem readLine_length {input line rest : Text} (h : readLine input = some (line, rest)) :
    rest.length < input.length := by
  cases input with
  | nil => exact nomatch h
  | cons c cs =>
    have hrest : (takeLine (c :: cs)).2 = rest := congrArg Prod.snd (Option.some.inj h)
    have hlen := takeLine_length (c :: cs)
    rw [hrest, List.length_cons] at hlen
    rw [List.length_cons]
    omega

theorem serveLines_of_le (handler : RequestHandler σ) {m n : ℕ} {input : Text} (s : σ)
    (hm : input.length ≤ m) (hn : input.length ≤ n) :
    serveLines handler m input s = serveLines handler n input s := by
  induction m generalizing n input s with
  | zero =>
    have hi : input = [] := List.length_eq_zero_iff.mp (by omega)
    subst hi
    cases n <;> rfl
  | succ m ih =>
    cases hr : readLine input with
    | none =>
      cases n with
      | zero => simp [serveLines, hr]
      | succ n => simp [serveLines, hr]
    | some p =>
      obtain ⟨line, rest⟩ := p
      have hlt := readLine_length hr
      obtain ⟨n, rfl⟩ : ∃ k, n = k + 1 := ⟨n - 1, by omega⟩
      simp only [serveLines, hr, ih (n := n) _ (by omega : rest.length ≤ m) (by omega)]

@[simp] theorem apply_nil (handler : RequestHandler σ) (s : σ) :
    apply handler [] s = ⟨[], s, false⟩ := rfl

theorem apply_of_readLine (handler : RequestHandler σ) {input line rest : Text} (s : σ)
    (h : readLine input = some (line, rest)) :
    apply handler input s =
      if (dispatch handler line s).exited then dispatch handler line s
      else
        ⟨(dispatch handler line s).out ++ (apply handler rest (dispatch handler line s).state).out,
          (apply handler rest (dispatch handler line s).state).state,
          (apply handler rest (dispatch handler line s).state).exited⟩ := by
  have hlt := readLine_length h
  obtain ⟨n, hn⟩ : ∃ k, input.length = k + 1 := ⟨input.length - 1, by omega⟩
  simp only [apply, hn, serveLines, h,
    serveLines_of_le handler _ (by omega : rest.length ≤ n) le_rfl]

theorem apply_singleLine (handler : RequestHandler σ) {input line : Text} (s : σ)
    (h : readLine input = some (line, [])) :
    apply handler input s = dispatch handler line s := by
  rw [apply_of_readLine handler s h, apply_nil, List.append_nil]
  cases hex : (dispatch handler line s).exited with
  | true => rfl
  | false =>
    rw [if_neg Bool.false_ne_true, ← hex]

end RequestDispatcher

namespace ParkingLotRequestHandler

variable {l : SynchronizedParkingLot}

theorem handleIn_of_true (h : l.enter.1 = true) : handleIn l = ⟨okReply, l.enter.2, false⟩ := by
  simp only [handleIn, SynchronizedParkingLot.park, h, if_true, okReply]

theorem handleIn_of_false (h : l.enter.1 = false) : handleIn l = ⟨failReply, l, false⟩ := by
  simp only [handleIn, SynchronizedParkingLot.park, h, CountingLot.enter_of_false h,
    Bool.false_eq_true, if_false, failReply]

theorem handleOut_of_true (h : l.leave.1 = true) : handleOut l = ⟨okReply, l.leave.2, false⟩ := by
  simp only [handleOut, SynchronizedParkingLot.unpark, h, if_true, okReply]

theorem handleOut_of_false (h : l.leave.1 = false) : handleOut l = ⟨failReply, l, false⟩ := by
  simp only [handleOut, SynchronizedParkingLot.unpark, h, CountingLot.leave_of_false h,
    Bool.false_eq_true, if_false, failReply]

theorem dispatch_state (line : Text) (l : SynchronizedParkingLot) :
    let r := RequestDispatcher.dispatch parkingLotRequestHandler line l
    r.state = l ∨ r.state = l.enter.2 ∨ r.state = l.leave.2 := by
  intro r
  cases hk : RequestDispatcher.kind line <;>
    simp [r, RequestDispatcher.dispatch, hk, parkingLotRequestHandler, handleFree, handleIn,
      handleOut, handleQuit, handleUnknown, SynchronizedParkingLot.park,
      SynchronizedParkingLot.unpark]

theorem dispatch_capacity (line : Text) (l : SynchronizedParkingLot) :
    (RequestDispatcher.dispatch parkingLotRequestHandler line l).state.capacity = l.capacity := by
  rcases dispatch_state line l with h | h | h <;> simp [h]

theorem dispatch_inBounds (line : Text) (h : l.InBounds) :
    (RequestDispatcher.dispatch parkingLotRequestHandler line l).state.InBounds := by
  rcases dispatch_state line l with hs | hs | hs <;> rw [hs]
  · exact h
  · exact h.enter
  · exact h.leave

end ParkingLotRequestHandler

end Vsys.NetParkingSim
