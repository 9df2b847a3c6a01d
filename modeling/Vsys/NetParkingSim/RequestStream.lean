import Vsys.NetParkingSim.RequestDispatcher
import Vsys.Text.Splitting

/-! One stream of requests against the same stream cut into pieces, and its answers
line by line. -/

namespace Vsys.NetParkingSim

def lines (s : Text) : List Text := Splitting.all readLine s

theorem readLine_shortens : Splitting.Shortens readLine := fun _ _ _ h =>
  RequestDispatcher.readLine_length h

def EndsLine (p : Text) : Prop := p = [] ∨ p.getLast? = some '\n'

theorem EndsLine.tail {c d : Char} {cs : Text} (h : EndsLine (c :: d :: cs)) :
    EndsLine (d :: cs) := by
  rcases h with h | h
  · cases h
  · exact Or.inr (by rwa [List.getLast?_cons_cons] at h)

theorem takeLine_append {p : Text} (hne : p ≠ []) (hp : EndsLine p) :
    EndsLine (takeLine p).2 ∧
      ∀ rest, takeLine (p ++ rest) = ((takeLine p).1, (takeLine p).2 ++ rest) := by
  induction p using takeLine.induct with
  | case1 => exact absurd rfl hne
  | case2 cs =>
    refine ⟨?_, fun rest => rfl⟩
    cases cs with
    | nil => exact Or.inl rfl
    | cons d cs => exact hp.tail
  | case3 cs =>
    refine ⟨?_, fun rest => rfl⟩
    cases cs with
    | nil => exact Or.inl rfl
    | cons d cs => exact hp.tail.tail
  | case4 cs h =>
    cases cs with
    | nil => simp [EndsLine] at hp
    | cons d cs =>
      have hd : d ≠ '\n' := fun he => h cs (by rw [he])
      have hline : ∀ ds, takeLine ('\r' :: d :: ds) = ([], d :: ds) := by
        intro ds
        rw [takeLine]
        exact fun _ he => hd (List.cons.inj he).1
      rw [hline]
      exact ⟨hp.tail, fun rest => hline (cs ++ rest)⟩
  | case5 c cs hlf hcrlf hcr ih =>
    have hline : ∀ ds, takeLine (c :: ds) = (c :: (takeLine ds).1, (takeLine ds).2) := by
      intro ds
      rw [takeLine]
      · exact fun he => hlf he
      · exact fun _ he => absurd he hcr
      · exact fun he => hcr he
    cases cs with
    | nil =>
      rcases hp with hp | hp
      · cases hp
      · exact absurd (Option.some.inj hp) hlf
    | cons d cs =>
      obtain ⟨htail, hrest⟩ := ih (List.cons_ne_nil d cs) hp.tail
      rw [hline]
      refine ⟨htail, fun rest => ?_⟩
      rw [List.cons_append, hline, hrest]

theorem endsLine_closed : Splitting.Closed readLine EndsLine where
  empty := by
    intro p _ hnone
    cases p with
    | nil => rfl
    | cons c cs => cases hnone
  piece := by
    intro p line rest hp hread
    cases p with
    | nil => cases hread
    | cons c cs =>
      obtain ⟨hrest, hbehind⟩ := takeLine_append (List.cons_ne_nil c cs) hp
      have heq : takeLine (c :: cs) = (line, rest) := Option.some.inj hread
      rw [heq] at hrest hbehind
      exact ⟨hrest, fun more => congrArg some (hbehind more)⟩

theorem lines_flatten (pieces : List Text) (hcut : ∀ p ∈ pieces.dropLast, EndsLine p) :
    lines pieces.flatten = pieces.flatMap lines :=
  Splitting.all_flatten readLine_shortens endsLine_closed pieces hcut

theorem lines_of_readLine {s line rest : Text} (h : readLine s = some (line, rest)) :
    lines s = line :: lines rest := Splitting.all_of_some readLine_shortens h

def Plain (t : Text) : Prop := ∀ c ∈ t, c ≠ '\n' ∧ c ≠ '\r'

instance (t : Text) : Decidable (Plain t) := List.decidableBAll _ t

theorem plain_nil : Plain [] := fun _ h => absurd h List.not_mem_nil

theorem takeLine_plain (s : Text) : Plain (takeLine s).1 := by
  induction s using takeLine.induct with
  | case1 => exact plain_nil
  | case2 cs => exact plain_nil
  | case3 cs => exact plain_nil
  | case4 cs h =>
    rw [takeLine]
    · exact plain_nil
    · exact h
  | case5 c cs hlf hcrlf hcr ih =>
    rw [takeLine]
    · intro d hd
      rcases List.mem_cons.mp hd with rfl | hd
      · exact ⟨hlf, hcr⟩
      · exact ih d hd
    all_goals assumption

theorem lines_plain (s : Text) : ∀ line ∈ lines s, Plain line := by
  induction s using Splitting.reading readLine_shortens with
  | hnone s h =>
    rw [lines, Splitting.all_of_none h]
    exact fun _ h => nomatch h
  | hsome s line rest h ih =>
    rw [lines_of_readLine h]
    intro l hl
    rcases List.mem_cons.mp hl with rfl | hl
    · cases s with
      | nil => cases h
      | cons c cs =>
        have hline : (takeLine (c :: cs)).1 = l := congrArg Prod.fst (Option.some.inj h)
        exact hline ▸ takeLine_plain (c :: cs)
    · exact ih l hl

theorem lines_println {ts : List Text} (h : ∀ t ∈ ts, Plain t) :
    lines (ts.flatMap println) = ts := by
  induction ts with
  | nil => rfl
  | cons t ts ih =>
    have hread : readLine ((t :: ts).flatMap println) = some (t, ts.flatMap println) := by
      rw [List.flatMap_cons, println, List.append_assoc]
      exact readLine_line (h t List.mem_cons_self) _
    rw [lines_of_readLine hread, ih fun u hu => h u (List.mem_cons_of_mem t hu)]

/-- What follows a handled part is handled unless the process has exited. -/
def Handled.andThen {σ : Type*} (r : Handled σ) (next : σ → Handled σ) : Handled σ :=
  if r.exited then r
  else ⟨r.out ++ (next r.state).out, (next r.state).state, (next r.state).exited⟩

theorem Handled.andThen_assoc {σ : Type*} (r : Handled σ) (f g : σ → Handled σ) :
    (r.andThen f).andThen g = r.andThen fun s => (f s).andThen g := by
  cases hr : r.exited with
  | true => simp [andThen, hr]
  | false => cases hf : (f r.state).exited <;> simp [andThen, hr, hf]

namespace RequestDispatcher

variable {σ : Type*} (handler : RequestHandler σ)

def serveAll : List Text → σ → Handled σ
  | [], s => ⟨[], s, false⟩
  | line :: rest, s => (dispatch handler line s).andThen (serveAll rest)

/-- `apply` once for each piece, on the same lot. -/
def applyEach : List Text → σ → Handled σ
  | [], s => ⟨[], s, false⟩
  | piece :: rest, s => (apply handler piece s).andThen (applyEach rest)

theorem apply_eq_serveAll (input : Text) (s : σ) :
    apply handler input s = serveAll handler (lines input) s := by
  induction input using Splitting.reading readLine_shortens generalizing s with
  | hnone input h =>
    cases input with
    | nil => rfl
    | cons c cs => cases h
  | hsome input line rest h ih =>
    have htail : apply handler rest = serveAll handler (lines rest) := funext ih
    rw [apply_of_readLine handler s h, lines_of_readLine h, serveAll, ← htail]
    rfl

theorem serveAll_append (as bs : List Text) (s : σ) :
    serveAll handler (as ++ bs) s = (serveAll handler as s).andThen (serveAll handler bs) := by
  induction as generalizing s with
  | nil => rfl
  | cons a as ih =>
    have htail : serveAll handler (as ++ bs) =
        fun s => (serveAll handler as s).andThen (serveAll handler bs) := funext ih
    rw [List.cons_append, serveAll, serveAll, Handled.andThen_assoc, htail]

theorem applyEach_eq_serveAll (pieces : List Text) (s : σ) :
    applyEach handler pieces s = serveAll handler (pieces.flatMap lines) s := by
  induction pieces generalizing s with
  | nil => rfl
  | cons piece pieces ih =>
    have htail : applyEach handler pieces = serveAll handler (pieces.flatMap lines) := funext ih
    rw [applyEach, List.flatMap_cons, serveAll_append, ← apply_eq_serveAll, htail]

theorem applyEach_eq_apply {pieces : List Text} (hcut : ∀ p ∈ pieces.dropLast, EndsLine p)
    (s : σ) : applyEach handler pieces s = apply handler pieces.flatten s := by
  rw [applyEach_eq_serveAll, apply_eq_serveAll, lines_flatten pieces hcut]

end RequestDispatcher

namespace ParkingLotRequestHandler

open RequestDispatcher

theorem plain_append {t u : Text} (ht : Plain t) (hu : Plain u) : Plain (t ++ u) := fun c hc =>
  (List.mem_append.mp hc).elim (ht c) (hu c)

theorem mem_toString {n : Int32} {c : Char} (hc : c ∈ (toString n).toList) :
    c = '-' ∨ c.isDigit = true := by
  have hrepr : ∀ {m : ℕ}, c ∈ m.repr.toList → c.isDigit = true := by
    intro m hm
    rw [Nat.toList_repr] at hm
    exact Nat.isDigit_of_mem_toDigits (by decide) (by decide) hm
  change c ∈ n.toInt.repr.toList at hc
  cases hn : n.toInt with
  | ofNat m =>
    rw [hn] at hc
    exact Or.inr (hrepr hc)
  | negSucc m =>
    rw [hn, Int.repr, String.toList_append] at hc
    rcases List.mem_append.mp hc with hc | hc
    · exact Or.inl (by simpa using hc)
    · exact Or.inr (hrepr hc)

theorem repr_injective {k l : ℕ} (h : k.repr.toList = l.repr.toList) : k = l := by
  rw [Nat.toList_repr, Nat.toList_repr] at h
  rw [← @Nat.ofDigitChars_ten_toDigits k, h, Nat.ofDigitChars_ten_toDigits]

theorem minus_not_mem_repr (k : ℕ) : '-' ∉ k.repr.toList := by
  rw [Nat.toList_repr]
  intro h
  exact absurd (Nat.isDigit_of_mem_toDigits (by decide) (by decide) h) (by decide)

theorem toString_injective {n m : Int32} (h : (toString n).toList = (toString m).toList) :
    n = m := by
  have hsign : ∀ k : ℕ, (Int.negSucc k).repr.toList = '-' :: (k + 1).repr.toList := by
    intro k
    rw [Int.repr, String.toList_append]
    rfl
  change n.toInt.repr.toList = m.toInt.repr.toList at h
  refine Int32.toInt_inj.mp ?_
  cases hn : n.toInt with
  | ofNat k =>
    cases hm : m.toInt with
    | ofNat l =>
      rw [hn, hm] at h
      exact congrArg Int.ofNat (repr_injective h)
    | negSucc l =>
      rw [hn, hm, hsign] at h
      exact absurd (h ▸ List.mem_cons_self) (minus_not_mem_repr k)
  | negSucc k =>
    cases hm : m.toInt with
    | ofNat l =>
      rw [hn, hm, hsign] at h
      exact absurd (h ▸ List.mem_cons_self) (minus_not_mem_repr l)
    | negSucc l =>
      rw [hn, hm, hsign, hsign] at h
      have hk : k + 1 = l + 1 := repr_injective (List.cons.inj h).2
      rw [Nat.succ.inj hk]

theorem plain_toString (n : Int32) : Plain (toString n).toList := by
  intro c hc
  rcases mem_toString hc with rfl | hdigit
  · decide
  · refine ⟨?_, ?_⟩
    · rintro rfl
      exact absurd hdigit (by decide)
    · rintro rfl
      exact absurd hdigit (by decide)

theorem dispatch_out {line : Text} (h : Plain line) (l : SynchronizedParkingLot) :
    ∃ t, Plain t ∧ (dispatch parkingLotRequestHandler line l).out = println t := by
  rw [dispatch]
  cases kind line with
  | free => exact ⟨_, plain_toString l.remaining, rfl⟩
  | in_ =>
    refine ⟨_, ?_, rfl⟩
    cases l.park.1 <;> decide
  | out =>
    refine ⟨_, ?_, rfl⟩
    cases l.unpark.1 <;> decide
  | quit => exact ⟨_, by decide, rfl⟩
  | unknown => exact ⟨_, plain_append (by decide) h, rfl⟩

theorem dispatch_exited {line : Text} (h : line ≠ quitLine) (l : SynchronizedParkingLot) :
    (dispatch parkingLotRequestHandler line l).exited = false := by
  rw [dispatch]
  cases hk : kind line with
  | quit => exact absurd (kind_eq_quit_iff.mp hk) h
  | _ => rfl

theorem serveAll_out {ls : List Text} (hplain : ∀ line ∈ ls, Plain line) (hquit : quitLine ∉ ls)
    (l : SynchronizedParkingLot) :
    ∃ ts : List Text, ts.length = ls.length ∧ (∀ t ∈ ts, Plain t) ∧
      (serveAll parkingLotRequestHandler ls l).out = ts.flatMap println := by
  induction ls generalizing l with
  | nil => exact ⟨[], rfl, by simp, rfl⟩
  | cons line ls ih =>
    obtain ⟨t, ht, hout⟩ := dispatch_out (hplain line List.mem_cons_self) l
    have hexited := dispatch_exited (fun h => hquit (h ▸ List.mem_cons_self)) l
    obtain ⟨ts, hlen, hts, hrest⟩ := ih (fun u hu => hplain u (List.mem_cons_of_mem line hu))
      (fun h => hquit (List.mem_cons_of_mem line h))
      (dispatch parkingLotRequestHandler line l).state
    refine ⟨t :: ts, by rw [List.length_cons, hlen, List.length_cons], ?_, ?_⟩
    · intro u hu
      rcases List.mem_cons.mp hu with rfl | hu
      · exact ht
      · exact hts u hu
    · simp only [serveAll, Handled.andThen, hexited, Bool.false_eq_true, if_false, hout, hrest,
        List.flatMap_cons]

/-- Requests spread over several connections, one after the other and cut behind
line feeds, are answered with the same characters and the same effect on the lot as
on one connection; and every line, also an unfinished last one, gets one line. -/
theorem pieces_served_alike {pieces : List Text} (hcut : ∀ p ∈ pieces.dropLast, EndsLine p)
    (hquit : quitLine ∉ lines pieces.flatten) (l : SynchronizedParkingLot) :
    let parts := applyEach parkingLotRequestHandler pieces l
    let whole := apply parkingLotRequestHandler pieces.flatten l
    parts.out = whole.out ∧ parts.state = whole.state ∧
      (lines whole.out).length = (lines pieces.flatten).length ∧
      whole.out = (lines whole.out).flatMap println := by
  intro parts whole
  have hparts : parts = whole := applyEach_eq_apply _ hcut l
  obtain ⟨ts, hlen, hts, hout⟩ := serveAll_out (lines_plain pieces.flatten) hquit l
  rw [← apply_eq_serveAll] at hout
  change whole.out = _ at hout
  rw [hparts, hout, lines_println hts]
  exact ⟨rfl, rfl, hlen, rfl⟩

theorem pieces_served_alike_unfinished :
    let pieces := ["in\r\nfree\n".toList, [], "hello\rout".toList]
    let parts := applyEach parkingLotRequestHandler pieces ⟨5, 0⟩
    quitLine ∉ lines pieces.flatten ∧ parts.state = ⟨5, 0⟩ ∧
      parts.out = (apply parkingLotRequestHandler pieces.flatten ⟨5, 0⟩).out ∧
      parts.out = "ok\n4\nUnknown request: hello\nok\n".toList := by
  intro pieces parts
  have hcut : ∀ p ∈ pieces.dropLast, EndsLine p := by
    intro p hp
    simp only [pieces, List.dropLast, List.mem_cons, List.not_mem_nil, or_false] at hp
    rcases hp with rfl | rfl
    · exact Or.inr (by decide)
    · exact Or.inl rfl
  have hquit : quitLine ∉ lines pieces.flatten := by decide
  exact ⟨hquit, by decide, (pieces_served_alike hcut hquit ⟨5, 0⟩).1, by decide⟩

end ParkingLotRequestHandler

end Vsys.NetParkingSim
