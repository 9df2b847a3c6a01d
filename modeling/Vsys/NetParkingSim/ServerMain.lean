import Vsys.NetParkingSim.ServerAgreement
import Vsys.Text.JavaString

/-! The start of the Java line server: its arguments, the socket it listens on, and the
lot that its sessions share. -/

namespace Vsys.NetParkingSim

open JavaString Schedule

/-- What comes of binding a port that a socket can have. -/
inductive Binding where
  | bound
  | ioException
  | securityException
  deriving DecidableEq, Repr

inductive Listening where
  | socket
  | ioException
  | runtimeException
  deriving DecidableEq, Repr

/-- `new ServerSocket`; a port outside its range is an `IllegalArgumentException`. -/
def newServerSocket (bind : Int32 → Binding) (port : Int32) : Listening :=
  if port < 0 ∨ 65535 < port then .runtimeException
  else
    match bind port with
    | .bound => .socket
    | .ioException => .ioException
    | .securityException => .runtimeException

namespace ParkingLotServerMain

inductive Place where
  | accepting (port : Int32) (lot : SynchronizedParkingLot)
  | exited (status : ℤ)
  | uncaught
  deriving DecidableEq, Repr

structure Started where
  console : List Text
  place : Place
  deriving DecidableEq, Repr

/-- The number of parking spaces, and what is printed about it. -/
def spaces : List Text → Int32 × List Text
  | [s] =>
    let n := (valueOf s).getD (-1)
    (n, if n < 1 then ["Invalid number of parking spaces: ".toList ++ s] else [])
  | _ => (5, [])

/-- `main` up to its first `accept`. Where the port is not a number, `accept` and the
`close` behind it are called on `null`. -/
def main (bind : Int32 → Binding) : List Text → Started
  | [] => ⟨["Usage: ParkingLotServerMain <PORT> [N = 5]".toList], .exited 1⟩
  | port :: rest =>
    let n := spaces rest
    match valueOf port with
    | none => ⟨n.2 ++ ["Invalid port number: ".toList ++ port], .uncaught⟩
    | some p =>
      match newServerSocket bind p with
      | .socket => ⟨n.2, .accepting p (.new n.1)⟩
      | .ioException => ⟨n.2 ++ ["Listen failed on port: ".toList ++ port], .exited 1⟩
      | .runtimeException => ⟨n.2, .uncaught⟩

def givenPort (args : List Text) : Option Int32 := args.head?.bind valueOf

def givenSpaces : List Text → Option Int32
  | _ :: s :: _ => valueOf s
  | _ => some 5

/-- The server accepts connections only on the port given, bound, and for a lot of the
spaces given, of which there are some; otherwise it has ended with an error status. -/
def Configured (bind : Int32 → Binding) (args : List Text) : Prop :=
  match (main bind args).place with
  | .accepting port lot => givenPort args = some port ∧ bind port = .bound ∧
      ∃ n, givenSpaces args = some n ∧ 1 ≤ n ∧ lot = ⟨n, 0⟩
  | .exited status => status ≠ 0
  | .uncaught => False

/-- Every answer to `free` in a run over the lot is a number from 0 to its capacity. -/
def AnswersInRange (lot : SynchronizedParkingLot) : Prop :=
  ∀ (ι : Type) [Fintype ι] [DecidableEq ι] (scripts : ι → List Text)
    (schedule : List (ι × ServerAction)) (t : ServerState ι),
    run ServerState.step { ServerState.start lot.capacity scripts with lot := lot } schedule =
      some t →
    ∀ (i : ι) (k : ℕ) (r : Text), (t.conns i).exchanges[k]? = some (freeLine, r) →
      ∃ m : ℤ, 0 ≤ m ∧ m ≤ lot.capacity.toInt ∧ r = println (toString m).toList

theorem answersInRange_new {n : Int32} (h : 0 ≤ n) : AnswersInRange (.new n) := by
  intro ι _ _ scripts schedule t ht i k r hk
  have hrun : run ServerState.step (ServerState.start n scripts) schedule = some t := ht
  obtain ⟨pre, -, s, -, hs, -, rfl⟩ := ServerState.free_moment h hrun hk
  have hconsistent := ServerState.run_consistent h hs
  have hbounds := CountingLot.inBounds_iff.mp hconsistent.inBounds
  rw [hconsistent.capacity_eq, hconsistent.occupancy_eq] at hbounds
  refine ⟨n.toInt - s.booked, by omega, ?_, rfl⟩
  change n.toInt - s.booked ≤ n.toInt
  omega

/-- The number of spaces is the default, or the only further argument and positive; a
third argument makes `main` take the default whatever was given. -/
def SpacesRead : List Text → Prop
  | [] => True
  | [s] => ∃ n, valueOf s = some n ∧ 1 ≤ n
  | s :: _ :: _ => valueOf s = some 5

/-- There are no arguments; or the port is the number of one that cannot be bound, or of
one that is bound, and then the number of spaces is read as well. -/
def WellStarted (bind : Int32 → Binding) : List Text → Prop
  | [] => True
  | port :: rest => ∃ p, valueOf port = some p ∧ 0 ≤ p ∧ p ≤ 65535 ∧
      (bind p = .ioException ∨ bind p = .bound ∧ SpacesRead rest)

theorem spacesRead_iff (port : Text) (rest : List Text) :
    SpacesRead rest ↔ ∃ n, givenSpaces (port :: rest) = some n ∧ 1 ≤ n ∧
      CountingLot.new (spaces rest).1 = ⟨n, 0⟩ := by
  match rest with
  | [] => exact iff_of_true trivial ⟨5, rfl, by decide, rfl⟩
  | [s] =>
    constructor
    · rintro ⟨n, hn, hpos⟩
      exact ⟨n, hn, hpos, by rw [spaces, hn]; rfl⟩
    · rintro ⟨n, hn, hpos, -⟩
      exact ⟨n, hn, hpos⟩
  | s :: x :: more =>
    constructor
    · exact fun h => ⟨5, h, by decide, rfl⟩
    · rintro ⟨n, hn, -, hlot⟩
      obtain rfl : 5 = n := congrArg CountingLot.capacity hlot
      exact hn

theorem newServerSocket_of_port {bind : Int32 → Binding} {p : Int32} (h : 0 ≤ p ∧ p ≤ 65535) :
    newServerSocket bind p =
      match bind p with
      | .bound => .socket
      | .ioException => .ioException
      | .securityException => .runtimeException := by
  have hrange : ¬ (p < 0 ∨ 65535 < p) := by
    rw [not_or, Int32.not_lt, Int32.not_lt]
    exact h
  rw [newServerSocket, if_neg hrange]

theorem newServerSocket_of_no_port {bind : Int32 → Binding} {p : Int32}
    (h : ¬ (0 ≤ p ∧ p ≤ 65535)) : newServerSocket bind p = .runtimeException := by
  have hrange : p < 0 ∨ 65535 < p := by
    rwa [not_and_or, Int32.not_le, Int32.not_le] at h
  rw [newServerSocket, if_pos hrange]

theorem configured_of_uncaught {bind : Int32 → Binding} {args : List Text}
    (h : (main bind args).place = .uncaught) : ¬ Configured bind args := by
  rw [Configured, h]
  exact id

theorem main_of_port {bind : Int32 → Binding} {port : Text} {p : Int32}
    (hp : valueOf port = some p) (rest : List Text) :
    (main bind (port :: rest)).place =
      match newServerSocket bind p with
      | .socket => .accepting p (.new (spaces rest).1)
      | .ioException => .exited 1
      | .runtimeException => .uncaught := by
  cases hlistening : newServerSocket bind p <;> simp only [main, hp, hlistening]

theorem configured_iff_of_bound {bind : Int32 → Binding} {port : Text} {p : Int32}
    (hp : valueOf port = some p) (hbind : bind p = .bound) (rest : List Text)
    (hmain : (main bind (port :: rest)).place = .accepting p (.new (spaces rest).1)) :
    Configured bind (port :: rest) ↔ SpacesRead rest := by
  have hport : givenPort (port :: rest) = some p := hp
  simp only [Configured, hmain, hport, hbind, true_and, spacesRead_iff port rest]

/-- `main` never leads to a server of a lot that was not asked for, and the answers of
the server that it leads to are never outside the lot, exactly when its arguments are
numbers that a port and a lot can have. -/
theorem configured_iff (bind : Int32 → Binding) (args : List Text) :
    (Configured bind args ∧ ∀ port lot, (main bind args).place = .accepting port lot →
      AnswersInRange lot) ↔ WellStarted bind args := by
  refine (and_iff_left_of_imp fun hconfigured port lot hplace => ?_).trans ?_
  · rw [Configured, hplace] at hconfigured
    obtain ⟨-, -, n, -, hn, rfl⟩ := hconfigured
    exact answersInRange_new (Int32.le_trans (by decide) hn)
  · cases args with
    | nil => exact iff_of_true (by decide : (1 : ℤ) ≠ 0) trivial
    | cons port rest =>
      cases hp : valueOf port with
      | none =>
        refine iff_of_false (configured_of_uncaught ?_) ?_
        · rw [main, hp]
        · rintro ⟨p, hsome, -⟩
          exact nomatch hp.symm.trans hsome
      | some p =>
        have hplace := @main_of_port bind port p hp rest
        have hwell : WellStarted bind (port :: rest) ↔ 0 ≤ p ∧ p ≤ 65535 ∧
            (bind p = .ioException ∨ bind p = .bound ∧ SpacesRead rest) := by
          constructor
          · rintro ⟨q, hq, h⟩
            exact Option.some.inj (hp.symm.trans hq) ▸ h
          · exact fun h => ⟨p, hp, h⟩
        rw [hwell, ← and_assoc]
        by_cases hrange : 0 ≤ p ∧ p ≤ 65535
        · rw [newServerSocket_of_port hrange] at hplace
          rw [and_iff_right hrange]
          cases hbind : bind p with
          | bound =>
            rw [hbind] at hplace
            rw [configured_iff_of_bound hp hbind rest hplace]
            simp
          | ioException =>
            rw [hbind] at hplace
            rw [Configured, hplace]
            simp
          | securityException =>
            rw [hbind] at hplace
            exact iff_of_false (configured_of_uncaught hplace) (by simp)
        · rw [newServerSocket_of_no_port hrange] at hplace
          exact iff_of_false (configured_of_uncaught hplace) fun h => hrange h.1

/-- A number of spaces that is none is complained about and served nevertheless, and
a port that is none ends in an exception of `null`. -/
theorem unread_spaces_served :
    let bind : Int32 → Binding := fun _ => .bound
    let spoilt := ["5000".toList, "abc".toList]
    (main bind spoilt = ⟨["Invalid number of parking spaces: abc".toList], .accepting 5000 ⟨-1, 0⟩⟩ ∧
      ¬ Configured bind spoilt) ∧
      main bind ["http".toList] = ⟨["Invalid port number: http".toList], .uncaught⟩ ∧
      ¬ Configured bind ["http".toList] := by
  intro bind spoilt
  have hmain : main bind spoilt =
      ⟨["Invalid number of parking spaces: abc".toList], .accepting 5000 ⟨-1, 0⟩⟩ := by decide
  refine ⟨⟨hmain, fun h => ?_⟩, by decide, configured_of_uncaught (by decide)⟩
  have hgiven : givenSpaces spoilt = none := by decide
  rw [Configured, hmain] at h
  obtain ⟨-, -, n, hn, -⟩ := h
  exact nomatch hgiven.symm.trans hn

end ParkingLotServerMain

end Vsys.NetParkingSim
