import Vsys.CppAsio.ServerRuns
import Vsys.NetParkingSim.ServerMain
import Vsys.Text.Reading

/-! The start of the C++ server, beside that of the Java server. -/

namespace Vsys.CppAsio.ServerMain

open CString JavaString NetParkingSim Schedule

inductive Place where
  | serving (port : UInt16) (lot : CountingLot)
  | returned (status : ℤ)
  deriving DecidableEq, Repr

structure Started where
  errors : List Text
  place : Place
  deriving DecidableEq, Repr

/-- The number of the port goes through a parameter that is a `short`. -/
def portOf (n : Int32) : UInt16 := n.toInt16.toUInt16

/-- The constructor of the server listens; the exception that it may throw is printed, and
`main` returns 0 behind it. -/
def serve (bind : UInt16 → Option Text) (n : Int32) (port : Text) : Option Started :=
  (atoi port).map fun p =>
    match bind (portOf p) with
    | none => ⟨[], .serving (portOf p) (.new n)⟩
    | some what => ⟨["Exception: ".toList ++ what], .returned 0⟩

/-- `main` up to the event loop. It has no result where `atoi` has none. -/
def main (bind : UInt16 → Option Text) (name : Text) : List Text → Option Started
  | [port] => serve bind 5 port
  | [port, spaces] =>
    (atoi spaces).bind fun n =>
      if n ≤ 0 then
        some ⟨["Invalid parking space count: ".toList ++ (toString n).toList], .returned 1⟩
      else serve bind n port
  | _ => some ⟨["Usage: ".toList ++ name ++ " <port> [N = 5]".toList], .returned 1⟩

def Serves (bind : UInt16 → Option Text) (args : List Text) (port : UInt16) (lot : CountingLot) :
    Prop :=
  ∀ name, ∃ errors, main bind name args = some ⟨errors, .serving port lot⟩

theorem toNat_portOf {p : Int32} (h : 0 ≤ p ∧ p ≤ 65535) : ((portOf p).toNat : ℤ) = p.toInt := by
  have hlow := Word32.nonneg_iff.mp h.1
  have hhigh : p.toInt ≤ 65535 := Int32.le_iff_toInt_le.mp h.2
  obtain ⟨k, hk⟩ := Int.eq_ofNat_of_zero_le hlow
  have hp : p = Int32.ofNat k := by
    rw [← Int32.ofInt_toInt p, hk, Int32.ofInt_eq_ofNat]
  have hlt : k < UInt16.size := by
    rw [UInt16.size]
    omega
  rw [hk, portOf, hp, Int32.toInt16_ofNat', Int16.toUInt16_ofNat', UInt16.toNat_ofNat_of_lt' hlt]

theorem serve_eq_serving_iff {bind : UInt16 → Option Text} {n : Int32} {port : Text} {q : UInt16}
    {lot : CountingLot} :
    (∃ errors, serve bind n port = some ⟨errors, .serving q lot⟩) ↔
      ∃ p, atoi port = some p ∧ portOf p = q ∧ bind q = none ∧ lot = .new n := by
  constructor
  · rintro ⟨errors, h⟩
    obtain ⟨p, hp, h⟩ := Option.map_eq_some_iff.mp h
    split at h
    · next hbind =>
      cases h
      exact ⟨p, hp, rfl, hbind, rfl⟩
    · cases h
  · rintro ⟨p, hp, rfl, hbind, rfl⟩
    exact ⟨[], by simp only [serve, hp, Option.map_some, hbind]⟩

/-- The two servers can listen on the same ports. -/
def SamePorts (bindJava : Int32 → Binding) (bind : UInt16 → Option Text) : Prop :=
  ∀ p, 0 ≤ p → p ≤ 65535 → (bindJava p = .bound ↔ bind (portOf p) = none)

theorem java_accepting_iff {bind : Int32 → Binding} {port : Text} {rest : List Text} {p : Int32}
    (hp : valueOf port = some p) (hrange : 0 ≤ p ∧ p ≤ 65535) {lot : CountingLot} :
    (ParkingLotServerMain.main bind (port :: rest)).place = .accepting p lot ↔
      bind p = .bound ∧ lot = .new (ParkingLotServerMain.spaces rest).1 := by
  rw [ParkingLotServerMain.main_of_port hp, ParkingLotServerMain.newServerSocket_of_port hrange]
  cases bind p <;> simp [eq_comm]

/-- For arguments that are plain numbers, and a port that there is, the C++ server serves
what the Java server serves, unless that is a lot without a place or there are more than
two arguments, which the Java server does not look at. -/
theorem serves_iff_java {bindJava : Int32 → Binding} {bind : UInt16 → Option Text}
    (hsame : SamePorts bindJava bind) {port : Text} {rest : List Text}
    (hplain : ∀ a ∈ port :: rest, ∀ c ∈ a, c.toNat < 128) {p : Int32}
    (hp : valueOf port = some p) (hrange : 0 ≤ p ∧ p ≤ 65535)
    (hspaces : ∀ s ∈ rest, valueOf s ≠ none) (lot : CountingLot) :
    Serves bind (port :: rest) (portOf p) lot ↔
      rest.length ≤ 1 ∧
        (ParkingLotServerMain.main bindJava (port :: rest)).place = .accepting p lot ∧
          1 ≤ lot.capacity := by
  have hport : atoi port = some p := atoi_of_valueOf (hplain port List.mem_cons_self) hp
  have hserve : ∀ n : Int32, (∃ errors, serve bind n port = some ⟨errors, .serving (portOf p) lot⟩) ↔
      bindJava p = .bound ∧ lot = .new n := fun n => by
    rw [serve_eq_serving_iff, hsame p hrange.1 hrange.2]
    simp [hport]
  rw [java_accepting_iff hp hrange]
  rcases rest with _ | ⟨s, _ | ⟨x, more⟩⟩
  · rw [and_iff_right (show ([] : List Text).length ≤ 1 by simp)]
    simp only [Serves, main, forall_const, hserve, ParkingLotServerMain.spaces]
    refine ⟨fun h => ⟨h, ?_⟩, And.left⟩
    rw [h.2]
    decide
  · rw [and_iff_right (show [s].length ≤ 1 by simp)]
    obtain ⟨n, hn⟩ := Option.ne_none_iff_exists'.mp (hspaces s List.mem_cons_self)
    have hs : atoi s = some n :=
      atoi_of_valueOf (hplain s (List.mem_cons_of_mem _ List.mem_cons_self)) hn
    have hpositive : 1 ≤ n ↔ ¬ n ≤ 0 := by
      rw [Int32.le_iff_toInt_le, Int32.le_iff_toInt_le, Int32.toInt_one, Int32.toInt_zero]
      omega
    simp only [Serves, main, forall_const, hs, Option.bind_some, ParkingLotServerMain.spaces, hn,
      Option.getD_some]
    by_cases hzero : n ≤ 0
    · simp only [hzero, if_true]
      refine iff_of_false (by simp) ?_
      rintro ⟨⟨-, rfl⟩, hcap⟩
      exact hpositive.mp hcap hzero
    · simp only [hzero, if_false, hserve]
      refine ⟨fun h => ⟨h, ?_⟩, And.left⟩
      rw [h.2]
      exact hpositive.mpr hzero
  · exact iff_of_false (by simp [Serves, main]) (by simp)

theorem serves_iff_java_three :
    let bind : UInt16 → Option Text := fun _ => none
    SamePorts (fun _ => .bound) bind ∧ Serves bind ["5000".toList, "3".toList] 5000 (.new 3) ∧
      ¬ Serves bind ["5000".toList, "3".toList, "4".toList] 5000 (.new 3) := by
  intro bind
  have hsame : SamePorts (fun _ => .bound) bind := fun _ _ _ => iff_of_true rfl rfl
  have hport : valueOf "5000".toList = some 5000 := by decide
  refine ⟨hsame, ?_, fun h => ?_⟩
  · exact (serves_iff_java hsame (by simp) hport (by decide) (by decide) (.new 3)).mpr (by decide)
  · have hmore := (serves_iff_java hsame (by simp) hport (by decide) (by decide) (.new 3)).mp h
    exact absurd hmore.1 (by decide)

theorem serves_place {bind : UInt16 → Option Text} {args : List Text} {port : UInt16}
    {lot : CountingLot} (h : Serves bind args port lot) : ∃ n : Int32, 1 ≤ n ∧ lot = .new n := by
  obtain ⟨errors, hmain⟩ := h []
  rcases args with _ | ⟨p, _ | ⟨s, _ | ⟨x, more⟩⟩⟩
  · simp [main] at hmain
  · obtain ⟨-, -, -, -, hlot⟩ := serve_eq_serving_iff.mp ⟨errors, hmain⟩
    exact ⟨5, by decide, hlot⟩
  · obtain ⟨n, -, hn⟩ := Option.bind_eq_some_iff.mp hmain
    split at hn
    · simp at hn
    · next hpositive =>
      obtain ⟨-, -, -, -, hlot⟩ := serve_eq_serving_iff.mp ⟨errors, hn⟩
      refine ⟨n, ?_, hlot⟩
      rw [Int32.le_iff_toInt_le, Int32.toInt_zero] at hpositive
      rw [Int32.le_iff_toInt_le, Int32.toInt_one]
      omega
  · simp [main] at hmain

/-- Whatever the arguments are: a server that comes up keeps its lot between its bounds in
every run, and gives no answer to `free` out of range. -/
theorem serving_accounted {bind : UInt16 → Option Text} {args : List Text} {port : UInt16}
    {lot : CountingLot} (h : Serves bind args port lot) {ι : Type*} [Fintype ι] [DecidableEq ι]
    (events : List (ServerEvent ι)) :
    1 ≤ lot.capacity ∧
      Always Server.step (Server.Accounted lot.capacity) (Server.start lot) events := by
  obtain ⟨n, hn, rfl⟩ := serves_place h
  exact ⟨hn, Server.accounted (Int32.le_trans (by decide) hn) events⟩

theorem serving_accounted_three :
    let bind : UInt16 → Option Text := fun _ => none
    let events : List (ServerEvent (Fin 1)) := [.accept 0 (ascii "127.0.0.1", ascii "50000"),
      .socket 0 (.arrive (ascii "out\n")), .socket 0 (.handle .never [0])]
    Serves bind ["70000".toList, "3".toList] 4464 (.new 3) ∧
      1 ≤ (CountingLot.new 3).capacity ∧
      Always Server.step (Server.Accounted 3) (Server.start (.new 3)) events := by
  intro bind events
  have hserves : Serves bind ["70000".toList, "3".toList] 4464 (.new 3) :=
    fun name => ⟨[], by rfl⟩
  exact ⟨hserves, serving_accounted hserves events⟩

end Vsys.CppAsio.ServerMain
