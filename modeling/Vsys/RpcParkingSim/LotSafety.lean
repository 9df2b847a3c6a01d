import Vsys.RpcParkingSim.ParkingLotService
import Vsys.Schedule.Run

/-! Any number of RPC sessions over one lot. Each request reaches the lot as one
synchronized call, so an interleaving of the sessions is a list of calls, each
with the session that makes it. -/

namespace Vsys.RpcParkingSim

open SynchronizedParkingLot

inductive LotCall where
  | in_ (n : Int32)
  | out (n : Int32)
  | free
  | park
  | unpark
  deriving DecidableEq, Repr

inductive LotAnswer where
  | text (s : String)
  | flag (b : Bool)
  deriving DecidableEq, Repr

def LotCall.serve (l : SynchronizedParkingLot) : LotCall → LotAnswer × SynchronizedParkingLot
  | in_ n => let r := ParkingLotService.in_ l n; (.text r.1, r.2)
  | out n => let r := ParkingLotService.out l n; (.text r.1, r.2)
  | free => (.text (ParkingLotService.free l), l)
  | park => let r := SynchronizedParkingLot.park l; (.flag r.1, r.2)
  | unpark => let r := SynchronizedParkingLot.unpark l; (.flag r.1, r.2)

structure LotRun (ι : Type*) where
  lot : SynchronizedParkingLot
  answered : List (ι × LotCall × LotAnswer)
  deriving DecidableEq

namespace LotRun

variable {ι : Type*}

def start (capacity : Int32) : LotRun ι := ⟨.new capacity, []⟩

def step (s : LotRun ι) (m : ι × LotCall) : Option (LotRun ι) :=
  let r := m.2.serve s.lot
  some ⟨r.2, s.answered ++ [(m.1, m.2, r.1)]⟩

def Safe (capacity : Int32) (s : LotRun ι) : Prop :=
  (0 ≤ s.lot.count ∧ s.lot.count ≤ capacity) ∧
    ∀ session answer, (session, .free, answer) ∈ s.answered →
      ∃ n : Int32, 0 ≤ n ∧ n ≤ capacity ∧ answer = .text (toString n ++ " spot(s) vacant")

/-- An amount parked takes the exact count neither below zero nor past the
largest int; an amount unparked does not take it above the capacity, unless so
far that the difference is no int. Calls without an amount are unrestricted. -/
def Moderate (s : LotRun ι) (m : ι × LotCall) : Prop :=
  match m.2 with
  | .in_ n => 0 ≤ s.lot.count.toInt + n.toInt ∧ s.lot.count.toInt + n.toInt < 2 ^ 31
  | .out n => s.lot.count.toInt - n.toInt ≤ s.lot.capacity.toInt ∨
      2 ^ 31 ≤ s.lot.count.toInt - n.toInt
  | _ => True

end LotRun

theorem LotCall.serve_capacity (l : SynchronizedParkingLot) (c : LotCall) :
    (c.serve l).2.capacity = l.capacity := by
  cases c <;>
    simp [serve, ParkingLotService.in_, ParkingLotService.out, SynchronizedParkingLot.park,
      SynchronizedParkingLot.unpark]

namespace LotRun

variable {ι : Type*}

theorem serve_inBounds_iff {s : LotRun ι} (h : s.lot.InBounds) (m : ι × LotCall) :
    (m.2.serve s.lot).2.InBounds ↔ Moderate s m := by
  obtain ⟨session, c⟩ := m
  cases c with
  | in_ n => exact parkN_inBounds_iff h
  | out n => exact unparkN_inBounds_iff h
  | free => exact iff_true_intro h
  | park => exact iff_true_intro h.enter
  | unpark => exact iff_true_intro h.leave

theorem free_answer {l : SynchronizedParkingLot} (h : l.InBounds) :
    ∃ n : Int32, 0 ≤ n ∧ n ≤ l.capacity ∧
      (LotCall.free.serve l).1 = .text (toString n ++ " spot(s) vacant") :=
  ⟨l.vacant, h.vacant_bounds.1, h.vacant_bounds.2, rfl⟩

theorem step_capacity {s t : LotRun ι} {m : ι × LotCall} (h : step s m = some t) :
    t.lot.capacity = s.lot.capacity := by
  simp only [step, Option.some.injEq] at h
  rw [← h]
  exact m.2.serve_capacity s.lot

theorem step_safe_iff {capacity : Int32} {s t : LotRun ι} {m : ι × LotCall}
    (hc : s.lot.capacity = capacity) (hs : Safe capacity s) (h : step s m = some t) :
    Safe capacity t ↔ Moderate s m := by
  subst hc
  have hin : s.lot.InBounds := hs.1
  rw [← serve_inBounds_iff hin m, CountingLot.InBounds, LotCall.serve_capacity]
  simp only [step, Option.some.injEq] at h
  subst h
  refine ⟨fun ht => ht.1, fun ht => ⟨ht, fun session answer hm => ?_⟩⟩
  rcases List.mem_append.mp hm with hm | hm
  · exact hs.2 session answer hm
  · obtain ⟨_, c⟩ := m
    simp only [List.mem_singleton, Prod.mk.injEq] at hm
    obtain ⟨rfl, rfl, rfl⟩ := hm
    exact free_answer hin

theorem start_safe {capacity : Int32} (h : 0 ≤ capacity) :
    Safe capacity (start capacity : LotRun ι) :=
  ⟨CountingLot.new_inBounds h, by simp [start]⟩

/-- The lot stays between its bounds throughout an interleaving exactly when no
request in it moves the count by an immoderate amount. -/
theorem safe_iff_moderate {capacity : Int32} (h : 0 ≤ capacity) (calls : List (ι × LotCall)) :
    Schedule.Always step (Safe capacity) (start capacity) calls ↔
      Schedule.Guarded step Moderate (start capacity) calls :=
  Schedule.always_iff_guarded (I := fun s => s.lot.capacity = capacity)
    (fun _ _ _ hc hs => (step_capacity hs).trans hc)
    (fun _ _ _ hc hs ht => step_safe_iff hc hs ht) rfl (start_safe h) calls

theorem safe_iff_moderate_overrun :
    (0 : Int32) ≤ 5 ∧ (Schedule.Always step (Safe 5) (start 5) [(0, .in_ 6)] ↔
      Schedule.Guarded step Moderate (start 5) [((0 : ℕ), .in_ 6)]) :=
  ⟨by decide, safe_iff_moderate (by decide) _⟩

/-- One `in(-1)` on an empty lot is answered with success and leaves minus one
car inside; six of its five places are then vacant. -/
theorem in_negative_unsafe :
    Schedule.run step (start 5) [((0 : ℕ), .in_ (-1)), (0, .free)] =
        some ⟨⟨5, -1⟩, [(0, .in_ (-1), .text "-1 car(s) parked"),
          (0, .free, .text "6 spot(s) vacant")]⟩ ∧
      ¬ Schedule.Always step (Safe 5) (start 5) [((0 : ℕ), .in_ (-1)), (0, .free)] := by
  have hrun : Schedule.run step (start 5) [((0 : ℕ), .in_ (-1)), (0, .free)] =
      some ⟨⟨5, -1⟩, [(0, .in_ (-1), .text "-1 car(s) parked"),
        (0, .free, .text "6 spot(s) vacant")]⟩ := by decide
  refine ⟨hrun, fun h => ?_⟩
  exact absurd (h.run hrun).1.1 (by decide)

end LotRun

end Vsys.RpcParkingSim
