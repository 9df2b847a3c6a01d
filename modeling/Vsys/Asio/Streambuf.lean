import Mathlib.Data.List.TakeDrop
import Vsys.Schedule.Run
import Vsys.Text.CString

/-! `basic_streambuf`: an array with three positions in it. The bytes between the first
two are the input sequence, those between the last two the output sequence. -/

namespace Vsys.Asio

open CString Schedule

/-- How a vector that has to grow chooses its capacity. -/
structure Allocation where
  grown : ℕ → ℕ → ℕ
  fits : ∀ size n, n ≤ grown size n

def Allocation.resized (A : Allocation) (capacity size n : ℕ) : ℕ :=
  if n ≤ capacity then capacity else A.grown size n

theorem Allocation.le_resized (A : Allocation) (capacity size n : ℕ) :
    n ≤ A.resized capacity size n := by
  rw [resized]
  split_ifs with h
  · exact h
  · exact A.fits size n

/-- A vector that takes the memory it needs and no more. -/
def Allocation.exact : Allocation := ⟨fun _ n => n, fun _ _ => le_rfl⟩

def resize (n : ℕ) (v : Bytes) : Bytes := v.take n ++ List.replicate (n - v.length) 0

theorem length_resize (n : ℕ) (v : Bytes) : (resize n v).length = n := by
  rw [resize, List.length_append, List.length_take, List.length_replicate]
  omega

structure Streambuf where
  maxSize : ℕ
  buffer : Bytes
  capacity : ℕ
  gnext : ℕ
  pnext : ℕ
  pend : ℕ
  ordered : gnext ≤ pnext ∧ pnext ≤ pend
  bounded : pend ≤ maxSize
  allocated : buffer.length = max pend 1
  held : buffer.length ≤ capacity
  deriving DecidableEq, Repr

namespace Streambuf

def size (b : Streambuf) : ℕ := b.pnext - b.gnext

def data (b : Streambuf) : Bytes := (b.buffer.take b.pnext).drop b.gnext

def output (b : Streambuf) : Bytes := (b.buffer.take b.pend).drop b.pnext

/-- What a pointer to the input sequence reaches in the array. -/
def memory (b : Streambuf) : Bytes := b.buffer.drop b.gnext

/-- The array when `memmove` has brought the input sequence to its start. -/
def shifted (b : Streambuf) : Bytes := b.data ++ b.buffer.drop b.size

theorem pend_le (b : Streambuf) : b.pend ≤ b.buffer.length := by
  rw [b.allocated]
  exact le_max_left _ _

theorem size_le (b : Streambuf) : b.size ≤ b.pend := (Nat.sub_le _ _).trans b.ordered.2

theorem size_le_maxSize (b : Streambuf) : b.size ≤ b.maxSize := b.size_le.trans b.bounded

theorem length_take_pnext (b : Streambuf) : (b.buffer.take b.pnext).length = b.pnext := by
  have hord := b.ordered
  have hpend := b.pend_le
  rw [List.length_take]
  omega

theorem length_data (b : Streambuf) : b.data.length = b.size := by
  rw [data, List.length_drop, length_take_pnext, size]

theorem length_shifted (b : Streambuf) : b.shifted.length = b.buffer.length := by
  have hsize := b.size_le.trans b.pend_le
  rw [shifted, List.length_append, List.length_drop, length_data]
  omega

def stored (b : Streambuf) (chunk : Bytes) : Bytes :=
  let written := chunk.take (b.pend - b.pnext)
  b.buffer.take b.pnext ++ (written ++ b.buffer.drop (b.pnext + written.length))

theorem length_stored (b : Streambuf) (chunk : Bytes) :
    (b.stored chunk).length = b.buffer.length := by
  have hpend := b.pend_le
  have hord := b.ordered
  simp only [stored, List.length_append, List.length_take, List.length_drop]
  omega

theorem take_shifted (b : Streambuf) : b.shifted.take b.size = b.data := by
  rw [shifted, ← length_data, List.take_left]

section
variable (A : Allocation)

def create (maxSize : ℕ) : Streambuf where
  maxSize := maxSize
  buffer := resize (max (min maxSize 128) 1) []
  capacity := A.resized 0 0 (max (min maxSize 128) 1)
  gnext := 0
  pnext := 0
  pend := min maxSize 128
  ordered := ⟨le_rfl, Nat.zero_le _⟩
  bounded := min_le_left _ _
  allocated := length_resize _ _
  held := (length_resize _ _).trans_le (A.le_resized _ _ _)

/-- The bytes are moved before it is known whether there will be room: with
`length_error`, for which the flag is false, the positions stay as they were. -/
def reserve (n : ℕ) (b : Streambuf) : Streambuf × Bool :=
  if n ≤ b.pend - b.pnext then (b, true)
  else if b.pend - b.size < n then
    if h : n ≤ b.maxSize ∧ b.size ≤ b.maxSize - n then
      ({ maxSize := b.maxSize
         buffer := resize (max (b.size + n) 1) b.shifted
         capacity := A.resized b.capacity b.buffer.length (max (b.size + n) 1)
         gnext := 0
         pnext := b.size
         pend := b.size + n
         ordered := ⟨Nat.zero_le _, Nat.le_add_right _ _⟩
         bounded := by omega
         allocated := length_resize _ _
         held := (length_resize _ _).trans_le (A.le_resized _ _ _) }, true)
    else
      ({ b with
         buffer := b.shifted
         allocated := b.length_shifted.trans b.allocated
         held := b.length_shifted.trans_le b.held }, false)
  else
    ({ b with
       buffer := b.shifted
       gnext := 0
       pnext := b.size
       ordered := ⟨Nat.zero_le _, b.size_le⟩
       allocated := b.length_shifted.trans b.allocated
       held := b.length_shifted.trans_le b.held }, true)

def prepare (n : ℕ) (b : Streambuf) : Streambuf × Bool := b.reserve A n

/-- Bytes are written to the output sequence from its start, as many as it takes. -/
def store (chunk : Bytes) (b : Streambuf) : Streambuf :=
  { b with
    buffer := b.stored chunk
    allocated := (b.length_stored chunk).trans b.allocated
    held := (b.length_stored chunk).trans_le b.held }

/-- `pbump`: the put position moves on, at most to the end of the output sequence. -/
def advance (m : ℕ) (b : Streambuf) : Streambuf :=
  { b with
    pnext := b.pnext + min m (b.pend - b.pnext)
    ordered := by
      have hord := b.ordered
      omega }

/-- `gbump`: the get position moves on, at most to the put position. -/
def drop (m : ℕ) (b : Streambuf) : Streambuf :=
  { b with
    gnext := b.gnext + min m (b.pnext - b.gnext)
    ordered := by
      have hord := b.ordered
      omega }

/-- No result where the count is not an `int`, as `pbump` takes it. -/
def commit (n : ℕ) (b : Streambuf) : Option Streambuf :=
  let m := if b.pend < b.pnext + n then b.pend - b.pnext else n
  if m < 2147483648 then some (b.advance m) else none

def consume (n : ℕ) (b : Streambuf) : Option Streambuf :=
  let m := if b.pnext < b.gnext + n then b.pnext - b.gnext else n
  if m < 2147483648 then some (b.drop m) else none

/-- Where the output sequence is empty, `overflow` makes room first. -/
def sputc (c : UInt8) (b : Streambuf) : Streambuf × Bool :=
  let r :=
    if b.pnext = b.pend then
      b.reserve A
        (if b.size < b.maxSize ∧ b.maxSize - b.size < 128 then b.maxSize - b.size else 128)
    else (b, true)
  if r.2 then ((r.1.store [c]).advance 1, true) else r

end

theorem memory_eq (b : Streambuf) : b.memory = b.data ++ b.buffer.drop b.pnext := by
  have hlen : b.gnext ≤ (b.buffer.take b.pnext).length := b.ordered.1.trans b.length_take_pnext.ge
  rw [memory, data, ← List.drop_append_of_le_length hlen, List.take_append_drop]

@[simp] theorem data_create (A : Allocation) (n : ℕ) : (create A n).data = [] := rfl

@[simp] theorem advance_data (m : ℕ) (b : Streambuf) :
    (b.advance m).data = b.data ++ b.output.take m := by
  have htake : b.buffer.take (b.pnext + min m (b.pend - b.pnext)) =
      b.buffer.take b.pnext ++ b.output.take m := by
    rw [List.take_add, output, List.drop_take, List.take_take]
  have hlen : b.gnext ≤ (b.buffer.take b.pnext).length := b.ordered.1.trans b.length_take_pnext.ge
  change (b.buffer.take (b.pnext + min m (b.pend - b.pnext))).drop b.gnext = _
  rw [htake, List.drop_append_of_le_length hlen, data]

@[simp] theorem drop_data (m : ℕ) (b : Streambuf) : (b.drop m).data = b.data.drop m := by
  have hlen := b.length_data
  have hsame : b.data.drop (min m b.size) = b.data.drop m := by
    rcases Nat.le_total m b.size with h | h
    · rw [min_eq_left h]
    · rw [min_eq_right h, List.drop_of_length_le hlen.le, List.drop_of_length_le (by omega)]
  rw [← hsame, data, data, drop, List.drop_drop, size]

theorem commit_eq_some {n : ℕ} {b c : Streambuf} (h : b.commit n = some c) :
    c = b.advance n := by
  simp only [commit] at h
  split_ifs at h
  · cases h
    simp only [advance, Streambuf.mk.injEq, and_true, true_and]
    omega
  · cases h
    rfl

theorem consume_eq_some {n : ℕ} {b c : Streambuf} (h : b.consume n = some c) :
    c = b.drop n := by
  simp only [consume] at h
  split_ifs at h
  · cases h
    simp only [drop, Streambuf.mk.injEq, and_true, true_and]
    omega
  · cases h
    rfl

theorem commit_of_lt {n : ℕ} (b : Streambuf) (h : n < 2147483648) :
    b.commit n = some (b.advance n) := by
  obtain ⟨c, hc⟩ : ∃ c, b.commit n = some c := by
    simp only [commit]
    split_ifs
    · exact ⟨_, rfl⟩
    · omega
    · exact ⟨_, rfl⟩
  rw [hc, commit_eq_some hc]

@[simp] theorem store_data (chunk : Bytes) (b : Streambuf) : (b.store chunk).data = b.data := by
  have hsame : (b.stored chunk).take b.pnext = b.buffer.take b.pnext := by
    rw [stored, List.take_append_of_le_length b.length_take_pnext.ge, List.take_take, min_self]
  change ((b.stored chunk).take b.pnext).drop b.gnext = _
  rw [hsame, data]

theorem store_output {chunk : Bytes} {b : Streambuf} (h : chunk.length ≤ b.pend - b.pnext) :
    (b.store chunk).output.take chunk.length = chunk := by
  have hdrop : (b.stored chunk).drop b.pnext =
      chunk ++ b.buffer.drop (b.pnext + chunk.length) := by
    rw [stored, List.take_of_length_le h, List.drop_append_of_le_length b.length_take_pnext.ge,
      List.drop_of_length_le b.length_take_pnext.le, List.nil_append]
  change (((b.stored chunk).take b.pend).drop b.pnext).take chunk.length = chunk
  rw [List.drop_take, hdrop, List.take_take, min_eq_left h, List.take_left]

structure Placed (c : Streambuf) (maxSize : ℕ) (buffer : Bytes) (gnext pnext pend : ℕ) : Prop where
  maxSize : c.maxSize = maxSize
  buffer : c.buffer = buffer
  gnext : c.gnext = gnext
  pnext : c.pnext = pnext
  pend : c.pend = pend

/-- All that `reserve` can do. -/
inductive Reserves (n : ℕ) (b : Streambuf) : Streambuf × Bool → Prop
  | room (h : n ≤ b.pend - b.pnext) : Reserves n b (b, true)
  | moved {c : Streambuf} (h : b.size + n ≤ b.pend)
    (hc : Placed c b.maxSize b.shifted 0 b.size b.pend) : Reserves n b (c, true)
  | grown {c : Streambuf} (h : b.pend < b.size + n) (hmax : b.size + n ≤ b.maxSize)
    (hc : Placed c b.maxSize (resize (max (b.size + n) 1) b.shifted) 0 b.size (b.size + n)) :
    Reserves n b (c, true)
  | thrown {c : Streambuf} (h : b.maxSize < b.size + n)
    (hc : Placed c b.maxSize b.shifted b.gnext b.pnext b.pend) : Reserves n b (c, false)

theorem reserves (A : Allocation) (n : ℕ) (b : Streambuf) : Reserves n b (b.reserve A n) := by
  have hsize := b.size_le
  have hmax := b.size_le_maxSize
  rw [reserve]
  split_ifs with hroom hgrow hfits
  · exact .room hroom
  · exact .grown (by omega) (by omega) ⟨rfl, rfl, rfl, rfl, rfl⟩
  · exact .thrown (by omega) ⟨rfl, rfl, rfl, rfl, rfl⟩
  · exact .moved (by omega) ⟨rfl, rfl, rfl, rfl, rfl⟩

theorem Placed.data {c : Streambuf} {maxSize gnext pnext pend : ℕ} {buffer : Bytes}
    (h : Placed c maxSize buffer gnext pnext pend) : c.data = (buffer.take pnext).drop gnext := by
  rw [Streambuf.data, h.buffer, h.gnext, h.pnext]

theorem resize_of_le {n : ℕ} {v : Bytes} (h : v.length ≤ n) :
    resize n v = v ++ List.replicate (n - v.length) 0 := by
  rw [resize, List.take_of_length_le h]

theorem length_shifted_le (b : Streambuf) {m : ℕ} (h : b.pend ≤ m) :
    b.shifted.length ≤ max m 1 := by
  rw [length_shifted, b.allocated]
  omega

theorem size_le_length_shifted (b : Streambuf) : b.size ≤ b.shifted.length := by
  rw [length_shifted]
  exact b.size_le.trans b.pend_le

/-- `reserve` throws when there is no room for so many bytes, and only then. -/
theorem reserve_throws_iff (A : Allocation) (n : ℕ) (b : Streambuf) :
    (b.reserve A n).2 = false ↔ b.maxSize < b.size + n := by
  have hord := b.ordered
  have hmax := b.bounded
  have hsize : b.size = b.pnext - b.gnext := rfl
  have hcases := b.reserves A n
  revert hcases
  generalize b.reserve A n = r
  rintro (hroom | ⟨h, -⟩ | ⟨-, hmax, -⟩ | ⟨h, -⟩)
  · exact iff_of_false (by simp) (by omega)
  · exact iff_of_false (by simp) (by omega)
  · exact iff_of_false (by simp) (by omega)
  · exact iff_of_true rfl h

structure Roomy (n : ℕ) (b c : Streambuf) : Prop where
  maxSize : c.maxSize = b.maxSize
  data : c.data = b.data
  room : n ≤ c.pend - c.pnext
  pend : b.pend ≤ c.pend

theorem reserve_roomy {A : Allocation} {n : ℕ} {b : Streambuf} (h : (b.reserve A n).2 = true) :
    Roomy n b (b.reserve A n).1 := by
  have hcases := b.reserves A n
  revert h hcases
  generalize b.reserve A n = r
  rintro htrue (hroom | ⟨h, hc⟩ | ⟨hgrow, -, hc⟩ | -)
  · exact ⟨rfl, rfl, hroom, le_rfl⟩
  · refine ⟨hc.maxSize, ?_, ?_, hc.pend.ge⟩
    · rw [hc.data, List.drop_zero, take_shifted]
    · rw [hc.pend, hc.pnext]
      omega
  · refine ⟨hc.maxSize, ?_, ?_, ?_⟩
    · rw [hc.data, resize_of_le (b.length_shifted_le hgrow.le), List.drop_zero,
        List.take_append_of_le_length b.size_le_length_shifted, take_shifted]
    · rw [hc.pend, hc.pnext]
      omega
    · rw [hc.pend]
      exact hgrow.le
  · exact absurd htrue Bool.false_ne_true

/-- The array as a vector fills it that nothing was consumed from: behind what was
received there are zeros. -/
structure Blank (b : Streambuf) : Prop where
  gnext : b.gnext = 0
  zeros : ∀ c ∈ b.buffer.drop b.pnext, c = 0

theorem create_blank (A : Allocation) (n : ℕ) : (create A n).Blank := by
  refine ⟨rfl, fun c hc => ?_⟩
  have hmem : c ∈ resize (max (min n 128) 1) [] := List.mem_of_mem_drop hc
  rw [resize, List.take_nil, List.nil_append] at hmem
  exact List.eq_of_mem_replicate hmem

theorem Blank.shifted {b : Streambuf} (h : b.Blank) : b.shifted = b.buffer := by
  rw [Streambuf.shifted, data, size, h.gnext, List.drop_zero, Nat.sub_zero, List.take_append_drop]

theorem Blank.size {b : Streambuf} (h : b.Blank) : b.size = b.pnext := by
  rw [Streambuf.size, h.gnext, Nat.sub_zero]

theorem Blank.reserve {A : Allocation} {n : ℕ} {b : Streambuf} (h : b.Blank) :
    (b.reserve A n).1.Blank := by
  have hpnext := b.length_take_pnext
  have hcases := b.reserves A n
  revert hcases
  generalize b.reserve A n = r
  rintro (- | ⟨-, hc⟩ | ⟨hgrow, -, hc⟩ | ⟨-, hc⟩)
  · exact h
  · refine ⟨hc.gnext, ?_⟩
    rw [hc.buffer, hc.pnext, h.shifted, h.size]
    exact h.zeros
  · have hlen : b.pnext ≤ b.buffer.length := b.ordered.2.trans b.pend_le
    have hresize := resize_of_le (b.length_shifted_le hgrow.le)
    rw [h.shifted] at hresize
    refine ⟨hc.gnext, fun c hmem => ?_⟩
    rw [hc.buffer, hc.pnext, h.shifted, hresize, h.size, List.drop_append_of_le_length hlen,
      List.mem_append] at hmem
    rcases hmem with hold | hnew
    · exact h.zeros c hold
    · exact List.eq_of_mem_replicate hnew
  · refine ⟨hc.gnext.trans h.gnext, ?_⟩
    rw [hc.buffer, hc.pnext, h.shifted]
    exact h.zeros

theorem Blank.receive {b : Streambuf} (h : b.Blank) {chunk : Bytes}
    (hroom : chunk.length ≤ b.pend - b.pnext) : ((b.store chunk).advance chunk.length).Blank := by
  refine ⟨h.gnext, fun c hc => h.zeros c ?_⟩
  have hdrop : (b.stored chunk).drop (b.pnext + chunk.length) =
      b.buffer.drop (b.pnext + chunk.length) := by
    rw [stored, List.take_of_length_le hroom, ← List.append_assoc]
    exact List.drop_left' (by rw [List.length_append, length_take_pnext])
  change c ∈ (b.stored chunk).drop (b.pnext + min chunk.length (b.pend - b.pnext)) at hc
  rw [min_eq_left hroom, hdrop, ← List.drop_drop] at hc
  exact List.mem_of_mem_drop hc

/-- The input sequence after a `length_error`: its bytes have been moved by as many
places as had been consumed, and the positions have not. -/
def misplaced (b : Streambuf) : Bytes :=
  b.data.drop b.gnext ++ b.data.drop (b.size - b.gnext)

theorem shifted_window (b : Streambuf) : (b.shifted.take b.pnext).drop b.gnext = b.misplaced := by
  have hsize : b.size ≤ b.pnext := Nat.sub_le _ _
  have htake : b.shifted.take b.pnext = b.data ++ (b.buffer.take b.pnext).drop b.size := by
    rw [shifted, List.take_append, length_data,
      List.take_of_length_le (b.length_data.trans_le hsize), List.drop_take]
  rw [htake, misplaced]
  rcases Nat.le_total b.gnext b.size with h | h
  · have hlater : (b.buffer.take b.pnext).drop b.size = b.data.drop (b.size - b.gnext) := by
      rw [data, List.drop_drop, Nat.add_sub_cancel' h]
    rw [hlater, List.drop_append_of_le_length (h.trans b.length_data.ge)]
  · rw [List.drop_append, length_data, List.drop_drop, Nat.add_sub_cancel' h,
      Nat.sub_eq_zero_of_le h, List.drop_zero, data]

theorem reserve_thrown {A : Allocation} {n : ℕ} {b : Streambuf}
    (h : (b.reserve A n).2 = false) :
    (b.reserve A n).1.maxSize = b.maxSize ∧ (b.reserve A n).1.data = b.misplaced := by
  have hcases := b.reserves A n
  revert h hcases
  generalize b.reserve A n = r
  rintro hfalse (hroom | - | - | ⟨-, hc⟩)
  · exact absurd hfalse.symm Bool.false_ne_true
  · exact absurd hfalse.symm Bool.false_ne_true
  · exact absurd hfalse.symm Bool.false_ne_true
  · exact ⟨hc.maxSize, hc.data.trans b.shifted_window⟩

/-- Nothing is out of place where nothing had been consumed. -/
theorem misplaced_of_gnext {b : Streambuf} (h : b.gnext = 0) : b.misplaced = b.data := by
  rw [misplaced, h, List.drop_zero, Nat.sub_zero, ← length_data, List.drop_length, List.append_nil]

theorem append_char {n : ℕ} {b r : Streambuf} (hn : 1 ≤ n) (h : Roomy n b r) (c : UInt8) :
    ((r.store [c]).advance 1).maxSize = b.maxSize ∧
      ((r.store [c]).advance 1).data = b.data ++ [c] := by
  have hroom := h.room
  have hout : (r.store [c]).output.take 1 = [c] :=
    store_output (show [c].length ≤ r.pend - r.pnext by rw [List.length_singleton]; omega)
  exact ⟨h.maxSize, by rw [advance_data, store_data, hout, h.data]⟩

/-- A character is appended while there is room for one. -/
theorem sputc_of_lt (A : Allocation) (c : UInt8) {b : Streambuf} (h : b.size < b.maxSize) :
    (b.sputc A c).2 = true ∧ (b.sputc A c).1.maxSize = b.maxSize ∧
      (b.sputc A c).1.data = b.data ++ [c] := by
  have hord := b.ordered
  by_cases hfull : b.pnext = b.pend
  · obtain ⟨n, hn, hfits, hsputc⟩ : ∃ n, 1 ≤ n ∧ b.size + n ≤ b.maxSize ∧
        b.sputc A c = if (b.reserve A n).2 then
          (((b.reserve A n).1.store [c]).advance 1, true) else b.reserve A n := by
      refine ⟨_, ?_, ?_, by rw [sputc, if_pos hfull]⟩
      · split_ifs with hshort <;> omega
      · split_ifs with hshort <;> omega
    have htrue : (b.reserve A n).2 = true := by
      rw [← Bool.not_eq_false, reserve_throws_iff]
      omega
    rw [htrue, if_pos rfl] at hsputc
    rw [hsputc]
    exact ⟨rfl, append_char hn (reserve_roomy htrue) c⟩
  · have hsputc : b.sputc A c = ((b.store [c]).advance 1, true) := by
      rw [sputc, if_neg hfull, if_pos rfl]
    rw [hsputc]
    exact ⟨rfl, append_char le_rfl ⟨rfl, rfl, by omega, le_rfl⟩ c⟩

theorem sputc_of_eq (A : Allocation) (c : UInt8) {b : Streambuf} (h : b.size = b.maxSize) :
    (b.sputc A c).2 = false ∧ (b.sputc A c).1.maxSize = b.maxSize ∧
      (b.sputc A c).1.data = b.data := by
  have hord := b.ordered
  have hmax := b.bounded
  have hsize : b.size = b.pnext - b.gnext := rfl
  have hfalse : (b.reserve A 128).2 = false := (b.reserve_throws_iff A 128).mpr (by omega)
  have hsputc : b.sputc A c = b.reserve A 128 := by
    rw [sputc, if_pos (show b.pnext = b.pend by omega),
      if_neg (show ¬ (b.size < b.maxSize ∧ b.maxSize - b.size < 128) by omega), hfalse]
    rfl
  obtain ⟨hkept, hdata⟩ := reserve_thrown hfalse
  rw [hsputc]
  exact ⟨hfalse, hkept, hdata.trans (misplaced_of_gnext (by omega))⟩

end Streambuf

inductive Operation where
  | prepare (n : ℕ)
  | store (chunk : Bytes)
  | commit (n : ℕ)
  | consume (n : ℕ)
  | sputc (c : UInt8)
  deriving DecidableEq, Repr

/-- A streambuf with all that was ever moved to its input sequence or appended there,
and all that was consumed. -/
structure Stream where
  buf : Streambuf
  appended : Bytes
  consumed : Bytes
  deriving DecidableEq, Repr

namespace Stream

section
variable (A : Allocation)

def create (maxSize : ℕ) : Stream := ⟨.create A maxSize, [], []⟩

def step (s : Stream) : Operation → Option Stream
  | .prepare n => some { s with buf := (s.buf.prepare A n).1 }
  | .store chunk => some { s with buf := s.buf.store chunk }
  | .commit n => (s.buf.commit n).map fun b =>
    { s with buf := b, appended := s.appended ++ s.buf.output.take n }
  | .consume n => (s.buf.consume n).map fun b =>
    { s with buf := b, consumed := s.consumed ++ s.buf.data.take n }
  | .sputc c =>
    let r := s.buf.sputc A c
    some { s with buf := r.1, appended := s.appended ++ if r.2 then [c] else [] }

/-- The input sequence is a queue: what was appended comes out in the same order. -/
def Queue (s : Stream) : Prop := s.appended = s.consumed ++ s.buf.data

/-- A `prepare` that throws finds the input sequence such that it is the same when it
has been moved without its positions. -/
def Spares (s : Stream) : Operation → Prop
  | .prepare n => s.buf.maxSize < s.buf.size + n → s.buf.misplaced = s.buf.data
  | _ => True

theorem queue_of_data {s : Stream} {b : Streambuf} (hq : s.Queue) :
    Queue { s with buf := b } ↔ b.data = s.buf.data := by
  have hs : s.appended = s.consumed ++ s.buf.data := hq
  rw [Queue, hs, List.append_cancel_left_eq]
  exact eq_comm

theorem step_queue {s t : Stream} {op : Operation} (hq : s.Queue) (h : s.step A op = some t) :
    t.Queue ↔ s.Spares op := by
  cases op with
  | prepare n =>
    cases h
    rw [queue_of_data hq, Spares, Streambuf.prepare]
    by_cases hroom : (s.buf.reserve A n).2 = true
    · have hfits : ¬ s.buf.maxSize < s.buf.size + n := by
        rw [← Streambuf.reserve_throws_iff A, hroom]
        exact Bool.noConfusion
      exact iff_of_true (Streambuf.reserve_roomy hroom).data fun hlong => absurd hlong hfits
    · rw [Bool.not_eq_true] at hroom
      have hlong := (Streambuf.reserve_throws_iff A n s.buf).mp hroom
      rw [(Streambuf.reserve_thrown hroom).2]
      exact ⟨fun hsame _ => hsame, fun hsame => hsame hlong⟩
  | store chunk =>
    cases h
    exact iff_of_true ((queue_of_data hq).mpr (s.buf.store_data chunk)) trivial
  | commit n =>
    obtain ⟨b, hb, rfl⟩ := Option.map_eq_some_iff.mp h
    refine iff_of_true ?_ trivial
    rw [Queue, Streambuf.commit_eq_some hb, Streambuf.advance_data, ← List.append_assoc, ← hq]
  | consume n =>
    obtain ⟨b, hb, rfl⟩ := Option.map_eq_some_iff.mp h
    refine iff_of_true ?_ trivial
    rw [Queue, Streambuf.consume_eq_some hb, Streambuf.drop_data, List.append_assoc,
      List.take_append_drop, ← hq]
  | sputc c =>
    cases h
    refine iff_of_true ?_ trivial
    rcases Nat.lt_or_ge s.buf.size s.buf.maxSize with hroom | hfull
    · obtain ⟨htrue, -, hdata⟩ := Streambuf.sputc_of_lt A c hroom
      rw [Queue, hdata, htrue, if_pos rfl, ← List.append_assoc, ← hq]
    · obtain ⟨hfalse, -, hdata⟩ :=
        Streambuf.sputc_of_eq A c (Nat.le_antisymm s.buf.size_le_maxSize hfull)
      rw [Queue, hdata, hfalse, if_neg Bool.false_ne_true, List.append_nil]
      exact hq

/-- Along every run the input sequence is a queue, exactly as long as no `prepare` throws
on bytes that it moves away from under the positions. -/
theorem queue_iff (maxSize : ℕ) (ops : List Operation) :
    Always (step A) Queue (create A maxSize) ops ↔
      Guarded (step A) Spares (create A maxSize) ops := by
  have hstart : Queue (create A maxSize) := rfl
  exact always_iff_guarded (I := fun _ => True) (fun _ _ _ _ _ => trivial)
    (fun _ _ _ _ hq h => step_queue A hq h) trivial hstart ops

end

end Stream

end Vsys.Asio
