import Vsys.Text.CString
import Vsys.Text.Splitting

/-! A C++ input stream read line by line into a buffer of fixed size. A read that fails
leaves a bit behind, and with the bit set nothing is read any more. -/

structure Istream where
  rest : CString.Bytes
  eof : Bool
  fail : Bool
  deriving DecidableEq, Repr

namespace Istream

open CString

def ofInput (input : Bytes) : Istream := ⟨input, false, false⟩

def Good (s : Istream) : Prop := s.eof = false ∧ s.fail = false

instance (s : Istream) : Decidable s.Good := inferInstanceAs (Decidable (_ ∧ _))

/-- At most so many bytes, up to the line feed, which is dropped. The end of the input
and the delimiter are looked for before the room is. -/
def extract : ℕ → Bytes → Bytes × Istream
  | _, [] => ([], ⟨[], true, false⟩)
  | 0, b :: bs => if b = 10 then ([], ⟨bs, false, false⟩) else ([], ⟨b :: bs, false, true⟩)
  | room + 1, b :: bs =>
    if b = 10 then ([], ⟨bs, false, false⟩)
    else (b :: (extract room bs).1, (extract room bs).2)

/-- `getline` into a buffer of `size` bytes, and the string that it has stored there. -/
def getline (size : ℕ) (s : Istream) : Bytes × Istream :=
  if s.Good then
    if s.rest = [] then ([], ⟨[], true, true⟩) else extract (size - 1) s.rest
  else ([], { s with fail := true })

def takeLine : Bytes → Bytes × Bytes
  | [] => ([], [])
  | b :: bs => if b = 10 then ([], bs) else (b :: (takeLine bs).1, (takeLine bs).2)

/-- The line that an input begins with, of whatever length. -/
def nextLine : Bytes → Option (Bytes × Bytes)
  | [] => none
  | b :: bs => some (takeLine (b :: bs))

def lines (input : Bytes) : List Bytes := Splitting.all nextLine input

theorem takeLine_length (bs : Bytes) : (takeLine bs).2.length ≤ bs.length - 1 := by
  induction bs with
  | nil => exact Nat.le_refl 0
  | cons b bs ih =>
    rw [takeLine]
    split
    · exact Nat.le_refl bs.length
    · simp only [List.length_cons]
      omega

theorem nextLine_shortens : Splitting.Shortens nextLine := by
  intro input line rest h
  cases input with
  | nil => cases h
  | cons b bs =>
    have hrest : (takeLine (b :: bs)).2 = rest := congrArg Prod.snd (Option.some.inj h)
    have hlen := takeLine_length (b :: bs)
    rw [hrest, List.length_cons] at hlen
    rw [List.length_cons]
    omega

theorem lines_of_nextLine {input line rest : Bytes} (h : nextLine input = some (line, rest)) :
    lines input = line :: lines rest := Splitting.all_of_some nextLine_shortens h

theorem extract_of_le {room : ℕ} {bs : Bytes} (h : (takeLine bs).1.length ≤ room) :
    ∃ eof, extract room bs = ((takeLine bs).1, ⟨(takeLine bs).2, eof, false⟩) ∧
      (eof = true → (takeLine bs).2 = []) := by
  induction bs generalizing room with
  | nil =>
    refine ⟨true, ?_, fun _ => rfl⟩
    cases room <;> rfl
  | cons b bs ih =>
    by_cases hb : b = 10
    · refine ⟨false, ?_, fun h => nomatch h⟩
      cases room <;> simp only [extract, takeLine, hb, if_true]
    · rw [takeLine, if_neg hb, List.length_cons] at h
      obtain ⟨room, rfl⟩ : ∃ k, room = k + 1 := ⟨room - 1, by omega⟩
      obtain ⟨eof, hextract, heof⟩ := ih (Nat.le_of_succ_le_succ h)
      refine ⟨eof, ?_, ?_⟩
      · simp only [extract, takeLine, hb, if_false, hextract]
      · rwa [takeLine, if_neg hb]

theorem extract_of_lt {room : ℕ} {bs : Bytes} (h : room < (takeLine bs).1.length) :
    ∃ more, extract room bs = ((takeLine bs).1.take room, ⟨more, false, true⟩) := by
  induction bs generalizing room with
  | nil => exact absurd h (Nat.not_lt_zero room)
  | cons b bs ih =>
    by_cases hb : b = 10
    · rw [takeLine, if_pos hb] at h
      exact absurd h (Nat.not_lt_zero room)
    · rw [takeLine, if_neg hb, List.length_cons] at h
      cases room with
      | zero => exact ⟨b :: bs, by simp only [extract, hb, if_false, List.take_zero]⟩
      | succ room =>
        obtain ⟨more, hextract⟩ := ih (Nat.lt_of_succ_lt_succ h)
        refine ⟨more, ?_⟩
        simp only [extract, takeLine, hb, if_false, hextract, List.take_succ_cons]

section
variable {size : ℕ} {s : Istream}

theorem getline_of_not_good (h : ¬ s.Good) : getline size s = ([], { s with fail := true }) :=
  if_neg h

theorem getline_of_nextLine_none (h : nextLine s.rest = none) :
    (getline size s).1 = [] ∧ (getline size s).2.fail = true := by
  have hrest : s.rest = [] := by
    cases hs : s.rest with
    | nil => rfl
    | cons b bs => rw [hs] at h; cases h
  by_cases hgood : s.Good
  · rw [getline, if_pos hgood, if_pos hrest]
    exact ⟨rfl, rfl⟩
  · rw [getline_of_not_good hgood]
    exact ⟨rfl, rfl⟩

theorem getline_of_nextLine (size : ℕ) (hgood : s.Good) {line rest : Bytes}
    (h : nextLine s.rest = some (line, rest)) :
    getline size s = extract (size - 1) s.rest ∧ takeLine s.rest = (line, rest) := by
  cases hs : s.rest with
  | nil => rw [hs] at h; cases h
  | cons b bs =>
    rw [hs] at h
    refine ⟨?_, Option.some.inj h⟩
    rw [getline, if_pos hgood, hs, if_neg (List.cons_ne_nil b bs)]

/-- A line that fits in the buffer is stored whole, and the stream is behind it. -/
theorem getline_of_short (hgood : s.Good) {line rest : Bytes}
    (h : nextLine s.rest = some (line, rest)) (hlen : line.length < size) :
    ∃ eof, getline size s = (line, ⟨rest, eof, false⟩) ∧ (eof = true → rest = []) := by
  obtain ⟨hget, htake⟩ := getline_of_nextLine size hgood h
  have hle : (takeLine s.rest).1.length ≤ size - 1 := by
    rw [htake]
    exact Nat.le_sub_one_of_lt hlen
  rw [hget]
  have hextract := extract_of_le hle
  rwa [htake] at hextract

/-- Of a longer line the buffer gets the beginning, and the stream has failed. -/
theorem getline_of_long (hgood : s.Good) {line rest : Bytes}
    (h : nextLine s.rest = some (line, rest)) (hsize : 0 < size) (hlen : size ≤ line.length) :
    ∃ more, getline size s = (line.take (size - 1), ⟨more, false, true⟩) := by
  obtain ⟨hget, htake⟩ := getline_of_nextLine size hgood h
  have hlt : size - 1 < (takeLine s.rest).1.length := by
    rw [htake]
    change size - 1 < line.length
    omega
  rw [hget]
  have hextract := extract_of_lt hlt
  rwa [htake] at hextract

/-- What is stored of the next line is always a beginning of it. -/
theorem getline_fst (hsize : 0 < size) (hgood : s.Good) {line rest : Bytes}
    (h : nextLine s.rest = some (line, rest)) : (getline size s).1 = line.take (size - 1) := by
  by_cases hlen : line.length < size
  · obtain ⟨eof, hget, -⟩ := getline_of_short hgood h hlen
    rw [hget, List.take_of_length_le (by omega)]
  · obtain ⟨more, hget⟩ := getline_of_long hgood h hsize (Nat.not_lt.mp hlen)
    rw [hget]

end

end Istream
