import Mathlib.Algebra.Ring.Int.Defs
import Mathlib.Data.List.DropRight

/-! Methods of Java's strings: splitting at white space and reading numbers. -/

namespace JavaString

def isSpace (c : Char) : Bool :=
  c = ' ' || c = '\t' || c = '\n' || c = '\x0b' || c = '\x0c' || c = '\r'

def prepend (c : Char) : List (List Char) → List (List Char)
  | [] => [[c]]
  | t :: ts => (c :: t) :: ts

/-- The pieces between the runs of white space, the empty ones at both ends
included; the flag tells that a run is going on. -/
def pieces : Bool → List Char → List (List Char)
  | _, [] => [[]]
  | true, c :: cs => if isSpace c then pieces true cs else prepend c (pieces false cs)
  | false, c :: cs => if isSpace c then [] :: pieces true cs else prepend c (pieces false cs)

/-- `split("\\s+")`: empty pieces are dropped at the end, not at the beginning, and
a string without white space is its only piece. -/
def split (t : List Char) : List (List Char) :=
  if t.any isSpace then (pieces false t).rdropWhile List.isEmpty else [t]

example : split " free ".toList = [[], "free".toList] := by decide

example : split "  ".toList = [] := by decide

def splitAt (delim : Char → Bool) : List Char → List (List Char)
  | [] => [[]]
  | c :: cs => if delim c then [] :: splitAt delim cs else prepend c (splitAt delim cs)

/-- The tokens of a `StringTokenizer`: the pieces between delimiters, less the empty
ones. -/
def tokens (delim : Char → Bool) (t : List Char) : List (List Char) :=
  (splitAt delim t).filter fun piece => !piece.isEmpty

theorem splitAt_append {delim : Char → Bool} {t : List Char} (h : ∀ c ∈ t, delim c = false)
    {rest p : List Char} {ps : List (List Char)} (hrest : splitAt delim rest = p :: ps) :
    splitAt delim (t ++ rest) = (t ++ p) :: ps := by
  induction t with
  | nil => exact hrest
  | cons c cs ih =>
    have htail := ih fun d hd => h d (List.mem_cons_of_mem c hd)
    rw [List.cons_append, splitAt, h c List.mem_cons_self, htail]
    rfl

theorem splitAt_plain {delim : Char → Bool} {t : List Char} (h : ∀ c ∈ t, delim c = false) :
    splitAt delim t = [t] := by
  have hall := @splitAt_append delim t h [] [] [] rfl
  rwa [List.append_nil] at hall

theorem tokens_pair {delim : Char → Bool} {s t : List Char} {c : Char} (hc : delim c = true)
    (hs : ∀ d ∈ s, delim d = false) (ht : ∀ d ∈ t, delim d = false) (hs0 : s ≠ []) (ht0 : t ≠ []) :
    tokens delim (s ++ c :: t) = [s, t] := by
  have hrest : splitAt delim (c :: t) = [] :: [t] := by
    rw [splitAt, hc, splitAt_plain ht]
    rfl
  rw [tokens, splitAt_append hs hrest, List.append_nil]
  simp [hs0, ht0]

theorem delim_of_mem_splitAt {delim : Char → Bool} {t piece : List Char}
    (h : piece ∈ splitAt delim t) : ∀ c ∈ piece, delim c = false := by
  induction t generalizing piece with
  | nil =>
    obtain rfl := List.mem_singleton.mp h
    exact fun c hc => absurd hc List.not_mem_nil
  | cons d ds ih =>
    cases hd : delim d with
    | true =>
      rw [splitAt, hd, if_pos rfl] at h
      rcases List.mem_cons.mp h with rfl | hmem
      · exact fun c hc => absurd hc List.not_mem_nil
      · exact ih hmem
    | false =>
      rw [splitAt, hd, if_neg Bool.false_ne_true] at h
      have hcons : ∀ p : List Char, (∀ c ∈ p, delim c = false) → ∀ c ∈ d :: p, delim c = false :=
        fun p hp => List.forall_mem_cons.mpr ⟨hd, hp⟩
      cases hps : splitAt delim ds with
      | nil =>
        rw [hps] at h
        obtain rfl := List.mem_singleton.mp h
        exact hcons [] fun c hc => absurd hc List.not_mem_nil
      | cons p ps =>
        rw [hps] at h ih
        rcases List.mem_cons.mp h with rfl | hmem
        · exact hcons p (ih List.mem_cons_self)
        · exact ih (List.mem_cons_of_mem p hmem)

theorem delim_of_mem_tokens {delim : Char → Bool} {t token : List Char}
    (h : token ∈ tokens delim t) : ∀ c ∈ token, delim c = false :=
  delim_of_mem_splitAt (List.mem_of_mem_filter h)

/-- The zeros of the decimal digits that are one `char` each. -/
def digitZeros : List ℕ :=
  [0x0030, 0x0660, 0x06f0, 0x07c0, 0x0966, 0x09e6, 0x0a66, 0x0ae6, 0x0b66, 0x0be6, 0x0c66, 0x0ce6,
    0x0d66, 0x0de6, 0x0e50, 0x0ed0, 0x0f20, 0x1040, 0x1090, 0x17e0, 0x1810, 0x1946, 0x19d0, 0x1a80,
    0x1a90, 0x1b50, 0x1bb0, 0x1c40, 0x1c50, 0xa620, 0xa8d0, 0xa900, 0xa9d0, 0xa9f0, 0xaa50, 0xabf0,
    0xff10]

def digit (c : Char) : Option ℕ :=
  (digitZeros.find? fun z => z ≤ c.toNat ∧ c.toNat < z + 10).map (c.toNat - ·)

def digits : List Char → Option ℕ
  | [] => none
  | c :: cs => (c :: cs).foldlM (fun n c => (digit c).map (10 * n + ·)) 0

def inRange (n : ℤ) : Option Int32 :=
  if -2 ^ 31 ≤ n ∧ n < 2 ^ 31 then some (.ofInt n) else none

def valueOf : List Char → Option Int32
  | '-' :: cs => (digits cs).bind fun n => inRange (-n)
  | '+' :: cs => (digits cs).bind fun n => inRange n
  | cs => (digits cs).bind fun n => inRange n

end JavaString
