import Vsys.Text.CString
import Vsys.Text.JavaString

/-! Words and numbers in typed text, and what the libraries of C and Java make of them. -/

namespace JavaString

/-- A decimal numeral with or without a sign, of whatever size. -/
def number : List Char → Option ℤ
  | '-' :: cs => (digits cs).map fun n : ℕ => (-n : ℤ)
  | '+' :: cs => (digits cs).map fun n : ℕ => (n : ℤ)
  | cs => (digits cs).map fun n : ℕ => (n : ℤ)

/-- The number that a token stands for, blanks before it aside. -/
def numeral (t : List Char) : Option ℤ := number (t.dropWhile isSpace)

theorem valueOf_eq (t : List Char) : valueOf t = (number t).bind inRange := by
  have hmap : ∀ (o : Option ℕ) (f : ℕ → ℤ),
      o.bind (fun n => inRange (f n)) = (o.map f).bind inRange := by
    intro o f
    cases o <;> rfl
  rw [valueOf.eq_def]
  split
  · exact hmap _ _
  · exact hmap _ _
  · next hminus hplus =>
    rw [number]
    · exact hmap _ _
    · exact hminus
    · exact hplus

theorem inRange_eq_some_iff {n : ℤ} {v : Int32} : inRange n = some v ↔ v.toInt = n := by
  rw [inRange]
  split_ifs with h
  · rw [Option.some.injEq]
    constructor
    · rintro rfl
      exact Int32.toInt_ofInt_of_le h.1 h.2
    · rintro rfl
      exact Int32.ofInt_toInt v
  · refine iff_of_false (by simp) fun hv => h ?_
    rw [← hv]
    exact ⟨v.le_toInt, v.toInt_lt⟩

theorem digit_of_isSpace {c : Char} (h : isSpace c = true) : digit c = none := by
  simp only [isSpace, Bool.or_eq_true, decide_eq_true_eq] at h
  rcases h with ((((rfl | rfl) | rfl) | rfl) | rfl) | rfl <;> decide

theorem number_of_isSpace {c : Char} (h : isSpace c = true) (cs : List Char) :
    number (c :: cs) = none := by
  have hminus : c ≠ '-' := by
    rintro rfl
    exact absurd h (by decide)
  have hplus : c ≠ '+' := by
    rintro rfl
    exact absurd h (by decide)
  rw [number, digits, List.foldlM_cons, digit_of_isSpace h]
  · rfl
  · exact fun _ he => hminus (List.cons.inj he).1
  · exact fun _ he => hplus (List.cons.inj he).1

theorem numeral_of_valueOf {t : List Char} {v : Int32} (h : valueOf t = some v) :
    numeral t = some v.toInt := by
  rw [valueOf_eq, Option.bind_eq_some_iff] at h
  obtain ⟨n, hn, hv⟩ := h
  rw [inRange_eq_some_iff] at hv
  have hblank : t.dropWhile isSpace = t := by
    cases t with
    | nil => rfl
    | cons c cs =>
      refine List.dropWhile_cons_of_neg fun hc => ?_
      rw [number_of_isSpace hc] at hn
      exact nomatch hn
  rw [numeral, hblank, hn, hv]

theorem find_zero_ascii : ∀ n < 128, (digitZeros.find? fun z => z ≤ n ∧ n < z + 10) =
    if 48 ≤ n ∧ n < 58 then some 48 else none := by decide

theorem digit_ascii {c : Char} (hc : c.toNat < 128) :
    digit c = if c.isDigit then some (c.toNat - '0'.toNat) else none := by
  have hiff : c.isDigit = true ↔ 48 ≤ c.toNat ∧ c.toNat < 58 := by
    simp only [Char.isDigit, Bool.and_eq_true, decide_eq_true_eq]
    change (48 : ℕ) ≤ c.toNat ∧ c.toNat ≤ 57 ↔ _
    omega
  rw [digit, find_zero_ascii _ hc]
  by_cases h : c.isDigit = true
  · rw [if_pos h, if_pos (hiff.mp h)]
    rfl
  · rw [if_neg h, if_neg fun h' => h (hiff.mpr h')]
    rfl

theorem foldlM_digits_ascii {cs : List Char} (hcs : ∀ c ∈ cs, c.toNat < 128) {a n : ℕ}
    (h : cs.foldlM (fun n c => (digit c).map (10 * n + ·)) a = some n) :
    (∀ c ∈ cs, c.isDigit = true) ∧
      cs.foldl (fun n c => 10 * n + (c.toNat - '0'.toNat)) a = n := by
  induction cs generalizing a with
  | nil =>
    cases h
    exact ⟨by simp, rfl⟩
  | cons c cs ih =>
    rw [List.foldlM_cons] at h
    obtain ⟨b, hb, hrest⟩ := Option.bind_eq_some_iff.mp h
    obtain ⟨d, hd, rfl⟩ := Option.map_eq_some_iff.mp hb
    rw [digit_ascii (hcs c List.mem_cons_self)] at hd
    obtain ⟨hdigit, hd⟩ := Option.ite_none_right_eq_some.mp hd
    cases hd
    obtain ⟨hall, hfold⟩ := ih (fun c hc => hcs c (List.mem_cons_of_mem _ hc)) hrest
    exact ⟨List.forall_mem_cons.mpr ⟨hdigit, hall⟩, hfold⟩

theorem splitAt_ne_nil (delim : Char → Bool) (t : List Char) : splitAt delim t ≠ [] := by
  cases t with
  | nil => exact List.cons_ne_nil _ _
  | cons c cs =>
    rw [splitAt]
    split
    · exact List.cons_ne_nil _ _
    · cases splitAt delim cs <;> exact List.cons_ne_nil _ _

theorem splitAt_append_exists (delim : Char → Bool) (p q : List Char) :
    ∃ init last next more, splitAt delim p = init ++ [last] ∧
      splitAt delim (p ++ q) = init ++ (last ++ next) :: more := by
  induction p with
  | nil =>
    obtain ⟨next, more, hq⟩ := List.exists_cons_of_ne_nil (splitAt_ne_nil delim q)
    exact ⟨[], [], next, more, rfl, hq⟩
  | cons c cs ih =>
    obtain ⟨init, last, next, more, hcs, happend⟩ := ih
    rw [List.cons_append, splitAt, splitAt, hcs, happend]
    by_cases hc : delim c = true
    · exact ⟨[] :: init, last, next, more, by rw [if_pos hc]; rfl, by rw [if_pos hc]; rfl⟩
    · rw [if_neg hc, if_neg hc]
      cases init with
      | nil => exact ⟨[], c :: last, next, more, rfl, rfl⟩
      | cons w init => exact ⟨(c :: w) :: init, last, next, more, rfl, rfl⟩

/-- A text that begins with two words keeps the first one, and has a second one, whatever
is written behind it. -/
theorem tokens_append_of_two {delim : Char → Bool} {p a b : List Char} {ws : List (List Char)}
    (h : tokens delim p = a :: b :: ws) (q : List Char) :
    ∃ c vs, tokens delim (p ++ q) = a :: c :: vs := by
  obtain ⟨init, last, next, more, hp, happend⟩ := splitAt_append_exists delim p q
  rw [tokens, hp, List.filter_append] at h
  rw [tokens, happend, List.filter_append]
  cases hinit : init.filter fun piece => !piece.isEmpty with
  | nil =>
    rw [hinit] at h
    cases last <;> simp at h
  | cons w rest =>
    rw [hinit] at h
    obtain ⟨rfl, hrest⟩ := List.cons.inj h
    cases rest with
    | cons c vs => exact ⟨c, _, rfl⟩
    | nil =>
      have hlast : last ≠ [] := by
        rintro rfl
        simp at hrest
      refine ⟨last ++ next, more.filter fun piece => !piece.isEmpty, ?_⟩
      rw [List.filter_cons_of_pos (by simp [hlast])]
      rfl

end JavaString

namespace CString

/-- The tokens that `strtok` finds one after the other in the string at a pointer. -/
def strtok (delim : Char) (m : Bytes) : List (List Char) :=
  JavaString.tokens (· = delim) (decode (m.takeWhile (· ≠ 0)))

def leadingNumber (t : List Char) : ℕ :=
  (t.takeWhile Char.isDigit).foldl (fun n c => 10 * n + (c.toNat - '0'.toNat)) 0

/-- `atoi`: blanks, a sign and as many digits as follow. Where the number does not fit in
an `int`, the behaviour is undefined. -/
def atoi (t : List Char) : Option Int32 :=
  match t.dropWhile JavaString.isSpace with
  | '-' :: cs => JavaString.inRange (-leadingNumber cs)
  | '+' :: cs => JavaString.inRange (leadingNumber cs)
  | cs => JavaString.inRange (leadingNumber cs)

example : (["2x", " 07", "x", "-3"].map fun t => atoi t.toList) =
    [some 2, some 7, some 0, some (-3)] := by decide

theorem leadingNumber_of_digits {cs : List Char} (hcs : ∀ c ∈ cs, c.toNat < 128) {n : ℕ}
    (h : JavaString.digits cs = some n) : leadingNumber cs = n := by
  cases cs with
  | nil => cases h
  | cons c cs =>
    obtain ⟨hall, hfold⟩ := JavaString.foldlM_digits_ascii hcs h
    rw [leadingNumber, List.takeWhile_eq_self_iff.mpr hall, hfold]

/-- A token of plain characters that Java reads as an `int` is the same number for `atoi`. -/
theorem atoi_of_valueOf {t : List Char} (ht : ∀ c ∈ t, c.toNat < 128) {v : Int32}
    (h : JavaString.valueOf t = some v) : atoi t = some v := by
  have hblank : t.dropWhile JavaString.isSpace = t := by
    cases t with
    | nil => rfl
    | cons c cs =>
      refine List.dropWhile_cons_of_neg fun hc => ?_
      rw [JavaString.valueOf_eq, JavaString.number_of_isSpace hc] at h
      cases h
  rw [atoi, hblank]
  split
  · next cs =>
    rw [JavaString.valueOf] at h
    obtain ⟨n, hn, hv⟩ := Option.bind_eq_some_iff.mp h
    rwa [leadingNumber_of_digits (fun c hc => ht c (List.mem_cons_of_mem _ hc)) hn]
  · next cs =>
    rw [JavaString.valueOf] at h
    obtain ⟨n, hn, hv⟩ := Option.bind_eq_some_iff.mp h
    rwa [leadingNumber_of_digits (fun c hc => ht c (List.mem_cons_of_mem _ hc)) hn]
  · next hminus hplus =>
    rw [JavaString.valueOf] at h
    · obtain ⟨n, hn, hv⟩ := Option.bind_eq_some_iff.mp h
      rwa [leadingNumber_of_digits ht hn]
    · exact hminus
    · exact hplus

/-- Where the beginning of a string has two tokens, the string has two, and the same
first one. -/
theorem strtok_of_take {delim : Char} {m : Bytes} {n : ℕ} {a b : List Char}
    {ws : List (List Char)} (h : strtok delim (m.take n) = a :: b :: ws) :
    ∃ c vs, strtok delim m = a :: c :: vs := by
  rw [strtok, ← List.take_takeWhile, decode, List.map_take] at h
  have happend := JavaString.tokens_append_of_two h ((decode (m.takeWhile (· ≠ 0))).drop n)
  rwa [decode, List.take_append_drop] at happend

end CString
