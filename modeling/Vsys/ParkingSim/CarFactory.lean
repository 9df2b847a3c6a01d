import Vsys.ParkingSim.CarRun

/-! Cars with a random name and random delays. -/

namespace Vsys.ParkingSim

/-- A generator, as its documentation has it: a draw below a positive bound is one of the
numbers from 0 on, and there is none below another bound. -/
structure Random where
  draw : ℕ → Int32 → Option Int32
  drawn : ℕ
  inRange : ∀ n bound, 0 < bound → ∃ k, draw n bound = some k ∧ 0 ≤ k ∧ k < bound
  throws : ∀ n bound, ¬ 0 < bound → draw n bound = none

def Random.nextInt (r : Random) (bound : Int32) : Option (Int32 × Random) :=
  (r.draw r.drawn bound).map fun k => (k, { r with drawn := r.drawn + 1 })

structure RandomCar where
  id : List Char
  car : Car
  deriving DecidableEq, Repr

namespace CarFactory

def letter (n : Int32) : Char := .ofNat (n + 65).toInt.toNat

/-- The third letter, which the name has if the coin shows 1. -/
def thirdLetter (rng : Random) (coin : Int32) : Option (List Char × Random) :=
  if coin = 1 then (rng.nextInt 26).map fun p => ([letter p.1], p.2) else some ([], rng)

def createRandomCar (rng : Random) (ref : ℕ) (minDel maxDel : Int32) : Option RandomCar := do
  let (a, rng) ← rng.nextInt 26
  let (b, rng) ← rng.nextInt 26
  let (coin, rng) ← rng.nextInt 2
  let (c, rng) ← thirdLetter rng coin
  let (x, rng) ← rng.nextInt 10
  let (y, rng) ← rng.nextInt 10
  let (z, rng) ← rng.nextInt 10
  let (startDelay, rng) ← rng.nextInt (maxDel - minDel)
  let (parkTime, _) ← rng.nextInt (maxDel - minDel)
  return {
    id := letter a :: letter b :: c ++ (toString x).toList ++ (toString y).toList ++
      (toString z).toList
    car := ⟨ref, minDel + startDelay, minDel + parkTime⟩ }

def IsName (id : List Char) : Prop :=
  ∃ letters digits, id = letters ++ digits ∧ (letters.length = 2 ∨ letters.length = 3) ∧
    digits.length = 3 ∧ (∀ c ∈ letters, c.isUpper = true) ∧ ∀ c ∈ digits, c.isDigit = true

def Between (minDel maxDel : Int32) (c : Car) : Prop :=
  (minDel ≤ c.startDelay ∧ c.startDelay < maxDel) ∧ minDel ≤ c.parkTime ∧ c.parkTime < maxDel

theorem nextInt_of_pos (r : Random) {bound : Int32} (h : 0 < bound) :
    ∃ n r', r.nextInt bound = some (n, r') ∧ 0 ≤ n ∧ n < bound := by
  obtain ⟨k, hk, hrange⟩ := r.inRange r.drawn bound h
  exact ⟨k, _, by rw [Random.nextInt, hk]; rfl, hrange⟩

theorem nextInt_of_not_pos (r : Random) {bound : Int32} (h : ¬ 0 < bound) :
    r.nextInt bound = none := by
  rw [Random.nextInt, r.throws _ _ h]
  rfl

theorem exists_small {n : Int32} {bound : ℕ} (h0 : 0 ≤ n) (h : n.toInt < bound) :
    ∃ k < bound, n = .ofNat k := by
  have hlow := Word32.nonneg_iff.mp h0
  obtain ⟨k, hk⟩ := Int.eq_ofNat_of_zero_le hlow
  refine ⟨k, by omega, ?_⟩
  rw [← Int32.ofInt_toInt n, hk, Int32.ofInt_eq_ofNat]

theorem letter_isUpper {n : Int32} (h0 : 0 ≤ n) (h : n < 26) : (letter n).isUpper = true := by
  obtain ⟨k, hk, rfl⟩ := exists_small h0 (Int32.lt_iff_toInt_lt.mp h)
  have hall : ∀ k < 26, (letter (.ofNat k)).isUpper = true := by decide
  exact hall k hk

theorem digit_shown {n : Int32} (h0 : 0 ≤ n) (h : n < 10) :
    ∃ d, (toString n).toList = [d] ∧ d.isDigit = true := by
  obtain ⟨k, hk, rfl⟩ := exists_small h0 (Int32.lt_iff_toInt_lt.mp h)
  have hall : ∀ k < 10, (toString (Int32.ofNat k)).toList.length = 1 ∧
      (toString (Int32.ofNat k)).toList.all Char.isDigit = true := by decide
  obtain ⟨hlength, hdigits⟩ := hall k hk
  obtain ⟨d, hd⟩ := List.length_eq_one_iff.mp hlength
  rw [hd] at hdigits
  exact ⟨d, hd, by simpa using hdigits⟩

theorem isName_of_draws {a b x y z : Int32} {third : List Char}
    (ha : 0 ≤ a ∧ a < 26) (hb : 0 ≤ b ∧ b < 26)
    (hthird : third = [] ∨ ∃ c : Int32, 0 ≤ c ∧ c < 26 ∧ third = [letter c])
    (hx : 0 ≤ x ∧ x < 10) (hy : 0 ≤ y ∧ y < 10) (hz : 0 ≤ z ∧ z < 10) :
    IsName (letter a :: letter b :: third ++ (toString x).toList ++ (toString y).toList ++
      (toString z).toList) := by
  obtain ⟨dx, hdx, hxd⟩ := digit_shown hx.1 hx.2
  obtain ⟨dy, hdy, hyd⟩ := digit_shown hy.1 hy.2
  obtain ⟨dz, hdz, hzd⟩ := digit_shown hz.1 hz.2
  refine ⟨letter a :: letter b :: third, [dx, dy, dz], ?_, ?_, rfl, fun c hc => ?_, ?_⟩
  · simp [hdx, hdy, hdz]
  · rcases hthird with rfl | ⟨c, -, -, rfl⟩
    · exact Or.inl rfl
    · exact Or.inr rfl
  · rcases hthird with rfl | ⟨d, hd0, hd, rfl⟩
    · rcases List.mem_pair.mp hc with rfl | rfl
      · exact letter_isUpper ha.1 ha.2
      · exact letter_isUpper hb.1 hb.2
    · rcases List.mem_cons.mp hc with rfl | hc
      · exact letter_isUpper ha.1 ha.2
      · rcases List.mem_pair.mp hc with rfl | rfl
        · exact letter_isUpper hb.1 hb.2
        · exact letter_isUpper hd0 hd
  · simp [hxd, hyd, hzd]

theorem thirdLetter_cases (rng : Random) (coin : Int32) :
    ∃ c rng', thirdLetter rng coin = some (c, rng') ∧
      (c = [] ∨ ∃ n : Int32, 0 ≤ n ∧ n < 26 ∧ c = [letter n]) := by
  by_cases hcoin : coin = 1
  · obtain ⟨n, r, hr, hn0, hn⟩ := nextInt_of_pos rng (show (0 : Int32) < 26 by decide)
    exact ⟨[letter n], r, by rw [thirdLetter, if_pos hcoin, hr]; rfl, Or.inr ⟨n, hn0, hn, rfl⟩⟩
  · exact ⟨[], rng, if_neg hcoin, Or.inl rfl⟩

/-- A car comes of it exactly where the range is not empty for the `int` arithmetic. -/
theorem createRandomCar_of_pos (rng : Random) (ref : ℕ) {minDel maxDel : Int32}
    (h : 0 < maxDel - minDel) :
    ∃ c, createRandomCar rng ref minDel maxDel = some c ∧ IsName c.id ∧ c.car.ref = ref ∧
      ∃ s p : Int32, (0 ≤ s ∧ s < maxDel - minDel) ∧ (0 ≤ p ∧ p < maxDel - minDel) ∧
        c.car.startDelay = minDel + s ∧ c.car.parkTime = minDel + p := by
  obtain ⟨a, r₁, h₁, ha⟩ := nextInt_of_pos rng (show (0 : Int32) < 26 by decide)
  obtain ⟨b, r₂, h₂, hb⟩ := nextInt_of_pos r₁ (show (0 : Int32) < 26 by decide)
  obtain ⟨coin, r₃, h₃, -⟩ := nextInt_of_pos r₂ (show (0 : Int32) < 2 by decide)
  obtain ⟨c, r₄, h₄, hc⟩ := thirdLetter_cases r₃ coin
  obtain ⟨x, r₅, h₅, hx⟩ := nextInt_of_pos r₄ (show (0 : Int32) < 10 by decide)
  obtain ⟨y, r₆, h₆, hy⟩ := nextInt_of_pos r₅ (show (0 : Int32) < 10 by decide)
  obtain ⟨z, r₇, h₇, hz⟩ := nextInt_of_pos r₆ (show (0 : Int32) < 10 by decide)
  obtain ⟨s, r₈, h₈, hs⟩ := nextInt_of_pos r₇ h
  obtain ⟨p, r₉, h₉, hp⟩ := nextInt_of_pos r₈ h
  refine ⟨⟨letter a :: letter b :: c ++ (toString x).toList ++ (toString y).toList ++
    (toString z).toList, ⟨ref, minDel + s, minDel + p⟩⟩, ?_, isName_of_draws ha hb hc hx hy hz,
    rfl, s, p, hs, hp, rfl, rfl⟩
  simp only [createRandomCar, h₁, h₂, h₃, h₄, h₅, h₆, h₇, h₈, h₉, Option.bind_eq_bind,
    Option.bind_some, Option.pure_def]

theorem pos_of_createRandomCar {rng : Random} {ref : ℕ} {minDel maxDel : Int32} {c : RandomCar}
    (h : createRandomCar rng ref minDel maxDel = some c) : 0 < maxDel - minDel := by
  by_contra hnot
  have hnone : ∀ r : Random, r.nextInt (maxDel - minDel) = none :=
    fun r => nextInt_of_not_pos r hnot
  simp [createRandomCar, hnone] at h

/-- Every car has a name of two or three letters and three digits. It has its delays in
the range that was asked for, and there is a car at all, exactly when the range is
not empty and its width is an `int`. -/
theorem createRandomCar_iff (rng : Random) (ref : ℕ) (minDel maxDel : Int32) :
    (∀ c, createRandomCar rng ref minDel maxDel = some c → IsName c.id ∧ c.car.ref = ref) ∧
      ((∃ c, createRandomCar rng ref minDel maxDel = some c ∧ Between minDel maxDel c.car) ↔
        minDel < maxDel ∧ maxDel.toInt - minDel.toInt < 2 ^ 31) := by
  refine ⟨fun c hc => ?_, ?_, ?_⟩
  · obtain ⟨d, hd, hname, href, -⟩ := createRandomCar_of_pos rng ref (pos_of_createRandomCar hc)
    cases hc.symm.trans hd
    exact ⟨hname, href⟩
  · rintro ⟨c, hc, ⟨hlow, hhigh⟩, -⟩
    refine ⟨Int32.lt_of_le_of_lt hlow hhigh, ?_⟩
    by_contra hwide
    have hpos := Word32.pos_iff.mp (pos_of_createRandomCar hc)
    rw [Word32.toInt_sub_of_overflow (Int.not_lt.mp hwide)] at hpos
    have hmax := maxDel.toInt_lt
    have hmin := minDel.le_toInt
    omega
  · rintro ⟨hlt, hwidth⟩
    have hlt' := Int32.lt_iff_toInt_lt.mp hlt
    have hdiff := Word32.toInt_sub_of_fits (a := maxDel) (b := minDel) (by omega) hwidth
    have hbetween : ∀ n : Int32, 0 ≤ n ∧ n < maxDel - minDel →
        minDel ≤ minDel + n ∧ minDel + n < maxDel := by
      rintro n ⟨hn0, hn⟩
      rw [Word32.nonneg_iff] at hn0
      rw [Int32.lt_iff_toInt_lt, hdiff] at hn
      have hmin := minDel.le_toInt
      have hmax := maxDel.toInt_lt
      have hsum := Word32.toInt_add_of_fits (a := minDel) (b := n) (by omega) (by omega)
      rw [Int32.le_iff_toInt_le, Int32.lt_iff_toInt_lt, hsum]
      omega
    obtain ⟨c, hc, -, -, s, p, hs, hp, hstart, hpark⟩ := createRandomCar_of_pos rng ref
      (by rw [Word32.pos_iff, hdiff]; omega)
    refine ⟨c, hc, ?_⟩
    rw [Between, hstart, hpark]
    exact ⟨hbetween s hs, hbetween p hp⟩

end CarFactory

end Vsys.ParkingSim
