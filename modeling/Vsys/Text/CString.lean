import Mathlib.Data.List.Infix
import Mathlib.Data.List.TakeWhile

/-! Reads through a `const char *`. The memory is the list of bytes from the
pointer on; a read behind its end has no result. -/

namespace CString

abbrev Bytes := List UInt8

def encode (t : List Char) : Bytes := t.map fun c => .ofNat c.toNat

def ascii (s : String) : Bytes := encode s.toList

def charOf (b : UInt8) : Char := .ofNat b.toNat

def decode (m : Bytes) : List Char := m.map charOf

def literal (s : String) : Bytes := ascii s ++ [0]

/-- `strncmp`: at most `n` bytes are compared, and none behind a NUL. -/
def strncmp : Bytes → Bytes → ℕ → Option ℤ
  | _, _, 0 => some 0
  | a :: as, b :: bs, n + 1 =>
    if a ≠ b then some (a.toNat - b.toNat)
    else if a = 0 then some 0
    else strncmp as bs n
  | _, _, _ + 1 => none

def memcmp : Bytes → Bytes → ℕ → Option ℤ
  | _, _, 0 => some 0
  | a :: as, b :: bs, n + 1 =>
    if a ≠ b then some (a.toNat - b.toNat) else memcmp as bs n
  | _, _, _ + 1 => none

/-- The characters up to the NUL. -/
def read (m : Bytes) : Option Bytes :=
  if 0 ∈ m then some (m.takeWhile (· ≠ 0)) else none

theorem charOf_toNat (b : UInt8) : (charOf b).toNat = b.toNat := by
  have hv : b.toNat.isValidChar := Or.inl (by have := b.toNat_lt; omega)
  rw [charOf, Char.ofNat, dif_pos hv]
  rfl

theorem charOf_injective : Function.Injective charOf := by
  intro a b h
  rw [← UInt8.toNat_inj, ← charOf_toNat a, ← charOf_toNat b, h]

theorem read_append {behind : Bytes} (h : 0 ∈ behind) (m : Bytes) :
    ∃ t, read (m ++ behind) = some t :=
  ⟨_, if_pos (List.mem_append_right m h)⟩

theorem sub_ne_zero {a b : UInt8} (h : a ≠ b) : (a.toNat - b.toNat : ℤ) ≠ 0 := by
  intro h0
  exact h (UInt8.toNat_inj.mp (by omega))

/-- Over the length of a word, `strncmp` decides whether a line, ended by a byte
that is not in the word, starts with the word; it never reads behind that byte. -/
theorem strncmp_line {w l : Bytes} {t : UInt8} (ht : t ∉ w) (h0 : 0 ∉ w) (more behind : Bytes) :
    ∃ z, strncmp (l ++ t :: more) (w ++ behind) w.length = some z ∧ (z = 0 ↔ w <+: l) := by
  induction w generalizing l with
  | nil => exact ⟨0, by rw [List.length_nil, strncmp], by simp⟩
  | cons b w ih =>
    have htb : t ≠ b := fun h => ht (h ▸ List.mem_cons_self)
    have hb0 : b ≠ 0 := fun h => h0 (h ▸ List.mem_cons_self)
    cases l with
    | nil =>
      refine ⟨t.toNat - b.toNat, ?_, ?_⟩
      · simp only [List.nil_append, List.cons_append, List.length_cons, strncmp, ne_eq, htb,
          not_false_eq_true, if_true]
      · exact iff_of_false (sub_ne_zero htb) (by simp)
    | cons a l =>
      by_cases hab : a = b
      · subst hab
        obtain ⟨z, hz, hiff⟩ := ih (l := l) (fun h => ht (List.mem_cons_of_mem _ h))
          (fun h => h0 (List.mem_cons_of_mem _ h))
        refine ⟨z, ?_, by rw [hiff, List.cons_prefix_cons, and_iff_right rfl]⟩
        simp only [List.cons_append, List.length_cons, strncmp, ne_eq, not_true_eq_false, if_false,
          hb0]
        exact hz
      · refine ⟨a.toNat - b.toNat, ?_, ?_⟩
        · simp only [List.cons_append, List.length_cons, strncmp, ne_eq, hab, not_false_eq_true,
            if_true]
        · exact iff_of_false (sub_ne_zero hab)
            (fun h => hab (List.cons_prefix_cons.mp h).1.symm)

end CString
