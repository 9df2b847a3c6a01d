import Vsys.CppAsio.Session

/-! The request lines on which the C++ handler agrees with the Java dispatcher:
those that do not go on behind a command word. -/

namespace Vsys.CppAsio

open CString NetParkingSim

structure RequestLine where
  bytes : Bytes
  plain : ∀ b ∈ bytes, b ≠ 0 ∧ b < 128 ∧ b ≠ 10 ∧ b ≠ 13

namespace RequestLine

def text (l : RequestLine) : Text := decode l.bytes

theorem readLine_text (l : RequestLine) (rest : Text) :
    readLine (l.text ++ '\n' :: rest) = some (l.text, rest) := by
  apply readLine_line
  intro c hc
  obtain ⟨b, hb, rfl⟩ := List.mem_map.mp hc
  obtain ⟨-, -, hlf, hcr⟩ := l.plain b hb
  exact ⟨fun h => hlf (charOf_injective h), fun h => hcr (charOf_injective h)⟩

end RequestLine

namespace Session

def prefixKind (line : Text) : RequestKind :=
  if freeLine <+: line then .free
  else if inLine <+: line then .in_
  else if outLine <+: line then .out
  else if quitLine <+: line then .quit
  else .unknown

theorem prefix_decode_iff {w l : Bytes} : decode w <+: decode l ↔ w <+: l :=
  List.prefix_map_iff_of_injective charOf_injective

theorem strncmp_word (line more : Bytes) {s : String} (hs : 10 ∉ ascii s) (h0 : 0 ∉ ascii s) :
    ∃ z, strncmp (line ++ 10 :: more) (literal s) (ascii s).length = some z ∧
      (z = 0 ↔ decode (ascii s) <+: decode line) := by
  obtain ⟨z, hz, hiff⟩ := strncmp_line (l := line) hs h0 more [0]
  exact ⟨z, hz, hiff.trans prefix_decode_iff.symm⟩

/-- The handler never reads behind the line feed, and takes a line for the first
command word it starts with. -/
theorem kind_line (line more : Bytes) :
    kind (line ++ 10 :: more) = some (prefixKind (decode line)) := by
  obtain ⟨zf, hf, hfree⟩ := strncmp_word line more (s := "free") (by decide) (by decide)
  obtain ⟨zi, hi, hin⟩ := strncmp_word line more (s := "in") (by decide) (by decide)
  obtain ⟨zo, ho, hout⟩ := strncmp_word line more (s := "out") (by decide) (by decide)
  obtain ⟨zq, hq, hquit⟩ := strncmp_word line more (s := "quit") (by decide) (by decide)
  replace hfree : zf = 0 ↔ freeLine <+: decode line := hfree
  replace hin : zi = 0 ↔ inLine <+: decode line := hin
  replace hout : zo = 0 ↔ outLine <+: decode line := hout
  replace hquit : zq = 0 ↔ quitLine <+: decode line := hquit
  change strncmp _ _ 4 = _ at hf
  change strncmp _ _ 2 = _ at hi
  change strncmp _ _ 3 = _ at ho
  change strncmp _ _ 4 = _ at hq
  simp only [kind, prefixKind, hf, hi, ho, hq, Option.bind_eq_bind, Option.bind_some, hfree, hin,
    hout, hquit, Option.pure_def]
  split_ifs <;> rfl

theorem not_prefix_of_word {v w line : Text} (hv : v <+: line) (hvw : ¬ v <+: w)
    (hwv : ¬ w <+: v) : ¬ w <+: line := by
  intro hw
  rcases List.prefix_or_prefix_of_prefix hv hw with h | h
  · exact hvw h
  · exact hwv h

theorem prefixKind_eq_kind {word line : Text} (hword : word ∈ commands) (h : word <+: line) :
    prefixKind line = RequestDispatcher.kind word := by
  have hnot : ∀ w, ¬ word <+: w → ¬ w <+: word → ¬ w <+: line :=
    fun w => not_prefix_of_word h
  simp only [commands, List.mem_cons, List.not_mem_nil, or_false] at hword
  rcases hword with rfl | rfl | rfl | rfl
  · rw [prefixKind, if_pos h]
    rfl
  · rw [prefixKind, if_neg (hnot freeLine (by decide) (by decide)), if_pos h]
    rfl
  · rw [prefixKind, if_neg (hnot freeLine (by decide) (by decide)),
      if_neg (hnot inLine (by decide) (by decide)), if_pos h]
    rfl
  · rw [prefixKind, if_neg (hnot freeLine (by decide) (by decide)),
      if_neg (hnot inLine (by decide) (by decide)),
      if_neg (hnot outLine (by decide) (by decide)), if_pos h]
    rfl

theorem prefixKind_eq_kind_iff {line : Text} :
    prefixKind line = RequestDispatcher.kind line ↔
      ∀ word ∈ commands, word <+: line → line = word := by
  refine ⟨fun h word hword hp => ?_, fun h => ?_⟩
  · exact (RequestDispatcher.kind_eq_kind_iff hword).mp
      (h.symm.trans (prefixKind_eq_kind hword hp))
  · have hiff : ∀ word ∈ commands, word <+: line ↔ line = word := fun word hword =>
      ⟨h word hword, fun he => he ▸ List.prefix_rfl⟩
    simp only [prefixKind, RequestDispatcher.kind, hiff freeLine (by decide),
      hiff inLine (by decide), hiff outLine (by decide), hiff quitLine (by decide)]

/-- The C++ handler takes a request line for the command the Java dispatcher takes
it for, changes the lot only for `in` and `out` and exits only for `quit`, exactly
when the line does not go on behind a command word. -/
theorem same_language_iff (line : RequestLine) :
    (∀ (more : Bytes) (rest : Text),
      (∃ text, readLine (line.text ++ '\n' :: rest) = some (text, rest) ∧
        kind (line.bytes ++ 10 :: more) = some (RequestDispatcher.kind text)) ∧
      ∀ peer l r, doRead peer (some (line.bytes ++ 10 :: more)) l = some r →
        (r.lot ≠ l → line.text = inLine ∨ line.text = outLine) ∧
        (r.ending = .exited → line.text = quitLine)) ↔
      ∀ word ∈ commands, word <+: line.text → line.text = word := by
  rw [← prefixKind_eq_kind_iff]
  constructor
  · intro h
    obtain ⟨⟨text, htext, hkind⟩, -⟩ := h [] []
    rw [line.readLine_text] at htext
    obtain ⟨rfl, -⟩ := Prod.mk.inj (Option.some.inj htext)
    exact Option.some.inj ((kind_line line.bytes []).symm.trans hkind)
  · intro h more rest
    have hkind : kind (line.bytes ++ 10 :: more) = some (RequestDispatcher.kind line.text) := by
      rw [kind_line, ← h]
      rfl
    refine ⟨⟨line.text, line.readLine_text rest, hkind⟩, fun peer l r hr => ?_⟩
    obtain ⟨hlot, hexit⟩ := doRead_effect hkind hr
    refine ⟨fun hne => ?_, fun he => RequestDispatcher.kind_eq_quit_iff.mp (hexit he)⟩
    exact (hlot hne).imp RequestDispatcher.kind_eq_in_iff.mp RequestDispatcher.kind_eq_out_iff.mp

theorem inside_parks :
    ∃ line : RequestLine, line.text = "inside".toList ∧
      RequestDispatcher.kind line.text = .unknown ∧
      kind (line.bytes ++ [10]) = some .in_ ∧
      ∃ peer r, doRead peer (some (line.bytes ++ [10])) ⟨5, 0⟩ = some r ∧ r.lot = ⟨5, 1⟩ := by
  refine ⟨⟨ascii "inside", by simp [ascii, encode]⟩, by decide, by decide, by decide,
    ⟨some (ascii "127.0.0.1", ascii "50000"), true⟩, _, rfl, ?_⟩
  decide

end Session

end Vsys.CppAsio
