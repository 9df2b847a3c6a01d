import Vsys.CppAsio.Client

/-! Commands with an endpoint number in the C++ client. -/

namespace Vsys.CppAsio.Client

open CString NetParkingSim JavaString

variable {ε : Type*}

section
variable (endpoints : List ε) (replies : ℕ → Option Reply)

/-- The command goes to the endpoint in the place that its number stands for, and to no
other. -/
def Sends (s : Client ε) (cmd token : Text) : Prop :=
  ∃ (ci : Fin 4) (i : ℕ) (ep : ε) (t : Client ε), cindex cmd = some ci ∧
    numeral token = some (i + 1 : ℤ) ∧ endpoints[i]? = some ep ∧
    iteration endpoints replies s = some t ∧ t.treated = s.treated ++ [.unicast ci i ep] ∧
    t.contacts = s.contacts ++ [⟨i, ep, commandsNl ci⟩]

/-- The number is complained about, nothing is sent, and the next line is read next. -/
def Reports (s : Client ε) (rest : Bytes) : Prop :=
  ∃ (e : Int32) (t : Client ε), iteration endpoints replies s = some t ∧
    t.treated = s.treated ++ [.invalidIndex e] ∧
    t.errors = s.errors ++ ["Invalid endpoint index: ".toList ++ (toString e).toList] ∧
    t.contacts = s.contacts ∧ t.place = .prompting ∧ t.cin.fail = false ∧ t.cin.rest = rest

/-- A command with a number is sent or complained about, and no line leads behind the end
of the vector. -/
def Checked (s : Client ε) : Prop :=
  (∀ line rest cmd token more, Istream.nextLine s.cin.rest = some (line, rest) →
    strtok ' ' line = cmd :: token :: more → cmd ∈ commands →
      Sends endpoints replies s cmd token ∨ Reports endpoints replies s rest) ∧
    iteration endpoints replies s ≠ none

/-- The stream has not failed, and the buffer gets the command and a number: that of an
endpoint, which the whole token stands for as well, or none but zero from a line that
fits in the buffer. -/
def Within (s : Client ε) : Prop :=
  ∀ line rest cmd token more, Istream.nextLine s.cin.rest = some (line, rest) →
    strtok ' ' line = cmd :: token :: more → cmd ∈ commands →
      s.cin.Good ∧ ∃ shown others, strtok ' ' (line.take 63) = cmd :: shown :: others ∧
        ((∃ (i : ℕ) (v : Int32), i < endpoints.length ∧ numeral token = some (i + 1 : ℤ) ∧
            atoi shown = some v ∧ v.toInt = i + 1) ∨
          (line.length < 64 ∧ atoi shown = some 0))

end

theorem within_of_line {endpoints : List ε} {s : Client ε} {line rest : Bytes} {cmd token : Text}
    {more : List Text} (hnext : Istream.nextLine s.cin.rest = some (line, rest))
    (hline : strtok ' ' line = cmd :: token :: more)
    (h : s.cin.Good ∧ ∃ shown others, strtok ' ' (line.take 63) = cmd :: shown :: others ∧
      ((∃ (i : ℕ) (v : Int32), i < endpoints.length ∧ numeral token = some (i + 1 : ℤ) ∧
          atoi shown = some v ∧ v.toInt = i + 1) ∨
        (line.length < 64 ∧ atoi shown = some 0))) : Within endpoints s := by
  intro line' rest' cmd' token' more' hnext' hline' _
  obtain ⟨rfl, rfl⟩ : line = line' ∧ rest = rest' := by simpa [hnext] using hnext'
  obtain ⟨rfl, rfl, rfl⟩ : cmd = cmd' ∧ token = token' ∧ more = more' := by
    simpa [hline] using hline'
  exact h

theorem buffer_of_line {s : Client ε} (hgood : s.cin.Good) {line rest : Bytes}
    (h : Istream.nextLine s.cin.rest = some (line, rest)) : s.buffer = line.take 63 :=
  Istream.getline_fst (by decide) hgood h

/-- Only of a line that it has read the loop has something in its buffer. -/
theorem line_of_buffer {s : Client ε} (h : s.buffer ≠ []) :
    ∃ line rest, s.cin.Good ∧ Istream.nextLine s.cin.rest = some (line, rest) ∧
      s.buffer = line.take 63 := by
  have hgood : s.cin.Good := by
    by_contra hbad
    exact h (congrArg Prod.fst (Istream.getline_of_not_good hbad))
  cases hnext : Istream.nextLine s.cin.rest with
  | none => exact absurd (Istream.getline_of_nextLine_none hnext).1 h
  | some p => exact ⟨p.1, p.2, hgood, rfl, buffer_of_line hgood hnext⟩

theorem buffer_ne_nil {s : Client ε} {ws : List Text} (h : strtok ' ' s.buffer = ws)
    (hws : ws ≠ []) : s.buffer ≠ [] := by
  intro hnil
  rw [hnil] at h
  exact hws h.symm

section
variable {endpoints : List ε} {replies : ℕ → Option Reply} {line : Bytes} {cmd arg : Text}
  {more : List Text} {ci : Fin 4}

theorem treat_of_number {v : Int32} (hline : strtok ' ' line = cmd :: arg :: more)
    (hci : cindex cmd = some ci) (hv : atoi arg = some v) :
    treat endpoints line = numbered endpoints ci v := by
  simp only [treat, hline, hci, hv, Option.bind_some]

/-- What is neither nothing, nor a command alone or an unknown one, comes from a number. -/
theorem number_of_treat {u : Treated ε} (h : treat endpoints line = some u) (hnothing : u ≠ .nothing)
    (hcommand : ∀ cmd, u ≠ .invalidCommand cmd) (hmulticast : ∀ ci, u ≠ .multicast ci) :
    ∃ cmd arg more ci v, strtok ' ' line = cmd :: arg :: more ∧ cindex cmd = some ci ∧
      atoi arg = some v ∧ numbered endpoints ci v = some u := by
  rcases treat_cases endpoints line with ⟨cmd, arg, more, ci, hline, hci, ht⟩ | ht | ⟨cmd, ht⟩ |
    ⟨cmd, ci, -, -, ht⟩
  · rw [ht, Option.bind_eq_some_iff] at h
    obtain ⟨v, hv, hnumbered⟩ := h
    exact ⟨cmd, arg, more, ci, v, hline, hci, hv, hnumbered⟩
  · exact absurd (Option.some.inj (h.symm.trans ht)) hnothing
  · exact absurd (Option.some.inj (h.symm.trans ht)) (hcommand cmd)
  · exact absurd (Option.some.inj (h.symm.trans ht)) (hmulticast ci)

theorem treat_eq_unicast {i : ℕ} {ep : ε} (h : treat endpoints line = some (.unicast ci i ep)) :
    ∃ cmd arg more v, strtok ' ' line = cmd :: arg :: more ∧ cindex cmd = some ci ∧
      atoi arg = some v ∧ v.toInt = i + 1 ∧ endpoints[i]? = some ep := by
  obtain ⟨cmd, arg, more, cj, v, hline, hcj, hv, hnumbered⟩ :=
    number_of_treat h (by simp) (by simp) (by simp)
  obtain ⟨rfl, hi, hep⟩ := numbered_eq_unicast_iff.mp hnumbered
  exact ⟨cmd, arg, more, v, hline, hcj, hv, hi, hep⟩

theorem treat_eq_invalidIndex {e : Int32} (h : treat endpoints line = some (.invalidIndex e)) :
    ∃ cmd arg more, strtok ' ' line = cmd :: arg :: more ∧ atoi arg = some 0 := by
  obtain ⟨cmd, arg, more, cj, v, hline, -, hv, hnumbered⟩ :=
    number_of_treat h (by simp) (by simp) (by simp)
  obtain ⟨rfl, -⟩ := numbered_eq_invalidIndex_iff.mp hnumbered
  exact ⟨cmd, arg, more, hline, hv⟩

theorem treated_of_iteration {s t : Client ε} {u : Treated ε}
    (h : iteration endpoints replies s = some t) (ht : t.treated = s.treated ++ [u]) :
    treat endpoints s.buffer = some u ∧ t.cin = (s.cin.getline 64).2 := by
  obtain ⟨u', hu', hcin, -, htreated, -⟩ := iteration_eq_some h
  obtain rfl : u = u' := by
    rw [htreated] at ht
    exact (List.singleton_inj.mp (List.append_cancel_left ht)).symm
  exact ⟨hu', hcin⟩

theorem sends_of_unicast {s : Client ε} {token : Text} {i : ℕ} {ep : ε}
    (hci : cindex cmd = some ci) (hnumeral : numeral token = some (i + 1 : ℤ))
    (hep : endpoints[i]? = some ep) (h : treat endpoints s.buffer = some (.unicast ci i ep)) :
    Sends endpoints replies s cmd token := by
  obtain ⟨place, hs, -⟩ := unicast_cases replies ci i ep (s.took (.unicast ci i ep))
  refine ⟨ci, i, ep, _, hci, hnumeral, hep, iteration_of_treat h, ?_, ?_⟩
  · rw [perform, hs]
    rfl
  · rw [perform, hs]
    rfl

theorem reports_of_zero {s : Client ε} {line rest : Bytes} (hplace : s.place = .prompting)
    (hgood : s.cin.Good) (hnext : Istream.nextLine s.cin.rest = some (line, rest))
    (hlen : line.length < 64) (h : treat endpoints s.buffer = some (.invalidIndex 0)) :
    Reports endpoints replies s rest := by
  obtain ⟨eof, hget, -⟩ := Istream.getline_of_short hgood hnext hlen
  refine ⟨0, _, iteration_of_treat h, rfl, rfl, rfl, hplace, ?_, ?_⟩
  · change (s.cin.getline 64).2.fail = false
    rw [hget]
  · change (s.cin.getline 64).2.rest = rest
    rw [hget]

theorem within_of_sends {s : Client ε} {line rest : Bytes} {token : Text}
    (hnext : Istream.nextLine s.cin.rest = some (line, rest))
    (h : Sends endpoints replies s cmd token) :
    s.cin.Good ∧ ∃ shown others, strtok ' ' (line.take 63) = cmd :: shown :: others ∧
      ∃ (i : ℕ) (v : Int32), i < endpoints.length ∧ numeral token = some (i + 1 : ℤ) ∧
        atoi shown = some v ∧ v.toInt = i + 1 := by
  obtain ⟨ci, i, ep, t, hci, hnumeral, hep, ht, htreated, -⟩ := h
  obtain ⟨htreat, -⟩ := treated_of_iteration ht htreated
  obtain ⟨cmd', shown, others, v, hshown, hci', hv, hi, -⟩ := treat_eq_unicast htreat
  obtain ⟨line', rest', hgood, hnext', hbuffer⟩ :=
    line_of_buffer (buffer_ne_nil hshown (List.cons_ne_nil _ _))
  obtain ⟨rfl, -⟩ := Prod.mk.inj (Option.some.inj (hnext.symm.trans hnext'))
  obtain rfl : cmd = cmd' := by
    rw [cindex_eq_some_iff.mp hci, cindex_eq_some_iff.mp hci']
  have hlt := (List.getElem?_eq_some_iff.mp hep).1
  exact ⟨hgood, shown, others, hbuffer ▸ hshown, i, v, hlt, hnumeral, hv, hi⟩

theorem within_of_reports {s : Client ε} {line rest : Bytes} {token : Text}
    (hnext : Istream.nextLine s.cin.rest = some (line, rest))
    (hline : strtok ' ' line = cmd :: token :: more) (h : Reports endpoints replies s rest) :
    s.cin.Good ∧ ∃ shown others, strtok ' ' (line.take 63) = cmd :: shown :: others ∧
      line.length < 64 ∧ atoi shown = some 0 := by
  obtain ⟨e, t, ht, htreated, -, -, -, hfail, -⟩ := h
  obtain ⟨htreat, hcin⟩ := treated_of_iteration ht htreated
  obtain ⟨cmd', shown, others, hshown, hzero⟩ := treat_eq_invalidIndex htreat
  obtain ⟨line', rest', hgood, hnext', hbuffer⟩ :=
    line_of_buffer (buffer_ne_nil hshown (List.cons_ne_nil _ _))
  obtain ⟨rfl, rfl⟩ := Prod.mk.inj (Option.some.inj (hnext.symm.trans hnext'))
  have hlen : line.length < 64 := by
    by_contra hlong
    obtain ⟨rest', hget⟩ := Istream.getline_of_long hgood hnext (by decide) (Nat.not_lt.mp hlong)
    rw [hcin, hget] at hfail
    exact nomatch hfail
  have htake : line.take 63 = line := List.take_of_length_le (Nat.le_of_lt_succ hlen)
  rw [hbuffer, htake, hline] at hshown
  obtain ⟨-, hwords⟩ := List.cons.inj hshown
  obtain ⟨rfl, -⟩ := List.cons.inj hwords
  exact ⟨hgood, token, more, htake.symm ▸ hline, hlen, hzero⟩

/-- The line in the buffer leads behind the vector only with a command and a number, which
the whole line has then as well. -/
theorem treat_of_within {s : Client ε} (h : Within endpoints s) :
    treat endpoints s.buffer ≠ none := by
  rcases treat_cases endpoints s.buffer with ⟨cmd, arg, more, ci, hbuffer, hci, ht⟩ | ht |
    ⟨cmd, ht⟩ | ⟨cmd, ci, hbuffer, hci, ht⟩
  · obtain ⟨line, rest, hgood, hnext, hline⟩ :=
      line_of_buffer (buffer_ne_nil hbuffer (List.cons_ne_nil _ _))
    rw [hline] at hbuffer
    obtain ⟨token, others, htokens⟩ := strtok_of_take hbuffer
    obtain ⟨-, shown, rest', hshown, hnumber⟩ :=
      h line rest cmd token others hnext htokens (cindex_isSome_iff.mp ⟨ci, hci⟩)
    obtain ⟨-, hcons⟩ := List.cons.inj (hbuffer.symm.trans hshown)
    obtain ⟨rfl, -⟩ := List.cons.inj hcons
    rw [ht]
    rcases hnumber with ⟨i, v, hlt, -, hv, hi⟩ | ⟨-, hzero⟩
    · have hep := List.getElem?_eq_getElem hlt
      rw [hv, Option.bind_some, numbered_eq_unicast_iff.mpr ⟨rfl, hi, hep⟩]
      exact nofun
    · rw [hzero, Option.bind_some, numbered_eq_invalidIndex_iff.mpr ⟨rfl, rfl⟩]
      exact nofun
  · rw [ht]
    exact nofun
  · rw [ht]
    exact nofun
  · rw [ht]
    exact nofun

theorem checked_iff {s : Client ε} (hplace : s.place = .prompting) :
    Checked endpoints replies s ↔ Within endpoints s := by
  constructor
  · rintro ⟨hlines, -⟩ line rest cmd token more hnext hline hcmd
    rcases hlines line rest cmd token more hnext hline hcmd with hsends | hreports
    · obtain ⟨hgood, shown, others, hshown, hnumber⟩ := within_of_sends hnext hsends
      exact ⟨hgood, shown, others, hshown, Or.inl hnumber⟩
    · obtain ⟨hgood, shown, others, hshown, hzero⟩ := within_of_reports hnext hline hreports
      exact ⟨hgood, shown, others, hshown, Or.inr hzero⟩
  · intro hwithin
    refine ⟨fun line rest cmd token more hnext hline hcmd => ?_, ?_⟩
    · obtain ⟨hgood, shown, others, hshown, hnumber⟩ :=
        hwithin line rest cmd token more hnext hline hcmd
      obtain ⟨ci, hci⟩ := cindex_isSome_iff.mpr hcmd
      rw [← buffer_of_line hgood hnext] at hshown
      rcases hnumber with ⟨i, v, hlt, hnumeral, hv, hi⟩ | ⟨hlen, hzero⟩
      · have hep := List.getElem?_eq_getElem hlt
        refine Or.inl (sends_of_unicast hci hnumeral hep ?_)
        rw [treat_of_number hshown hci hv]
        exact numbered_eq_unicast_iff.mpr ⟨rfl, hi, hep⟩
      · refine Or.inr (reports_of_zero hplace hgood hnext hlen ?_)
        rw [treat_of_number hshown hci hzero]
        exact numbered_eq_invalidIndex_iff.mpr ⟨rfl, rfl⟩
    · intro hnone
      exact treat_of_within hwithin (Option.map_eq_none_iff.mp hnone)

end

end Vsys.CppAsio.Client
