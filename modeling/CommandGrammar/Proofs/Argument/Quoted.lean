import CommandGrammar.Proofs.Argument.Text
import CommandGrammar.Proofs.Steps

/-!
# Phrases in quotes

Two scanners meet in a phrase in quotes. The cursor looks for the closing quote, a flag telling it
whether the character before was a backslash that counts. The phrase takes the outer quotes away
and undoes the escapes, of which it knows two. Of the texts that begin with a quote, the phrase
reads exactly the quoted forms (`readQuotable_eq_ok`), and a quoted form at the front of a line is
what the cursor cuts off there. So the two agree on where a phrase ends, also where it is not
closed, where its last quote is escaped and where more text is glued to it
(`reads_exactly_quoted`).
-/

namespace CommandGrammar

/-- What is cut off where a quote opens begins with it. -/
theorem Span.head?_cut_quoted {cs : List Char} (h : cs.head? = some quote) :
    (quoted.cut cs).1.head? = some quote := by
  obtain ⟨cs, rfl⟩ := List.head?_eq_some_iff.mp h
  rw [cut, if_pos rfl, List.head?_cons]

namespace Phrase

/-- Undoing escapes succeeds on escaped texts only. -/
@[simp] theorem unescape_eq_ok {cs s : List Char} : unescape cs = .ok s ↔ cs = escaped s := by
  refine ⟨fun h => ?_, fun h => h ▸ unescape_escaped s⟩
  fun_induction unescape cs generalizing s with
  | case1 =>
    cases h
    rfl
  | case2 d ds hd ih =>
    obtain ⟨s', hs', rfl⟩ := Except.map_eq_ok.mp h
    simp [hd, ih hs']
  | case3 => simp at h
  | case4 => simp at h
  | case5 => simp at h
  | case6 c cs he hq ih =>
    obtain ⟨s', hs', rfl⟩ := Except.map_eq_ok.mp h
    simp [hq, he, ih hs']

/-- After the opening quote, a phrase is an escaped text and the closing quote. -/
@[simp] theorem unquote_eq_ok {cs s : List Char} :
    unquote cs = .ok s ↔ cs = escaped s ++ [quote] := by
  unfold unquote
  constructor
  · intro h
    split at h
    · next hlast =>
      obtain ⟨body, rfl⟩ := List.getLast?_eq_some_iff.mp hlast
      rw [List.dropLast_concat] at h
      rw [unescape_eq_ok.mp h]
    · simp at h
  · rintro rfl
    rw [if_pos List.getLast?_concat, List.dropLast_concat, unescape_escaped]

/-- Of the texts that begin with a quote, the quoted forms are read. -/
theorem readQuotable_eq_ok {cs s : List Char} (h : cs.head? = some quote) :
    readQuotable cs = .ok s ↔ cs = quoted s := by
  obtain ⟨cs, rfl⟩ := List.head?_eq_some_iff.mp h
  simp [readQuotable, quoted]

theorem read_eq_ok {p : Phrase} (hp : p.mode = .quotable) {text s : String} :
    p.read text = .ok s ↔ readQuotable text.toList = .ok s.toList := by
  unfold read
  rw [hp]
  constructor
  · intro h
    obtain ⟨cs, hcs, rfl⟩ := Except.map_eq_ok.mp h
    rw [hcs, String.toList_ofList]
  · intro h
    rw [h]
    exact congrArg Except.ok String.ofList_toList

/-- A quotable phrase that begins with a quote is read as `s` exactly if it is the quoted form of
`s`. What the cursor cuts off where a quote opens is read as `s` exactly if the line goes on with
the quoted form of `s`, and then that form is what it cut off. -/
theorem reads_exactly_quoted {p : Phrase} (hp : p.mode = .quotable) (s : String) :
    (∀ text : String, text.toList.head? = some quote →
      (p.read text = .ok s ↔ text.toList = quoted s.toList)) ∧
    ∀ c : Cursor, c.rest.head? = some quote → ∃ text d, c.take? .quoted = some (text, d) ∧
      (p.read text = .ok s ↔ quoted s.toList <+: c.rest) ∧
      (p.read text = .ok s → text.toList = quoted s.toList) := by
  have read_iff : ∀ text : String, text.toList.head? = some quote →
      (p.read text = .ok s ↔ text.toList = quoted s.toList) := fun text h =>
    (read_eq_ok hp).trans (readQuotable_eq_ok h)
  refine ⟨read_iff, fun c hc => ?_⟩
  have hne : c.rest ≠ [] := fun h => by simp [h] at hc
  have hcut := Span.quoted.cut_append c.rest
  have hread := read_iff (String.ofList (Span.quoted.cut c.rest).1) (by
    rw [String.toList_ofList]
    exact Span.head?_cut_quoted hc)
  rw [String.toList_ofList] at hread
  refine ⟨_, _, Cursor.take?_of_ne_nil hne .quoted, hread.trans ⟨fun h => ?_, ?_⟩, ?_⟩
  · rw [← hcut, h]
    exact List.prefix_append _ _
  · rintro ⟨left, hleft⟩
    rw [← hleft, Span.cut_quoted]
  · rw [String.toList_ofList]
    exact hread.mp

/-- An escaped quote, an escaped backslash before the closing quote, and text glued to it. -/
theorem reads_exactly_quoted_glued :
    (Phrase.mk "text" .quotable).mode = .quotable ∧
      "\"a \\\"b\\\\\"".toList.head? = some quote ∧
      (Phrase.mk "text" .quotable).read "\"a \\\"b\\\\\"" = .ok "a \"b\\" ∧
      (Cursor.start "\"a \\\"b\\\\\"c\"").rest.head? = some quote ∧
      ∃ text d, (Cursor.start "\"a \\\"b\\\\\"c\"").take? .quoted = some (text, d) ∧
        text = "\"a \\\"b\\\\\"" ∧ (Phrase.mk "text" .quotable).read text = .ok "a \"b\\" := by
  have hquoted : "\"a \\\"b\\\\\"".toList = quoted "a \"b\\".toList := by decide
  have hc : (Cursor.start "\"a \\\"b\\\\\"c\"").rest.head? = some quote := by decide
  have hprefix : quoted "a \"b\\".toList <+: (Cursor.start "\"a \\\"b\\\\\"c\"").rest := by decide
  obtain ⟨read_iff, cuts⟩ :=
    reads_exactly_quoted (p := Phrase.mk "text" .quotable) rfl "a \"b\\"
  obtain ⟨text, d, htake, hread, htext⟩ := cuts _ hc
  have hread := hread.mpr hprefix
  exact ⟨rfl, by decide, (read_iff _ (by decide)).mpr hquoted, hc, text, d, htake,
    String.toList_injective ((htext hread).trans hquoted.symm), hread⟩

end Phrase

end CommandGrammar
