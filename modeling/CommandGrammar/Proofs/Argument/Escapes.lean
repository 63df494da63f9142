import CommandGrammar.Proofs.Line.Handed

/-!
# What phrases are rejected for

A quotable phrase is rejected for its quotes or for an escape, and the two have different codes. The
closing quote is taken away before escapes are undone, so a backslash before it is seen to stand
before nothing. That is a bad escape too (`Phrase.unescape_eq_badEscape`), although it stands before
a quote: a phrase that is not closed because its last quote is escaped is rejected for an escape,
and no other phrase is unless it has a bad one (`Phrase.codes_of_read`,
`Phrase.lastQuote_escaped`).
-/

namespace CommandGrammar.Phrase

/-! ## Bad escapes -/

/-- A backslash that is not escaped stands before a character that it cannot escape. -/
def Misescapes (cs : List Char) : Prop :=
  ∃ front c back, cs = front ++ escape :: c :: back ∧ ¬EscapesNext front ∧ c ≠ quote ∧ c ≠ escape

@[simp] theorem not_misescapes_nil : ¬Misescapes [] := by
  rintro ⟨front, c, back, h, -⟩
  simp at h

theorem escapesNext_cons {c : Char} (hc : c ≠ escape) {cs : List Char} :
    EscapesNext (c :: cs) ↔ EscapesNext cs := by
  simp [escapesNext_iff, escapedAfter, hc]

/-- A backslash and the character after it leave what follows as it was. -/
@[simp] theorem escapesNext_escape (c : Char) (cs : List Char) :
    EscapesNext (escape :: c :: cs) ↔ EscapesNext cs := by
  simp [escapesNext_iff, escapedAfter]

theorem misescapes_cons {c : Char} (hc : c ≠ escape) {cs : List Char} :
    Misescapes (c :: cs) ↔ Misescapes cs := by
  constructor
  · rintro ⟨_ | ⟨b, front⟩, d, back, h, hfront, hd⟩
    · exact absurd (List.cons.inj h).1 hc
    · obtain ⟨rfl, rfl⟩ := List.cons.inj h
      exact ⟨front, d, back, rfl, mt (escapesNext_cons hc).mpr hfront, hd⟩
  · rintro ⟨front, d, back, rfl, hfront, hd⟩
    exact ⟨c :: front, d, back, rfl, mt (escapesNext_cons hc).mp hfront, hd⟩

/-- A backslash and the character after it are read together. -/
@[simp] theorem misescapes_escape {c : Char} {cs : List Char} :
    Misescapes (escape :: c :: cs) ↔ (c ≠ quote ∧ c ≠ escape) ∨ Misescapes cs := by
  constructor
  · rintro ⟨_ | ⟨b, _ | ⟨b', front⟩⟩, d, back, h, hfront, hd⟩
    · obtain ⟨rfl, -⟩ := List.cons.inj (List.cons.inj h).2
      exact .inl hd
    · obtain ⟨rfl, -⟩ := List.cons.inj h
      exact absurd (by simp [escapesNext_iff, escapedAfter]) hfront
    · obtain ⟨rfl, htail⟩ := List.cons.inj h
      obtain ⟨rfl, rfl⟩ := List.cons.inj htail
      exact .inr ⟨front, d, back, rfl, mt (escapesNext_escape c front).mpr hfront, hd⟩
  · rintro (hc | ⟨front, d, back, rfl, hfront, hd⟩)
    · exact ⟨[], c, cs, rfl, by simp [escapesNext_iff, escapedAfter], hc⟩
    · exact ⟨escape :: c :: front, d, back, rfl, mt (escapesNext_escape c front).mp hfront, hd⟩

/-- In an escaped text there is no bad escape, so what follows decides. -/
@[simp] theorem misescapes_escaped_append (s cs : List Char) :
    Misescapes (escaped s ++ cs) ↔ Misescapes cs := by
  induction s with
  | nil => rfl
  | cons c s ih =>
    by_cases hc : c = quote ∨ c = escape
    · simp only [escaped, if_pos hc, List.cons_append, misescapes_escape, ih]
      exact or_iff_right fun h => hc.elim h.1 h.2
    · simp [hc, misescapes_cons (not_or.mp hc).2, ih]

/-! ## Undoing escapes -/

/-- The first fault is an escape if an escaped text comes before a backslash that stands before
nothing, or before a character that it cannot escape. -/
theorem unescape_eq_badEscape {cs : List Char} :
    unescape cs = .error .badEscape ↔ ∃ s tail, cs = escaped s ++ escape :: tail ∧
      ∀ c ∈ tail.head?, c ≠ quote ∧ c ≠ escape := by
  constructor
  · intro h
    fun_induction unescape cs with
    | case1 => cases h
    | case2 d ds hd ih =>
      obtain ⟨s, tail, rfl, htail⟩ := ih (Except.map_eq_error.mp h)
      exact ⟨d :: s, tail, by simp [hd], htail⟩
    | case3 d ds hd => exact ⟨[], d :: ds, rfl, by simpa using not_or.mp hd⟩
    | case4 => exact ⟨[], [], rfl, by simp⟩
    | case5 => cases h
    | case6 c cs he hq ih =>
      obtain ⟨s, tail, rfl, htail⟩ := ih (Except.map_eq_error.mp h)
      exact ⟨c :: s, tail, by simp [hq, he], htail⟩
  · rintro ⟨s, tail, rfl, htail⟩
    induction s with
    | nil =>
      rw [escaped, List.nil_append, unescape.eq_def]
      cases tail with
      | nil => rfl
      | cons c tail =>
        have hc : ¬(c = quote ∨ c = escape) := not_or.mpr (htail c rfl)
        simp only [if_pos, if_neg hc]
    | cons c s ih =>
      by_cases hc : c = quote ∨ c = escape
      · simp [hc, unescape, ih]
      · obtain ⟨hq, he⟩ := not_or.mp hc
        rw [escaped, if_neg hc, List.cons_append, unescape.eq_def]
        simp only [if_neg hq, if_neg he, ih]
        rfl

/-- A phrase is rejected for an escape if the backslash is found between two quotes. -/
theorem readQuotable_eq_badEscape {cs : List Char} :
    readQuotable cs = .error .badEscape ↔
      ∃ s tail, cs = quote :: (escaped s ++ escape :: (tail ++ [quote])) ∧
        ∀ c ∈ tail.head?, c ≠ quote ∧ c ≠ escape := by
  constructor
  · intro h
    cases cs with
    | nil => cases h
    | cons c cs =>
      rw [readQuotable] at h
      split at h
      · next hc =>
        rw [unquote] at h
        split at h
        · next hlast =>
          obtain ⟨body, rfl⟩ := List.getLast?_eq_some_iff.mp hlast
          rw [List.dropLast_concat] at h
          obtain ⟨s, tail, rfl, htail⟩ := unescape_eq_badEscape.mp h
          exact ⟨s, tail, by simp [hc], htail⟩
        · cases h
      · split at h <;> cases h
  · rintro ⟨s, tail, rfl, htail⟩
    have hassoc : escaped s ++ escape :: (tail ++ [quote]) =
        (escaped s ++ escape :: tail) ++ [quote] := by simp
    rw [readQuotable, if_pos rfl, hassoc, unquote, if_pos List.getLast?_concat,
      List.dropLast_concat, unescape_eq_badEscape.mpr ⟨s, tail, rfl, htail⟩]

/-! ## Codes -/

/-- A phrase in quotes that is not closed, though its last character is a quote: this one, like all
others after the first, is escaped. -/
def LastQuoteEscaped (cs : List Char) : Prop :=
  ∃ s, cs = quote :: (escaped s ++ [escape, quote])

/-- A phrase whose last quote is escaped is rejected for the backslash before it. -/
theorem LastQuoteEscaped.readQuotable {cs : List Char} (h : LastQuoteEscaped cs) :
    readQuotable cs = .error .badEscape := by
  obtain ⟨s, rfl⟩ := h
  exact readQuotable_eq_badEscape.mpr ⟨s, [], rfl, by simp⟩

/-- In such a phrase, every backslash escapes a quote or a backslash. -/
theorem LastQuoteEscaped.not_misescapes {cs : List Char} (h : LastQuoteEscaped cs) :
    ¬∃ cs', cs = quote :: cs' ∧ Misescapes cs' := by
  obtain ⟨s, rfl⟩ := h
  rintro ⟨cs', hcs, hbad⟩
  obtain rfl := (List.cons.inj hcs).2
  rcases misescapes_escape.mp ((misescapes_escaped_append s _).mp hbad) with hquote | hnil
  · exact hquote.1 rfl
  · exact not_misescapes_nil hnil

/-- A phrase is rejected for an escape only if it has a bad one, or its last quote is escaped. -/
theorem misescapes_or_lastQuoteEscaped {cs : List Char}
    (h : readQuotable cs = .error .badEscape) :
    (∃ cs', cs = quote :: cs' ∧ Misescapes cs') ∨ LastQuoteEscaped cs := by
  obtain ⟨s, tail, rfl, htail⟩ := readQuotable_eq_badEscape.mp h
  cases tail with
  | nil => exact .inr ⟨s, rfl⟩
  | cons c tail =>
    have hbad : Misescapes (escape :: c :: (tail ++ [quote])) :=
      misescapes_escape.mpr (.inl (htail c rfl))
    exact .inl ⟨_, rfl, (misescapes_escaped_append s _).mpr hbad⟩

/-- Any other fault of a phrase is told as one of its quotes. -/
theorem code_of_readQuotable {cs : List Char} {reason : Reason}
    (h : readQuotable cs = .error reason) :
    reason = .badEscape ∨ reason.family = .phrase ∧ reason.code = 1 := by
  cases cs with
  | nil => cases h
  | cons c cs =>
    rw [readQuotable] at h
    split at h
    · rw [unquote] at h
      split at h
      · rcases reason_of_unescape h with rfl | rfl
        · exact .inl rfl
        · exact .inr ⟨rfl, rfl⟩
      · obtain rfl := Except.error.inj h
        exact .inr ⟨rfl, rfl⟩
    · split at h
      · obtain rfl := Except.error.inj h
        exact .inr ⟨rfl, rfl⟩
      · cases h

theorem read_eq_error {p : Phrase} (hp : p.mode = .quotable) {text : String} {r : Rejection} :
    (Argument.phrase p).read text = .error r ↔
      readQuotable text.toList = .error r.reason ∧ r.token = text := by
  rw [Argument.read_eq_error, Argument.value, Except.map_eq_error, read, hp]
  exact and_congr_left fun _ => Except.map_eq_error

/-- A quotable phrase is rejected either for its quotes or for an escape. It is for an escape if it
has a bad one, and it is also if it is not closed because its last quote is escaped, although no
escape is bad then; for no other phrase does the code say an escape where none is bad. -/
theorem codes_of_read {p : Phrase} (hp : p.mode = .quotable) (text : String) :
    (∀ r, (Argument.phrase p).read text = .error r →
      r.token = text ∧ (r.is .phrase 1 ∨ r.is .phrase 2) ∧
        (¬LastQuoteEscaped text.toList →
          (r.is .phrase 2 → ∃ cs, text.toList = quote :: cs ∧ Misescapes cs) ∧
          ((¬∃ cs, text.toList = quote :: cs ∧ Misescapes cs) → r.is .phrase 1))) ∧
    (LastQuoteEscaped text.toList →
      (Argument.phrase p).read text = .error ⟨.badEscape, text⟩ ∧
        ¬∃ cs, text.toList = quote :: cs ∧ Misescapes cs) := by
  constructor
  · rintro ⟨reason, token⟩ h
    obtain ⟨hreason, htoken⟩ := (read_eq_error hp).mp h
    obtain rfl := htoken.symm
    rcases code_of_readQuotable hreason with rfl | ⟨hfamily, hcode⟩
    · have hbad := (misescapes_or_lastQuoteEscaped hreason).resolve_right
      exact ⟨rfl, .inr rfl, fun hlast => ⟨fun _ => hbad hlast, absurd (hbad hlast)⟩⟩
    · have hone : (Rejection.mk reason text).is .phrase 1 := by simp [Rejection.is, hfamily, hcode]
      have htwo : ¬(Rejection.mk reason text).is .phrase 2 := by simp [Rejection.is, hcode]
      exact ⟨rfl, .inl hone, fun _ => ⟨fun h => absurd h htwo, fun _ => hone⟩⟩
  · exact fun hlast => ⟨(read_eq_error hp).mpr ⟨hlast.readQuotable, rfl⟩, hlast.not_misescapes⟩

/-- A bad escape inside quotes, and a phrase whose only other quote is escaped. -/
theorem codes_of_read_bad : (Phrase.mk "text" .quotable).mode = .quotable ∧
    (∃ r, (Argument.phrase ⟨"text", .quotable⟩).read "\"a\\nb\"" = .error r ∧
      ¬LastQuoteEscaped "\"a\\nb\"".toList ∧ r.is .phrase 2 ∧
      ∃ cs, "\"a\\nb\"".toList = quote :: cs ∧ Misescapes cs) ∧
    LastQuoteEscaped "\"a\\\"".toList ∧
    (Argument.phrase ⟨"text", .quotable⟩).read "\"a\\\"" = .error ⟨.badEscape, "\"a\\\""⟩ := by
  have hread : (Argument.phrase ⟨"text", .quotable⟩).read "\"a\\nb\"" =
      .error ⟨.badEscape, "\"a\\nb\""⟩ := by
    refine (read_eq_error rfl).mpr ⟨readQuotable_eq_badEscape.mpr ⟨['a'], ['n', 'b'], rfl, ?_⟩, rfl⟩
    simp [quote, escape]
  have hlast : ¬LastQuoteEscaped "\"a\\nb\"".toList := by
    rintro ⟨s, hs⟩
    -- The character before the last one is no backslash.
    have hsplit : quote :: (escaped s ++ [escape, quote]) =
        quote :: escaped s ++ [escape] ++ [quote] := by simp
    rw [hsplit] at hs
    have hback := congrArg (fun cs : List Char => cs.dropLast.getLast?) hs
    rw [List.dropLast_concat, List.getLast?_concat] at hback
    cases hback
  have hclosed : LastQuoteEscaped "\"a\\\"".toList := ⟨['a'], rfl⟩
  obtain ⟨-, -, hcodes⟩ := (codes_of_read (p := ⟨"text", .quotable⟩) rfl _).1 _ hread
  refine ⟨rfl, ⟨_, hread, hlast, rfl, (hcodes hlast).1 rfl⟩, hclosed, ?_⟩
  exact ((codes_of_read (p := ⟨"text", .quotable⟩) rfl _).2 hclosed).1

/-- The only backslash stands before a quote, so no escape is bad and the phrase is not closed, but
the code is that of a bad escape. -/
theorem lastQuote_escaped : ∃ r,
    (Argument.phrase ⟨"text", .quotable⟩).read "\"a\\\"" = .error r ∧ r.is .phrase 2 ∧
      r.is .phrase 1 = false ∧ ¬∃ cs, "\"a\\\"".toList = quote :: cs ∧ Misescapes cs := by
  have hlast : LastQuoteEscaped "\"a\\\"".toList := ⟨['a'], rfl⟩
  exact ⟨_, (read_eq_error (r := ⟨.badEscape, _⟩) rfl).mpr ⟨hlast.readQuotable, rfl⟩, rfl, rfl,
    hlast.not_misescapes⟩

end CommandGrammar.Phrase
