import CommandGrammar.Proofs.Line.Choice
import CommandGrammar.Proofs.Line.Spacing
import Mathlib.Data.List.DropRight

/-!
# What arguments are handed

Arguments check the text that they are handed, also for what a cursor never hands them: a word for
spaces, a phrase without quotes for spaces, a phrase in quotes for a quote inside that is not
escaped. A cursor looks for the same things to tell where a piece ends (`Span.hands_cut`), from
whatever place of a line. So these three rejections come of texts that are read on their own, but
never of a line (`Graph.no_stray_space_or_quote`).

What is escaped is told by counting backslashes (`EscapesNext`), as neither the cursor nor the
phrase does.
-/

namespace CommandGrammar

/-- What comes after this text is escaped: the backslashes right before it are odd in number. -/
def EscapesNext (cs : List Char) : Prop :=
  (cs.rtakeWhile (· = escape)).length % 2 = 1

/-- Where text is scanned from left to right, whether the character after it is escaped. -/
def escapedAfter (escaped : Bool) (cs : List Char) : Bool :=
  cs.foldl (fun escaped c => !escaped && c = escape) escaped

/-- Scanning comes to the same as counting. -/
theorem escapesNext_iff {cs : List Char} : EscapesNext cs ↔ escapedAfter false cs = true := by
  unfold EscapesNext
  induction cs using List.reverseRecOn with
  | nil => simp [escapedAfter]
  | append_singleton cs c ih =>
    have hscan : escapedAfter false (cs ++ [c]) = (!escapedAfter false cs && c = escape) := by
      rw [escapedAfter, List.foldl_concat]
      rfl
    rw [hscan]
    by_cases hc : c = escape
    · rw [List.rtakeWhile_concat_pos _ _ _ (by simpa using hc), List.length_append]
      cases hcs : escapedAfter false cs <;> simp [hc, hcs] at ih ⊢ <;> omega
    · rw [List.rtakeWhile_concat_neg _ _ _ (by simpa using hc)]
      simp [hc]

namespace Span

/-- What texts of this span are like: those of one token have no space, and those that begin with a
quote, no other quote before the last character but escaped ones. -/
def Hands : Span → List Char → Prop
  | single, cs => space ∉ cs
  | quoted, cs => (cs.head? ≠ some quote → space ∉ cs) ∧
    ∀ front back, cs = quote :: (front ++ quote :: back) → back ≠ [] → EscapesNext front
  | rest, _ => True

theorem space_notMem_cutToken (cs : List Char) : space ∉ (cutToken cs).1 := fun h => by
  simpa using List.mem_takeWhile_imp h

/-- A quote before the end of what is cut off did not close the phrase, so it is escaped. -/
theorem escapedAfter_of_cutPhrase :
    ∀ {escaped : Bool} {cs front back : List Char},
      (cutPhrase escaped cs).1 = front ++ quote :: back → back ≠ [] →
        escapedAfter escaped front = true
  | _, [], _, _, h, _ => by simp at h
  | true, _ :: _, [], _, _, _ => rfl
  | true, c :: cs, d :: front, back, h, hback => by
    have ih : escapedAfter false front = true :=
      escapedAfter_of_cutPhrase (List.cons.inj h).2 hback
    exact ih
  | false, c :: cs, front, back, h, hback => by
    rw [cutPhrase] at h
    split at h
    · rcases List.append_eq_singleton_iff.mp h.symm with ⟨-, h⟩ | ⟨-, h⟩
      · exact absurd (List.cons.inj h).2 hback
      · cases h
    · next hc =>
      cases front with
      | nil => exact absurd (List.cons.inj h).1 hc
      | cons d front =>
        have hcons : c :: (cutPhrase (c = escape) cs).1 = d :: (front ++ quote :: back) := h
        obtain ⟨rfl, hphrase⟩ := List.cons.inj hcons
        have ih : escapedAfter (c = escape) front = true :=
          escapedAfter_of_cutPhrase hphrase hback
        exact ih

/-- What is cut off is like the texts of its span. -/
theorem hands_cut (s : Span) (cs : List Char) : s.Hands (s.cut cs).1 := by
  cases s with
  | single => exact space_notMem_cutToken cs
  | rest => trivial
  | quoted =>
    cases cs with
    | nil => exact ⟨fun _ => List.not_mem_nil, fun front back h => by cases h⟩
    | cons c cs =>
      by_cases hc : c = quote
      · rw [cut, if_pos hc]
        refine ⟨fun hhead => absurd (congrArg some hc) hhead, fun front back h hback => ?_⟩
        exact escapesNext_iff.mpr (escapedAfter_of_cutPhrase (List.cons.inj h).2 hback)
      · rw [cut, if_neg hc]
        refine ⟨fun _ => space_notMem_cutToken _, fun front back h => ?_⟩
        -- A token of a line that begins with another character does not begin with a quote.
        have hcut := single.cut_append (c :: cs)
        rw [cut, h] at hcut
        exact absurd (List.cons.inj hcut).1.symm hc

end Span

theorem Cursor.hands_of_take? {s : Span} {c d : Cursor} {text : String}
    (h : c.take? s = some (text, d)) : s.Hands text.toList := by
  rw [take?_of_ne_nil (ne_nil_of_take? h)] at h
  obtain ⟨rfl, -⟩ := Prod.mk.inj (Option.some.inj h)
  rw [String.toList_ofList]
  exact s.hands_cut c.rest

/-! ## Reasons -/

/-- Lines are rejected for this reason. -/
def Reason.Occurs : Reason → Prop
  | spaceInWord | quotesMissing | quoteInside | other .. => False
  | _ => True

/-- Where two reasons of a family have one code, they are told apart by their texts. -/
theorem Reason.Occurs.differs {r : Reason} (h : r.Occurs) :
    (r.family = .word → r.code ≠ 1) ∧
      (r.family = .phrase → r.text ≠ quotesMissing.text ∧ r.text ≠ quoteInside.text) := by
  cases r with
  | spaceInWord | quotesMissing | quoteInside | other => exact h.elim
  | notAChoice => exact ⟨fun _ => by decide, (nomatch ·)⟩
  | quoteNotClosed | badEscape =>
    exact ⟨(nomatch ·), fun _ => ⟨by decide, by decide⟩⟩
  | notLiteral | notBoolean | notNumber | tooLow | tooHigh | emptyLine | unknownCommand
  | takesNoArguments | trailingInput | missingArguments | missingArgument =>
    exact ⟨(nomatch ·), (nomatch ·)⟩

namespace Phrase

/-- A quote inside is objected to only if it is not escaped. -/
theorem exists_of_unescape {cs : List Char} (h : unescape cs = .error .quoteInside) :
    ∃ front back, cs = front ++ quote :: back ∧ escapedAfter false front = false := by
  fun_induction unescape cs with
  | case1 => cases h
  | case2 d ds hd ih =>
    obtain ⟨front, back, rfl, hfront⟩ := ih (Except.map_eq_error.mp h)
    exact ⟨escape :: d :: front, back, rfl, hfront⟩
  | case3 => cases h
  | case4 => cases h
  | case5 cs => exact ⟨[], cs, rfl, rfl⟩
  | case6 c cs he _ ih =>
    obtain ⟨front, back, rfl, hfront⟩ := ih (Except.map_eq_error.mp h)
    refine ⟨c :: front, back, rfl, ?_⟩
    rwa [escapedAfter, List.foldl_cons, show (!false && decide (c = escape)) = false by simp [he]]

/-- Undoing escapes fails for two reasons only. -/
theorem reason_of_unescape {cs : List Char} {reason : Reason} (h : unescape cs = .error reason) :
    reason = .badEscape ∨ reason = .quoteInside := by
  fun_induction unescape cs with
  | case1 => cases h
  | case2 d ds hd ih => exact ih (Except.map_eq_error.mp h)
  | case3 => exact .inl (Except.error.inj h).symm
  | case4 => exact .inl (Except.error.inj h).symm
  | case5 => exact .inr (Except.error.inj h).symm
  | case6 c cs _ _ ih => exact ih (Except.map_eq_error.mp h)

/-- A phrase is rejected neither for a space nor for a quote that cutting it off has ruled out. -/
theorem occurs_of_readQuotable {cs : List Char} {reason : Reason}
    (hands : Span.quoted.Hands cs) (h : readQuotable cs = .error reason) : reason.Occurs := by
  cases cs with
  | nil => cases h
  | cons c cs =>
    rw [readQuotable] at h
    by_cases hc : c = quote
    · subst hc
      rw [if_pos rfl, unquote] at h
      split at h
      · next hlast =>
        obtain ⟨body, rfl⟩ := List.getLast?_eq_some_iff.mp hlast
        rw [List.dropLast_concat] at h
        rcases reason_of_unescape h with rfl | rfl
        · trivial
        · obtain ⟨front, back, rfl, hfront⟩ := exists_of_unescape h
          have hescapes := hands.2 front (back ++ [quote]) (by simp) (by simp)
          rw [escapesNext_iff, hfront] at hescapes
          cases hescapes
      · obtain rfl := Except.error.inj h
        trivial
    · have hspace : space ∉ c :: cs := hands.1 (by simpa using hc)
      rw [if_neg hc, if_neg hspace] at h
      cases h

end Phrase

theorem Word.reason_of_read {w : Word} {token : String} {reason : Reason}
    (h : w.read token = .error reason) :
    HasSpace token ∧ reason = .spaceInWord ∨ reason = .notAChoice := by
  rw [read] at h
  split at h
  · next hspace => exact .inl ⟨hspace, (Except.error.inj h).symm⟩
  · split at h
    · exact .inr (Except.error.inj h).symm
    · cases h

theorem Number.reason_of_read {n : Number} {numeral : String} {reason : Reason}
    (h : n.read numeral = .error reason) :
    reason = .notNumber ∨ ∃ bound, reason = .tooLow bound ∨ reason = .tooHigh bound := by
  rw [read] at h
  split at h
  · unfold Bounds.check at h
    split at h
    · exact .inr ⟨_, .inl (Except.error.inj h).symm⟩
    · exact .inr ⟨_, .inr (Except.error.inj h).symm⟩
    · cases h
  · exact .inl (Except.error.inj h).symm

namespace Argument

theorem reason_of_readLiteral {name text : String} {reason : Reason}
    (h : readLiteral name text = .error reason) : reason = .notLiteral name := by
  rw [readLiteral] at h
  split at h
  · cases h
  · exact (Except.error.inj h).symm

theorem reason_of_readBoolean {text : String} {reason : Reason}
    (h : readBoolean text = .error reason) : reason = .notBoolean := by
  rw [readBoolean] at h
  split at h
  · cases h
  · split at h
    · cases h
    · exact (Except.error.inj h).symm

/-- What a cursor hands over is not rejected for what the cursor sees to. -/
theorem occurs_of_value {a : Argument} {text : String} {reason : Reason}
    (hands : a.span.Hands text.toList) (h : a.value text = .error reason) : reason.Occurs := by
  cases a with
  | literal name =>
    obtain rfl := reason_of_readLiteral (Except.map_eq_error.mp h)
    trivial
  | word w =>
    rcases Word.reason_of_read (Except.map_eq_error.mp h) with ⟨hspace, -⟩ | rfl
    · exact absurd hspace hands
    · trivial
  | phrase p =>
    obtain ⟨id, mode⟩ := p
    have h := Except.map_eq_error.mp h
    cases mode with
    | greedy => cases h
    | quotable => exact Phrase.occurs_of_readQuotable hands (Except.map_eq_error.mp h)
  | boolean id =>
    obtain rfl := reason_of_readBoolean (Except.map_eq_error.mp h)
    trivial
  | number n =>
    rcases Number.reason_of_read (Except.map_eq_error.mp h) with rfl | ⟨_, rfl | rfl⟩ <;> trivial

theorem occurs_of_read {a : Argument} {text : String} {r : Rejection}
    (hands : a.span.Hands text.toList) (h : a.read text = .error r) : r.reason.Occurs := by
  unfold read at h
  cases hv : a.value text with
  | ok v => simp [hv, Except.mapError] at h
  | error reason =>
    rw [hv] at h
    obtain rfl := Except.error.inj h
    exact occurs_of_value hands hv

end Argument

/-! ## Lines -/

/-- What stops a usage occurs. -/
theorem Usage.Halt.occurs {args : List Argument} {c : Cursor} {r : Rejection}
    (h : Halt args c r) : r.reason.Occurs := by
  cases h with
  | trailing => trivial
  | missing => trivial
  | rejected htake hread => exact Argument.occurs_of_read (Cursor.hands_of_take? htake) hread

/-- A command is rejected for what stops one of its usages. -/
theorem Command.occurs_of_readArguments {c : Command} {d : Cursor} {r : Rejection}
    (h : c.readArguments d = .error r) : r.reason.Occurs := by
  rcases halt_of_readArguments h with hreason | ⟨_, _, halt⟩
  · rw [hreason]
    trivial
  · exact halt.occurs

namespace Graph

theorem occurs_of_read {g : Graph} {line : String} {r : Rejection} (h : g.read line = .error r) :
    r.reason.Occurs := by
  unfold read at h
  split at h
  · obtain rfl := Except.error.inj h
    trivial
  · obtain rfl := Except.error.inj h
    trivial
  · next name d _ _ =>
    cases hfind : g.find? name with
    | none =>
      simp only [hfind] at h
      obtain rfl := Except.error.inj h
      trivial
    | some c =>
      simp only [hfind] at h
      split at h
      · exact c.occurs_of_readArguments h
      · split at h
        · cases h
        · obtain rfl := Except.error.inj h
          trivial

/-- No line is rejected for a space in a word, for a space in a phrase without quotes, or for a
quote that closes a phrase too early: wherever a cursor stands, no text that it hands to an argument
of one token has a space, nor does one for a quotable phrase that begins without a quote, and if it
begins with a quote, all quotes after it are escaped but for one at the end. -/
theorem no_stray_space_or_quote (g : Graph) (line : String) :
    (∀ r, g.read line = .error r → r.is .word 1 = false ∧
      (r.reason.family = .phrase → r.reason.text ≠ "Phrases with spaces must be quoted" ∧
        r.reason.text ≠ "Unexpected quote inside phrase")) ∧
    ∀ (a : Argument) (c d : Cursor) (text : String), c.take? a.span = some (text, d) →
      (a.span = .single → ¬HasSpace text) ∧
      (a.span = .quoted → text.toList.head? ≠ some quote → ¬HasSpace text) ∧
      (a.span = .quoted → ∀ front back, text.toList = quote :: (front ++ quote :: back) →
        back ≠ [] → EscapesNext front) := by
  refine ⟨fun r hr => ?_, fun a c d text htake => ?_⟩
  · obtain ⟨hword, hphrase⟩ := (occurs_of_read hr).differs
    exact ⟨by simpa [Rejection.is] using hword, hphrase⟩
  · have hands := Cursor.hands_of_take? htake
    refine ⟨fun hspan => ?_, fun hspan => ?_, fun hspan => ?_⟩ <;> rw [hspan] at hands
    · exact hands
    · exact hands.1
    · exact hands.2

/-- A phrase that is never closed, its last quote being escaped, and one with an escaped quote
inside. -/
theorem no_stray_space_or_quote_sign : ∃ g r, ofCommands true 1 signCommands = .ok g ∧
    g.read "sign \"say hi\\\"" = .error r ∧ r = ⟨.badEscape, "\"say hi\\\""⟩ ∧
    r.is .word 1 = false ∧ r.reason.family = .phrase ∧
    r.reason.text ≠ "Phrases with spaces must be quoted" ∧
    r.reason.text ≠ "Unexpected quote inside phrase" ∧
    ∃ text d, (Cursor.start "\"say \\\"hi\" true").take? .quoted = some (text, d) ∧
      text.toList = quote :: ("say \\".toList ++ quote :: "hi\"".toList) ∧
      EscapesNext "say \\".toList := by
  have facts : (ofCommands true 1 signCommands).toOption.map (fun g =>
      Except.error? (g.read "sign \"say hi\\\"")) =
      some (some ⟨.badEscape, "\"say hi\\\""⟩) := by
    decide +kernel
  have htake : (Cursor.start "\"say \\\"hi\" true").take? .quoted =
      some ("\"say \\\"hi\"", ⟨11, "true".toList⟩) := by decide +kernel
  obtain ⟨g, hg, facts⟩ := Except.exists_of_map_toOption facts
  have hr := Except.error?_eq_some.mp facts
  obtain ⟨rejects, hands⟩ := no_stray_space_or_quote g "sign \"say hi\\\""
  obtain ⟨hword, hphrase⟩ := rejects _ hr
  obtain ⟨-, -, hescapes⟩ := hands (.phrase ⟨"text", .quotable⟩) _ _ _ htake
  exact ⟨g, _, hg, hr, rfl, hword, rfl, (hphrase rfl).1, (hphrase rfl).2, _, _, htake, by decide,
    hescapes rfl _ "hi\"".toList (by decide) (by decide)⟩

end Graph

end CommandGrammar
