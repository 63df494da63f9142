import CommandGrammar.Proofs.Argument.Escapes
import CommandGrammar.Proofs.Line.Tokens

/-!
# The name that a line begins with

The name of a command is the first token of its line, and no line begins with an empty one. It is
the first token that counts, not the first that is not empty: a line is rejected as empty exactly if
there is nothing before its first space, whatever comes after, and as unknown exactly if no command
answers to what there is (`Graph.refusals_of_read`). So a line that is typed after a space is taken
to be empty, and one of other blanks is not (`Graph.spaced_refused`).
-/

namespace CommandGrammar

/-! ## After the name -/

/-- In whose name an argument rejects. -/
def Argument.family : Argument → Family
  | literal _ => .literal
  | word _ => .word
  | phrase _ => .phrase
  | boolean _ => .boolean
  | number _ => .integer

theorem Argument.family_of_value {a : Argument} {text : String} {reason : Reason}
    (h : a.value text = .error reason) : reason.family = a.family := by
  cases a with
  | literal name =>
    obtain rfl := reason_of_readLiteral (Except.map_eq_error.mp h)
    rfl
  | word w =>
    rcases Word.reason_of_read (Except.map_eq_error.mp h) with ⟨-, rfl⟩ | rfl <;> rfl
  | phrase p =>
    obtain ⟨id, mode⟩ := p
    have h := Except.map_eq_error.mp h
    cases mode with
    | greedy => cases h
    | quotable =>
      rcases Phrase.code_of_readQuotable (Except.map_eq_error.mp h) with rfl | ⟨hfamily, -⟩
      · rfl
      · exact hfamily
  | boolean id =>
    obtain rfl := reason_of_readBoolean (Except.map_eq_error.mp h)
    rfl
  | number n =>
    rcases Number.reason_of_read (Except.map_eq_error.mp h) with rfl | ⟨_, rfl | rfl⟩ <;> rfl

/-- What stops a usage is not that the line is empty or its command unknown. -/
theorem Usage.Halt.named {args : List Argument} {c : Cursor} {r : Rejection}
    (h : Halt args c r) : ¬r.is .command 1 ∧ ¬r.is .command 2 := by
  cases h with
  | trailing => simp [Rejection.is, Reason.code]
  | missing => simp [Rejection.is, Reason.code]
  | @rejected a _ _ _ _ _ _ hread =>
    have hfamily := Argument.family_of_value (Argument.read_eq_error.mp hread).1
    have hcommand : a.family ≠ .command := by cases a <;> simp [Argument.family]
    simp [Rejection.is, hfamily, hcommand]

/-! ## The name -/

/-- The first token is empty if nothing comes before the first space. -/
theorem Cursor.exists_token {c : Cursor} (h : c.rest ≠ []) :
    ∃ name d, c.take? .single = some (name, d) ∧ c.tokens = name :: d.tokens ∧
      (name = "" ↔ Span.Ends c.rest) := by
  have htake := take?_of_ne_nil h .single
  refine ⟨_, _, htake, tokens_of_take? htake, ?_⟩
  cases hrest : c.rest with
  | nil => exact absurd hrest h
  | cons x xs => simp [Span.cut, Span.cutToken, Span.Ends, List.takeWhile_cons]

theorem Cursor.eq_empty_iff {c : Cursor} {name : String} {more : List String}
    (h : c.tokens = name :: more) : name = "" ↔ Span.Ends c.rest := by
  have hmore : c.rest ≠ [] := fun hnil => by simp [tokens_of_nil hnil] at h
  obtain ⟨name', d, -, htokens, hname⟩ := exists_token hmore
  obtain ⟨rfl, -⟩ := List.cons.inj (htokens.symm.trans h)
  exact hname

namespace Graph

/-- None of the names of a command is this one. -/
def Lacks (g : Graph) (name : String) : Prop :=
  ∀ c ∈ g.commands, ∀ n ∈ c.names, ¬sameName g.caseInsensitive n name

variable {g : Graph} {line name : String} {d : Cursor}

theorem find?_eq_none_iff : g.find? name = none ↔ g.Lacks name := by
  simp [find?, Lacks, Command.answersTo]

/-- Nothing comes before the first space. -/
theorem read_of_ends (h : Span.Ends (lineStart line).rest) :
    g.read line = .error ⟨.emptyLine, line⟩ := by
  have hnext : (lineStart line).take? .single = none ∨
      ∃ d, (lineStart line).take? .single = some ("", d) := by
    by_cases hnil : (lineStart line).rest = []
    · exact .inl (Cursor.take?_eq_none_iff.mpr hnil)
    · obtain ⟨name, d, htake, -, hname⟩ := Cursor.exists_token hnil
      exact .inr ⟨d, hname.mpr h ▸ htake⟩
  unfold lineStart at hnext
  rw [read]
  rcases hnext with hnone | ⟨d, hempty⟩
  · rw [hnone]
  · rw [hempty]
    split
    · rfl
    · rfl
    · next hne h => exact absurd (Prod.mk.inj (Option.some.inj h)).1.symm hne

theorem read_of_lacks (htake : (lineStart line).take? .single = some (name, d)) (hne : name ≠ "")
    (hlacks : g.Lacks name) : g.read line = .error ⟨.unknownCommand, name⟩ := by
  unfold lineStart at htake
  unfold read
  rw [htake]
  split
  · next h => cases h
  · next h => simp [hne] at h
  · next h =>
    obtain ⟨rfl, rfl⟩ := Prod.mk.inj (Option.some.inj h)
    simp only [find?_eq_none_iff.mpr hlacks]

theorem named_of_read {c : Command} {r : Rejection}
    (htake : (lineStart line).take? .single = some (name, d)) (hne : name ≠ "")
    (hfind : g.find? name = some c) (h : g.read line = .error r) :
    ¬r.is .command 1 ∧ ¬r.is .command 2 := by
  rw [read_of_take? hne htake hfind] at h
  split at h
  · rcases Command.halt_of_readArguments h with hreason | ⟨_, _, halt⟩
    · simp [Rejection.is, hreason, Reason.code]
    · exact halt.named
  · split at h
    · cases h
    · obtain rfl := Except.error.inj h
      simp [Rejection.is, Reason.code]

/-- The line has nothing before its first space, or a name that no command answers to, or one that a
command does. -/
theorem refusal_cases (g : Graph) (line : String) :
    (Span.Ends (lineStart line).rest ∧ g.read line = .error ⟨.emptyLine, line⟩) ∨
      ¬Span.Ends (lineStart line).rest ∧ ∃ name more, (lineStart line).tokens = name :: more ∧
        name ≠ "" ∧ ((g.Lacks name ∧ g.read line = .error ⟨.unknownCommand, name⟩) ∨
          ¬g.Lacks name ∧ ∀ r, g.read line = .error r → ¬r.is .command 1 ∧ ¬r.is .command 2) := by
  by_cases hends : Span.Ends (lineStart line).rest
  · exact .inl ⟨hends, read_of_ends hends⟩
  have hmore : (lineStart line).rest ≠ [] := fun hnil => hends (by simp [Span.Ends, hnil])
  obtain ⟨name, d, htake, htokens, hname⟩ := Cursor.exists_token hmore
  have hne : name ≠ "" := mt hname.mp hends
  refine .inr ⟨hends, name, d.tokens, htokens, hne, ?_⟩
  cases hfind : g.find? name with
  | none =>
    have hlacks := find?_eq_none_iff.mp hfind
    exact .inl ⟨hlacks, read_of_lacks htake hne hlacks⟩
  | some c =>
    have hlacks : ¬g.Lacks name := by simp [← find?_eq_none_iff, hfind]
    exact .inr ⟨hlacks, fun r => named_of_read htake hne hfind⟩

/-- Only a line with nothing before its first space is rejected as empty. -/
theorem empty_iff : (∃ r, g.read line = .error r ∧ r.is .command 1) ↔
    Span.Ends (lineStart line).rest := by
  rcases refusal_cases g line with ⟨hends, hread⟩ | ⟨hends, name, _, -, -, hcases⟩
  · exact iff_of_true ⟨_, hread, rfl⟩ hends
  · refine iff_of_false ?_ hends
    rintro ⟨r, hr, his⟩
    rcases hcases with ⟨-, hread⟩ | ⟨-, hothers⟩
    · obtain rfl := Except.error.inj (hread.symm.trans hr)
      cases his
    · exact (hothers r hr).1 his

/-- Only a line whose first token is a name that the graph lacks is rejected as unknown. -/
theorem unknown_iff : (∃ r, g.read line = .error r ∧ r.is .command 2) ↔
    ∃ name more, (lineStart line).tokens = name :: more ∧ name ≠ "" ∧ g.Lacks name := by
  rcases refusal_cases g line with ⟨hends, hread⟩ | ⟨-, name, more, htokens, hne, hcases⟩
  · refine iff_of_false ?_ ?_
    · rintro ⟨r, hr, his⟩
      obtain rfl := Except.error.inj (hread.symm.trans hr)
      cases his
    · rintro ⟨name, more, htokens, hne, -⟩
      exact hne ((Cursor.eq_empty_iff htokens).mpr hends)
  · rcases hcases with ⟨hlacks, hread⟩ | ⟨hlacks, hothers⟩
    · exact iff_of_true ⟨_, hread, rfl⟩ ⟨name, more, htokens, hne, hlacks⟩
    · refine iff_of_false ?_ ?_
      · rintro ⟨r, hr, his⟩
        exact (hothers r hr).2 his
      · rintro ⟨name', more', htokens', -, hlacks'⟩
        obtain ⟨rfl, -⟩ := List.cons.inj (htokens.symm.trans htokens')
        exact hlacks hlacks'

/-- A line is rejected as empty exactly if it is or begins with a space, and as unknown exactly if
its first token is not empty and no command answers to it. So the two are right as to blank lines,
and to the first token that is not empty, for a line that begins with a space only if it is blank,
and is blank only if it begins with a space or is empty. -/
theorem refusals_of_read (g : Graph) (line : String) :
    ((∃ r, g.read line = .error r ∧ r.is .command 1) ↔
      ∀ c ∈ (lineStart line).rest.head?, c = space) ∧
    ((∃ r, g.read line = .error r ∧ r.is .command 2) ↔
      ∃ name more, (lineStart line).tokens = name :: more ∧ name ≠ "" ∧ g.Lacks name) ∧
    ∀ white : Char → Prop,
      ((lineStart line).rest.head? = some space → ∀ c ∈ (lineStart line).rest, white c) →
      ((∀ c ∈ (lineStart line).rest, white c) → ∀ c ∈ (lineStart line).rest.head?, c = space) →
      ((∃ r, g.read line = .error r ∧ r.is .command 1) ↔ ∀ c ∈ (lineStart line).rest, white c) ∧
      ((∃ r, g.read line = .error r ∧ r.is .command 2) ↔
        (∃ c ∈ (lineStart line).rest, ¬white c) ∧
          ∃ name, (lineStart line).tokens.find? (· ≠ "") = some name ∧ g.Lacks name) := by
  refine ⟨empty_iff, unknown_iff, fun white hfront hblank => ?_⟩
  have hends : Span.Ends (lineStart line).rest ↔ ∀ c ∈ (lineStart line).rest, white c := by
    refine ⟨fun hends => ?_, hblank⟩
    by_cases hnil : (lineStart line).rest = []
    · rw [hnil]
      exact List.forall_mem_nil _
    · obtain ⟨x, xs, hrest⟩ := List.exists_cons_of_ne_nil hnil
      have hx : x = space := hends x (by simp [hrest])
      exact hfront (by simp [hrest, hx])
  refine ⟨empty_iff.trans hends, unknown_iff.trans ⟨?_, ?_⟩⟩
  · rintro ⟨name, more, htokens, hne, hlacks⟩
    have hnot := mt hends.mpr (mt (Cursor.eq_empty_iff htokens).mpr hne)
    refine ⟨by simpa using hnot, name, ?_, hlacks⟩
    rw [htokens, List.find?_cons_of_pos (by simpa using hne)]
  · rintro ⟨⟨c, hc, hwhite⟩, name, hfind, hlacks⟩
    obtain ⟨name', d, -, htokens, hname⟩ := Cursor.exists_token (List.ne_nil_of_mem hc)
    have hne : name' ≠ "" := fun h => hwhite (hends.mp (hname.mp h) c hc)
    rw [htokens, List.find?_cons_of_pos (by simpa using hne)] at hfind
    obtain rfl := Option.some.inj hfind
    exact ⟨name', d.tokens, htokens, hne, hlacks⟩

/-- Two spaces inside a line do no harm. -/
theorem refusals_take : ∃ g, ofCommands true 1 signCommands = .ok g ∧
    ((lineStart "/take  sword").rest.head? = some space →
      ∀ c ∈ (lineStart "/take  sword").rest, c.isWhitespace) ∧
    ((∀ c ∈ (lineStart "/take  sword").rest, c.isWhitespace) →
      ∀ c ∈ (lineStart "/take  sword").rest.head?, c = space) ∧
    (∃ r, g.read "/take  sword" = .error r ∧ r.is .command 2) ∧
    ¬∃ r, g.read "/take  sword" = .error r ∧ r.is .command 1 := by
  have facts : (ofCommands true 1 signCommands).toOption.map (fun g => g.find? "take" |>.isNone) =
      some true := by decide +kernel
  obtain ⟨g, hg, hnone⟩ := Except.exists_of_map_toOption facts
  have hlacks : g.Lacks "take" := find?_eq_none_iff.mp (Option.isNone_iff_eq_none.mp hnone)
  have hrest : (lineStart "/take  sword").rest = "take  sword".toList := rfl
  have htokens : (lineStart "/take  sword").tokens = ["take", "", "sword"] := by decide +kernel
  have hletter : 't' ∈ (lineStart "/take  sword").rest ∧ ¬('t'.isWhitespace : Prop) := by
    rw [hrest]
    decide
  have hfront : (lineStart "/take  sword").rest.head? = some space →
      ∀ c ∈ (lineStart "/take  sword").rest, c.isWhitespace :=
    fun h => absurd h (by rw [hrest]; decide)
  have hblank : (∀ c ∈ (lineStart "/take  sword").rest, c.isWhitespace) →
      ∀ c ∈ (lineStart "/take  sword").rest.head?, c = space :=
    fun h => absurd (h _ hletter.1) hletter.2
  obtain ⟨hempty, hunknown⟩ :=
    (refusals_of_read g "/take  sword").2.2 (·.isWhitespace) hfront hblank
  refine ⟨g, hg, hfront, hblank, hunknown.mpr ⟨⟨_, hletter⟩, "take", ?_, hlacks⟩, ?_⟩
  · rw [htokens]
    decide
  · exact fun h => hletter.2 (hempty.mp h _ hletter.1)

/-- A line that is not blank is rejected as empty after a space, and a blank one as unknown. -/
theorem spaced_refused : ∃ g r r', ofCommands true 1 signCommands = .ok g ∧
    g.read " take" = .error r ∧ r.is .command 1 ∧
    (∃ c ∈ (lineStart " take").rest, ¬(c.isWhitespace : Prop)) ∧
    (lineStart " take").tokens.find? (· ≠ "") = some "take" ∧ g.Lacks "take" ∧
    g.read "\t" = .error r' ∧ r'.is .command 2 ∧
    ∀ c ∈ (lineStart "\t").rest, c.isWhitespace := by
  have facts : (ofCommands true 1 signCommands).toOption.map (fun g =>
      (Except.error? (g.read " take"), Except.error? (g.read "\t"), (g.find? "take").isNone)) =
      some (some ⟨.emptyLine, " take"⟩, some ⟨.unknownCommand, "\t"⟩, true) := by
    decide +kernel
  obtain ⟨g, hg, facts⟩ := Except.exists_of_map_toOption facts
  obtain ⟨hspaced, hblank, hnone⟩ := by simpa using facts
  have htokens : (lineStart " take").tokens.find? (· ≠ "") = some "take" := by decide +kernel
  have hletter : 't' ∈ (lineStart " take").rest ∧ ¬('t'.isWhitespace : Prop) := by decide
  have htab : (lineStart "\t").rest = ['\t'] := rfl
  refine ⟨g, _, _, hg, hspaced, rfl, ⟨_, hletter⟩, htokens, find?_eq_none_iff.mp hnone, hblank, rfl,
    ?_⟩
  rw [htab]
  exact List.forall_mem_singleton.mpr rfl

end Graph

end CommandGrammar
