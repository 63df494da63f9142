import CommandGrammar.Proofs.Argument.Quoted
import CommandGrammar.Proofs.Line.Read

/-!
# Spaces between arguments

A token ends at a space or with the line, and the rest of a line ends with it. A phrase in quotes
ends at its closing quote, and what follows is left to the next argument whether it is a space or
not: the cursor passes one space if there is one, and no one asks if there was. So a line that is
read is its name and its texts, `Strung` together with one space after each, but for phrases in
quotes, to which the next text may be glued (`Graph.strung_of_read`, `Graph.glued_sign`).
-/

namespace CommandGrammar

/-! ## After a piece -/

/-- What is left after a piece is nothing, or begins with a space, or follows a closing quote. -/
theorem Span.left_of_cut (s : Span) (cs : List Char) :
    (s.cut cs).2 = [] ∨ (s.cut cs).2.head? = some space ∨
      s = .quoted ∧ (s.cut cs).1.head? = some quote := by
  have token : (cutToken cs).2 = [] ∨ (cutToken cs).2.head? = some space := by
    rw [cutToken]
    by_cases h : cs.dropWhile (· ≠ space) = []
    · exact .inl h
    · have := List.head_dropWhile_not (· ≠ space) h
      exact .inr (by rw [List.head?_eq_some_head h]; simpa using this)
  cases s with
  | single => exact token.imp_right .inl
  | rest => exact .inl rfl
  | quoted =>
    cases cs with
    | nil => exact .inl rfl
    | cons c cs =>
      by_cases hc : c = quote
      · exact .inr (.inr ⟨rfl, Span.head?_cut_quoted (congrArg some hc)⟩)
      · rw [cut, if_neg hc]
        exact token.imp_right .inl

/-- After a piece one space is passed, unless the line ends there or goes on without one after a
phrase in quotes. -/
theorem Cursor.rest_of_take? {s : Span} {c d : Cursor} {text : String}
    (h : c.take? s = some (text, d)) :
    c.rest = text.toList ++ space :: d.rest ∨ c.rest = text.toList ++ d.rest ∧
      (d.rest = [] ∨ s = .quoted ∧ text.toList.head? = some quote ∧
        d.rest.head? ≠ some space) := by
  rw [take?_of_ne_nil (ne_nil_of_take? h)] at h
  obtain ⟨rfl, rfl⟩ := Prod.mk.inj (Option.some.inj h)
  have hcut := s.cut_append c.rest
  have hleft := s.left_of_cut c.rest
  rw [String.toList_ofList]
  generalize (s.cut c.rest).2 = left at hcut hleft
  cases left with
  | nil => exact .inr ⟨hcut.symm, .inl rfl⟩
  | cons x left =>
    by_cases hx : x = space
    · refine .inl ?_
      rw [advance, if_pos hx, ← hx]
      exact hcut.symm
    · refine .inr ?_
      rw [advance, if_neg hx]
      refine ⟨hcut.symm, .inr ?_⟩
      simpa [hx] using hleft

/-- A piece that begins with a quote is accepted as the quoted form of its text only. -/
theorem Argument.exists_quoted {a : Argument} (hspan : a.span = .quoted) {text : String}
    {v : Value} (h : a.read text = .ok v) (hq : text.toList.head? = some quote) :
    ∃ s, text.toList = Phrase.quoted s := by
  cases a with
  | phrase p =>
    obtain ⟨id, mode⟩ := p
    cases mode with
    | greedy => cases hspan
    | quotable =>
      obtain ⟨s, hs, -⟩ := Except.map_eq_ok.mp (value_of_read h)
      exact ⟨s.toList, (Phrase.readQuotable_eq_ok hq).mp ((Phrase.read_eq_ok rfl).mp hs)⟩
  | literal name => cases hspan
  | word w => cases hspan
  | boolean id => cases hspan
  | number n => cases hspan

/-! ## Texts on a line -/

/-- The texts one after another, a space after each. It may be missing after the last, and after a
phrase in quotes, where the next text is glued to the closing quote. -/
inductive Strung : List String → List Char → Prop
  | last (text : String) : Strung [text] text.toList
  | lastSpace (text : String) : Strung [text] (text.toList ++ [space])
  | apart {text : String} {texts : List String} {cs : List Char} : Strung texts cs →
      Strung (text :: texts) (text.toList ++ space :: cs)
  | glued {text : String} {texts : List String} {s cs : List Char} {c : Char} :
      text.toList = Phrase.quoted s → c ≠ space → Strung texts (c :: cs) →
      Strung (text :: texts) (text.toList ++ c :: cs)

theorem Strung.ne_nil {texts : List String} {cs : List Char} (h : Strung texts cs) :
    texts ≠ [] := by
  cases h <;> simp

/-- A text other than the last is a phrase in quotes, after which the line goes on without a
space. -/
def Glued (texts : List String) (cs : List Char) : Prop :=
  ∃ text ∈ texts.dropLast, ∃ s front c back, text.toList = Phrase.quoted s ∧ c ≠ space ∧
    cs = front ++ text.toList ++ c :: back

/-- Unless texts are glued, a space stands between any two. -/
theorem Strung.eq_spaced {texts : List String} {cs : List Char} (h : Strung texts cs)
    (hglued : ¬Glued texts cs) :
    space :: cs = spaced texts ∨ space :: cs = spaced texts ++ [space] := by
  induction h with
  | last text => exact .inl (by simp [spaced])
  | lastSpace text => exact .inr (by simp [spaced])
  | @apart text texts cs h ih =>
    have hcons : spaced (text :: texts) = space :: text.toList ++ spaced texts := rfl
    have hrest : ¬Glued texts cs := by
      rintro ⟨t, ht, s, front, c, back, hs, hc, rfl⟩
      refine hglued ⟨t, ?_, s, text.toList ++ space :: front, c, back, hs, hc, by simp⟩
      rw [List.dropLast_cons_of_ne_nil h.ne_nil]
      exact List.mem_cons_of_mem _ ht
    rcases ih hrest with h | h
    · exact .inl (by rw [hcons, ← h, List.cons_append])
    · exact .inr (by rw [hcons, List.append_assoc, ← h, List.cons_append])
  | @glued text texts s cs c hs hc h _ =>
    refine absurd ⟨text, ?_, s, [], c, cs, hs, hc, rfl⟩ hglued
    rw [List.dropLast_cons_of_ne_nil h.ne_nil]
    exact List.mem_cons_self

/-- Arguments that get through to the end of a line have strung it together. -/
theorem Usage.Course.strung {args : List Argument} {texts : List String} {values : List Value}
    {c d : Cursor} (h : Course args c texts values d) (hne : args ≠ []) (hdone : d.isDone) :
    Strung texts c.rest := by
  induction h with
  | nil => exact absurd rfl hne
  | @cons a args text texts v values c d e htake hread hrest ih =>
    cases hrest with
    | nil =>
      have hnil : d.rest = [] := List.isEmpty_iff.mp hdone
      rcases Cursor.rest_of_take? htake with h | ⟨h, -⟩
      · rw [h, hnil]
        exact .lastSpace text
      · rw [h, hnil, List.append_nil]
        exact .last text
    | @cons b args text' texts v' values d d' e htake' hread' hrest =>
      have hstrung := ih (List.cons_ne_nil _ _) hdone
      have hmore := Cursor.ne_nil_of_take? htake'
      rcases Cursor.rest_of_take? htake with h | ⟨h, hnil | ⟨hspan, hhead, hspace⟩⟩
      · rw [h]
        exact .apart hstrung
      · exact absurd hnil hmore
      · obtain ⟨s, hs⟩ := a.exists_quoted hspan hread hhead
        rw [h]
        cases hd : d.rest with
        | nil => exact absurd hd hmore
        | cons x xs =>
          rw [hd] at hstrung hspace
          exact .glued hs (by simpa using hspace) hstrung

/-- A line that is read as a usage is the command's name, a space, and the texts of the arguments
strung together. Unless some of them are glued, this is one space between any two, and perhaps one
at the end. -/
theorem Graph.strung_of_read {g : Graph} {line : String} {p : Parsed} {i : Nat}
    (h : g.read line = .ok p) (hi : p.usage = some i) :
    ∃ name d c u texts values e cs, (lineStart line).take? .single = some (name, d) ∧
      g.find? name = some c ∧ p.command = c.name ∧ c.usages[i]? = some u ∧
      Usage.Course u.arguments d texts values e ∧ e.isDone ∧
      dropSlash line.toList = name.toList ++ space :: cs ∧ Strung texts cs ∧
      (¬Glued texts cs → dropSlash line.toList = name.toList ++ spaced texts ∨
        dropSlash line.toList = name.toList ++ spaced texts ++ [space]) := by
  obtain ⟨name, d, c, htake, hfind, hcases⟩ := cases_of_read h
  rcases hcases with ⟨-, -, rfl⟩ | ⟨hmore, j, u, bs, hj, hread, rfl⟩
  · cases hi
  obtain rfl : j = i := Option.some.inj hi
  obtain ⟨texts, values, e, course, hdone, -⟩ :=
    (Usage.read_eq_ok (c.valid.usages u (List.mem_of_getElem? hj))).mp hread
  have hstrung := course.strung u.nonempty hdone
  have hline : dropSlash line.toList = name.toList ++ space :: d.rest := by
    rcases Cursor.rest_of_take? htake with h | ⟨-, hnil | ⟨hspan, -⟩⟩
    · exact h
    · simp [Cursor.isDone, hnil] at hmore
    · cases hspan
  refine ⟨name, d, c, u, texts, values, e, d.rest, htake, hfind, rfl, hj, course, hdone, hline,
    hstrung, fun hglued => ?_⟩
  rw [hline]
  exact (hstrung.eq_spaced hglued).imp (fun h => by rw [h])
    (fun h => by rw [h, List.append_assoc])

/-- A command that asks for a phrase and a truth value. -/
def signCommands : List Command :=
  (Command.define "sign"
    [.usage [.phrase ⟨"text", .quotable⟩, .boolean "glowing"]]).toOption.toList

/-- The phrase is not glued to what follows it: it stands at the beginning only, before a space. -/
theorem not_glued_welcome :
    ¬Glued ["\"Welcome home\"", "true"] "\"Welcome home\" true ".toList := by
  rintro ⟨text, htext, s, front, c, back, -, hc, hcs⟩
  obtain rfl : text = "\"Welcome home\"" := List.mem_singleton.mp htext
  have hlength := congrArg List.length hcs
  have hafter : "\"Welcome home\" true ".toList.drop front.length =
      "\"Welcome home\"".toList ++ c :: back := by
    rw [hcs, List.append_assoc, List.drop_left]
  have only : ∀ n < 6,
      ("\"Welcome home\" true ".toList.drop n).take 14 = "\"Welcome home\"".toList →
        ("\"Welcome home\" true ".toList.drop n)[14]? = some space := by decide
  have hspace := only front.length (by simp at hlength; omega) (by rw [hafter]; rfl)
  rw [hafter] at hspace
  exact hc (Option.some.inj hspace)

/-- A space after the closing quote, and one at the end. -/
theorem Graph.strung_sign : ∃ g p,
    ofCommands true 1 signCommands = .ok g ∧
      g.read "/sign \"Welcome home\" true " = .ok p ∧ p.usage = some 0 ∧
      ∃ cs, Strung ["\"Welcome home\"", "true"] cs ∧
        dropSlash "/sign \"Welcome home\" true ".toList = "sign".toList ++ space :: cs ∧
        ¬Glued ["\"Welcome home\"", "true"] cs ∧
        dropSlash "/sign \"Welcome home\" true ".toList =
          "sign".toList ++ spaced ["\"Welcome home\"", "true"] ++ [space] := by
  have reads : (ofCommands true 1 signCommands).toOption.map (fun g =>
      (g.read "/sign \"Welcome home\" true ").toOption.map (·.usage)) =
      some (some (some 0)) := by
    decide +kernel
  have spans : (ofCommands true 1 signCommands).toOption.map (fun g =>
      (g.find? "sign").bind fun c => c.usages[0]?.map fun u => u.arguments.map Argument.span) =
      some (some [.quoted, .single]) := by
    decide +kernel
  have pieces : (lineStart "/sign \"Welcome home\" true ").pieces [.single, .quoted, .single] =
      ["sign", "\"Welcome home\"", "true"] := by decide +kernel
  obtain ⟨g, hg, reads⟩ := Except.exists_of_map_toOption reads
  obtain ⟨p, hp, husage⟩ := Except.exists_of_map_toOption reads
  obtain ⟨name, d, c, u, texts, values, e, cs, htake, hfind, -, hu, course, -, hline, hstrung,
    hspaced⟩ := strung_of_read hp husage
  refine ⟨g, p, hg, hp, husage, cs, ?_⟩
  obtain rfl : name = "sign" := by
    rw [Cursor.pieces_cons htake] at pieces
    exact (List.cons.inj pieces).1
  have hspans : u.arguments.map Argument.span = [.quoted, .single] := by
    simpa [hg, hfind, hu, Except.toOption] using spans
  obtain rfl : texts = ["\"Welcome home\"", "true"] := by
    rw [← course.pieces, hspans, ← List.cons_inj_right "sign", ← Cursor.pieces_cons htake, pieces]
  have hwritten : dropSlash "/sign \"Welcome home\" true ".toList =
      "sign".toList ++ space :: "\"Welcome home\" true ".toList := by decide
  have hcs : cs = "\"Welcome home\" true ".toList :=
    (List.cons.inj (List.append_cancel_left (hline.symm.trans hwritten))).2
  have hglued : ¬Glued ["\"Welcome home\"", "true"] cs := hcs ▸ not_glued_welcome
  exact ⟨hstrung, hline, hglued, (hspaced hglued).resolve_left (by decide)⟩

/-- The truth value is glued to the phrase before it, and the line is read all the same. -/
theorem Graph.glued_sign : ∃ g p,
    ofCommands true 1 signCommands = .ok g ∧ g.read "sign \"Welcome\"true" = .ok p ∧
      p.usage = some 0 ∧
      p.values = [("text", .phrase "Welcome"), ("glowing", .boolean true)] ∧
      (lineStart "sign \"Welcome\"true").pieces [.single, .quoted, .single] =
        ["sign", "\"Welcome\"", "true"] ∧
      dropSlash "sign \"Welcome\"true".toList ≠
        "sign".toList ++ spaced ["\"Welcome\"", "true"] ∧
      dropSlash "sign \"Welcome\"true".toList ≠
        "sign".toList ++ spaced ["\"Welcome\"", "true"] ++ [space] := by
  have facts : (ofCommands true 1 signCommands).toOption.map (fun g =>
      (g.read "sign \"Welcome\"true").toOption.map fun p => (p.usage, p.values)) =
      some (some (some 0, [("text", .phrase "Welcome"), ("glowing", .boolean true)])) := by
    decide +kernel
  obtain ⟨g, hg, facts⟩ := Except.exists_of_map_toOption facts
  obtain ⟨p, hp, facts⟩ := Except.exists_of_map_toOption facts
  obtain ⟨husage, hvalues⟩ := Prod.mk.inj facts
  refine ⟨g, p, hg, hp, husage, hvalues, ?_, ?_, ?_⟩ <;> decide +kernel

end CommandGrammar
