import CommandGrammar.Proofs.Argument.Hint
import CommandGrammar.Proofs.Graph.Path
import CommandGrammar.Proofs.Line.Course

/-!
# Reading lines step by step

A line is read as a usage if its arguments take its texts one after another
(`Usage.readFrom_of_takes`), as a command if one of the usages reads it
(`Command.readUsages_of_mem`), and as a line of a graph if the command of its name does
(`Graph.read_of_take?`). Each step is also undone: what was read was taken piece by piece
(`Cursor.pieces`) and accepted, and a line that is read is the name of a command that may stand
alone, or goes on as one of its usages (`Graph.cases_of_read`).
-/

namespace CommandGrammar

/-! ## Pieces -/

namespace Cursor

/-- What the cursor hands out for these spans, one after another, as long as there is text. -/
def pieces : List Span → Cursor → List String
  | [], _ => []
  | s :: ss, c =>
    match c.take? s with
    | none => []
    | some (text, d) => text :: d.pieces ss

theorem pieces_cons {s : Span} {ss : List Span} {c d : Cursor} {text : String}
    (h : c.take? s = some (text, d)) : c.pieces (s :: ss) = text :: d.pieces ss := by
  rw [pieces, h]

/-- After a piece that ends there, one space is passed. -/
theorem rest_advance_of_ends {c : Cursor} {text left : List Char} (h : Span.Ends left) :
    (c.advance text left).rest = left.tail := by
  cases left with
  | nil => rfl
  | cons d left => rw [advance, if_pos (h d rfl)]; rfl

theorem take?_of_cut {c : Cursor} {s : Span} {text : String} {left : List Char} (hne : text ≠ "")
    (hrest : c.rest = text.toList ++ left)
    (hcut : s.cut (text.toList ++ left) = (text.toList, left)) :
    c.take? s = some (text, c.advance text.toList left) := by
  have hmore : c.rest ≠ [] := fun hnil =>
    hne (String.toList_eq_nil_iff.mp (List.append_eq_nil_iff.mp (hrest ▸ hnil)).1)
  rw [take?_of_ne_nil hmore, hrest, hcut]
  simp only [String.ofList_toList]

end Cursor

/-- Texts, each after a space. -/
def spaced (texts : List String) : List Char :=
  texts.flatMap fun text => space :: text.toList

theorem ends_spaced (texts : List String) : Span.Ends (spaced texts) := by
  cases texts with
  | nil => simp [Span.Ends, spaced]
  | cons text texts => simp [Span.Ends, spaced]

/-! ## Usages -/

namespace Usage

/-- Arguments read the texts that they take, if only the last may take all that is left. -/
theorem readFrom_of_takes {args : List Argument} {texts : List String}
    (hgreedy : ∀ a ∈ args.dropLast, a.span ≠ .rest) (ht : List.Forall₂ Argument.Takes args texts)
    {progress : Nat} {found : Bindings} {c : Cursor} (hc : c.rest = (spaced texts).tail) :
    ∃ values, readFrom progress found args c = .ok values := by
  induction ht generalizing progress found c with
  | nil =>
    refine ⟨found, ?_⟩
    rw [readFrom, if_pos]
    rw [Cursor.isDone, hc]
    rfl
  | @cons a text args texts ht hts ih =>
    have hrest : c.rest = text.toList ++ spaced texts := hc
    have hlast : a.span = .rest → spaced texts = [] := by
      intro hspan
      cases hts with
      | nil => rfl
      | cons => exact absurd hspan (hgreedy a (by simp))
    have htake := Cursor.take?_of_cut ht.nonempty hrest (ht.cut (ends_spaced texts) hlast)
    obtain ⟨v, hv⟩ := ht.read
    have hgreedy' : ∀ b ∈ args.dropLast, b.span ≠ .rest := by
      cases args with
      | nil => simp
      | cons b args => exact fun d hd => hgreedy d (List.mem_cons_of_mem _ hd)
    rw [readFrom, htake]
    simp only [hv]
    exact ih hgreedy' (Cursor.rest_advance_of_ends (ends_spaced texts))

/-- The texts of a course are the pieces of the line. -/
theorem Course.pieces {args : List Argument} {texts : List String} {values : List Value}
    {c d : Cursor} (h : Course args c texts values d) :
    c.pieces (args.map Argument.span) = texts := by
  induction h with
  | nil => rfl
  | cons htake _ _ ih => rw [List.map_cons, Cursor.pieces_cons htake, ih]

/-- What arguments get through is accepted by each of them. -/
theorem Course.accepts {args : List Argument} {texts : List String} {values : List Value}
    {c d : Cursor} (h : Course args c texts values d) :
    List.Forall₂ (fun a text => ∃ v, a.read text = .ok v) args texts := by
  induction h with
  | nil => exact .nil
  | cons _ hread _ ih => exact .cons ⟨_, hread⟩ ih

/-- A usage that reads a line accepts the line's pieces one by one. -/
theorem accepts_of_readFrom {args : List Argument} {progress : Nat} {found values : Bindings}
    {c : Cursor} (h : readFrom progress found args c = .ok values) :
    List.Forall₂ (fun a text => ∃ v, a.read text = .ok v) args
      (c.pieces (args.map Argument.span)) := by
  obtain ⟨texts, vs, d, course, -, -⟩ := readFrom_eq_ok.mp h
  exact course.pieces ▸ course.accepts

end Usage

/-! ## Commands -/

namespace Command

/-- If some usage reads the line, one is found that does. -/
theorem readUsages_of_mem {c : Cursor} {u : Usage} {values : Bindings}
    (hread : u.read c = .ok values) :
    ∀ {us : List Usage} (index : Nat) (best : Option Mismatch), u ∈ us →
      ∃ i values, readUsages c index best us = .ok (i, values)
  | v :: us, index, best, hu => by
    rw [readUsages]
    cases hv : v.read c with
    | ok values => exact ⟨index, values, rfl⟩
    | error m =>
      refine readUsages_of_mem hread _ _ ((List.mem_cons.mp hu).resolve_left ?_)
      rintro rfl
      simp [hread] at hv

/-- The usage that is told reads the line. -/
theorem read_of_readUsages {c : Cursor} {i : Nat} {values : Bindings} :
    ∀ {us : List Usage} {index : Nat} {best : Option Mismatch},
      readUsages c index best us = .ok (i, values) →
        ∃ j u, i = index + j ∧ us[j]? = some u ∧ u.read c = .ok values
  | u :: us, index, best, h => by
    rw [readUsages] at h
    cases hu : u.read c with
    | ok values' =>
      simp only [hu, Except.ok.injEq, Prod.mk.injEq] at h
      obtain ⟨rfl, rfl⟩ := h
      exact ⟨0, u, rfl, rfl, hu⟩
    | error m =>
      simp only [hu] at h
      obtain ⟨j, v, rfl, hj, hv⟩ := read_of_readUsages h
      exact ⟨j + 1, v, by omega, hj, hv⟩

/-- What is read after the name of a command is nothing, or as one of the usages. -/
theorem cases_of_read {c : Command} {line : String} {d : Cursor} {p : Parsed}
    (h : (if !d.isDone then c.readArguments d
      else if c.runnable then .ok { command := c.name }
      else .error ⟨.missingArguments, line⟩) = .ok p) :
    (d.isDone ∧ c.runnable ∧ p = { command := c.name }) ∨
      d.isDone = false ∧ ∃ i u values, c.usages[i]? = some u ∧ u.read d = .ok values ∧
        p = ⟨c.name, some i, values⟩ := by
  cases hdone : d.isDone with
  | true =>
    cases hrunnable : c.runnable with
    | true =>
      simp only [hdone, hrunnable, Bool.not_true, Bool.false_eq_true, if_false, if_true,
        Except.ok.injEq] at h
      exact .inl ⟨rfl, rfl, h.symm⟩
    | false => simp [hdone, hrunnable] at h
  | false =>
    simp only [hdone, Bool.not_false, if_true, readArguments] at h
    split at h
    · next i values husages =>
      obtain ⟨j, u, rfl, hj, hread⟩ := read_of_readUsages husages
      exact .inr ⟨rfl, 0 + j, u, values, by rwa [Nat.zero_add], hread, (Except.ok.inj h).symm⟩
    · simp at h
    · simp at h

end Command

/-! ## Graphs -/

namespace Graph

/-- Where the name of a line begins. -/
def lineStart (line : String) : Cursor :=
  ⟨0, dropSlash line.toList⟩

variable {g : Graph} {line name : String} {d : Cursor} {c : Command}

theorem mem_of_find? (h : g.find? name = some c) :
    c ∈ g.commands ∧ c.answersTo g.caseInsensitive name :=
  ⟨List.mem_of_find?_eq_some h, List.find?_some (p := (Command.answersTo · _ name)) h⟩

/-- With a name that is found, the rest of the line is for the command. -/
theorem read_of_take? (hne : name ≠ "") (htake : (lineStart line).take? .single = some (name, d))
    (hfind : g.find? name = some c) :
    g.read line =
      if !d.isDone then c.readArguments d
      else if c.runnable then .ok { command := c.name }
      else .error ⟨.missingArguments, line⟩ := by
  unfold read
  rw [show (Cursor.mk 0 (dropSlash line.toList)).take? .single = some (name, d) from htake]
  split
  · next h => simp at h
  · next h => simp [hne] at h
  · next h =>
    obtain ⟨rfl, rfl⟩ := Prod.mk.inj (Option.some.inj h)
    simp only [hfind]

/-- A line that is read begins with the name of a command. -/
theorem take?_of_read {p : Parsed} (h : g.read line = .ok p) :
    ∃ name d c, name ≠ "" ∧ (lineStart line).take? .single = some (name, d) ∧
      g.find? name = some c := by
  unfold read at h
  split at h
  · simp at h
  · simp at h
  · next name d hne htake =>
    cases hfind : g.find? name with
    | none => simp [hfind] at h
    | some c => exact ⟨name, d, c, hne, htake, hfind⟩

/-- A line that is read begins with the name of a command, and ends there, or goes on as one of the
command's usages. -/
theorem cases_of_read {p : Parsed} (h : g.read line = .ok p) :
    ∃ name d c, (lineStart line).take? .single = some (name, d) ∧ g.find? name = some c ∧
      ((d.isDone ∧ c.runnable ∧ p = { command := c.name }) ∨
        d.isDone = false ∧ ∃ i u values, c.usages[i]? = some u ∧ u.read d = .ok values ∧
          p = ⟨c.name, some i, values⟩) := by
  obtain ⟨name, d, c, hne, htake, hfind⟩ := take?_of_read h
  rw [read_of_take? hne htake hfind] at h
  exact ⟨name, d, c, htake, hfind, c.cases_of_read h⟩

end Graph

end CommandGrammar
