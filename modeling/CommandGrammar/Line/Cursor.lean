import CommandGrammar.Text.Size
import CommandGrammar.Text.Token

/-!
# Walking a command line

A cursor stands somewhere in a line and hands out its text piece by piece. How much it hands out is
a `Span`: one token, a quoted phrase (or one token, if no quote stands here), or all that is left.
One space after the piece is taken with it. Nothing is lost: what a cursor took and what it has
left make up the line (`take?_eq_some`), and every piece leaves less than before
(`length_rest_lt_of_take?`), so taking pieces comes to an end (`tokens`).
-/

namespace CommandGrammar

/-- How much of a line goes to one argument. -/
inductive Span
  /-- Up to the next space. -/
  | single
  /-- Through the closing quote, or up to the next space if no quote opens. -/
  | quoted
  /-- All that is left. -/
  | rest
  deriving DecidableEq, Repr

namespace Span

/-- Cuts off a phrase inside its quotes, with the closing quote. `escaped` says that the character
before was a backslash that is not itself escaped. A phrase that is not closed is all there is. -/
@[simp] def cutPhrase : (escaped : Bool) → List Char → List Char × List Char
  | _, [] => ([], [])
  | true, c :: cs => let (phrase, left) := cutPhrase false cs; (c :: phrase, left)
  | false, c :: cs =>
    if c = quote then ([c], cs)
    else let (phrase, left) := cutPhrase (c = escape) cs; (c :: phrase, left)

/-- Cuts off the text before the first space. -/
def cutToken (cs : List Char) : List Char × List Char :=
  (cs.takeWhile (· ≠ space), cs.dropWhile (· ≠ space))

/-- Cuts a text into the piece of this span and what is left. -/
def cut : Span → List Char → List Char × List Char
  | single, cs => cutToken cs
  | quoted, c :: cs =>
    if c = quote then let (phrase, left) := cutPhrase false cs; (c :: phrase, left)
    else cutToken (c :: cs)
  | quoted, [] => ([], [])
  | rest, cs => (cs, [])

@[simp] theorem cutPhrase_append :
    ∀ (escaped : Bool) (cs : List Char), (cutPhrase escaped cs).1 ++ (cutPhrase escaped cs).2 = cs
  | _, [] => by simp
  | true, c :: cs => by simp [cutPhrase_append false cs]
  | false, c :: cs => by
    by_cases h : c = quote
    · simp [h]
    · simp [h, cutPhrase_append _ cs]

/-- The piece and what is left make up the text. -/
@[simp] theorem cut_append (s : Span) (cs : List Char) : (s.cut cs).1 ++ (s.cut cs).2 = cs := by
  cases s with
  | single => simp [cut, cutToken]
  | rest => simp [cut]
  | quoted =>
    cases cs with
    | nil => simp [cut]
    | cons c cs =>
      by_cases h : c = quote
      · simp [cut, h]
      · simp only [cut, h, if_false, cutToken]
        exact List.takeWhile_append_dropWhile

/-- Only at a space is the piece empty, and then it is all left over. -/
theorem cut_cons (s : Span) (c : Char) (cs : List Char) :
    (s.cut (c :: cs)).1 ≠ [] ∨ c = space ∧ s.cut (c :: cs) = ([], c :: cs) := by
  have token : (cutToken (c :: cs)).1 ≠ [] ∨ c = space ∧ cutToken (c :: cs) = ([], c :: cs) := by
    by_cases h : c = space <;> simp [cutToken, h]
  cases s with
  | single => exact token
  | rest => exact .inl (List.cons_ne_nil c cs)
  | quoted =>
    by_cases h : c = quote
    · exact .inl (by simp [cut, h])
    · simpa only [cut, h, if_false] using token

end Span

/-- A place in a line: how many bytes lie before it, and the text after it. -/
structure Cursor where
  position : Nat
  rest : List Char
  deriving DecidableEq, Repr

namespace Cursor

/-- The start of a line. -/
def start (line : String) : Cursor :=
  ⟨0, line.toList⟩

/-- The line has come to its end. -/
def isDone (c : Cursor) : Bool :=
  c.rest.isEmpty

/-- The text after the cursor. -/
def remaining (c : Cursor) : String :=
  String.ofList c.rest

/-- Moves past a text that is followed by `left`, and past one space after it. -/
def advance (c : Cursor) (text left : List Char) : Cursor :=
  match left with
  | [] => ⟨c.position + byteSize text, []⟩
  | d :: left =>
    if d = space then ⟨c.position + byteSize text + space.utf8Size, left⟩
    else ⟨c.position + byteSize text, d :: left⟩

/-- Takes the piece of a span, unless the line has come to its end. -/
def take? (s : Span) (c : Cursor) : Option (String × Cursor) :=
  match c.rest with
  | [] => none
  | _ :: _ =>
    let (text, left) := s.cut c.rest
    some (String.ofList text, c.advance text left)

/-- Where there is text, a piece is taken. -/
theorem take?_of_ne_nil {c : Cursor} (h : c.rest ≠ []) (s : Span) :
    c.take? s =
      some (String.ofList (s.cut c.rest).1, c.advance (s.cut c.rest).1 (s.cut c.rest).2) := by
  unfold take?
  split
  · next hnil => exact absurd hnil h
  · rfl

@[simp] theorem take?_eq_none_iff {s : Span} {c : Cursor} : c.take? s = none ↔ c.rest = [] := by
  refine ⟨fun hnone => Decidable.byContradiction fun hne => ?_, fun hnil => by simp [take?, hnil]⟩
  rw [take?_of_ne_nil hne] at hnone
  cases hnone

theorem ne_nil_of_take? {s : Span} {c d : Cursor} {token : String}
    (h : c.take? s = some (token, d)) : c.rest ≠ [] := by
  intro hnil
  simp [take?, hnil] at h

/-- What follows a piece is the text after it, or the text after one space. -/
theorem rest_advance (c : Cursor) (text left : List Char) :
    left = (c.advance text left).rest ∨ left = space :: (c.advance text left).rest := by
  cases left with
  | nil => exact .inl rfl
  | cons d left =>
    by_cases h : d = space
    · simp [advance, h]
    · simp [advance, h]

/-- The piece, perhaps a space, and the text after the new cursor make up the text after the old. -/
theorem take?_eq_some {s : Span} {c d : Cursor} {token : String} (h : c.take? s = some (token, d)) :
    c.rest = token.toList ++ d.rest ∨ c.rest = token.toList ++ space :: d.rest := by
  have cut := s.cut_append c.rest
  have rest := c.rest_advance (s.cut c.rest).1 (s.cut c.rest).2
  rw [take?_of_ne_nil (ne_nil_of_take? h)] at h
  obtain ⟨rfl, rfl⟩ := Prod.mk.inj (Option.some.inj h)
  rw [String.toList_ofList]
  exact rest.imp (fun h => by rw [← h, cut]) (fun h => by rw [← h, cut])

/-- There is less text after a piece than before it. -/
theorem length_rest_lt_of_take? {s : Span} {c d : Cursor} {token : String}
    (h : c.take? s = some (token, d)) : d.rest.length < c.rest.length := by
  rcases take?_eq_some h with hr | hr
  · cases hc : c.rest with
    | nil => simp [take?, hc] at h
    | cons a as =>
      have : token.toList ≠ [] := by
        simp only [take?, hc, Option.some.injEq, Prod.mk.injEq] at h
        obtain ⟨rfl, rfl⟩ := h
        rw [String.toList_ofList]
        rcases s.cut_cons a as with ht | ⟨ha, he⟩
        · exact ht
        · rw [he] at hr
          simp [advance, ha, hc] at hr
      have := List.length_pos_iff.mpr this
      rw [← hc, hr, List.length_append]
      omega
  · rw [hr, List.length_append, List.length_cons]
    omega

/-- The tokens from the cursor to the end of the line. -/
def tokens (c : Cursor) : List String :=
  match _ : c.take? .single with
  | none => []
  | some (token, d) => token :: d.tokens
termination_by c.rest.length
decreasing_by exact length_rest_lt_of_take? (by assumption)

end Cursor

/-- The tokens of a line. -/
def tokenize (line : String) : List String :=
  (Cursor.start line).tokens

end CommandGrammar
