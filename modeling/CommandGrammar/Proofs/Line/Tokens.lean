import CommandGrammar.Proofs.Line.Handed

/-!
# Splitting at spaces

A line is split at every space but one at its very end, which the last token takes with it. So the
tokens of a line, joined by spaces, are the line, or the line without its last space
(`Cursor.intercalate_tokens`), and of all lists of texts without spaces, those that do not end with
an empty one are split into again what they were joined from (`Cursor.tokens_of_intercalate`).
-/

namespace CommandGrammar

namespace Cursor

variable {c d : Cursor} {text : String}

theorem tokens_of_take? (h : c.take? .single = some (text, d)) : c.tokens = text :: d.tokens := by
  rw [tokens]
  split
  · next hnone => rw [h] at hnone; cases hnone
  · next hsome =>
    rw [h] at hsome
    obtain ⟨rfl, rfl⟩ := Prod.mk.inj (Option.some.inj hsome)
    rfl

@[simp] theorem tokens_of_nil (h : c.rest = []) : c.tokens = [] := by
  rw [tokens]
  split
  · rfl
  · next hsome => rw [take?_eq_none_iff.mpr h] at hsome; cases hsome

/-- A token ends at a space, which is passed, or with the line. -/
theorem rest_of_token (h : c.take? .single = some (text, d)) :
    c.rest = text.toList ++ space :: d.rest ∨ c.rest = text.toList ∧ d.rest = [] := by
  rcases rest_of_take? h with h | ⟨h, hnil | ⟨hspan, -⟩⟩
  · exact .inl h
  · rw [hnil, List.append_nil] at h
    exact .inr ⟨h, hnil⟩
  · cases hspan

theorem tokens_ne_nil (h : c.rest ≠ []) : c.tokens ≠ [] := by
  rw [tokens_of_take? (take?_of_ne_nil h .single)]
  exact List.cons_ne_nil _ _

theorem not_hasSpace_of_mem_tokens (h : text ∈ c.tokens) : ¬HasSpace text := by
  induction c using tokens.induct with
  | case1 c hnone => simp [tokens_of_nil (take?_eq_none_iff.mp hnone)] at h
  | case2 c text' d htake ih =>
    rw [tokens_of_take? htake] at h
    rcases List.mem_cons.mp h with rfl | h
    · exact hands_of_take? htake
    · exact ih h

end Cursor

/-- Joining goes on with a space. -/
theorem toList_intercalate_cons (text : String) {texts : List String} (h : texts ≠ []) :
    (" ".intercalate (text :: texts)).toList =
      text.toList ++ space :: (" ".intercalate texts).toList := by
  rw [String.intercalate_cons_of_ne_nil h, String.toList_append, String.toList_append,
    List.append_assoc]
  rfl

namespace Cursor

/-- The tokens joined by spaces are what the cursor has left, but for a space at its end. -/
theorem intercalate_tokens (c : Cursor) :
    (" ".intercalate c.tokens).toList ++ (if c.rest.getLast? = some space then [space] else []) =
      c.rest := by
  induction c using tokens.induct with
  | case1 c hnone =>
    have hnil := take?_eq_none_iff.mp hnone
    rw [tokens_of_nil hnil, hnil]
    rfl
  | case2 c text d htake ih =>
    rw [tokens_of_take? htake]
    rcases rest_of_token htake with hrest | ⟨hrest, hnil⟩
    · by_cases hnil : d.rest = []
      · rw [tokens_of_nil hnil, hrest, hnil, String.intercalate_singleton, List.getLast?_concat,
          if_pos rfl]
      · rw [toList_intercalate_cons text (tokens_ne_nil hnil), hrest,
          List.getLast?_append_of_ne_nil _ (List.cons_ne_nil _ _),
          List.getLast?_cons_of_ne_nil hnil, List.append_assoc, List.cons_append, ih]
    · have hspace : space ∉ c.rest := hrest ▸ hands_of_take? htake
      rw [tokens_of_nil hnil, String.intercalate_singleton, ← hrest, if_neg, List.append_nil]
      exact fun hlast => hspace (List.mem_of_getLast? hlast)

/-- Texts without spaces, the last of which is not empty, are the tokens of what they are joined
to. -/
theorem tokens_of_intercalate {texts : List String} {c : Cursor}
    (hspace : ∀ text ∈ texts, ¬HasSpace text) (hlast : texts.getLast? ≠ some "")
    (hrest : c.rest = (" ".intercalate texts).toList) : c.tokens = texts := by
  induction texts generalizing c with
  | nil => exact tokens_of_nil hrest
  | cons text texts ih =>
    obtain ⟨htext, hspace⟩ := List.forall_mem_cons.mp hspace
    -- Whatever follows the first text, it is cut off there, and what follows is split in turn.
    obtain ⟨left, hleft, hends, hnext, hne⟩ : ∃ left, c.rest = text.toList ++ left ∧
        Span.Ends left ∧ left.tail = (" ".intercalate texts).toList ∧ c.rest ≠ [] := by
      by_cases hnil : texts = []
      · subst hnil
        have hne : text ≠ "" := by simpa using hlast
        rw [String.intercalate_singleton] at hrest
        refine ⟨[], by rw [hrest, List.append_nil], by simp [Span.Ends], rfl, ?_⟩
        rwa [hrest, Ne, String.toList_eq_nil_iff]
      · rw [toList_intercalate_cons text hnil] at hrest
        exact ⟨_, hrest, by simp [Span.Ends], rfl, by simp [hrest]⟩
    have hcut : Span.single.cut c.rest = (text.toList, left) :=
      hleft ▸ Span.cutToken_append htext hends
    have htake := take?_of_ne_nil hne .single
    rw [hcut, String.ofList_toList] at htake
    rw [tokens_of_take? htake, ih hspace ?_ (by rw [rest_advance_of_ends hends, hnext])]
    cases texts with
    | nil => simp
    | cons => simpa using hlast

/-- The tokens are what takes of single tokens hand out, and come to an end with the line. -/
theorem pieces_replicate (n : Nat) (c : Cursor) :
    c.pieces (List.replicate n .single) = c.tokens.take n := by
  induction n generalizing c with
  | zero => rfl
  | succ n ih =>
    rw [List.replicate_succ]
    by_cases hnil : c.rest = []
    · rw [pieces, take?_eq_none_iff.mpr hnil, tokens_of_nil hnil]
      rfl
    · have htake := take?_of_ne_nil hnil .single
      rw [pieces_cons htake, tokens_of_take? htake, ih, List.take_succ_cons]

theorem length_tokens_le (c : Cursor) : c.tokens.length ≤ c.rest.length := by
  induction c using tokens.induct with
  | case1 c hnone => simp [tokens_of_nil (take?_eq_none_iff.mp hnone)]
  | case2 c text d htake ih =>
    rw [tokens_of_take? htake, List.length_cons]
    exact Nat.lt_of_le_of_lt ih (length_rest_lt_of_take? htake)

end Cursor

/-- The tokens of a line have no spaces, and joined by spaces they are the line, or exactly if it
ends with a space, the line without that one. They are what takes of single tokens hand out one
after another, and there are no more of them than characters, however many takes there are. Any
texts without spaces are the tokens of what they are joined to, unless the last of them is empty. -/
theorem tokenize_joins (line : String) :
    (∀ token ∈ tokenize line, ¬HasSpace token) ∧
    (line.toList.getLast? = some space ↔ " ".intercalate (tokenize line) ++ " " = line) ∧
    (line.toList.getLast? ≠ some space ↔ " ".intercalate (tokenize line) = line) ∧
    (∀ n, (Cursor.start line).pieces (List.replicate n .single) = (tokenize line).take n) ∧
    (tokenize line).length ≤ line.length ∧
    ∀ texts : List String, (∀ text ∈ texts, ¬HasSpace text) → texts.getLast? ≠ some "" →
      tokenize (" ".intercalate texts) = texts := by
  have hjoin : (" ".intercalate (tokenize line)).toList ++
      (if line.toList.getLast? = some space then [space] else []) = line.toList :=
    (Cursor.start line).intercalate_tokens
  refine ⟨fun _ => Cursor.not_hasSpace_of_mem_tokens, ⟨fun hlast => ?_, fun h => ?_⟩,
    ⟨fun hlast => ?_, fun h hlast => ?_⟩, fun n => Cursor.pieces_replicate n _, ?_,
    fun texts hspace hlast => Cursor.tokens_of_intercalate hspace hlast rfl⟩
  · rw [if_pos hlast] at hjoin
    rwa [← String.toList_inj, String.toList_append]
  · rw [← h, String.toList_append]
    exact List.getLast?_concat
  · rw [if_neg hlast, List.append_nil] at hjoin
    exact String.toList_inj.mp hjoin
  · rw [if_pos hlast, h] at hjoin
    simp at hjoin
  · exact String.length_toList ▸ Cursor.length_tokens_le (Cursor.start line)

/-- Empty tokens at the front and between two spaces, and a line that ends with two. -/
theorem tokenize_joins_empty :
    (∀ text ∈ ["", "give", "", "é"], ¬HasSpace text) ∧
      ["", "give", "", "é"].getLast? ≠ some "" ∧
      tokenize (" ".intercalate ["", "give", "", "é"]) = ["", "give", "", "é"] ∧
      " ".intercalate ["", "give", "", "é"] = " give  é" ∧
      "a  ".toList.getLast? = some space ∧ " ".intercalate (tokenize "a  ") ++ " " = "a  " := by
  have hspace : ∀ text ∈ ["", "give", "", "é"], ¬HasSpace text := by decide
  have hlast : ["", "give", "", "é"].getLast? ≠ some "" := by decide
  have hends : "a  ".toList.getLast? = some space := by decide
  exact ⟨hspace, hlast, (tokenize_joins "").2.2.2.2.2 _ hspace hlast, by decide, hends,
    (tokenize_joins "a  ").2.1.mp hends⟩

end CommandGrammar
