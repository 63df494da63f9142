/-!
# Tokens

A command line is cut into tokens at its spaces, so a token has none. Names, argument ids and the
choices of a word have to be tokens, and not empty.
-/

namespace CommandGrammar

/-- The separator of tokens. -/
def space : Char := ' '

/-- Opens and closes a phrase of several tokens. -/
def quote : Char := '"'

/-- Takes away the meaning of the quote or backslash after it. -/
def escape : Char := '\\'

/-- The text has a space. -/
def HasSpace (s : String) : Prop :=
  space ∈ s.toList

instance (s : String) : Decidable (HasSpace s) :=
  inferInstanceAs (Decidable (space ∈ s.toList))

/-- The text is one token and not empty. -/
def IsToken (s : String) : Prop :=
  s ≠ "" ∧ ¬HasSpace s

instance (s : String) : Decidable (IsToken s) :=
  inferInstanceAs (Decidable (_ ∧ _))

end CommandGrammar
