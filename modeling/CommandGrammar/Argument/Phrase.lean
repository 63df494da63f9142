import CommandGrammar.Error.Rejection
import CommandGrammar.Line.Cursor
import CommandGrammar.Node.Label

/-!
# Phrases

A quotable phrase is a token, or any text between quotes in which a backslash stands before every
quote and backslash. A greedy phrase is the rest of the line, quotes and all.
-/

namespace CommandGrammar

/-- How much of a line a phrase takes. -/
inductive PhraseMode
  | quotable | greedy
  deriving DecidableEq, Repr

/-- A text of any number of tokens. -/
structure Phrase where
  id : String
  mode : PhraseMode
  deriving DecidableEq, Repr

namespace Phrase

/-- The text that is written with escapes between quotes. -/
def unescape : List Char → Except Reason (List Char)
  | [] => .ok []
  | c :: cs =>
    if c = escape then
      match cs with
      | d :: ds => if d = quote ∨ d = escape then (d :: ·) <$> unescape ds else .error .badEscape
      | [] => .error .badEscape
    else if c = quote then .error .quoteInside
    else (c :: ·) <$> unescape cs

/-- The text of a phrase whose opening quote is taken away. -/
def unquote (cs : List Char) : Except Reason (List Char) :=
  if cs.getLast? = some quote then unescape cs.dropLast else .error .quoteNotClosed

/-- The text of a quotable phrase. -/
def readQuotable : List Char → Except Reason (List Char)
  | [] => .ok []
  | c :: cs =>
    if c = quote then unquote cs
    else if space ∈ c :: cs then .error .quotesMissing
    else .ok (c :: cs)

/-- The text of a phrase. -/
def read (p : Phrase) (text : String) : Except Reason String :=
  match p.mode with
  | .greedy => .ok text
  | .quotable => String.ofList <$> readQuotable text.toList

/-- How much of a line the phrase takes. -/
def span (p : Phrase) : Span :=
  match p.mode with
  | .quotable => .quoted
  | .greedy => .rest

/-- What a client is told of the phrase. -/
def hint (p : Phrase) : Hint :=
  match p.mode with
  | .quotable => .text .phrase
  | .greedy => .text .greedy

end Phrase

end CommandGrammar
