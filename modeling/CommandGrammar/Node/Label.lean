import CommandGrammar.Node.Hint
import CommandGrammar.Node.Kind

/-!
# Labels

A label is everything that tells a node from its siblings: what it stands for, its name, and
whether a command may end there. Two siblings with one label would be one alternative declared
twice, so a graph has no such siblings. The choices of a restricted word are told from plain
literals, and from choices of another list, by the list they come from.
-/

namespace CommandGrammar

/-- What a node stands for. -/
inductive Shape
  /-- A fixed word. -/
  | literal
  /-- One of the choices of a restricted word. -/
  | choice (choices : List String)
  /-- Whatever the hinted parser accepts. -/
  | argument (hint : Hint)
  deriving DecidableEq, Repr

namespace Shape

/-- A choice is declared as a literal. -/
def kind : Shape → NodeKind
  | literal | choice _ => .literal
  | argument _ => .argument

/-- The parser that reads the node's text. A choice keeps that of the word it belongs to. -/
def hint? : Shape → Option Hint
  | literal => none
  | choice _ => some (.text .word)
  | argument hint => some hint

/-- The list that a choice comes from. -/
def choices? : Shape → Option (List String)
  | choice choices => some choices
  | _ => none

end Shape

/-- What tells a node from its siblings. -/
structure Label where
  shape : Shape
  name : String
  executable : Bool
  deriving DecidableEq, Repr

/-- A node that is asked for: its label, and who suggests values for it. The provider of
suggestions does not tell siblings apart. -/
structure Contribution where
  label : Label
  provider : Option String := none
  deriving DecidableEq, Repr

namespace Contribution

/-- A fixed word. -/
def literal (name : String) (executable : Bool) : Contribution :=
  { label := ⟨.literal, name, executable⟩ }

/-- An argument without suggestions. -/
def argument (name : String) (hint : Hint) (executable : Bool) : Contribution :=
  { label := ⟨.argument hint, name, executable⟩ }

end Contribution

end CommandGrammar
