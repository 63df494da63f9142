/-!
# Configuration

What may differ from one registry to another.
-/

namespace CommandGrammar

/-- The settings of a registry. -/
structure Config where
  /-- The most bytes a payload may have; a client takes no more than this by default. -/
  maxPayloadBytes : Nat := 2097151
  /-- A word with more choices than this is warned of when its command is registered. -/
  maxChoices : Nat := 64
  /-- Names of commands match without regard to the case of ASCII letters. -/
  caseInsensitive : Bool := true
  deriving DecidableEq, Repr

end CommandGrammar
