import CommandGrammar.Text.Decimal

/-!
# Misconfigurations

A misconfiguration is a fault in a command's definition. It is found when the command is defined or
registered, so no command in use has one, and it concerns that one command.
-/

namespace CommandGrammar

/-- What is wrong with a definition. -/
inductive Misconfiguration
  /-- A choice of a word is empty. -/
  | emptyChoice (argument : String) (index : Nat)
  /-- A choice of a word has a space, so that no word is this choice. -/
  | spaceInChoice (argument choice : String)
  /-- The name of a command or argument is empty or has a space. -/
  | invalidName (name : String)
  /-- No integer lies between the bounds. -/
  | emptyRange (argument : String) (min max : Int32)
  /-- Two arguments of one usage have this id. -/
  | duplicateId (id : String)
  /-- An argument that takes the rest of the line is not the last of its usage. -/
  | greedyNotLast (id : String)
  /-- The name or alias belongs to another command, or twice to this one. -/
  | nameTaken (name : String)
  deriving DecidableEq, Repr

namespace Misconfiguration

/-- The argument at fault, if it is one. -/
def argument? : Misconfiguration → Option String
  | emptyChoice argument _ | spaceInChoice argument _ | emptyRange argument _ _ => some argument
  | duplicateId id | greedyNotLast id => some id
  | invalidName _ | nameTaken _ => none

/-- The fault in words. -/
def message : Misconfiguration → String
  | emptyChoice argument index =>
    s!"argument '{argument}' has an empty restriction at index {index}"
  | spaceInChoice argument choice =>
    s!"argument '{argument}' restriction '{choice}' contains a space"
  | invalidName name => s!"invalid name '{name}'"
  | emptyRange argument min max =>
    let low := Decimal.write min.toInt
    let high := Decimal.write max.toInt
    s!"argument '{argument}' has an empty range {low}..={high}"
  | duplicateId id => s!"duplicate argument id '{id}' in one syntax"
  | greedyNotLast id => s!"greedy argument '{id}' must be the last argument of its syntax"
  | nameTaken name => s!"command name '{name}' is already registered"

end Misconfiguration

end CommandGrammar
