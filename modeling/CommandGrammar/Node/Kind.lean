/-!
# Kinds of nodes

A declared graph has one root; every other node is a literal, which stands for one fixed word, or
an argument, which stands for whatever its parser accepts.
-/

namespace CommandGrammar

/-- What a node is. -/
inductive NodeKind
  | root | literal | argument
  deriving DecidableEq, Repr

namespace NodeKind

/-- The kind's name. -/
def name : NodeKind → String
  | root => "root"
  | literal => "literal"
  | argument => "argument"

/-- The kind's number, which takes two bits. -/
def tag : NodeKind → Nat
  | root => 0
  | literal => 1
  | argument => 2

/-- The kind of a number. -/
def ofTag? : Nat → Option NodeKind
  | 0 => some root
  | 1 => some literal
  | 2 => some argument
  | _ => none

@[simp] theorem ofTag?_tag (k : NodeKind) : ofTag? k.tag = some k := by
  cases k <;> rfl

end NodeKind

end CommandGrammar
