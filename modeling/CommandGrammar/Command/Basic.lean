import CommandGrammar.Command.Draft

/-!
# Commands

A command is a valid draft, so whoever has one need not check it again. `Command.ofDraft` makes it,
or tells the first fault.
-/

namespace CommandGrammar

/-- A name, aliases and usages without a fault. -/
structure Command extends Draft where
  valid : toDraft.Valid

namespace Command

/-- The command of a draft, or the draft's first fault. -/
def ofDraft (d : Draft) : Except Misconfiguration Command :=
  match h : d.fault? with
  | some fault => .error fault
  | none => .ok ⟨d, Draft.fault?_eq_none_iff.mp h⟩

/-- The command of a name and clauses, or its first fault. -/
def define (name : String) (clauses : List Clause) : Except Misconfiguration Command :=
  ofDraft (Draft.ofClauses name clauses)

/-- The commands have the same names and usages, their arguments being compared as arguments are. -/
def alike (a b : Command) : Bool :=
  a.name == b.name && a.aliases == b.aliases && a.runnable == b.runnable &&
    a.usages.map (·.arguments.map Argument.key) == b.usages.map (·.arguments.map Argument.key)

end Command

/-- Names are compared exactly, or without regard to the case of ASCII letters. -/
def sameName (caseInsensitive : Bool) (a b : String) : Bool :=
  if caseInsensitive then eqIgnoreAsciiCase a b else a == b

/-- One of the command's names is this one. -/
def Command.answersTo (c : Command) (caseInsensitive : Bool) (name : String) : Bool :=
  c.names.any (sameName caseInsensitive · name)

end CommandGrammar
