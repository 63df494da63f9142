import CommandGrammar.Registry.Basic

/-!
# Events

What a registry tells whoever keeps its logs. Events follow from an operation and what came of it,
so they are no part of the operations themselves.
-/

namespace CommandGrammar

/-- How much an event matters. -/
inductive Level
  | debug | warn
  deriving DecidableEq, Repr

/-- Something that happened. -/
inductive Event
  /-- A graph was finished. -/
  | built (generation nodes commands : Nat)
  | registered (command : String)
  | unregistered (command : String)
  /-- A command was refused; it has a name unless it could not be defined. -/
  | refused (command : Option String) (failure : Failure)
  /-- A graph could not be built, as there was no room for this command. -/
  | rebuildFailed (command : String) (failure : Failure)
  /-- A word has so many choices that a client may be slow with its nodes. -/
  | manyChoices (command argument : String) (count limit : Nat)
  /-- A command of this share is left out of a payload that would have this size with it. -/
  | omitting (command : String) (share projected limit : Nat)
  /-- The payload is too large even without the commands that were left out. -/
  | boundExceeded (bytes limit : Nat)

namespace Event

/-- Changes that went well matter less than what was refused or left out. -/
def level : Event → Level
  | built .. | registered _ | unregistered _ => .debug
  | refused .. | rebuildFailed .. | manyChoices .. | omitting .. | boundExceeded .. => .warn

/-- What happened, in words. -/
def text : Event → String
  | built .. => "built command graph"
  | registered _ => "registered command"
  | unregistered _ => "unregistered command"
  | refused .. => "rejected command registration"
  | rebuildFailed .. => "graph rebuild failed"
  | manyChoices .. => "restriction list expands into many sibling nodes"
  | omitting .. => "omitting command from declared graph"
  | boundExceeded .. => "command graph exceeds payload bound with no commands left to omit"

/-- A graph was finished. -/
def ofGraph (g : Graph) : Event :=
  .built g.generation g.size g.commands.length

end Event

/-- What was left out of a payload, and whether that was enough. -/
def Serialized.events (s : Serialized) : List Event :=
  s.omitted.map (fun v => .omitting v.group.command v.share v.projected s.limit) ++
    if s.limit < s.bytes.length then [.boundExceeded s.bytes.length s.limit] else []

/-- The words of a command with more choices than the configuration finds good. -/
def Config.choiceEvents (config : Config) (c : Command) : List Event :=
  (c.usages.flatMap Usage.arguments).filterMap fun a =>
    match a.choiceCount? with
    | some count =>
      if config.maxChoices < count then some (.manyChoices c.name a.id count config.maxChoices)
      else none
    | none => none

/-- The command that building stops at, if it does not come to the end of the commands. -/
def Build.stopsAt? (arena : Arena) : List Command → Option Command
  | [] => none
  | c :: cs =>
    match (Build.command c).run arena with
    | .ok _ arena => stopsAt? arena cs
    | .error .. => some c

/-- The events of publishing the graph of these commands, with what follows if that goes well. -/
def Outcome.events (cs : List Command) (following : List Event) : Outcome → List Event
  | published g => .ofGraph g :: following
  | refused report =>
    (Build.stopsAt? {} cs).toList.map fun c => .rebuildFailed c.name report.failure
  | absent => []

/-- The events of registering a command. Its words are looked at once its names are found free. -/
def Registry.registrationEvents (r : Registry) (c : Command) : Outcome → List Event
  | .refused ⟨.misconfiguration fault, _⟩ => [.refused c.name (.misconfiguration fault)]
  | outcome => r.config.choiceEvents c ++ outcome.events (r.commands ++ [c]) [.registered c.name]

/-- The events of an operation on a registry and its outcome. -/
def Operation.events (r : Registry) : Operation → Outcome → List Event
  | .register c, outcome | .registerDefined (.ok c), outcome => r.registrationEvents c outcome
  | .registerDefined (.error fault), _ => [.refused none (.misconfiguration fault)]
  | .unregister name, outcome =>
    outcome.events (r.commands.eraseP (r.matchesName ·.name name)) [.unregistered name]
  | .rebuild, outcome => outcome.events r.commands []

end CommandGrammar
