import CommandGrammar.Error.Report
import CommandGrammar.Graph.Build
import CommandGrammar.Payload.Serialize
import CommandGrammar.Registry.Config

/-!
# Registries

A registry owns the registered commands and the graph that declares them. Every change builds a new
graph from all commands and publishes it; graphs that were published before stay as they are, for
whoever still uses them. A change that fails changes nothing.

Generations count what was published, so two graphs of one registry are one graph if they have one
generation (`Registry.isCurrent`).
-/

namespace CommandGrammar

/-- Registered commands, and the graph that was published last. -/
structure Registry where
  config : Config
  commands : List Command
  current : Graph
  generation : Nat

/-- A change to a registry, which may be refused. -/
abbrev Edit := EStateM Report Registry

namespace Registry

/-- A registry without commands; its first graph counts as published. -/
def new (config : Config) : Registry where
  config := config
  commands := []
  current := ({} : Arena).finish config.caseInsensitive 1
  generation := 1

/-- How many commands there are. -/
def size (r : Registry) : Nat :=
  r.commands.length

/-- There are no commands. -/
def isEmpty (r : Registry) : Bool :=
  r.commands.isEmpty

/-- The two names are one, under the registry's configuration. -/
def matchesName (r : Registry) (a b : String) : Bool :=
  sameName r.config.caseInsensitive a b

/-- A registered command answers to the name. -/
def isTaken (r : Registry) (name : String) : Bool :=
  r.commands.any (·.answersTo r.config.caseInsensitive name)

/-- The later name of the first pair of names that are one. -/
@[simp] def repeated? (r : Registry) : List String → Option String
  | [] => none
  | a :: rest => (rest.find? (r.matchesName a)).or (r.repeated? rest)

/-- The first name that a registered command has too, else one that the command has twice. -/
def collision? (r : Registry) (c : Command) : Option String :=
  (c.names.find? r.isTaken).or (r.repeated? c.names)

/-- The graph is the one that was published last. -/
def isCurrent (r : Registry) (g : Graph) : Bool :=
  g.generation == r.generation

/-- The payload of the current graph, within the configured bound. -/
def serialize (r : Registry) : Except Inconsistency Serialized :=
  r.current.serialize r.config.maxPayloadBytes

/-! ## Changes -/

/-- Makes these the registered commands and publishes their graph. -/
def publish (commands : List Command) : Edit Graph
  | r =>
    match Graph.ofCommands r.config.caseInsensitive (r.generation + 1) commands with
    | .ok g => .ok g { r with commands, current := g, generation := r.generation + 1 }
    | .error fault => .error { failure := .inconsistency fault } r

/-- Adds a command after all others, unless one of its names is taken. -/
def register (c : Command) : Edit Graph := do
  let r ← get
  match r.collision? c with
  | some name =>
    throw { failure := .misconfiguration (.nameTaken name), place := some { command := c.name } }
  | none => publish (r.commands ++ [c])

/-- Adds the command that a definition makes, if it makes one. -/
def registerDefined : Except Misconfiguration Command → Edit Graph
  | .ok c => register c
  | .error fault =>
    throw { failure := .misconfiguration fault, place := some { argument := fault.argument? } }

/-- Removes the first command with this main name, if there is one. -/
def unregister (name : String) : Edit (Option Graph) := do
  let r ← get
  match r.commands.findIdx? (r.matchesName ·.name name) with
  | none => return none
  | some i => some <$> publish (r.commands.eraseIdx i)

/-- Publishes the graph of the registered commands again. -/
def rebuild : Edit Graph := do
  publish (← get).commands

end Registry

/-- A change that can be asked of a registry. -/
inductive Operation
  | register (c : Command)
  | registerDefined (definition : Except Misconfiguration Command)
  | unregister (name : String)
  | rebuild

/-- What comes of an operation. -/
inductive Outcome
  | published (g : Graph)
  /-- There is nothing to remove. -/
  | absent
  | refused (report : Report)

/-- The change that an operation asks for. -/
def Operation.edit : Operation → Edit Outcome
  | register c => .published <$> Registry.register c
  | registerDefined definition => .published <$> Registry.registerDefined definition
  | unregister name => return (← Registry.unregister name).elim .absent .published
  | rebuild => .published <$> Registry.rebuild

/-- The registry after an operation, and what came of it. -/
def Registry.apply (r : Registry) (o : Operation) : Outcome × Registry :=
  match o.edit.run r with
  | .ok outcome r => (outcome, r)
  | .error report r => (.refused report, r)

/-- The registry after operations, whatever came of each. -/
def Registry.applyAll (r : Registry) (os : List Operation) : Registry :=
  os.foldl (fun r o => (r.apply o).2) r

end CommandGrammar
