import CommandGrammar.Error.Inconsistency
import CommandGrammar.Graph.Basic

/-!
# Building graphs

Commands are added to an arena one after another. A node is made only if its parent has no child
with the same label (`Build.child`), so usages with equal beginnings share them. Each argument adds
its nodes below every node that the argument before it led to (`Build.extend`): a restricted word
has several, and what follows hangs off each of them.

The number of nodes is limited. The step that would exceed the limit fails and leaves the arena as
it is then, with the nodes that were made before.
-/

namespace CommandGrammar

/-- A graph in the making. -/
structure Arena where
  nodes : Array Node := #[Node.root]
  groups : List Group := []
  commands : List Command := []
  /-- The most nodes there may be. -/
  limit : Nat := Graph.maxNodes

namespace Arena

/-- An arena with the root alone that may grow to `limit` nodes, if they can be numbered. -/
def limited (limit : Nat) : Arena :=
  { limit := min limit Graph.maxNodes }

/-- The label of a node. -/
def label? (a : Arena) (id : Nat) : Option Label :=
  a.nodes[id]?.bind Node.label

/-- The child of `parent` that has this label. -/
def childOf? (a : Arena) (parent : Nat) (label : Label) : Option Nat :=
  (a.nodes[parent]?.map Node.children).bind
    (·.find? fun child => a.label? child == some label)

/-- A new node as the youngest child of `parent`. -/
def addChild (a : Arena) (parent : Nat) (c : Contribution) : Arena :=
  let child := a.nodes.size
  { a with
    nodes := (a.nodes.modify parent fun n => { n with children := n.children ++ [child] }).push
      (.ofContribution c) }

/-- The node `id` redirects to `target`. -/
def setRedirect (a : Arena) (id target : Nat) : Arena :=
  { a with nodes := a.nodes.modify id fun n => { n with redirect := some target } }

/-- The command is part of the graph, with these literals. -/
def addCommand (a : Arena) (c : Command) (roots : List Nat) : Arena :=
  { a with groups := a.groups ++ [⟨c.name, roots⟩], commands := a.commands ++ [c] }

/-- The finished graph. -/
def finish (a : Arena) (caseInsensitive : Bool) (generation : Nat) : Graph where
  generation := generation
  nodes := a.nodes
  groups := a.groups
  commands := a.commands
  caseInsensitive := caseInsensitive

end Arena

/-- A step that changes an arena, and may fail on the way. -/
abbrev Build := EStateM Inconsistency Arena

namespace Build

/-- The child of `parent` with the label of `c`, which is made if there is none. -/
def child (parent : Nat) (c : Contribution) : Build Nat
  | arena =>
    match arena.childOf? parent c.label with
    | some id => .ok id arena
    | none =>
      if arena.limit ≤ arena.nodes.size then .error (.nodeLimitExceeded arena.limit) arena
      else .ok arena.nodes.size (arena.addChild parent c)

/-- Every child of every parent, parent by parent, each node once. -/
def extend (parents : List Nat) (cs : List Contribution) : Build (List Nat) := do
  let pairs := parents.flatMap fun parent => cs.map (parent, ·)
  let ids ← pairs.mapM fun (parent, c) => child parent c
  return ids.eraseDups

/-- The nodes of arguments below every parent. A command may end with the last argument only. -/
def declare (parents : List Nat) : List Argument → Build Unit
  | [] => return
  | a :: rest => do
    let next ← extend parents (a.contributions rest.isEmpty)
    declare next rest

/-- The literal of a name, below the root. -/
def nameLiteral (c : Command) (name : String) : Build Nat :=
  child Graph.root (.literal name c.runnable)

/-- The literal of another name, which redirects to the main literal. -/
def aliasLiteral (c : Command) (main : Nat) (name : String) : Build Nat := do
  let id ← nameLiteral c name
  modify (·.setRedirect id main)
  return id

/-- A command: its main literal, its usages, its other names. -/
def command (c : Command) : Build Unit := do
  let main ← nameLiteral c c.name
  c.usages.forM fun u => declare [main] u.arguments
  let others ← c.aliases.mapM (aliasLiteral c main)
  modify (·.addCommand c (main :: others))

/-- Commands in their order. -/
def all (cs : List Command) : Build Unit :=
  cs.forM command

end Build

/-- The graph of commands, if it can be numbered. -/
def Graph.ofCommands (caseInsensitive : Bool) (generation : Nat) (cs : List Command) :
    Except Inconsistency Graph :=
  match (Build.all cs).run {} with
  | .ok _ arena => .ok (arena.finish caseInsensitive generation)
  | .error fault _ => .error fault

end CommandGrammar
