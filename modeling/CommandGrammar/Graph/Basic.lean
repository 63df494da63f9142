import CommandGrammar.Command.Basic

/-!
# Graphs

A graph declares commands to a client. Its nodes are numbered in the order in which they were made,
the root being node 0, and refer to each other by these ids. Below the root there is a literal for
every name of a command; the usages of a command hang off its main literal, with equal beginnings
shared, and its other names redirect to that literal. A graph keeps the commands it was made of, so
lines are read by exactly the grammar that was declared.
-/

namespace CommandGrammar

/-- One entry of a graph. -/
structure Node where
  /-- What tells the node from its siblings; the root has no siblings and no label. -/
  label : Option Label
  /-- Who suggests values to the client. -/
  provider : Option String := none
  /-- The node at which to go on reading instead of here. -/
  redirect : Option Nat := none
  /-- The nodes that may come next, oldest first. -/
  children : List Nat := []
  deriving DecidableEq, Repr

namespace Node

/-- A root without children. -/
def root : Node :=
  { label := none }

/-- A new node. -/
def ofContribution (c : Contribution) : Node :=
  { label := some c.label, provider := c.provider }

/-- What the node is. -/
def kind (n : Node) : NodeKind :=
  match n.label with
  | none => .root
  | some label => label.shape.kind

/-- A command may end here. -/
def executable (n : Node) : Bool :=
  match n.label with
  | none => false
  | some label => label.executable

/-- The name, which only the root lacks. -/
def name? (n : Node) : Option String :=
  n.label.map Label.name

/-- The name, which for the root is empty. -/
def name (n : Node) : String :=
  n.name?.getD ""

/-- The parser that reads the node's text. -/
def hint? (n : Node) : Option Hint :=
  n.label.bind (·.shape.hint?)

/-- The list that a choice comes from. -/
def choices? (n : Node) : Option (List String) :=
  n.label.bind (·.shape.choices?)

/-- The children and the redirect: all nodes that this one refers to. -/
def successors (n : Node) : List Nat :=
  n.children ++ n.redirect.toList

end Node

/-- The literals of one command: the main one, then one for each other name. -/
structure Group where
  command : String
  roots : List Nat
  deriving DecidableEq, Repr

/-- Nodes, and the commands they declare. -/
structure Graph where
  /-- How many graphs its registry had published with it. -/
  generation : Nat
  nodes : Array Node
  /-- One group for each command, in their order. -/
  groups : List Group
  commands : List Command
  caseInsensitive : Bool

namespace Graph

/-- The root's id. -/
def root : Nat := 0

/-- The most nodes that can be numbered on the wire. -/
def maxNodes : Nat := 0x7FFFFFFF

/-- A graph that declares nothing. -/
def empty : Graph where
  generation := 0
  nodes := #[Node.root]
  groups := []
  commands := []
  caseInsensitive := true

/-- How many nodes there are. -/
def size (g : Graph) : Nat :=
  g.nodes.size

/-- Nothing is declared. -/
def isEmpty (g : Graph) : Bool :=
  g.size == 1

/-- The node of an id. -/
def node? (g : Graph) (id : Nat) : Option Node :=
  g.nodes[id]?

/-- The children of an id, of which an id without a node has none. -/
def children (g : Graph) (id : Nat) : List Nat :=
  ((g.node? id).map Node.children).getD []

/-- The children of this name. -/
def childrenNamed (g : Graph) (id : Nat) (name : String) : List Nat :=
  (g.children id).filter fun child => (g.node? child).any (·.name == name)

/-- The first command that answers to a name. -/
def find? (g : Graph) (name : String) : Option Command :=
  g.commands.find? (·.answersTo g.caseInsensitive name)

end Graph

end CommandGrammar
