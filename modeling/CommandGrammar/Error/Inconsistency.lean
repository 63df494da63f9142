/-!
# Inconsistencies

What stops the program itself from going on: a quantity that outgrows 31 bits, a limit on the
number of nodes, or a graph whose parts contradict each other. A graph that was built without
running into its limit has no such contradiction.
-/

namespace CommandGrammar

/-- What cannot be. -/
inductive Inconsistency
  /-- A length is too large to be written. -/
  | lengthTooLarge
  /-- A graph needs more nodes than it may have. -/
  | nodeLimitExceeded (limit : Nat)
  /-- A node is referred to that is not among those numbered. -/
  | notNumbered (id : Nat)
  /-- A node is referred to that the graph does not have. -/
  | noSuchNode (id : Nat)
  /-- There are more nodes than numbers. -/
  | tooManyNodes
  /-- A reason that a caller puts in its own words. -/
  | other (text : String)
  deriving DecidableEq, Repr

/-- What cannot be, in words. -/
def Inconsistency.text : Inconsistency → String
  | lengthTooLarge => "length exceeds i32"
  | nodeLimitExceeded limit => s!"command graph exceeds {limit} nodes"
  | notNumbered id => s!"unindexed node {id}"
  | noSuchNode id => s!"dangling node reference {id}"
  | tooManyNodes => "too many nodes for one graph"
  | other text => text

end CommandGrammar
