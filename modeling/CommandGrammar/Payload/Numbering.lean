import CommandGrammar.Error.Inconsistency
import CommandGrammar.Graph.Basic
import CommandGrammar.Text.Size

/-!
# Numbering nodes

The places of records are given out breadth first: the root first, then, node by node, the children
and redirects not yet met. Some children may be skipped, with all that only they lead to. Nodes may
be shared and may lead back to themselves; a node that was met is not walked again, so each step
either shortens the queue or leaves less to walk (`Graph.unwalked_lt`).
-/

namespace CommandGrammar

namespace Node

/-- The ids that a node refers to, but for the children to be skipped. -/
def successorsExcept (n : Node) (skip : Nat → Bool) : List Nat :=
  n.children.filter (!skip ·) ++ n.redirect.toList

theorem length_successorsExcept_le (n : Node) (skip : Nat → Bool) :
    (n.successorsExcept skip).length ≤ n.successors.length := by
  simp only [successorsExcept, successors, List.length_append]
  exact Nat.add_le_add_right (List.length_filter_le ..) _

end Node

namespace Graph

/-- What walking a node costs: itself and its successors. -/
def weight (g : Graph) (id : Nat) : Nat :=
  1 + ((g.node? id).map fun n => n.successors.length).getD 0

/-- What walking all nodes but those met costs. -/
def unwalked (g : Graph) (met : List Nat) : Nat :=
  ((List.range g.size).map fun id => if id ∈ met then 0 else g.weight id).sum

/-- Meeting a node takes its weight from what is left. -/
theorem unwalked_append_add_weight_le (g : Graph) {met : List Nat} {id : Nat}
    (hid : id < g.size) (hmet : id ∉ met) :
    g.unwalked (met ++ [id]) + g.weight id ≤ g.unwalked met := by
  have all : ∀ ids : List Nat,
      (ids.map fun i => if i ∈ met ++ [id] then 0 else g.weight i).sum ≤
        (ids.map fun i => if i ∈ met then 0 else g.weight i).sum := by
    intro ids
    induction ids with
    | nil => simp
    | cons i ids ih =>
      simp only [List.map_cons, List.sum_cons, List.mem_append]
      by_cases hi : i ∈ met
      · simpa [hi] using ih
      · by_cases he : i ∈ [id] <;> simp only [hi, he, if_false, if_true, or_self, false_or] <;>
          simp only [List.mem_append] at ih <;> omega
  have some : ∀ ids : List Nat, id ∈ ids →
      (ids.map fun i => if i ∈ met ++ [id] then 0 else g.weight i).sum + g.weight id ≤
        (ids.map fun i => if i ∈ met then 0 else g.weight i).sum := by
    intro ids hids
    induction ids with
    | nil => simp at hids
    | cons i ids ih =>
      simp only [List.map_cons, List.sum_cons]
      by_cases he : i = id
      · subst he
        have := all ids
        simp only [List.mem_append, List.mem_singleton, or_true, if_true, hmet, if_false] at this ⊢
        omega
      · have := ih ((List.mem_cons.mp hids).resolve_left (Ne.symm he))
        simp only [List.mem_append, List.mem_singleton, he, or_false] at this ⊢
        omega
  exact some _ (List.mem_range.mpr hid)

/-- Walking a node pays for the successors that join the queue. -/
theorem unwalked_lt (g : Graph) (skip : Nat → Bool) {met queue : List Nat} {id : Nat} {n : Node}
    (hn : g.node? id = some n) (hmet : id ∉ met) :
    g.unwalked (met ++ [id]) + (queue ++ n.successorsExcept skip).length <
      g.unwalked met + (id :: queue).length := by
  have hid : id < g.size := (Array.getElem?_eq_some_iff.mp hn).1
  have := g.unwalked_append_add_weight_le hid hmet
  have := n.length_successorsExcept_le skip
  have : g.weight id = 1 + n.successors.length := by simp [weight, hn]
  simp only [List.length_append, List.length_cons]
  omega

/-- The ids met so far, then those met breadth first from the queue, each once. -/
def walk (g : Graph) (skip : Nat → Bool) (met : List Nat) : (queue : List Nat) →
    Except Inconsistency (List Nat)
  | [] => .ok met
  | id :: queue =>
    if id ∈ met then g.walk skip met queue
    else if maxNodes < met.length then .error .tooManyNodes
    else
      match _ : g.node? id with
      | none => .error (.noSuchNode id)
      | some n => g.walk skip (met ++ [id]) (queue ++ n.successorsExcept skip)
termination_by queue => g.unwalked met + queue.length
decreasing_by
  · simp
  · exact g.unwalked_lt skip (by assumption) (by assumption)

/-- All ids in the order of their records. -/
def numbering (g : Graph) (skip : Nat → Bool) : Except Inconsistency (List Nat) :=
  g.walk skip [] [root]

end Graph

/-- The place of an id in a numbering. -/
def placeOf (order : List Nat) (id : Nat) : Except Inconsistency Nat :=
  match order.idxOf? id with
  | some place => .ok place
  | none => .error (.notNumbered id)

end CommandGrammar
