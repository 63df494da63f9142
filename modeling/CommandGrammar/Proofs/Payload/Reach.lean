import CommandGrammar.Proofs.Payload.Encode
import CommandGrammar.Proofs.Wire.Size
import Mathlib.Logic.Relation

/-!
# What a numbering reaches

Nodes may be shared, lead back to where they are reached from, and refer to themselves; all that a
numbering needs is that references are to nodes (`Graph.InBounds`). It then comes to its end, after
one turn for every id that ever was in the queue (`Graph.endsAfter_of_walk`), and what it numbers is
what the root leads to (`Graph.mem_walk_iff`), each node once, at the place that is looked up for it
(`Graph.InBounds.numbers_reachable`).
-/

namespace CommandGrammar

theorem Node.mem_successorsExcept {n : Node} {skip : Nat → Bool} {q : Nat} :
    q ∈ n.successorsExcept skip ↔ q ∈ n.children ∧ skip q = false ∨ n.redirect = some q := by
  rw [successorsExcept, List.mem_append, List.mem_filter, Bool.not_eq_true', Option.mem_toList]

namespace Graph

variable {g : Graph} {skip : Nat → Bool} {met queue order : List Nat} {id : Nat} {n : Node}

/-! ## Reaching -/

/-- The node of the id has `q` for a child that is not skipped, or redirects to it. -/
def Refers (g : Graph) (skip : Nat → Bool) (id q : Nat) : Prop :=
  ∃ n, g.node? id = some n ∧ (q ∈ n.children ∧ skip q = false ∨ n.redirect = some q)

/-- References lead from the first id to the second, if they are not the same. -/
def Reaches (g : Graph) (skip : Nat → Bool) : Nat → Nat → Prop :=
  Relation.ReflTransGen (g.Refers skip)

/-- From a queue, a walk meets what the ids in it reach. -/
theorem mem_walk_iff (h : g.walk skip [] queue = .ok order) :
    id ∈ order ↔ ∃ q ∈ queue, g.Reaches skip q id := by
  constructor
  · have hnext : ∀ {i n}, g.node? i = some n → (∃ q ∈ queue, g.Reaches skip q i) →
        ∀ j ∈ n.successorsExcept skip, ∃ q ∈ queue, g.Reaches skip q j := by
      rintro i n hn ⟨q, hq, hreach⟩ j hj
      exact ⟨q, hq, hreach.tail ⟨n, hn, Node.mem_successorsExcept.mp hj⟩⟩
    exact walk_forall hnext h (List.forall_mem_nil _) (fun q hq => ⟨q, hq, .refl⟩) id
  · rintro ⟨q, hq, hreach⟩
    -- whatever is met on the way has its successors met, and so the next id
    induction hreach with
    | refl => exact (walk_spec h).of_queue q hq
    | tail _ href ih =>
      obtain ⟨n, hn, hnext⟩ := href
      obtain ⟨n', hn', hsucc⟩ := node_of_mem_walk h ih
      obtain rfl := Option.some.inj (hn.symm.trans hn')
      exact hsucc _ (Node.mem_successorsExcept.mpr hnext)

/-- The root is numbered first. -/
theorem head?_numbering (h : g.numbering skip = .ok order) : order.head? = some root := by
  obtain ⟨n, hn, -⟩ := node_of_mem_walk h (root_mem_numbering h)
  rw [numbering, walk_of_notMem List.not_mem_nil (Nat.zero_le _) hn] at h
  obtain ⟨rest, rfl⟩ := isPrefix_walk h
  rfl

/-! ## Turns -/

/-- A walk ends after so many turns. Each takes an id from the queue: one that was met is dropped,
another one is met, and its successors join the queue. -/
inductive EndsAfter (g : Graph) (skip : Nat → Bool) :
    (turns : Nat) → (met queue order : List Nat) → Prop
  | empty {met : List Nat} : EndsAfter g skip 0 met [] met
  | drop {turns id : Nat} {met queue order : List Nat} (hmem : id ∈ met)
      (rest : EndsAfter g skip turns met queue order) :
      EndsAfter g skip (turns + 1) met (id :: queue) order
  | meet {turns id : Nat} {met queue order : List Nat} {n : Node} (hmem : id ∉ met)
      (hn : g.node? id = some n)
      (rest : EndsAfter g skip turns (met ++ [id]) (queue ++ n.successorsExcept skip) order) :
      EndsAfter g skip (turns + 1) met (id :: queue) order

/-- How many ids join the queue when the id is met. -/
def joining (g : Graph) (skip : Nat → Bool) (id : Nat) : Nat :=
  ((g.node? id).map fun n => (n.successorsExcept skip).length).getD 0

/-- Every id that is in the queue, or joins it when a node is met, costs one turn. -/
theorem endsAfter_of_walk (h : g.walk skip met queue = .ok order) :
    ∃ new, order = met ++ new ∧
      g.EndsAfter skip (queue.length + (new.map (g.joining skip)).sum) met queue order := by
  fun_induction walk g skip met queue with
  | case1 met =>
    obtain rfl := Except.ok.inj h
    exact ⟨[], (List.append_nil _).symm, .empty⟩
  | case2 met id queue hmem ih =>
    obtain ⟨new, rfl, hends⟩ := ih h
    refine ⟨new, rfl, ?_⟩
    rw [List.length_cons, Nat.add_right_comm]
    exact .drop hmem hends
  | case3 => cases h
  | case4 => cases h
  | case5 met id queue hmem hlen n hn ih =>
    obtain ⟨new, rfl, hends⟩ := ih h
    refine ⟨id :: new, List.append_assoc .., ?_⟩
    have hjoining : g.joining skip id = (n.successorsExcept skip).length := by
      rw [joining, hn, Option.map_some, Option.getD_some]
    have hturns : (id :: queue).length + ((id :: new).map (g.joining skip)).sum =
        (queue ++ n.successorsExcept skip).length + (new.map (g.joining skip)).sum + 1 := by
      rw [List.map_cons, List.sum_cons, hjoining, List.length_cons, List.length_append]
      omega
    rw [hturns]
    exact .meet hmem hn hends

/-! ## Graphs that can be numbered -/

/-- The root is a node, all references are to nodes, and there are not too many of these. -/
structure InBounds (g : Graph) : Prop where
  root_lt : root < g.size
  successor_lt : ∀ {id : Nat} {n : Node}, g.node? id = some n → ∀ q ∈ n.successors, q < g.size
  size_le : g.size ≤ maxNodes

/-- There are no more different nodes than the graph has. -/
theorem length_le_size {ids : List Nat} (hnd : ids.Nodup) (hlt : ∀ id ∈ ids, id < g.size) :
    ids.length ≤ g.size := by
  have hle := hnd.length_le_of_subset fun id hid => List.mem_range.mpr (hlt id hid)
  rwa [List.length_range] at hle

/-- There are no more numbers than nodes. -/
theorem length_order_le_size (h : g.numbering skip = .ok order) : order.length ≤ g.size :=
  length_le_size (nodup_of_walk h) fun _ hid => lt_size_of_mem_walk h hid

namespace InBounds

variable (b : g.InBounds)

include b

theorem exists_walk (skip : Nat → Bool) (hnd : met.Nodup) (hmet : ∀ id ∈ met, id < g.size)
    (hqueue : ∀ id ∈ queue, id < g.size) : ∃ order, g.walk skip met queue = .ok order := by
  fun_induction walk g skip met queue with
  | case1 met => exact ⟨met, rfl⟩
  | case2 met id queue hmem ih => exact ih hnd hmet (List.forall_mem_cons.mp hqueue).2
  | case3 met id queue hmem hlen =>
    -- so many different ids are not to be had
    exact absurd (Nat.le_trans (length_le_size hnd hmet) b.size_le) (Nat.not_le_of_lt hlen)
  | case4 met id queue hmem hlen hn =>
    rw [node?, Array.getElem?_eq_none_iff] at hn
    exact absurd (hqueue id List.mem_cons_self) (Nat.not_lt_of_le hn)
  | case5 met id queue hmem hlen n hn ih =>
    obtain ⟨hid, hqueue⟩ := List.forall_mem_cons.mp hqueue
    refine ih ?_ ?_ ?_
    · rw [← List.concat_eq_append]
      exact List.Nodup.concat hmem hnd
    · exact List.forall_mem_append.mpr ⟨hmet, List.forall_mem_singleton.mpr hid⟩
    · exact List.forall_mem_append.mpr ⟨hqueue, fun i hi =>
        b.successor_lt hn i (Node.successorsExcept_subset _ _ hi)⟩

/-- Whatever is skipped, the nodes can be numbered. -/
theorem exists_numbering (skip : Nat → Bool) : ∃ order, g.numbering skip = .ok order :=
  b.exists_walk skip List.nodup_nil (List.forall_mem_nil _)
    (List.forall_mem_singleton.mpr b.root_lt)

end InBounds

/-! ## Numberings -/

/-- The order has what the root reaches, the root first and nothing twice, and an id is looked up at
the place where it stands. -/
structure Numbers (g : Graph) (skip : Nat → Bool) (order : List Nat) : Prop where
  nodup : order.Nodup
  head : order.head? = some root
  mem : ∀ id, id ∈ order ↔ g.Reaches skip root id
  place : ∀ id place, placeOf order id = .ok place ↔ order[place]? = some id
  exists_place : ∀ place, (∃ id, placeOf order id = .ok place) ↔ place < order.length

/-- In a list without repetition, an id is looked up where it stands. -/
theorem placeOf_eq_ok_of_nodup (hnd : order.Nodup) {place : Nat} :
    placeOf order id = .ok place ↔ order[place]? = some id := by
  rw [placeOf_eq_ok, List.idxOf?_eq_some_iff]
  constructor
  · rintro ⟨hlt, hid, -⟩
    rw [List.getElem?_eq_getElem hlt, hid]
  · intro h
    obtain ⟨hlt, hid⟩ := List.getElem?_eq_some_iff.mp h
    refine ⟨hlt, hid, fun j hj he => ?_⟩
    exact Nat.ne_of_lt hj (hnd.getElem_inj_iff.mp (he.trans hid.symm))

theorem numbers_of_numbering (h : g.numbering skip = .ok order) : g.Numbers skip order where
  nodup := nodup_of_walk h
  head := head?_numbering h
  mem id := (mem_walk_iff h).trans (by simp)
  place id place := placeOf_eq_ok_of_nodup (nodup_of_walk h)
  exists_place place := by
    simp only [placeOf_eq_ok_of_nodup (nodup_of_walk h)]
    constructor
    · rintro ⟨id, hid⟩
      exact (List.getElem?_eq_some_iff.mp hid).1
    · exact fun hlt => ⟨_, List.getElem?_eq_getElem hlt⟩

/-- Whatever is skipped, the numbering ends, after one turn for the root and one for every reference
of a node that is numbered, and numbers exactly what the root reaches. -/
theorem InBounds.numbers_reachable (b : g.InBounds) (skip : Nat → Bool) :
    ∃ order, g.numbering skip = .ok order ∧ g.Numbers skip order ∧
      g.EndsAfter skip (1 + (order.map (g.joining skip)).sum) [] [root] order := by
  obtain ⟨order, h⟩ := b.exists_numbering skip
  obtain ⟨new, hnew, hends⟩ := endsAfter_of_walk h
  rw [List.nil_append] at hnew
  exact ⟨order, h, numbers_of_numbering h, hnew ▸ hends⟩

/-- Node 1 redirects to itself, nodes 1 and 5 have each other for a child, and so do nodes 0 and 2.
Node 3 redirects to node 2, and node 6 is reached through node 4 only. -/
def knotted : Graph :=
  { empty with
    nodes := #[
      { label := none, children := [1, 2, 3, 4] },
      { label := none, children := [5], redirect := some 1 },
      { label := none, children := [5, 0] },
      { label := none, redirect := some 2 },
      { label := none, children := [6] },
      { label := none, children := [1] },
      { label := none }] }

/-- Nodes 2 and 4 are skipped, but for the redirect to node 2. -/
theorem knotted_reachable : knotted.InBounds ∧
    knotted.numbering [2, 4].contains = .ok [0, 1, 3, 5, 2] ∧
    knotted.Numbers [2, 4].contains [0, 1, 3, 5, 2] ∧
    knotted.EndsAfter [2, 4].contains 9 [] [root] [0, 1, 3, 5, 2] := by
  have hsuccessors : ∀ n ∈ knotted.nodes.toList, ∀ q ∈ n.successors, q < knotted.size := by decide
  have b : knotted.InBounds :=
    ⟨by decide, fun hn => hsuccessors _ (Array.mem_of_getElem? hn).val, by decide⟩
  have facts : (knotted.numbering [2, 4].contains).toOption.map (fun order =>
      (order, (order.map (knotted.joining [2, 4].contains)).sum)) =
        some ([0, 1, 3, 5, 2], 8) := by
    decide +kernel
  obtain ⟨order, horder, facts⟩ := Except.exists_of_map_toOption facts
  obtain ⟨rfl, hjoining⟩ := Prod.mk.inj facts
  obtain ⟨order', h, numbers, hends⟩ := b.numbers_reachable [2, 4].contains
  obtain rfl := Except.ok.inj (horder.symm.trans h)
  rw [hjoining] at hends
  exact ⟨b, h, numbers, hends⟩

end Graph

end CommandGrammar
