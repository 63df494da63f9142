import CommandGrammar.Proofs.Graph.Commands

/-!
# What every graph has in common

Names may repeat: a builder makes one literal of equal names, and an alias may redirect the literal
of another command, or its own. Still the children make up a tree (`Build.kept_tree`), and redirects
and groups refer to children of the root (`Arena.Refers`), so every reference is to a node of the
graph (`Graph.Formed`). This holds of every graph that a builder makes, whatever its limit on nodes
(`Graph.BuiltFrom.formed`).
-/

namespace CommandGrammar

open Nodes

/-! ## Arenas -/

/-- The children make up a tree, and redirects and groups refer to nodes. -/
structure Arena.Formed (a : Arena) : Prop where
  tree : IsTree a.nodes
  target_lt : ∀ {i t : Nat}, redirectOf a.nodes i = some t → t < a.nodes.size
  root_lt : ∀ {group : Group}, group ∈ a.groups → ∀ id ∈ group.roots, id < a.nodes.size

namespace Arena

variable {a : Arena}

/-- Redirects and groups refer to children of the root. -/
structure Refers (a : Arena) : Prop where
  target : ∀ {i t : Nat}, redirectOf a.nodes i = some t → a.RootChild t
  group : ∀ {group : Group}, group ∈ a.groups → ∀ id ∈ group.roots, a.RootChild id

theorem refers_limited (limit : Nat) : (limited limit).Refers where
  target {i t} ht := by
    obtain ⟨n, hn, ht⟩ := Option.bind_eq_some_iff.mp ht
    rw [eq_root_of_limited hn, Node.root] at ht
    cases ht
  group hgroup := by simp [limited] at hgroup

theorem RootChild.lt_size {id : Nat} (h : a.RootChild id) : id < a.nodes.size := by
  obtain ⟨l, he⟩ := h
  exact he.lt_size

/-- References to children of the root are references to nodes. -/
theorem Refers.formed (r : a.Refers) (t : IsTree a.nodes) : a.Formed where
  tree := t
  target_lt ht := (r.target ht).lt_size
  root_lt hgroup id hid := (r.group hgroup id hid).lt_size

end Arena

/-! ## Changes -/

namespace Build

open Arena CommandGrammar.EStateM

variable {asked : Contribution → Prop}

/-- No change gives a node a second parent, or takes one out of the tree. -/
theorem kept_tree : Kept asked fun a => IsTree a.nodes := by
  rintro a _ t (⟨-, hp, -, hnew, -⟩ | _ | _)
  · exact isTree_addChild t hp hnew
  · exact isTree_setRedirect t _ _
  · exact t

/-- Redirects and groups are made for children of the root only, and these stay there. -/
theorem kept_refers : Kept asked Refers := by
  intro a a' r hchange
  have hkept {id : Nat} (hid : a.RootChild id) : a'.RootChild id := kept_rootChild id hid hchange
  cases hchange with
  | child hx hp hroot hnew hlimit =>
    refine ⟨fun {i t} ht => ?_, fun hgroup id hid => hkept (r.group hgroup id hid)⟩
    rw [redirectOf_addChild] at ht
    split at ht
    · cases ht
    · exact hkept (r.target ht)
  | redirect hid htarget =>
    refine ⟨fun {i t} ht => ?_, fun hgroup id hid => hkept (r.group hgroup id hid)⟩
    rcases redirectOf_setRedirect ht with rfl | ht
    · exact hkept htarget
    · exact hkept (r.target ht)
  | command c hroots =>
    refine ⟨fun ht => hkept (r.target ht), fun hgroup => ?_⟩
    rcases List.mem_append.mp hgroup with hgroup | hgroup
    · exact fun id hid => hkept (r.group hgroup id hid)
    · obtain rfl := List.mem_singleton.mp hgroup
      exact fun id hid => hkept (hroots id hid)

/-- The arena is well-formed even if building stops at the limit on nodes. -/
theorem all_formed (limit : Nat) (cs : List Command) :
    (Result.state (all cs (.limited limit))).Formed := by
  have refers : (Result.state (all cs (.limited limit))).Refers :=
    all_holds kept_refers (fun _ _ _ _ => trivial) (refers_limited limit)
  exact refers.formed (all_holds kept_tree (fun _ _ _ _ => trivial) isTree_singleton)

end Build

/-! ## Graphs -/

namespace Graph

/-- The children make up a tree, all nodes can be numbered, and every reference is to a node. -/
structure Formed (g : Graph) : Prop where
  tree : IsTree g.nodes
  size_le : g.size ≤ maxNodes
  target_lt : ∀ {i t : Nat}, redirectOf g.nodes i = some t → t < g.size
  root_lt : ∀ {group : Group}, group ∈ g.groups → ∀ id ∈ group.roots, id < g.size

/-- Every graph of some commands is well-formed, whatever their names are. -/
theorem BuiltFrom.formed {g : Graph} {cs : List Command} (h : g.BuiltFrom cs) : g.Formed := by
  have hsize := h.size_le
  obtain ⟨limit, a, ha, hg⟩ := h
  have f := Build.all_formed limit cs
  rw [ha] at f
  rw [← hg] at hsize ⊢
  exact ⟨f.tree, hsize, f.target_lt, f.root_lt⟩

/-- From any node, children and redirects lead to nodes. -/
theorem Formed.successors_lt {g : Graph} (f : g.Formed) {id : Nat} {n : Node}
    (hn : g.node? id = some n) : ∀ q ∈ n.successors, q < g.size := by
  intro q hq
  rcases List.mem_append.mp hq with hq | hq
  · exact (f.tree.down (childrenOf_eq hn ▸ hq)).2
  · exact f.target_lt ((redirectOf_eq hn).trans (Option.mem_toList.mp hq))

end Graph

end CommandGrammar
