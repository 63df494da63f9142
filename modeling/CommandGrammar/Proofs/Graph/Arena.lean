import CommandGrammar.Graph.Build
import CommandGrammar.Proofs.Steps

/-!
# Arenas step by step

A graph is made by two steps, a new child (`Arena.addChild`) and a redirect (`Arena.setRedirect`).
Here is what each does to the children, label and redirect of every id, and that asking for a
child either finds one that is there or makes one (`Build.child_eq_ok`).

`Nodes.Grows` is what steps in a row do to nodes that were there before: they keep all but their
lists of children, to which new nodes are added at the end.
-/

namespace CommandGrammar

/-! ## Reading nodes by their ids -/

namespace Nodes

/-- The children of an id, of which an id without a node has none. -/
def childrenOf (ns : Array Node) (id : Nat) : List Nat :=
  (ns[id]?.map Node.children).getD []

/-- The label of an id. -/
def labelOf (ns : Array Node) (id : Nat) : Option Label :=
  ns[id]?.bind Node.label

/-- Where an id redirects to. -/
def redirectOf (ns : Array Node) (id : Nat) : Option Nat :=
  ns[id]?.bind Node.redirect

/-- `q` is a child of `p` and has the label `l`. -/
def Edge (ns : Array Node) (p : Nat) (l : Label) (q : Nat) : Prop :=
  q ∈ childrenOf ns p ∧ labelOf ns q = some l

theorem childrenOf_eq {ns : Array Node} {id : Nat} {n : Node} (h : ns[id]? = some n) :
    childrenOf ns id = n.children := by
  simp [childrenOf, h]

theorem labelOf_eq {ns : Array Node} {id : Nat} {n : Node} (h : ns[id]? = some n) :
    labelOf ns id = n.label := by
  simp [labelOf, h]

theorem redirectOf_eq {ns : Array Node} {id : Nat} {n : Node} (h : ns[id]? = some n) :
    redirectOf ns id = n.redirect := by
  simp [redirectOf, h]

theorem childrenOf_eq_nil {ns : Array Node} {id : Nat} (h : ns.size ≤ id) :
    childrenOf ns id = [] := by
  simp [childrenOf, Array.getElem?_eq_none h]

theorem lt_size_of_labelOf {ns : Array Node} {id : Nat} {l : Label} (h : labelOf ns id = some l) :
    id < ns.size := by
  by_contra hid
  rw [labelOf, Array.getElem?_eq_none (Nat.le_of_not_lt hid)] at h
  simp at h

theorem Edge.lt_size {ns : Array Node} {p q : Nat} {l : Label} (h : Edge ns p l q) :
    q < ns.size :=
  lt_size_of_labelOf h.2

end Nodes

open Nodes

/-! ## The two steps -/

namespace Arena

variable {a : Arena} {p : Nat} {c : Contribution}

/-- At first there is the root alone. -/
theorem eq_root_of_limited {limit i : Nat} {n : Node} (h : (limited limit).nodes[i]? = some n) :
    n = Node.root := by
  simpa [limited] using Array.mem_of_getElem? h

@[simp] theorem size_addChild (a : Arena) (p : Nat) (c : Contribution) :
    (a.addChild p c).nodes.size = a.nodes.size + 1 := by
  simp [addChild]

/-- The new node is the last one, and its parent has it as its last child. -/
theorem getElem?_addChild (a : Arena) (p : Nat) (c : Contribution) (i : Nat) :
    (a.addChild p c).nodes[i]? =
      if i = a.nodes.size then some (.ofContribution c)
      else if i = p then
        a.nodes[i]?.map fun n => { n with children := n.children ++ [a.nodes.size] }
      else a.nodes[i]? := by
  simp only [addChild, Array.getElem?_push, Array.size_modify, Array.getElem?_modify,
    eq_comm (a := p)]

theorem childrenOf_addChild (hp : p < a.nodes.size) (i : Nat) :
    childrenOf (a.addChild p c).nodes i =
      if i = p then childrenOf a.nodes i ++ [a.nodes.size] else childrenOf a.nodes i := by
  have hne : a.nodes.size ≠ p := by omega
  simp only [childrenOf, getElem?_addChild]
  by_cases hi : i = a.nodes.size
  · simp [hi, hne, Node.ofContribution]
  by_cases hip : i = p
  · simp [hip, hp, hne.symm]
  · simp [hi, hip]

theorem labelOf_addChild (hp : p < a.nodes.size) (i : Nat) :
    labelOf (a.addChild p c).nodes i =
      if i = a.nodes.size then some c.label else labelOf a.nodes i := by
  simp only [labelOf, getElem?_addChild]
  by_cases hi : i = a.nodes.size
  · simp [hi, Node.ofContribution]
  by_cases hip : i = p
  · simp [hip, hp, Nat.ne_of_lt hp]
  · simp [hi, hip]

/-- The new node has no redirect, and the others keep theirs. -/
@[simp] theorem redirectOf_addChild (i : Nat) :
    redirectOf (a.addChild p c).nodes i =
      if i = a.nodes.size then none else redirectOf a.nodes i := by
  simp only [redirectOf, getElem?_addChild]
  by_cases hi : i = a.nodes.size
  · simp [hi, Node.ofContribution]
  by_cases hip : i = p
  · rw [if_neg hi, if_pos hip, if_neg hi, Option.bind_map]
    rfl
  · simp [hi, hip]

@[simp] theorem size_setRedirect (a : Arena) (id target : Nat) :
    (a.setRedirect id target).nodes.size = a.nodes.size := by
  simp [setRedirect]

/-- Only the node itself is given a redirect. -/
theorem getElem?_setRedirect (a : Arena) (id target i : Nat) :
    (a.setRedirect id target).nodes[i]? =
      if i = id then a.nodes[i]?.map fun n => { n with redirect := some target }
      else a.nodes[i]? := by
  simp only [setRedirect, Array.getElem?_modify, eq_comm (a := id)]

/-- A redirect is no child. -/
@[simp] theorem childrenOf_setRedirect (a : Arena) (id target i : Nat) :
    childrenOf (a.setRedirect id target).nodes i = childrenOf a.nodes i := by
  simp only [childrenOf, getElem?_setRedirect]
  split <;> simp [Function.comp_def]

@[simp] theorem labelOf_setRedirect (a : Arena) (id target i : Nat) :
    labelOf (a.setRedirect id target).nodes i = labelOf a.nodes i := by
  simp only [labelOf, getElem?_setRedirect]
  split
  · rw [Option.bind_map]
    rfl
  · rfl

/-- Every redirect is the new one, or was there before. -/
theorem redirectOf_setRedirect {id target i t : Nat}
    (h : redirectOf (a.setRedirect id target).nodes i = some t) :
    t = target ∨ redirectOf a.nodes i = some t := by
  simp only [redirectOf, getElem?_setRedirect] at h
  split at h
  · obtain ⟨n, hn, ht⟩ := Option.bind_eq_some_iff.mp h
    obtain ⟨n', -, rfl⟩ := Option.map_eq_some_iff.mp hn
    exact .inl (Option.some.inj ht).symm
  · exact .inr h

theorem edge_of_childOf? {l : Label} {q : Nat} (h : a.childOf? p l = some q) :
    Edge a.nodes p l q := by
  unfold childOf? at h
  cases hn : a.nodes[p]? with
  | none => simp [hn] at h
  | some n =>
    simp only [hn, Option.map_some, Option.bind_some] at h
    refine ⟨?_, by simpa [Arena.label?, labelOf] using List.find?_some h⟩
    rw [childrenOf_eq hn]
    exact List.mem_of_find?_eq_some h

theorem not_edge_of_childOf? {l : Label} (h : a.childOf? p l = none) (q : Nat) :
    ¬Edge a.nodes p l q := by
  rintro ⟨hq, hl⟩
  unfold childOf? at h
  cases hn : a.nodes[p]? with
  | none => simp [childrenOf, hn] at hq
  | some n =>
    rw [childrenOf_eq hn] at hq
    simp only [hn, Option.map_some, Option.bind_some, List.find?_eq_none, beq_iff_eq] at h
    exact h q hq hl

end Arena

/-- A child that is asked for is there already, or is made and is the newest node. -/
theorem Build.child_eq_ok {a a' : Arena} {p id : Nat} {c : Contribution}
    (h : Build.child p c a = .ok id a') :
    (a' = a ∧ Edge a.nodes p c.label id) ∨
      ((∀ q, ¬Edge a.nodes p c.label q) ∧ id = a.nodes.size ∧ a.nodes.size < a.limit ∧
        a' = a.addChild p c) := by
  unfold child at h
  cases hc : a.childOf? p c.label with
  | some q =>
    simp only [hc, EStateM.Result.ok.injEq] at h
    obtain ⟨rfl, rfl⟩ := h
    exact .inl ⟨rfl, Arena.edge_of_childOf? hc⟩
  | none =>
    simp only [hc] at h
    split at h
    · simp at h
    · next hlimit =>
      obtain ⟨rfl, rfl⟩ := EStateM.Result.ok.inj h
      exact .inr ⟨Arena.not_edge_of_childOf? hc, rfl, Nat.lt_of_not_le hlimit, rfl⟩

/-- The literal of another name is that of a name, which then redirects. -/
theorem Build.aliasLiteral_eq_ok {a a' : Arena} {c : Command} {main id : Nat} {name : String} :
    Build.aliasLiteral c main name a = .ok id a' ↔
      ∃ a₁, Build.nameLiteral c name a = .ok id a₁ ∧ a₁.setRedirect id main = a' := by
  simp only [aliasLiteral, EStateM.bind_eq_ok, EStateM.pure_eq_ok, EStateM.modify_eq_ok]
  constructor
  · rintro ⟨id', a₁, h₁, -, a₂, rfl, rfl, rfl⟩
    exact ⟨a₁, h₁, rfl⟩
  · rintro ⟨a₁, h₁, rfl⟩
    exact ⟨id, a₁, h₁, ⟨⟩, _, rfl, rfl, rfl⟩

/-- What an argument asks for, each of its nodes of each parent. -/
theorem Build.mem_pairs {parents : List Nat} {cs : List Contribution} {x : Nat × Contribution} :
    x ∈ parents.flatMap (fun p => cs.map (p, ·)) ↔ x.1 ∈ parents ∧ x.2 ∈ cs := by
  obtain ⟨p, c⟩ := x
  simp

/-- An argument asks for one child after another, and goes on from all of them. -/
theorem Build.extend_eq_ok {a a' : Arena} {parents next : List Nat} {cs : List Contribution} :
    extend parents cs a = .ok next a' ↔ ∃ ids,
      ((parents.flatMap fun p => cs.map (p, ·)).mapM fun (p, c) => child p c : Build _) a =
        .ok ids a' ∧ next = ids.eraseDups := by
  simp only [extend, EStateM.bind_eq_ok, EStateM.pure_eq_ok]
  constructor
  · rintro ⟨ids, a₁, h, rfl, rfl⟩
    exact ⟨ids, h, rfl⟩
  · rintro ⟨ids, h, rfl⟩
    exact ⟨ids, a', h, rfl, rfl⟩

/-! ## Growing -/

namespace Nodes

/-- Every node is kept but for new nodes at the end of its list of children. -/
structure Grows (ns ns' : Array Node) : Prop where
  size_le : ns.size ≤ ns'.size
  node : ∀ {i : Nat} {n : Node}, ns[i]? = some n → ∃ new : List Nat,
    ns'[i]? = some { n with children := n.children ++ new } ∧ ∀ q ∈ new, ns.size ≤ q

namespace Grows

variable {ns ns' ns'' : Array Node}

theorem refl (ns : Array Node) : Grows ns ns :=
  ⟨Nat.le_refl _, fun {i n} h => ⟨[], by simp [h], by simp⟩⟩

theorem trans (h : Grows ns ns') (h' : Grows ns' ns'') : Grows ns ns'' := by
  refine ⟨Nat.le_trans h.size_le h'.size_le, fun {i n} hn => ?_⟩
  obtain ⟨new, hi, hnew⟩ := h.node hn
  obtain ⟨new', hi', hnew'⟩ := h'.node hi
  refine ⟨new ++ new', by rw [hi', List.append_assoc], fun q hq => ?_⟩
  rcases List.mem_append.mp hq with hq | hq
  · exact hnew q hq
  · exact Nat.le_trans h.size_le (hnew' q hq)

theorem labelOf (h : Grows ns ns') {i : Nat} (hi : i < ns.size) :
    labelOf ns' i = Nodes.labelOf ns i := by
  obtain ⟨new, hn, -⟩ := h.node (Array.getElem?_eq_getElem hi)
  simp [Nodes.labelOf, hn, hi]

theorem redirectOf (h : Grows ns ns') {i : Nat} (hi : i < ns.size) :
    redirectOf ns' i = Nodes.redirectOf ns i := by
  obtain ⟨new, hn, -⟩ := h.node (Array.getElem?_eq_getElem hi)
  simp [Nodes.redirectOf, hn, hi]

/-- Children are added after those that were there, and they are new nodes. -/
theorem childrenOf (h : Grows ns ns') {i : Nat} (hi : i < ns.size) :
    ∃ new, childrenOf ns' i = Nodes.childrenOf ns i ++ new ∧ ∀ q ∈ new, ns.size ≤ q := by
  obtain ⟨new, hn, hnew⟩ := h.node (Array.getElem?_eq_getElem hi)
  exact ⟨new, by simp [Nodes.childrenOf, hn, hi], hnew⟩

theorem edge (h : Grows ns ns') {p q : Nat} {l : Label} (he : Edge ns p l q) : Edge ns' p l q := by
  obtain ⟨hq, hl⟩ := he
  have hp : p < ns.size := by
    by_contra hp
    simp [childrenOf_eq_nil (Nat.le_of_not_lt hp)] at hq
  obtain ⟨new, hc, -⟩ := h.childrenOf hp
  exact ⟨hc ▸ List.mem_append_left new hq, (h.labelOf (lt_size_of_labelOf hl)).trans hl⟩

/-- A child that is not new was a child before. -/
theorem mem_children (h : Grows ns ns') {p q : Nat} (hp : p < ns.size) (hq : q < ns.size)
    (hc : q ∈ Nodes.childrenOf ns' p) : q ∈ Nodes.childrenOf ns p := by
  obtain ⟨new, hnew, hlt⟩ := h.childrenOf hp
  rw [hnew] at hc
  rcases List.mem_append.mp hc with hc | hc
  · exact hc
  · exact absurd (hlt q hc) (Nat.not_le_of_lt hq)

end Grows

end Nodes

/-- Adding a child changes nothing of the other nodes but the children of one. -/
theorem Arena.grows_addChild (a : Arena) (p : Nat) (c : Contribution) :
    Grows a.nodes (a.addChild p c).nodes := by
  refine ⟨by rw [size_addChild]; omega, fun {i n} hn => ?_⟩
  have hi : i < a.nodes.size := (Array.getElem?_eq_some_iff.mp hn).1
  rw [getElem?_addChild, if_neg (Nat.ne_of_lt hi)]
  by_cases hip : i = p
  · exact ⟨[a.nodes.size], by rw [if_pos hip, hn]; simp, by simp⟩
  · exact ⟨[], by simp [hip, hn], by simp⟩

/-- The redirect of a new node leaves the old ones as they were. -/
theorem Arena.grows_setRedirect {ns : Array Node} {a : Arena} {id : Nat} (target : Nat)
    (h : Grows ns a.nodes) (hid : ns.size ≤ id) : Grows ns (a.setRedirect id target).nodes := by
  refine ⟨by rw [size_setRedirect]; exact h.size_le, fun {i n} hn => ?_⟩
  have hi : i < ns.size := (Array.getElem?_eq_some_iff.mp hn).1
  rw [getElem?_setRedirect, if_neg (by omega)]
  exact h.node hn

end CommandGrammar
