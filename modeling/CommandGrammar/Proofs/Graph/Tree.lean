import CommandGrammar.Proofs.Graph.Arena
import Mathlib.Data.List.Nodup

/-!
# Graphs are trees

Whatever is built, and also if names repeat, the children make up a tree (`Nodes.IsTree`) : the
root is node 0, every other node is a child of exactly one older node, and siblings differ in their
labels.

`Arena.Asked` says what comes of asking for children, with the parents and labels asked for:
the arena is a tree again, it has grown, and has no new edge but those asked for. Asking once is
such a step (`Build.child_asked`), and so is asking for all children of all parents of a frontier
(`Build.extend_asked`).
-/

namespace CommandGrammar

namespace Nodes

/-- The children make up a tree with root 0. -/
structure IsTree (ns : Array Node) : Prop where
  nonempty : 0 < ns.size
  root : labelOf ns 0 = none
  labelled : ∀ {i : Nat}, 0 < i → i < ns.size → ∃ l, labelOf ns i = some l
  down : ∀ {p q : Nat}, q ∈ childrenOf ns p → p < q ∧ q < ns.size
  parent : ∀ {q : Nat}, 0 < q → q < ns.size → ∃ p, q ∈ childrenOf ns p
  unique : ∀ {p p' q : Nat}, q ∈ childrenOf ns p → q ∈ childrenOf ns p' → p = p'
  nodup : ∀ p : Nat, (childrenOf ns p).Nodup
  siblings : ∀ {p q q' : Nat}, q ∈ childrenOf ns p → q' ∈ childrenOf ns p →
    labelOf ns q = labelOf ns q' → q = q'

@[simp] theorem childrenOf_singleton (p : Nat) : childrenOf #[Node.root] p = [] := by
  cases p with
  | zero => rfl
  | succ p => exact childrenOf_eq_nil (Nat.le_add_left 1 p)

theorem isTree_singleton : IsTree #[Node.root] := by
  refine ⟨Nat.one_pos, rfl, ?_, ?_, ?_, ?_, ?_, ?_⟩
  · intro i hi hlt
    exact absurd hlt (Nat.not_lt_of_le hi)
  · intro p q hq
    simp at hq
  · intro q hq hlt
    exact absurd hlt (Nat.not_lt_of_le hq)
  · intro p p' q hq
    simp at hq
  · intro p
    simp
  · intro p q q' hq
    simp at hq

namespace IsTree

variable {ns : Array Node} (t : IsTree ns)

include t

theorem ne_root {p q : Nat} (h : q ∈ childrenOf ns p) : 0 < q :=
  Nat.lt_of_le_of_lt (Nat.zero_le p) (t.down h).1

theorem exists_edge {p q : Nat} (h : q ∈ childrenOf ns p) : ∃ l, Edge ns p l q := by
  obtain ⟨l, hl⟩ := t.labelled (t.ne_root h) (t.down h).2
  exact ⟨l, h, hl⟩

/-- Children come after their parents. -/
theorem lt_of_edge {p q : Nat} {l : Label} (h : Edge ns p l q) : p < q :=
  (t.down h.1).1

/-- A node has one parent at most, and one label. -/
theorem edge_unique {p p' q : Nat} {l l' : Label} (h : Edge ns p l q) (h' : Edge ns p' l' q) :
    p = p' ∧ l = l' :=
  ⟨t.unique h.1 h'.1, Option.some.inj (h.2.symm.trans h'.2)⟩

/-- The next node is not a child yet. -/
theorem size_notMem_childrenOf (p : Nat) : ns.size ∉ childrenOf ns p :=
  fun h => Nat.lt_irrefl _ (t.down h).2

end IsTree

end Nodes

open Nodes

namespace Arena

variable {a : Arena} {p : Nat} {c : Contribution}

/-- The new node is a child of its parent, and all other children are as before. -/
theorem mem_childrenOf_addChild (hp : p < a.nodes.size) {p' q : Nat} :
    q ∈ childrenOf (a.addChild p c).nodes p' ↔
      q ∈ childrenOf a.nodes p' ∨ p' = p ∧ q = a.nodes.size := by
  rw [childrenOf_addChild hp]
  split
  · next h => simp [h]
  · next h => simp [h]

theorem labelOf_addChild_of_lt (hp : p < a.nodes.size) {i : Nat} (hi : i < a.nodes.size) :
    labelOf (a.addChild p c).nodes i = labelOf a.nodes i := by
  rw [labelOf_addChild hp, if_neg (Nat.ne_of_lt hi)]

theorem labelOf_addChild_size (hp : p < a.nodes.size) :
    labelOf (a.addChild p c).nodes a.nodes.size = some c.label := by
  rw [labelOf_addChild hp, if_pos rfl]

/-- A child with a label that its parent has no child of keeps the tree a tree. -/
theorem isTree_addChild (t : IsTree a.nodes) (hp : p < a.nodes.size)
    (hnew : ∀ q, ¬Edge a.nodes p c.label q) : IsTree (a.addChild p c).nodes where
  nonempty := by
    rw [size_addChild]
    omega
  root := by rw [labelOf_addChild_of_lt hp t.nonempty, t.root]
  labelled {i} hi hlt := by
    rw [size_addChild] at hlt
    rcases Nat.lt_or_eq_of_le (Nat.le_of_lt_succ hlt) with h | rfl
    · rw [labelOf_addChild_of_lt hp h]
      exact t.labelled hi h
    · exact ⟨_, labelOf_addChild_size hp⟩
  down {p' q} hq := by
    rw [size_addChild]
    rcases (mem_childrenOf_addChild hp).mp hq with h | ⟨rfl, rfl⟩
    · have := t.down h
      omega
    · omega
  parent {q} hq hlt := by
    rw [size_addChild] at hlt
    rcases Nat.lt_or_eq_of_le (Nat.le_of_lt_succ hlt) with h | rfl
    · obtain ⟨p', hp'⟩ := t.parent hq h
      exact ⟨p', (mem_childrenOf_addChild hp).mpr (.inl hp')⟩
    · exact ⟨p, (mem_childrenOf_addChild hp).mpr (.inr ⟨rfl, rfl⟩)⟩
  unique {p₁ p₂ q} h₁ h₂ := by
    rcases (mem_childrenOf_addChild hp).mp h₁ with h₁ | ⟨hp₁, hq₁⟩ <;>
      rcases (mem_childrenOf_addChild hp).mp h₂ with h₂ | ⟨hp₂, hq₂⟩
    · exact t.unique h₁ h₂
    · exact absurd (hq₂ ▸ h₁) (t.size_notMem_childrenOf p₁)
    · exact absurd (hq₁ ▸ h₂) (t.size_notMem_childrenOf p₂)
    · exact hp₁.trans hp₂.symm
  nodup p' := by
    rw [childrenOf_addChild hp]
    split
    · refine List.Nodup.append (t.nodup p') (List.nodup_singleton _) ?_
      simpa using t.size_notMem_childrenOf p'
    · exact t.nodup p'
  siblings {p' q q'} hq hq' hl := by
    rcases (mem_childrenOf_addChild hp).mp hq with h | ⟨rfl, rfl⟩ <;>
      rcases (mem_childrenOf_addChild hp).mp hq' with h' | ⟨hp', rfl⟩
    · rw [labelOf_addChild_of_lt hp (t.down h).2, labelOf_addChild_of_lt hp (t.down h').2] at hl
      exact t.siblings h h' hl
    · subst hp'
      rw [labelOf_addChild_of_lt hp (t.down h).2, labelOf_addChild_size hp] at hl
      exact absurd ⟨h, hl⟩ (hnew q)
    · rw [labelOf_addChild_of_lt hp (t.down h').2, labelOf_addChild_size hp] at hl
      exact absurd ⟨h', hl.symm⟩ (hnew q')
    · rfl

theorem isTree_setRedirect (t : IsTree a.nodes) (id target : Nat) :
    IsTree (a.setRedirect id target).nodes := by
  refine ⟨?_, ?_, ?_, ?_, ?_, ?_, ?_, ?_⟩ <;>
    simp
  exacts [t.nonempty, t.root, t.labelled, t.down, t.parent, t.unique, t.nodup, t.siblings]

/-! ## Asking for children -/

/-- What comes of asking for children with these parents and labels. -/
structure Asked (ask : Nat → Label → Prop) (a a' : Arena) : Prop where
  tree : IsTree a'.nodes
  grows : Grows a.nodes a'.nodes
  edge : ∀ {p l q}, Edge a'.nodes p l q → Edge a.nodes p l q ∨ ask p l
  redirect : ∀ {i : Nat}, a.nodes.size ≤ i → redirectOf a'.nodes i = none
  groups : a'.groups = a.groups
  commands : a'.commands = a.commands

namespace Asked

variable {a a' a'' : Arena} {ask ask' : Nat → Label → Prop}

theorem refl (t : IsTree a.nodes) (ask : Nat → Label → Prop) : Asked ask a a where
  tree := t
  grows := .refl _
  edge := .inl
  redirect hi := by simp [redirectOf, Array.getElem?_eq_none hi]
  groups := rfl
  commands := rfl

theorem mono (h : Asked ask a a') (hask : ∀ p l, ask p l → ask' p l) : Asked ask' a a' :=
  { h with edge := fun he => (h.edge he).imp_right (hask _ _) }

/-- What is added in two steps was asked for in one of them. -/
theorem trans (h : Asked ask a a') (h' : Asked ask a' a'') : Asked ask a a'' where
  tree := h'.tree
  grows := h.grows.trans h'.grows
  edge he := (h'.edge he).elim h.edge .inr
  redirect {i} hi := by
    rcases Nat.lt_or_ge i a'.nodes.size with hlt | hge
    · rw [h'.grows.redirectOf hlt, h.redirect hi]
    · exact h'.redirect hge
  groups := h'.groups.trans h.groups
  commands := h'.commands.trans h.commands

/-- A node that is no parent asked for is kept as it is. -/
theorem kept (h : Asked ask a a') {i : Nat} (hi : i < a.nodes.size) (hask : ∀ l, ¬ask i l) :
    a'.nodes[i]? = a.nodes[i]? := by
  obtain ⟨new, hn, hnew⟩ := h.grows.node (Array.getElem?_eq_getElem hi)
  have none : new = [] := by
    refine List.eq_nil_iff_forall_not_mem.mpr fun q hq => ?_
    have hc : q ∈ childrenOf a'.nodes i := by
      rw [childrenOf_eq hn]
      exact List.mem_append_right _ hq
    obtain ⟨l, he⟩ := h.tree.exists_edge hc
    rcases h.edge he with he | he
    · exact absurd he.lt_size (Nat.not_lt_of_le (hnew q hq))
    · exact hask l he
  simp [hn, none, hi]

/-- An edge to an old node is an old edge. -/
theorem edge_of_lt (h : Asked ask a a') {p q : Nat} {l : Label} (he : Edge a'.nodes p l q)
    (hq : q < a.nodes.size) : Edge a.nodes p l q := by
  have hp := Nat.lt_trans (h.tree.lt_of_edge he) hq
  exact ⟨h.grows.mem_children hp hq he.1, (h.grows.labelOf hq).symm.trans he.2⟩

end Asked

end Arena

namespace Build

open Arena

/-- One edge is added at most, and it is there in the end. -/
theorem child_asked {a a' : Arena} {p id : Nat} {c : Contribution} (t : IsTree a.nodes)
    (hp : p < a.nodes.size) (h : child p c a = .ok id a') :
    Asked (fun p' l => p' = p ∧ l = c.label) a a' ∧ Edge a'.nodes p c.label id := by
  rcases child_eq_ok h with ⟨rfl, he⟩ | ⟨hnew, rfl, -, rfl⟩
  · exact ⟨.refl t _, he⟩
  have hchild : Edge (a.addChild p c).nodes p c.label a.nodes.size :=
    ⟨(mem_childrenOf_addChild hp).mpr (.inr ⟨rfl, rfl⟩), by rw [labelOf_addChild hp, if_pos rfl]⟩
  refine ⟨⟨isTree_addChild t hp hnew, grows_addChild a p c, ?_, ?_, rfl, rfl⟩, hchild⟩
  · rintro p' l q ⟨hq, hl⟩
    rw [labelOf_addChild hp] at hl
    rcases (mem_childrenOf_addChild hp).mp hq with hq | ⟨rfl, rfl⟩
    · rw [if_neg (Nat.ne_of_lt (t.down hq).2)] at hl
      exact .inl ⟨hq, hl⟩
    · rw [if_pos rfl] at hl
      exact .inr ⟨rfl, (Option.some.inj hl).symm⟩
  · intro i hi
    rcases Nat.eq_or_lt_of_le hi with rfl | hlt
    · simp
    · exact Option.bind_eq_none_iff.mpr fun n hn =>
        absurd (Array.getElem?_eq_some_iff.mp hn).1 (by rw [size_addChild]; omega)

/-- Only the edges asked for are added, and all of them are there in the end. -/
theorem mapM_child_asked :
    ∀ {pairs : List (Nat × Contribution)} {a a' : Arena} {ids : List Nat}, IsTree a.nodes →
      (∀ x ∈ pairs, x.1 < a.nodes.size) →
      (pairs.mapM fun (p, c) => child p c : Build (List Nat)) a = .ok ids a' →
      Asked (fun p l => ∃ x ∈ pairs, p = x.1 ∧ l = x.2.label) a a' ∧
        List.Forall₂ (fun x id => Edge a'.nodes x.1 x.2.label id) pairs ids
  | [], a, a', ids, t, _, h => by
    obtain ⟨rfl, rfl⟩ := EStateM.mapM_nil_eq_ok.mp h
    exact ⟨.refl t _, .nil⟩
  | x :: pairs, a, a', ids, t, hlt, h => by
    obtain ⟨id, a₁, ids, h₁, h₂, rfl⟩ := EStateM.mapM_cons_eq_ok.mp h
    obtain ⟨asked₁, he⟩ := child_asked t (hlt x (by simp)) h₁
    obtain ⟨asked₂, hes⟩ := mapM_child_asked asked₁.tree
      (fun y hy => Nat.lt_of_lt_of_le (hlt y (by simp [hy])) asked₁.grows.size_le) h₂
    refine ⟨(asked₁.mono ?_).trans (asked₂.mono ?_), .cons (asked₂.grows.edge he) hes⟩
    · rintro p l ⟨hp, hl⟩
      exact ⟨x, by simp, hp, hl⟩
    · rintro p l ⟨y, hy, hp, hl⟩
      exact ⟨y, by simp [hy], hp, hl⟩

/-- After a step to the next frontier every parent has every child, and the frontier is made up of
these. -/
theorem extend_asked {parents next : List Nat} {cs : List Contribution} {a a' : Arena}
    (t : IsTree a.nodes) (hlt : ∀ p ∈ parents, p < a.nodes.size)
    (h : extend parents cs a = .ok next a') :
    Asked (fun p l => p ∈ parents ∧ ∃ c ∈ cs, l = c.label) a a' ∧
      (∀ p ∈ parents, ∀ c ∈ cs, ∃ q ∈ next, Edge a'.nodes p c.label q) ∧
      ∀ q ∈ next, ∃ p ∈ parents, ∃ c ∈ cs, Edge a'.nodes p c.label q := by
  obtain ⟨ids, hpairs, rfl⟩ := extend_eq_ok.mp h
  obtain ⟨asked, hes⟩ := mapM_child_asked t (fun x hx => hlt _ (mem_pairs.mp hx).1) hpairs
  refine ⟨asked.mono ?_, ?_, ?_⟩
  · rintro p l ⟨x, hx, rfl, rfl⟩
    exact ⟨(mem_pairs.mp hx).1, x.2, (mem_pairs.mp hx).2, rfl⟩
  · intro p hp c hc
    obtain ⟨q, hq, he⟩ := exists_right_of_forall₂ hes (p, c) (mem_pairs.mpr ⟨hp, hc⟩)
    exact ⟨q, List.mem_eraseDups.mpr hq, he⟩
  · intro q hq
    obtain ⟨⟨p, c⟩, hx, he⟩ := exists_left_of_forall₂ hes q (List.mem_eraseDups.mp hq)
    exact ⟨p, (mem_pairs.mp hx).1, c, (mem_pairs.mp hx).2, he⟩

end Build

end CommandGrammar
