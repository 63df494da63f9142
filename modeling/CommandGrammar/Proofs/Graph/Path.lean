import CommandGrammar.Proofs.Graph.Tree
import Mathlib.Data.List.Induction

/-!
# Paths and what they spell

A path leads down from a node, and spells the labels of the nodes it comes to (`Nodes.Path`).
A usage spells a choice of one label for each of its first arguments (`Usage.Spells`).

Declaring a usage makes a path for everything it spells (`Build.declare_asked`), and no path that
is not the beginning of a usage: if the paths from a main literal spell only what a predicate
allows, and the predicate allows what the frontier and the arguments to come spell together, the
paths still spell only what is allowed (`Build.declare_only`).
-/

namespace CommandGrammar

open Nodes

/-! ## Paths -/

namespace Nodes

/-- A path from `p` to `x` that spells the labels. -/
def Path (ns : Array Node) : (p : Nat) → List Label → (x : Nat) → Prop
  | p, [], x => x = p
  | p, l :: ls, x => ∃ q, Edge ns p l q ∧ Path ns q ls x

/-- All that the paths from `m` spell is allowed. -/
def Only (ns : Array Node) (m : Nat) (allowed : List Label → Prop) : Prop :=
  ∀ (ls : List Label) (x : Nat), Path ns m ls x → allowed ls

variable {ns ns' : Array Node}

/-- A path may be broken off at any node of it. -/
theorem path_append :
    ∀ {p x : Nat} {ls ls' : List Label},
      Path ns p (ls ++ ls') x ↔ ∃ q, Path ns p ls q ∧ Path ns q ls' x
  | p, x, [], ls' => by simp [Path]
  | p, x, l :: ls, ls' => by
    have ih : ∀ q, Path ns q (ls ++ ls') x ↔ _ := fun _ => path_append
    simp only [List.cons_append, Path, ih]
    constructor
    · rintro ⟨q, he, r, hr, hx⟩
      exact ⟨r, ⟨q, he, hr⟩, hx⟩
    · rintro ⟨r, ⟨q, he, hr⟩, hx⟩
      exact ⟨q, he, r, hr, hx⟩

theorem path_concat {p x : Nat} {ls : List Label} {l : Label} :
    Path ns p (ls ++ [l]) x ↔ ∃ q, Path ns p ls q ∧ Edge ns q l x := by
  rw [path_append]
  refine exists_congr fun q => and_congr_right fun _ => ?_
  simp [Path]

/-- A path is empty, or has a last edge. -/
theorem Path.eq_nil_or_concat {p x : Nat} {ls : List Label} (h : Path ns p ls x) :
    ls = [] ∧ x = p ∨ ∃ ls' l q, ls = ls' ++ [l] ∧ Path ns p ls' q ∧ Edge ns q l x := by
  rcases List.eq_nil_or_concat ls with rfl | ⟨ls', l, rfl⟩
  · exact .inl ⟨rfl, h⟩
  · rw [List.concat_eq_append] at h
    obtain ⟨q, hq, he⟩ := path_concat.mp h
    exact .inr ⟨ls', l, q, List.concat_eq_append, hq, he⟩

theorem Grows.path (g : Grows ns ns') :
    ∀ {p x : Nat} {ls : List Label}, Path ns p ls x → Path ns' p ls x
  | _, _, [], h => h
  | _, _, _ :: _, ⟨q, he, h⟩ => ⟨q, g.edge he, g.path h⟩

theorem IsTree.le_of_path (t : IsTree ns) :
    ∀ {p x : Nat} {ls : List Label}, Path ns p ls x → p ≤ x
  | _, _, [], h => Nat.le_of_eq h.symm
  | _, _, _ :: _, ⟨_, he, h⟩ => Nat.le_trans (Nat.le_of_lt (t.lt_of_edge he)) (t.le_of_path h)

/-- From a node without children only the empty path leads on. -/
theorem only_of_childrenOf_eq_nil {m : Nat} {allowed : List Label → Prop}
    (h : childrenOf ns m = []) (hnil : allowed []) : Only ns m allowed := by
  rintro (_ | ⟨l, ls⟩) x hp
  · exact hnil
  · obtain ⟨q, ⟨hq, -⟩, -⟩ := hp
    simp [h] at hq

end Nodes

/-- A path to an old node is an old path. -/
theorem Arena.Asked.path_of_lt {a a' : Arena} {ask : Nat → Label → Prop}
    (h : Arena.Asked ask a a') {p : Nat} {ls : List Label} :
    ∀ {x : Nat}, Path a'.nodes p ls x → x < a.nodes.size → Path a.nodes p ls x := by
  induction ls using List.reverseRecOn with
  | nil => exact fun hp _ => hp
  | append_singleton ls l ih =>
    intro x hp hx
    obtain ⟨q, hq, he⟩ := path_concat.mp hp
    exact path_concat.mpr
      ⟨q, ih hq (Nat.lt_trans (h.tree.lt_of_edge he) hx), h.edge_of_lt he hx⟩

/-! ## What a usage spells -/

namespace Usage

/-- The labels are of nodes that the first arguments contribute, one for each. -/
def Spells : List Argument → List Label → Prop
  | _, [] => True
  | [], _ :: _ => False
  | a :: rest, l :: ls => (∃ c ∈ a.contributions rest.isEmpty, l = c.label) ∧ Spells rest ls

@[simp] theorem spells_nil (args : List Argument) : Spells args [] := by
  cases args <;> trivial

end Usage

/-! ## Declaring a usage -/

namespace Build

open Arena Usage

theorem declare_cons_eq_ok {parents : List Nat} {arg : Argument} {rest : List Argument}
    {a a' : Arena} {u : Unit} :
    declare parents (arg :: rest) a = .ok u a' ↔ ∃ next a₁,
      extend parents (arg.contributions rest.isEmpty) a = .ok next a₁ ∧
        declare next rest a₁ = .ok u a' := by
  simp [declare]

@[simp] theorem declare_nil_eq_ok {parents : List Nat} {a a' : Arena} {u : Unit} :
    declare parents [] a = .ok u a' ↔ a = a' := by
  rw [declare, EStateM.pure_eq_ok]
  simp

/-- Declaring arguments below a frontier asks only for children of nodes at or beyond the frontier,
and makes a path for all that the arguments spell. -/
theorem declare_asked {m : Nat} :
    ∀ {args : List Argument} {parents : List Nat} {a a' : Arena}, IsTree a.nodes →
      (∀ p ∈ parents, m ≤ p ∧ p < a.nodes.size) → declare parents args a = .ok () a' →
      Asked (fun p _ => m ≤ p) a a' ∧
        ∀ p ∈ parents, ∀ ls, Spells args ls → ∃ x, Path a'.nodes p ls x
  | [], parents, a, a', t, _, h => by
    obtain rfl := declare_nil_eq_ok.mp h
    refine ⟨.refl t _, fun p _ ls hs => ?_⟩
    cases ls with
    | nil => exact ⟨p, rfl⟩
    | cons l ls => exact hs.elim
  | arg :: rest, parents, a, a', t, hparents, h => by
    obtain ⟨next, a₁, h₁, h₂⟩ := declare_cons_eq_ok.mp h
    obtain ⟨asked₁, hdown, hup⟩ := extend_asked t (fun p hp => (hparents p hp).2) h₁
    have hnext : ∀ q ∈ next, m ≤ q ∧ q < a₁.nodes.size := by
      intro q hq
      obtain ⟨p, hp, c, -, he⟩ := hup q hq
      have := asked₁.tree.lt_of_edge he
      have := hparents p hp
      exact ⟨by omega, he.lt_size⟩
    obtain ⟨asked₂, hpaths⟩ := declare_asked asked₁.tree hnext h₂
    refine ⟨(asked₁.mono fun p l hp => (hparents p hp.1).1).trans asked₂, ?_⟩
    rintro p hp (_ | ⟨l, ls⟩) hs
    · exact ⟨p, rfl⟩
    · obtain ⟨⟨c, hc, rfl⟩, hs⟩ := hs
      obtain ⟨q, hq, he⟩ := hdown p hp c hc
      obtain ⟨x, hx⟩ := hpaths q hq ls hs
      exact ⟨x, q, asked₂.grows.edge he, hx⟩

/-- The paths to the frontier, with what the arguments to come spell, are allowed. -/
def Frontier (a : Arena) (m : Nat) (allowed : List Label → Prop) (args : List Argument)
    (parents : List Nat) : Prop :=
  ∀ p ∈ parents, m ≤ p ∧ p < a.nodes.size ∧
    ∀ {ls ls'}, Path a.nodes m ls p → Spells args ls' → allowed (ls ++ ls')

section

variable {a a₁ : Arena} {m : Nat} {allowed : List Label → Prop} {arg : Argument}
  {rest : List Argument} {parents next : List Nat}

/-- The last edge of a path that is not old was asked for, so it starts at the frontier. -/
theorem extend_only (t : IsTree a.nodes) (honly : Only a.nodes m allowed)
    (hf : Frontier a m allowed (arg :: rest) parents)
    (h : extend parents (arg.contributions rest.isEmpty) a = .ok next a₁) :
    Only a₁.nodes m allowed := by
  obtain ⟨asked, -, -⟩ := extend_asked t (fun p hp => (hf p hp).2.1) h
  intro ls x hp
  rcases hp.eq_nil_or_concat with ⟨rfl, -⟩ | ⟨ls, l, q, rfl, hq, he⟩
  · exact honly [] m rfl
  rcases asked.edge he with hold | ⟨hparent, c, hc, rfl⟩
  · exact honly _ x (asked.path_of_lt hp hold.lt_size)
  · obtain ⟨-, hlt, hallowed⟩ := hf q hparent
    exact hallowed (asked.path_of_lt hq hlt) ⟨⟨c, hc, rfl⟩, spells_nil rest⟩

/-- The next frontier is as far on as the arguments are: a node has one parent, so every path to
the next frontier comes through this one. -/
theorem extend_frontier (t : IsTree a.nodes) (hf : Frontier a m allowed (arg :: rest) parents)
    (h : extend parents (arg.contributions rest.isEmpty) a = .ok next a₁) :
    Frontier a₁ m allowed rest next := by
  obtain ⟨asked, -, hup⟩ := extend_asked t (fun p hp => (hf p hp).2.1) h
  intro q hq
  obtain ⟨p, hparent, c, hc, he⟩ := hup q hq
  obtain ⟨hle, hlt, hallowed⟩ := hf p hparent
  have hpq := asked.tree.lt_of_edge he
  refine ⟨by omega, he.lt_size, fun {ls ls'} hp hs => ?_⟩
  rcases hp.eq_nil_or_concat with ⟨-, rfl⟩ | ⟨ls, l, p', rfl, hp', he'⟩
  · omega
  obtain ⟨rfl, rfl⟩ := asked.tree.edge_unique he' he
  rw [List.append_assoc, List.singleton_append]
  exact hallowed (asked.path_of_lt hp' hlt) ⟨⟨c, hc, rfl⟩, hs⟩

end

/-- Declaring arguments from a frontier spells nothing but what is allowed. -/
theorem declare_only {m : Nat} {allowed : List Label → Prop} :
    ∀ {args : List Argument} {parents : List Nat} {a a' : Arena}, IsTree a.nodes →
      Only a.nodes m allowed → Frontier a m allowed args parents →
      declare parents args a = .ok () a' → Only a'.nodes m allowed
  | [], parents, a, a', _, honly, _, h => by
    obtain rfl := declare_nil_eq_ok.mp h
    exact honly
  | arg :: rest, parents, a, a', t, honly, hf, h => by
    obtain ⟨next, a₁, h₁, h₂⟩ := declare_cons_eq_ok.mp h
    have t₁ := (extend_asked t (fun p hp => (hf p hp).2.1) h₁).1.tree
    exact declare_only t₁ (extend_only t honly hf h₁) (extend_frontier t hf h₁) h₂

end Build

end CommandGrammar
