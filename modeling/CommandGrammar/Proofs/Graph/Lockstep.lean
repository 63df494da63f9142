import CommandGrammar.Proofs.Graph.Commands
import Mathlib.Data.List.Find

/-!
# Building side by side

The same command is built in two arenas, one of which has more commands already. It gets the same
nodes in both, but for their ids. A renaming of ids (`Arena.Renames`) leads from the smaller arena
to the larger one; over one command it is a shift, so it need not change while the command is built.
`Arena.InStep` is what holds between the two arenas all along, and `Build.command_inStep` is that
every step that the larger arena takes is one that the smaller takes too.
-/

namespace CommandGrammar

open Nodes

/-- The node with its references renamed. -/
def Node.rename (φ : Nat → Nat) (n : Node) : Node :=
  { n with children := n.children.map φ, redirect := n.redirect.map φ }

namespace Arena

/-- The renaming keeps the root and the order of ids, and from `start` on it is a shift. -/
structure Renames (start : Nat) (φ : Nat → Nat) : Prop where
  zero : φ 0 = 0
  mono : ∀ {i j : Nat}, i < j → φ i < φ j
  shift : ∀ {i : Nat}, start ≤ i → φ (i + 1) = φ i + 1

namespace Renames

variable {start : Nat} {φ : Nat → Nat} (r : Renames start φ)

include r

theorem injective {i j : Nat} (h : φ i = φ j) : i = j := by
  rcases Nat.lt_trichotomy i j with hlt | heq | hgt
  · exact absurd h (Nat.ne_of_lt (r.mono hlt))
  · exact heq
  · exact absurd h (Nat.ne_of_gt (r.mono hgt))

theorem eq_iff {i j : Nat} : φ i = φ j ↔ i = j :=
  ⟨r.injective, congrArg φ⟩

/-- Nodes are only moved further back, to make room for those of other commands. -/
theorem le_apply (i : Nat) : i ≤ φ i := by
  induction i with
  | zero => exact Nat.zero_le _
  | succ i ih =>
    have := r.mono (Nat.lt_add_one i)
    omega

theorem pos {i : Nat} (hi : 0 < i) : 0 < φ i := by
  have := r.mono hi
  omega

end Renames

/-- Two arenas in which one command is built, `ks` and `as` being the children that their roots had
before. Every node but the root is in the larger arena under its new id. -/
structure InStep (start : Nat) (φ : Nat → Nat) (ks as : List Nat) (k a : Arena) : Prop where
  tree : IsTree k.nodes
  start_le : start ≤ k.nodes.size
  size : a.nodes.size = φ k.nodes.size
  limit : k.limit = a.limit
  node : ∀ {i : Nat}, 0 < i → i < k.nodes.size →
    a.nodes[φ i]? = k.nodes[i]?.map (Node.rename φ)
  target_lt : ∀ {i t : Nat}, redirectOf k.nodes i = some t → t < k.nodes.size
  old : ∀ q ∈ ks, φ q ∈ as
  root : ∃ new, childrenOf k.nodes 0 = ks ++ new ∧ childrenOf a.nodes 0 = as ++ new.map φ

namespace InStep

variable {start : Nat} {φ : Nat → Nat} {ks as : List Nat} {k a a' : Arena} {p : Nat}
  {c : Contribution}

theorem labelOf (m : InStep start φ ks as k a) {i : Nat} (hi : 0 < i) (hlt : i < k.nodes.size) :
    labelOf a.nodes (φ i) = Nodes.labelOf k.nodes i := by
  rw [Nodes.labelOf, m.node hi hlt, Nodes.labelOf, Option.bind_map]
  rfl

/-- Looking for a child finds the same one on both sides, if the parent is not the root. -/
theorem childOf? (m : InStep start φ ks as k a) (hp : 0 < p) (hlt : p < k.nodes.size) (l : Label) :
    a.childOf? (φ p) l = (k.childOf? p l).map φ := by
  obtain ⟨n, hn⟩ : ∃ n, k.nodes[p]? = some n := ⟨_, Array.getElem?_eq_getElem hlt⟩
  rw [Arena.childOf?, Arena.childOf?, m.node hp hlt, hn]
  simp only [Option.map_some, Option.bind_some, Node.rename, List.find?_map]
  refine congrArg (Option.map φ) (List.find?_congr fun q hq => ?_)
  rw [← childrenOf_eq hn] at hq
  have hlabel : a.label? (φ q) = k.label? q := m.labelOf (m.tree.ne_root hq) (m.tree.down hq).2
  rw [Function.comp_apply, hlabel]

/-- A child that is new on both sides is the next node of both. -/
theorem addChild (r : Renames start φ) (m : InStep start φ ks as k a) (hp : p < k.nodes.size)
    (hnew : ∀ q, ¬Edge k.nodes p c.label q) :
    InStep start φ ks as (k.addChild p c) (a.addChild (φ p) c) := by
  have hsize : φ (k.nodes.size + 1) = a.nodes.size + 1 := by rw [r.shift m.start_le, m.size]
  have hpa : φ p < a.nodes.size := m.size ▸ r.mono hp
  refine ⟨isTree_addChild m.tree hp hnew, ?_, ?_, m.limit, ?_, ?_, m.old, ?_⟩
  · rw [size_addChild]
    exact Nat.le_succ_of_le m.start_le
  · simp [hsize]
  · intro i hi hlt
    rw [size_addChild] at hlt
    rw [getElem?_addChild, getElem?_addChild, m.size]
    by_cases hik : i = k.nodes.size
    · rw [if_pos hik, if_pos (congrArg φ hik)]
      rfl
    rw [if_neg hik, if_neg fun h => hik (r.injective h)]
    have hnode := m.node hi (by omega)
    by_cases hip : i = p
    · rw [if_pos hip, if_pos (congrArg φ hip), hnode, Option.map_map, Option.map_map]
      refine congrArg (fun f => Option.map f _) (funext fun n => ?_)
      simp [Node.rename]
    · rw [if_neg hip, if_neg fun h => hip (r.injective h), hnode]
  · intro i t ht
    rw [redirectOf_addChild] at ht
    rw [size_addChild]
    split at ht
    · simp at ht
    · exact Nat.lt_succ_of_lt (m.target_lt ht)
  · obtain ⟨new, hk, ha⟩ := m.root
    by_cases h0 : p = 0
    · subst h0
      refine ⟨new ++ [k.nodes.size], ?_, ?_⟩
      · rw [childrenOf_addChild hp, if_pos rfl, hk, List.append_assoc]
      · rw [childrenOf_addChild hpa, if_pos r.zero.symm, ha, m.size, List.map_append,
          List.append_assoc]
        rfl
    · refine ⟨new, ?_, ?_⟩
      · rw [childrenOf_addChild hp, if_neg (Ne.symm h0), hk]
      · rw [childrenOf_addChild hpa, if_neg, ha]
        exact Nat.ne_of_lt (r.pos (Nat.pos_of_ne_zero h0))

/-- A redirect on one side is the renamed redirect on the other. -/
theorem setRedirect (r : Renames start φ) (m : InStep start φ ks as k a) (id : Nat) {target : Nat}
    (htarget : target < k.nodes.size) :
    InStep start φ ks as (k.setRedirect id target) (a.setRedirect (φ id) (φ target)) := by
  refine ⟨isTree_setRedirect m.tree id target, ?_, ?_, m.limit, ?_, ?_, m.old, ?_⟩
  · rw [size_setRedirect]
    exact m.start_le
  · simp [m.size]
  · intro i hi hlt
    rw [size_setRedirect] at hlt
    rw [getElem?_setRedirect, getElem?_setRedirect, m.node hi hlt]
    simp only [r.eq_iff]
    split
    · simp [Node.rename, Function.comp_def]
    · rfl
  · intro i t ht
    rw [size_setRedirect]
    rcases redirectOf_setRedirect ht with rfl | ht
    · exact htarget
    · exact m.target_lt ht
  · rw [childrenOf_setRedirect, childrenOf_setRedirect]
    exact m.root

/-- What is free in the larger arena is free in the smaller. -/
theorem free (m : InStep start φ ks as k a) {name : String} (h : Free a.nodes name) :
    Free k.nodes name := by
  rintro q l ⟨hq, hl⟩
  refine h (φ q) l ⟨?_, (m.labelOf (m.tree.ne_root hq) (m.tree.down hq).2).trans hl⟩
  obtain ⟨new, hk, ha⟩ := m.root
  rw [hk] at hq
  rw [ha]
  rcases List.mem_append.mp hq with hq | hq
  · exact List.mem_append_left _ (m.old q hq)
  · exact List.mem_append_right _ (List.mem_map_of_mem hq)

end InStep

end Arena

/-! ## Building side by side -/

/-- Renaming makes no duplicates, and loses none. -/
theorem eraseDups_map {φ : Nat → Nat} (hφ : ∀ i j, φ i = φ j → i = j) :
    ∀ ids : List Nat, (ids.map φ).eraseDups = ids.eraseDups.map φ
  | [] => rfl
  | id :: ids => by
    have hne : ((fun b => !b == φ id) ∘ φ) = fun b => !b == id := by
      funext b
      have : φ b = φ id ↔ b = id := ⟨hφ b id, congrArg φ⟩
      simp [Function.comp_apply, beq_eq_decide, this]
    rw [List.map_cons, List.eraseDups_cons, List.eraseDups_cons, List.filter_map, hne,
      eraseDups_map hφ, List.map_cons]
termination_by ids => ids.length
decreasing_by exact Nat.lt_succ_of_le (List.length_filter_le ..)

namespace Build

open Arena

theorem child_of_some {k : Arena} {p id : Nat} {c : Contribution}
    (h : k.childOf? p c.label = some id) : child p c k = .ok id k := by
  simp only [child, h]

theorem child_of_none {k : Arena} {p : Nat} {c : Contribution} (h : k.childOf? p c.label = none)
    (hlt : k.nodes.size < k.limit) : child p c k = .ok k.nodes.size (k.addChild p c) := by
  simp only [child, h, if_neg (Nat.not_le_of_lt hlt)]

section

variable {start : Nat} {φ : Nat → Nat} {ks as : List Nat}

/-- A child below the root is made in both arenas, or in neither. -/
theorem child_inStep (r : Renames start φ) {k a a' : Arena} {p id' : Nat} {c : Contribution}
    (m : InStep start φ ks as k a) (hp : 0 < p) (hlt : p < k.nodes.size)
    (h : child (φ p) c a = .ok id' a') :
    ∃ id k', child p c k = .ok id k' ∧ id' = φ id ∧ k.nodes.size ≤ k'.nodes.size ∧
      (0 < id ∧ id < k'.nodes.size) ∧ InStep start φ ks as k' a' := by
  have hchild := m.childOf? hp hlt c.label
  cases hk : k.childOf? p c.label with
  | some id =>
    rw [hk] at hchild
    obtain ⟨rfl, rfl⟩ := EStateM.Result.ok.inj ((child_of_some hchild).symm.trans h)
    have he := edge_of_childOf? hk
    exact ⟨id, k, child_of_some hk, rfl, Nat.le_refl _, ⟨m.tree.ne_root he.1, he.lt_size⟩, m⟩
  | none =>
    rw [hk] at hchild
    rcases child_eq_ok h with ⟨-, he⟩ | ⟨-, rfl, hlimit, rfl⟩
    · exact absurd he (not_edge_of_childOf? hchild _)
    have hle := r.le_apply k.nodes.size
    rw [← m.size] at hle
    refine ⟨_, _, child_of_none hk (m.limit ▸ Nat.lt_of_le_of_lt hle hlimit), m.size, ?_, ?_,
      m.addChild r hlt fun q he => not_edge_of_childOf? hk q he⟩
    · rw [size_addChild]
      exact Nat.le_succ _
    · rw [size_addChild]
      exact ⟨m.tree.nonempty, Nat.lt_succ_self _⟩

/-- The literal of a free name is made in both arenas. -/
theorem nameLiteral_inStep (r : Renames start φ) {k a a' : Arena} {id' : Nat} {c : Command}
    {name : String} (m : InStep start φ ks as k a) (hfree : Free a.nodes name)
    (h : nameLiteral c name a = .ok id' a') :
    ∃ k', nameLiteral c name k = .ok k.nodes.size k' ∧ id' = φ k.nodes.size ∧
      k'.nodes.size = k.nodes.size + 1 ∧ InStep start φ ks as k' a' := by
  have hnew : ∀ q, ¬Edge k.nodes 0 (c.nameLabel name) q := fun q he => m.free hfree q _ he rfl
  rcases child_eq_ok h with ⟨-, he⟩ | ⟨-, rfl, hlimit, rfl⟩
  · exact absurd rfl (hfree _ _ he)
  have hle := r.le_apply k.nodes.size
  rw [← m.size] at hle
  have hnone : k.childOf? 0 (c.nameLabel name) = none :=
    Option.eq_none_iff_forall_not_mem.mpr fun q hq => hnew q (edge_of_childOf? hq)
  refine ⟨_, child_of_none hnone (m.limit ▸ Nat.lt_of_le_of_lt hle hlimit), m.size,
    size_addChild .., ?_⟩
  have := m.addChild r m.tree.nonempty hnew
  rwa [r.zero] at this

/-- Children are asked for one after another, each where the last one has led to. -/
theorem mapM_child_inStep (r : Renames start φ) :
    ∀ {pairs : List (Nat × Contribution)} {k a a' : Arena} {ids' : List Nat},
      InStep start φ ks as k a → (∀ x ∈ pairs, 0 < x.1 ∧ x.1 < k.nodes.size) →
      ((pairs.map fun x => (φ x.1, x.2)).mapM fun (p, c) => child p c : Build (List Nat)) a =
        .ok ids' a' →
      ∃ ids k', (pairs.mapM fun (p, c) => child p c : Build (List Nat)) k = .ok ids k' ∧
        ids' = ids.map φ ∧ k.nodes.size ≤ k'.nodes.size ∧
        (∀ id ∈ ids, 0 < id ∧ id < k'.nodes.size) ∧ InStep start φ ks as k' a'
  | [], k, a, a', ids', m, _, h => by
    obtain ⟨rfl, rfl⟩ := EStateM.mapM_nil_eq_ok.mp h
    exact ⟨[], k, EStateM.mapM_nil_eq_ok.mpr ⟨rfl, rfl⟩, rfl, Nat.le_refl _, by simp, m⟩
  | x :: pairs, k, a, a', ids', m, hlt, h => by
    obtain ⟨id', a₁, ids', h₁, h₂, rfl⟩ := EStateM.mapM_cons_eq_ok.mp h
    obtain ⟨hx, hpairs⟩ := List.forall_mem_cons.mp hlt
    obtain ⟨id, k₁, hk₁, rfl, hle₁, hid, m₁⟩ := child_inStep r m hx.1 hx.2 h₁
    obtain ⟨ids, k₂, hk₂, rfl, hle₂, hids, m₂⟩ := mapM_child_inStep r m₁
      (fun y hy => ⟨(hpairs y hy).1, Nat.lt_of_lt_of_le (hpairs y hy).2 hle₁⟩) h₂
    have hk : (x :: pairs).mapM (fun (p, c) => child p c : _ → Build Nat) k = .ok (id :: ids) k₂ :=
      EStateM.mapM_cons_eq_ok.mpr ⟨id, k₁, ids, hk₁, hk₂, rfl⟩
    exact ⟨id :: ids, k₂, hk, rfl, Nat.le_trans hle₁ hle₂,
      List.forall_mem_cons.mpr ⟨⟨hid.1, Nat.lt_of_lt_of_le hid.2 hle₂⟩, hids⟩, m₂⟩

/-- The nodes of one argument are found or made on both sides alike. -/
theorem extend_inStep (r : Renames start φ) {k a a' : Arena} {parents next' : List Nat}
    {cs : List Contribution} (m : InStep start φ ks as k a)
    (hlt : ∀ p ∈ parents, 0 < p ∧ p < k.nodes.size)
    (h : extend (parents.map φ) cs a = .ok next' a') :
    ∃ next k', extend parents cs k = .ok next k' ∧ next' = next.map φ ∧
      k.nodes.size ≤ k'.nodes.size ∧ (∀ q ∈ next, 0 < q ∧ q < k'.nodes.size) ∧
      InStep start φ ks as k' a' := by
  obtain ⟨ids', hext, rfl⟩ := extend_eq_ok.mp h
  have hpairs : (parents.map φ).flatMap (fun p => cs.map (p, ·)) =
      (parents.flatMap fun p => cs.map (p, ·)).map fun x => (φ x.1, x.2) := by
    simp [List.flatMap_map, List.map_flatMap, Function.comp_def]
  rw [hpairs] at hext
  obtain ⟨ids, k', hk, rfl, hle, hids, m'⟩ :=
    mapM_child_inStep r m (fun x hx => hlt x.1 (mem_pairs.mp hx).1) hext
  exact ⟨ids.eraseDups, k', extend_eq_ok.mpr ⟨ids, hk, rfl⟩,
    eraseDups_map (fun _ _ => r.injective) ids, hle,
    fun q hq => hids q (List.mem_eraseDups.mp hq), m'⟩

/-- Arguments are declared alike, each below the nodes of the one before it. -/
theorem declare_inStep (r : Renames start φ) :
    ∀ {args : List Argument} {parents : List Nat} {k a a' : Arena},
      InStep start φ ks as k a → (∀ p ∈ parents, 0 < p ∧ p < k.nodes.size) →
      declare (parents.map φ) args a = .ok () a' →
      ∃ k', declare parents args k = .ok () k' ∧ k.nodes.size ≤ k'.nodes.size ∧
        InStep start φ ks as k' a'
  | [], parents, k, a, a', m, _, h => by
    obtain rfl := declare_nil_eq_ok.mp h
    exact ⟨k, declare_nil_eq_ok.mpr rfl, Nat.le_refl _, m⟩
  | arg :: rest, parents, k, a, a', m, hlt, h => by
    obtain ⟨next', a₁, h₁, h₂⟩ := declare_cons_eq_ok.mp h
    obtain ⟨next, k₁, hk₁, rfl, hle₁, hnext, m₁⟩ := extend_inStep r m hlt h₁
    obtain ⟨k₂, hk₂, hle₂, m₂⟩ := declare_inStep r m₁ hnext h₂
    exact ⟨k₂, declare_cons_eq_ok.mpr ⟨next, k₁, hk₁, hk₂⟩, Nat.le_trans hle₁ hle₂, m₂⟩

theorem usages_inStep (r : Renames start φ) {main : Nat} :
    ∀ {us : List Usage} {k a a' : Arena}, InStep start φ ks as k a →
      0 < main ∧ main < k.nodes.size →
      (us.forM fun u => declare [φ main] u.arguments : Build Unit) a = .ok () a' →
      ∃ k', (us.forM fun u => declare [main] u.arguments : Build Unit) k = .ok () k' ∧
        k.nodes.size ≤ k'.nodes.size ∧ InStep start φ ks as k' a'
  | [], k, a, a', m, _, h => by
    obtain ⟨-, rfl⟩ := EStateM.pure_eq_ok.mp h
    exact ⟨k, rfl, Nat.le_refl _, m⟩
  | u :: us, k, a, a', m, hmain, h => by
    obtain ⟨⟨⟩, a₁, h₁, h₂⟩ := EStateM.bind_eq_ok.mp h
    have h₁ : declare ([main].map φ) u.arguments a = .ok () a₁ := h₁
    obtain ⟨k₁, hk₁, hle₁, m₁⟩ := declare_inStep r m (by simpa using hmain) h₁
    obtain ⟨k₂, hk₂, hle₂, m₂⟩ :=
      usages_inStep r m₁ ⟨hmain.1, Nat.lt_of_lt_of_le hmain.2 hle₁⟩ h₂
    exact ⟨k₂, EStateM.bind_eq_ok.mpr ⟨(), k₁, hk₁, hk₂⟩, Nat.le_trans hle₁ hle₂, m₂⟩

theorem aliasLiteral_inStep (r : Renames start φ) {k a a' : Arena} {main id' : Nat} {c : Command}
    {name : String} (m : InStep start φ ks as k a) (hmain : main < k.nodes.size)
    (hfree : Free a.nodes name) (h : aliasLiteral c (φ main) name a = .ok id' a') :
    ∃ id k', aliasLiteral c main name k = .ok id k' ∧ id' = φ id ∧
      k.nodes.size ≤ k'.nodes.size ∧ InStep start φ ks as k' a' := by
  obtain ⟨a₁, h₁, rfl⟩ := aliasLiteral_eq_ok.mp h
  obtain ⟨k₁, hk₁, rfl, hsize, m₁⟩ := nameLiteral_inStep r m hfree h₁
  have hle : k.nodes.size ≤ k₁.nodes.size := hsize ▸ Nat.le_succ _
  refine ⟨k.nodes.size, k₁.setRedirect k.nodes.size main, ?_, rfl, ?_,
    m₁.setRedirect r k.nodes.size (Nat.lt_of_lt_of_le hmain hle)⟩
  · exact aliasLiteral_eq_ok.mpr ⟨k₁, hk₁, rfl⟩
  · rw [size_setRedirect]
    exact hle

/-- Aliases with distinct names are new literals, one after another. -/
theorem aliases_inStep (r : Renames start φ) {c : Command} {main : Nat} :
    ∀ {names : List String} {k a a' : Arena} {ids' : List Nat}, InStep start φ ks as k a →
      main < k.nodes.size → IsTree a.nodes → (∀ name ∈ names, Free a.nodes name) → names.Nodup →
      names.mapM (aliasLiteral c (φ main)) a = .ok ids' a' →
      ∃ ids k', names.mapM (aliasLiteral c main) k = .ok ids k' ∧ InStep start φ ks as k' a'
  | [], k, a, a', ids', m, _, _, _, _, h => by
    obtain ⟨rfl, rfl⟩ := EStateM.mapM_nil_eq_ok.mp h
    exact ⟨[], k, EStateM.mapM_nil_eq_ok.mpr ⟨rfl, rfl⟩, m⟩
  | name :: names, k, a, a', ids', m, hmain, t, hfree, hnd, h => by
    obtain ⟨id', a₁, ids', h₁, h₂, rfl⟩ := EStateM.mapM_cons_eq_ok.mp h
    obtain ⟨hname, hnd⟩ := List.nodup_cons.mp hnd
    obtain ⟨hfree₁, hfree⟩ := List.forall_mem_cons.mp hfree
    obtain ⟨id, k₁, hk₁, -, hle, m₁⟩ := aliasLiteral_inStep r m hmain hfree₁ h₁
    obtain ⟨-, rfl⟩ := aliasLiteral_of_free hfree₁ h₁
    have one : Aliased c (φ main) [name] [a.nodes.size] a _ := aliased_singleton t hfree₁
    have t₁ := one.tree
    obtain ⟨ids, k₂, hk₂, m₂⟩ := aliases_inStep r m₁ (Nat.lt_of_lt_of_le hmain hle) t₁
      (fun other hother => free_aliasLiteral t (hfree other hother) fun he => hname (he ▸ hother))
      hnd h₂
    exact ⟨id :: ids, k₂, EStateM.mapM_cons_eq_ok.mpr ⟨id, k₁, ids, hk₁, hk₂, rfl⟩, m₂⟩

/-- A command whose names are free is built in both arenas. -/
theorem command_inStep (r : Renames start φ) {k a a' : Arena} {c : Command}
    (m : InStep start φ ks as k a) (t : IsTree a.nodes)
    (hfree : ∀ name ∈ c.names, Free a.nodes name) (hnd : c.names.Nodup)
    (h : command c a = .ok () a') :
    ∃ k', command c k = .ok () k' ∧ InStep start φ ks as k' a' := by
  obtain ⟨main, a₁, a₂, others, a₃, h₁, h₂, h₃, rfl⟩ := command_eq_ok.mp h
  obtain ⟨hname, hnd⟩ := List.nodup_cons.mp hnd
  obtain ⟨hfree₁, hfree⟩ := List.forall_mem_cons.mp hfree
  obtain ⟨k₁, hk₁, hmain, hsize, m₁⟩ := nameLiteral_inStep r m hfree₁ h₁
  obtain ⟨rfl, rfl⟩ := nameLiteral_of_free hfree₁ h₁
  have o := opened t hfree₁ h₂
  rw [hmain] at h₂ h₃
  have hlt : k.nodes.size < k₁.nodes.size := hsize ▸ Nat.lt_succ_self _
  obtain ⟨k₂, hk₂, hle, m₂⟩ := usages_inStep r m₁ ⟨m.tree.nonempty, hlt⟩ h₂
  have free₂ : ∀ name ∈ c.aliases, Free a₂.nodes name := fun name hmem =>
    o.free t (hfree name hmem) fun he => hname (he ▸ hmem)
  obtain ⟨ids, k₃, hk₃, m₃⟩ :=
    aliases_inStep r m₂ (Nat.lt_of_lt_of_le hlt hle) o.tree free₂ hnd h₃
  exact ⟨_, command_eq_ok.mpr ⟨_, k₁, k₂, ids, k₃, hk₁, hk₂, hk₃, rfl⟩, { m₃ with }⟩

end

end Build

end CommandGrammar
