import CommandGrammar.Proofs.Graph.Lockstep

/-!
# Graphs of fewer commands

The graph of some of the commands is part of the graph of all (`Nodes.Embeds`) : its nodes are found
there under other ids, in the same order, and the root has the same children once the literals of
the other commands are skipped. Adding a command to both graphs keeps this up, by building it side
by side, and so does adding one to the larger graph only, which leaves old nodes alone.
-/

namespace CommandGrammar

open Nodes

theorem Node.rename_congr {φ φ' : Nat → Nat} {n : Node} (hc : ∀ q ∈ n.children, φ q = φ' q)
    (hr : ∀ t ∈ n.redirect, φ t = φ' t) : n.rename φ = n.rename φ' := by
  rw [rename, rename, List.map_congr_left hc, Option.map_congr hr]

namespace Nodes

/-- The nodes `k` are found among `a` under the ids `φ`, but for the skipped children of the
root. -/
structure Embeds (φ : Nat → Nat) (skip : Nat → Bool) (k a : Array Node) : Prop where
  zero : φ 0 = 0
  mono : ∀ {i j : Nat}, i < j → j < k.size → φ i < φ j
  lt : ∀ {i : Nat}, i < k.size → φ i < a.size
  node : ∀ {i : Nat}, 0 < i → i < k.size → a[φ i]? = k[i]?.map (Node.rename φ)
  target_lt : ∀ {i t : Nat}, redirectOf k i = some t → t < k.size
  root : (childrenOf a 0).filter (!skip ·) = (childrenOf k 0).map φ

/-- As `φ` below `start`, and a shift from `start` to `stop`. -/
def shiftFrom (φ : Nat → Nat) (start stop i : Nat) : Nat :=
  if i < start then φ i else i - start + stop

theorem shiftFrom_of_lt {φ : Nat → Nat} {start stop i : Nat} (h : i < start) :
    shiftFrom φ start stop i = φ i :=
  if_pos h

theorem shiftFrom_self (φ : Nat → Nat) (start stop : Nat) :
    shiftFrom φ start stop start = stop := by
  rw [shiftFrom, if_neg (Nat.lt_irrefl _), Nat.sub_self, Nat.zero_add]

theorem embeds_singleton (skip : Nat → Bool) : Embeds id skip #[Node.root] #[Node.root] := by
  refine ⟨rfl, fun h _ => h, fun h => h, ?_, ?_, ?_⟩
  · intro i hi hlt
    exact absurd hlt (Nat.not_lt_of_le hi)
  · intro i t ht
    obtain ⟨n, hn, ht⟩ := Option.bind_eq_some_iff.mp ht
    obtain rfl : n = Node.root := by simpa using Array.mem_of_getElem? hn
    simp [Node.root] at ht
  · simp

end Nodes

namespace Arena

variable {φ : Nat → Nat} {skip : Nat → Bool} {k a k' a' : Arena}

/-- What is added from now on is shifted, so that it follows what is there. -/
theorem renames_shiftFrom (e : Embeds φ skip k.nodes a.nodes) (t : IsTree k.nodes) :
    Renames k.nodes.size (shiftFrom φ k.nodes.size a.nodes.size) where
  zero := (shiftFrom_of_lt t.nonempty).trans e.zero
  mono {i j} hij := by
    unfold shiftFrom
    split
    · next hi =>
      split
      · next hj => exact e.mono hij hj
      · exact Nat.lt_of_lt_of_le (e.lt hi) (Nat.le_add_left ..)
    · rw [if_neg (by omega)]
      omega
  shift {i} hi := by
    unfold shiftFrom
    rw [if_neg (by omega), if_neg (by omega)]
    omega

/-- Before a command, an embedding is a pair of arenas to build it in side by side. -/
theorem inStep_of_embeds (e : Embeds φ skip k.nodes a.nodes) (t : IsTree k.nodes)
    (hlimit : k.limit = a.limit) :
    InStep k.nodes.size (shiftFrom φ k.nodes.size a.nodes.size) (childrenOf k.nodes 0)
      (childrenOf a.nodes 0) k a where
  tree := t
  start_le := Nat.le_refl _
  size := (shiftFrom_self ..).symm
  limit := hlimit
  node {i} hi hlt := by
    rw [shiftFrom_of_lt hlt, e.node hi hlt, Array.getElem?_eq_getElem hlt]
    refine congrArg some (Node.rename_congr (fun q hq => ?_) fun q hq => ?_)
    · have hq : q ∈ childrenOf k.nodes i := by
        rwa [childrenOf_eq (Array.getElem?_eq_getElem hlt)]
      exact (shiftFrom_of_lt (t.down hq).2).symm
    · have hq : redirectOf k.nodes i = some q := by
        rwa [redirectOf_eq (Array.getElem?_eq_getElem hlt)]
      exact (shiftFrom_of_lt (e.target_lt hq)).symm
  target_lt := e.target_lt
  old q hq := by
    rw [shiftFrom_of_lt (t.down hq).2]
    have : φ q ∈ (childrenOf k.nodes 0).map φ := List.mem_map_of_mem hq
    rw [← e.root] at this
    exact List.mem_of_mem_filter this
  root := ⟨[], by simp, by simp⟩

/-- After a command that was built in both arenas, the larger has new children of its root that are
not skipped. -/
theorem InStep.embeds {start : Nat} {ks as roots : List Nat} (m : InStep start φ ks as k a)
    (r : Renames start φ) (hold : as.filter (!skip ·) = ks.map φ)
    (hroots : childrenOf a.nodes 0 = as ++ roots) (hskip : ∀ id ∈ roots, skip id = false) :
    Embeds φ skip k.nodes a.nodes where
  zero := r.zero
  mono hij _ := r.mono hij
  lt hi := m.size ▸ r.mono hi
  node := m.node
  target_lt := m.target_lt
  root := by
    obtain ⟨new, hk, ha⟩ := m.root
    obtain rfl : roots = new.map φ := List.append_cancel_left (hroots.symm.trans ha)
    rw [ha, hk, List.filter_append, hold, List.map_append, List.filter_eq_self.mpr]
    exact fun id hid => by simp [hskip id hid]

/-- A command that is added to the larger arena only leaves an embedding alone, if its literals are
skipped. -/
theorem embeds_of_extends {cs : List Command} {gs : List Group} (e : Embeds φ skip k.nodes a.nodes)
    (x : Extends cs gs a a')
    (hskip : ∀ id ∈ gs.flatMap Group.roots, skip id = true) : Embeds φ skip k.nodes a'.nodes where
  zero := e.zero
  mono := e.mono
  lt hi := Nat.lt_of_lt_of_le (e.lt hi) x.grows.size_le
  node {i} hi hlt := by
    have hpos : φ 0 < φ i := e.mono hi hlt
    rw [x.kept (Nat.lt_of_le_of_lt (Nat.zero_le _) hpos) (e.lt hlt), e.node hi hlt]
  target_lt := e.target_lt
  root := by
    rw [x.root, List.filter_append, e.root, List.filter_eq_nil_iff.mpr, List.append_nil]
    exact fun id hid => by simp [hskip id hid]

end Arena

namespace Build

open Arena

/-- Of commands that have no name twice, those that are kept build an arena that is part of that of
all. -/
theorem all_embeds {skip : Nat → Bool} {keep : Command → Bool} :
    ∀ {cs : List Command} {gs : List Group} {k a a' : Arena} {φ : Nat → Nat}, IsTree k.nodes →
      IsTree a.nodes → k.limit = Graph.maxNodes → Within Graph.maxNodes Graph.maxNodes a →
      Embeds φ skip k.nodes a.nodes → (∀ c ∈ cs, ∀ name ∈ c.names, Free a.nodes name) →
      (cs.flatMap fun c => c.names).Nodup → all cs a = .ok () a' → a'.groups = a.groups ++ gs →
      List.Forall₂ (fun c g => ∀ id ∈ g.roots, skip id = !keep c) cs gs →
      ∃ k' φ', all (cs.filter keep) k = .ok () k' ∧ Embeds φ' skip k'.nodes a'.nodes
  | [], gs, k, a, a', φ, _, _, _, _, e, _, _, h, _, _ => by
    obtain ⟨-, rfl⟩ := EStateM.pure_eq_ok.mp h
    exact ⟨k, φ, rfl, e⟩
  | c :: cs, gs, k, a, a', φ, tk, ta, hk, ha, e, hfree, hnd, h, hgroups, hskip => by
    obtain ⟨⟨⟩, a₁, h₁, h₂⟩ := EStateM.bind_eq_ok.mp h
    have hnd' := hnd
    rw [List.flatMap_cons, List.nodup_append] at hnd'
    obtain ⟨hc, hcs, -⟩ := hnd'
    have hfree₁ := hfree c (by simp)
    obtain ⟨g, x⟩ := command_extends ta hfree₁ hc h₁
    have hfree₂ := free_tail ta x hfree hnd
    obtain ⟨gs', x'⟩ := all_extends x.tree hfree₂ hcs h₂
    obtain rfl : gs = g :: gs' := by
      rw [x'.groups, x.groups, List.append_assoc] at hgroups
      exact (List.append_cancel_left hgroups).symm
    obtain ⟨hskip₁, hskip₂⟩ := List.forall₂_cons.mp hskip
    have ha₁ : Within Graph.maxNodes Graph.maxNodes a₁ := by
      have := command_within (Nat.le_refl _) c ta.nonempty ha
      rwa [h₁] at this
    cases hkeep : keep c with
    | true =>
      rw [hkeep] at hskip₁
      have r := renames_shiftFrom e tk
      obtain ⟨k₁, hk₁, m⟩ :=
        command_inStep r (inStep_of_embeds e tk (hk.trans ha.1.symm)) ta hfree₁ hc h₁
      have hold : (childrenOf a.nodes 0).filter (!skip ·) =
          (childrenOf k.nodes 0).map (shiftFrom φ k.nodes.size a.nodes.size) :=
        e.root.trans (List.map_congr_left fun q hq => (shiftFrom_of_lt (tk.down hq).2).symm)
      have e₁ := m.embeds r hold (by simpa using x.root) (by simpa using hskip₁)
      obtain ⟨k', φ', hk', e'⟩ := all_embeds m.tree x.tree (m.limit.trans ha₁.1) ha₁ e₁ hfree₂ hcs
        h₂ x'.groups hskip₂
      rw [List.filter_cons_of_pos hkeep]
      exact ⟨k', φ', EStateM.bind_eq_ok.mpr ⟨(), k₁, hk₁, hk'⟩, e'⟩
    | false =>
      rw [hkeep] at hskip₁
      have e₁ := embeds_of_extends e x (by simpa using hskip₁)
      obtain ⟨k', φ', hk', e'⟩ := all_embeds tk x.tree hk ha₁ e₁ hfree₂ hcs h₂ x'.groups hskip₂
      rw [List.filter_cons_of_neg (by simp [hkeep])]
      exact ⟨k', φ', hk', e'⟩

end Build

namespace Graph

/-- The graph of the commands that are kept is part of the graph of all, once the literals of the
other groups are skipped. -/
theorem exists_embeds {caseInsensitive : Bool} {generation : Nat} {cs : List Command} {g : Graph}
    (hnd : (cs.flatMap fun c => c.names).Nodup)
    (h : ofCommands caseInsensitive generation cs = .ok g) {skip : Nat → Bool}
    {keep : Command → Bool}
    (hskip : List.Forall₂ (fun c group => ∀ id ∈ group.roots, skip id = !keep c) cs g.groups)
    (generation' : Nat) :
    ∃ k φ, ofCommands caseInsensitive generation' (cs.filter keep) = .ok k ∧
      Embeds φ skip k.nodes g.nodes := by
  obtain ⟨a, ha, rfl⟩ := ofCommands_eq_ok.mp h
  obtain ⟨k, φ, hk, e⟩ := Build.all_embeds (k := {}) isTree_singleton isTree_singleton rfl
    ⟨rfl, by decide⟩ (embeds_singleton skip) (free_root maxNodes cs) hnd ha
    (List.nil_append _).symm hskip
  exact ⟨_, φ, ofCommands_eq_ok.mpr ⟨k, hk, rfl⟩, e⟩

end Graph

end CommandGrammar
