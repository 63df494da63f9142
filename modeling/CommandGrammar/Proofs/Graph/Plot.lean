import CommandGrammar.Proofs.Graph.Path

/-!
# One command's part of a graph

As long as no name repeats, a command gets ids of its own, one after another (`Nodes.Plot`) : its
main literal, then what its usages hang below that, then a literal for every other name. What comes
later leaves these nodes alone, so in a finished graph the plots of all commands lie side by side in
the order of the commands, the root apart (`Nodes.Laid`, `Build.all_extends`).
-/

namespace CommandGrammar

open Nodes

/-- The label of a command's literal. -/
def Command.nameLabel (c : Command) (name : String) : Label :=
  (Contribution.literal name c.runnable).label

namespace Nodes

/-- The ids from `start` on, below `stop`, belong to this command; `others` are the literals of its
aliases. -/
structure Plot (ns : Array Node) (c : Command) (start stop : Nat) (others : List Nat) : Prop where
  start_pos : 0 < start
  start_lt : start < stop
  label : labelOf ns start = some (c.nameLabel c.name)
  aliases : List.Forall₂ (fun name id => labelOf ns id = some (c.nameLabel name) ∧
    redirectOf ns id = some start ∧ childrenOf ns id = []) c.aliases others
  others_mem : ∀ {id : Nat}, id ∈ others → start < id ∧ id < stop
  others_nodup : others.Nodup
  redirect : ∀ {i : Nat}, start ≤ i → i < stop → i ∉ others → redirectOf ns i = none
  closed : ∀ {i q : Nat}, start ≤ i → i < stop → q ∈ childrenOf ns i → i < q ∧ q < stop
  paths : ∀ u ∈ c.usages, ∀ ls, Usage.Spells u.arguments ls → ∃ x, Path ns start ls x
  only : Only ns start fun ls => ls = [] ∨ ∃ u ∈ c.usages, Usage.Spells u.arguments ls

/-- The plots of the commands lie side by side, and the groups are made up of their literals. -/
inductive Laid (ns : Array Node) : (start stop : Nat) → List Command → List Group → Prop
  | nil (start : Nat) : Laid ns start start [] []
  | cons {c : Command} {cs : List Command} {gs : List Group} {start next stop : Nat}
      {others : List Nat} : Plot ns c start next others → Laid ns next stop cs gs →
      Laid ns start stop (c :: cs) (⟨c.name, start :: others⟩ :: gs)

/-! ## Keeping plots -/

section

variable {ns ns' : Array Node} {c : Command} {start stop : Nat} {others : List Nat}

/-- Paths stay within nodes that have only each other as children. -/
theorem path_congr (hkept : ∀ i, start ≤ i → i < stop → ns'[i]? = ns[i]?)
    (hclosed : ∀ {i q}, start ≤ i → i < stop → q ∈ childrenOf ns i → i < q ∧ q < stop) :
    ∀ {ls : List Label} {p x : Nat}, start ≤ p → p < stop →
      (Path ns' p ls x ↔ Path ns p ls x)
  | [], _, _, _, _ => Iff.rfl
  | l :: ls, p, x, hp, hlt => by
    refine exists_congr fun q => ?_
    have hc : childrenOf ns' p = childrenOf ns p := by rw [childrenOf, hkept p hp hlt, childrenOf]
    rw [Edge, Edge, hc]
    constructor
    · rintro ⟨⟨hq, hl⟩, h⟩
      obtain ⟨hpq, hqs⟩ := hclosed hp hlt hq
      rw [labelOf, hkept q (by omega) hqs] at hl
      exact ⟨⟨hq, hl⟩, (path_congr hkept hclosed (by omega) hqs).mp h⟩
    · rintro ⟨⟨hq, hl⟩, h⟩
      obtain ⟨hpq, hqs⟩ := hclosed hp hlt hq
      rw [labelOf, ← hkept q (by omega) hqs] at hl
      exact ⟨⟨hq, hl⟩, (path_congr hkept hclosed (by omega) hqs).mpr h⟩

/-- A plot only depends on its own nodes. -/
theorem Plot.congr (h : Plot ns c start stop others)
    (hkept : ∀ i, start ≤ i → i < stop → ns'[i]? = ns[i]?) : Plot ns' c start stop others where
  start_pos := h.start_pos
  start_lt := h.start_lt
  label := by rw [labelOf, hkept start (Nat.le_refl _) h.start_lt, ← labelOf, h.label]
  aliases := by
    have mem : ∀ id ∈ others, ns'[id]? = ns[id]? := fun id hid =>
      hkept id (Nat.le_of_lt (h.others_mem hid).1) (h.others_mem hid).2
    refine List.forall₂_iff_zip.mpr ⟨h.aliases.length_eq, fun {name id} hz => ?_⟩
    have := List.forall₂_zip h.aliases hz
    rwa [labelOf, redirectOf, childrenOf, mem id (List.of_mem_zip hz).2]
  others_mem := h.others_mem
  others_nodup := h.others_nodup
  redirect hi hlt hid := by rw [redirectOf, hkept _ hi hlt, ← redirectOf, h.redirect hi hlt hid]
  closed hi hlt hq := by
    rw [childrenOf, hkept _ hi hlt, ← childrenOf] at hq
    exact h.closed hi hlt hq
  paths u hu ls hs := by
    obtain ⟨x, hx⟩ := h.paths u hu ls hs
    exact ⟨x, (path_congr hkept h.closed (Nat.le_refl _) h.start_lt).mpr hx⟩
  only ls x hp := h.only ls x ((path_congr hkept h.closed (Nat.le_refl _) h.start_lt).mp hp)

theorem Laid.le {start stop : Nat} {cs : List Command} {gs : List Group}
    (h : Laid ns start stop cs gs) : start ≤ stop := by
  induction h with
  | nil => exact Nat.le_refl _
  | cons p _ ih => exact Nat.le_trans (Nat.le_of_lt p.start_lt) ih

/-- Plots are there wherever their nodes are. -/
theorem Laid.congr {start stop : Nat} {cs : List Command} {gs : List Group}
    (h : Laid ns start stop cs gs)
    (hkept : ∀ i, start ≤ i → i < stop → ns'[i]? = ns[i]?) : Laid ns' start stop cs gs := by
  induction h with
  | nil => exact .nil _
  | cons p l ih =>
    refine .cons (p.congr fun i hi hlt => hkept i hi (Nat.lt_of_lt_of_le hlt l.le)) ?_
    exact ih fun i hi hlt => hkept i (Nat.le_trans (Nat.le_of_lt p.start_lt) hi) hlt

theorem Laid.append {start next stop : Nat} {cs cs' : List Command} {gs gs' : List Group}
    (h : Laid ns start next cs gs) (h' : Laid ns next stop cs' gs') :
    Laid ns start stop (cs ++ cs') (gs ++ gs') := by
  induction h with
  | nil => exact h'
  | cons p _ ih => exact .cons p (ih h')

/-- The literals of a command, below the root. -/
theorem Plot.label_of_mem (h : Plot ns c start stop others) {id : Nat}
    (hid : id ∈ start :: others) : ∃ name ∈ c.names, labelOf ns id = some (c.nameLabel name) := by
  rcases List.mem_cons.mp hid with rfl | hid
  · exact ⟨c.name, List.mem_cons_self, h.label⟩
  · obtain ⟨name, hname, hl, -⟩ := exists_left_of_forall₂ h.aliases id hid
    exact ⟨name, List.mem_cons_of_mem _ hname, hl⟩

theorem Laid.label_of_mem {cs : List Command} {gs : List Group} (h : Laid ns start stop cs gs)
    {id : Nat} (hid : id ∈ gs.flatMap Group.roots) :
    ∃ c ∈ cs, ∃ name ∈ c.names, labelOf ns id = some (c.nameLabel name) := by
  induction h with
  | nil => simp at hid
  | cons p _ ih =>
    rw [List.flatMap_cons] at hid
    rcases List.mem_append.mp hid with hid | hid
    · obtain ⟨name, hname, hl⟩ := p.label_of_mem hid
      exact ⟨_, List.mem_cons_self, name, hname, hl⟩
    · obtain ⟨c, hc, h⟩ := ih hid
      exact ⟨c, List.mem_cons_of_mem _ hc, h⟩

end

/-- No literal below the root has this name. -/
def Free (ns : Array Node) (name : String) : Prop :=
  ∀ (q : Nat) (l : Label), Edge ns 0 l q → l.name ≠ name

end Nodes

end CommandGrammar
