import CommandGrammar.Proofs.Graph.Commands
import Mathlib.Data.List.Flatten
import Mathlib.Data.List.Pairwise

/-!
# What a graph declares

Looking up declared commands from either side: every child of the root is a literal of a command
(`Graph.Declares.plot_of_child`), and every command has such a literal for each of its names
(`Graph.Declares.plot_of_command`, `Nodes.Plot.exists_literal`). A path of ids spells the labels of
its nodes (`Nodes.exists_path`), so below a main literal it spells the beginning of a usage.
-/

namespace CommandGrammar

open Nodes

/-- Without repetition, whatever is in one of the parts is in no other. -/
theorem eq_of_nodup_flatMap {α β : Type} {f : α → List β} {as : List α} (h : (as.flatMap f).Nodup)
    {a a' : α} {b : β} (ha : a ∈ as) (ha' : a' ∈ as) (hb : b ∈ f a) (hb' : b ∈ f a') : a = a' := by
  have : Std.Symm (Function.onFun List.Disjoint f) := ⟨fun _ _ h _ hid hid' => h hid' hid⟩
  by_contra hne
  exact (List.nodup_flatMap.mp h).2.forall ha ha' hne hb hb'

/-! ## Names of ids -/

/-- The name of an id. -/
def Graph.nameOf (g : Graph) (id : Nat) : String :=
  ((g.node? id).map Node.name).getD ""

theorem Graph.nameOf_eq {g : Graph} {id : Nat} {l : Label} (h : labelOf g.nodes id = some l) :
    g.nameOf id = l.name := by
  obtain ⟨n, hn, hl⟩ := Option.bind_eq_some_iff.mp h
  rw [nameOf, show g.node? id = some n from hn]
  simp [Node.name, Node.name?, hl]

/-! ## Paths of ids -/

namespace Nodes

/-- Each id is a child of the one before it, the first one of `p`. -/
def Leads (ns : Array Node) : (p : Nat) → List Nat → Prop
  | _, [] => True
  | p, x :: xs => x ∈ childrenOf ns p ∧ Leads ns x xs

variable {ns : Array Node}

theorem exists_path (t : IsTree ns) :
    ∀ {p : Nat} {xs : List Nat}, Leads ns p xs → ∃ ls, Path ns p ls (xs.getLastD p) ∧
      List.Forall₂ (fun x l => labelOf ns x = some l) xs ls
  | p, [], _ => ⟨[], rfl, .nil⟩
  | p, x :: xs, ⟨hx, hxs⟩ => by
    obtain ⟨l, he⟩ := t.exists_edge hx
    obtain ⟨ls, hp, hls⟩ := exists_path t hxs
    rw [List.getLastD_cons]
    exact ⟨l :: ls, ⟨x, he, hp⟩, .cons he.2 hls⟩

end Nodes

/-! ## Literals of commands -/

namespace Nodes

variable {ns : Array Node} {c : Command} {start stop : Nat} {others : List Nat}

/-- Every name of a command has a literal, which is the main one or redirects to it. -/
theorem Plot.exists_literal (h : Plot ns c start stop others) {name : String}
    (hname : name ∈ c.names) :
    ∃ l ∈ start :: others, labelOf ns l = some (c.nameLabel name) ∧
      (l = start ∨ redirectOf ns l = some start) := by
  rcases List.mem_cons.mp hname with rfl | hname
  · exact ⟨start, List.mem_cons_self, h.label, .inl rfl⟩
  · obtain ⟨l, hl, hlabel, hredirect, -⟩ := exists_right_of_forall₂ h.aliases name hname
    exact ⟨l, List.mem_cons_of_mem _ hl, hlabel, .inr hredirect⟩

/-- The main literal does not redirect, and all others redirect to it. -/
theorem Plot.redirect_literal (h : Plot ns c start stop others) {l : Nat}
    (hl : l ∈ start :: others) : (redirectOf ns l).getD l = start := by
  rcases List.mem_cons.mp hl with rfl | hl
  · have hstart : l ∉ others := fun hmem => Nat.lt_irrefl _ (h.others_mem hmem).1
    rw [h.redirect (Nat.le_refl _) h.start_lt hstart, Option.getD_none]
  · obtain ⟨name, -, -, hredirect, -⟩ := exists_left_of_forall₂ h.aliases l hl
    rw [hredirect, Option.getD_some]

/-- Groups go by the names of their commands. -/
theorem Laid.commands {cs : List Command} {gs : List Group} (h : Laid ns start stop cs gs) :
    List.Forall₂ (fun c group => group.command = c.name) cs gs := by
  induction h with
  | nil => exact .nil
  | cons _ _ ih => exact .cons rfl ih

/-- Every command has a plot, and its literals are a group. -/
theorem Laid.plot_of_command {cs : List Command} {gs : List Group}
    (h : Laid ns start stop cs gs) (hc : c ∈ cs) :
    ∃ main next others, Plot ns c main next others ∧ ⟨c.name, main :: others⟩ ∈ gs := by
  induction h with
  | nil => simp at hc
  | cons p _ ih =>
    rcases List.mem_cons.mp hc with rfl | hc
    · exact ⟨_, _, _, p, List.mem_cons_self⟩
    · obtain ⟨main, next, others, p, hg⟩ := ih hc
      exact ⟨main, next, others, p, List.mem_cons_of_mem _ hg⟩

/-- Every literal of a group is in the plot of its command. -/
theorem Laid.plot_of_root {cs : List Command} {gs : List Group}
    (h : Laid ns start stop cs gs) {l : Nat} (hl : l ∈ gs.flatMap Group.roots) :
    ∃ c ∈ cs, ∃ main next others, Plot ns c main next others ∧
      ⟨c.name, main :: others⟩ ∈ gs ∧ l ∈ main :: others := by
  induction h with
  | nil => simp at hl
  | cons p _ ih =>
    rw [List.flatMap_cons] at hl
    rcases List.mem_append.mp hl with hl | hl
    · exact ⟨_, List.mem_cons_self, _, _, _, p, List.mem_cons_self, hl⟩
    · obtain ⟨c, hc, main, next, others, p, hg, hl⟩ := ih hl
      exact ⟨c, List.mem_cons_of_mem _ hc, main, next, others, p, List.mem_cons_of_mem _ hg, hl⟩

end Nodes

namespace Graph

variable {g : Graph}

theorem Declares.plot_of_command (h : g.Declares) {c : Command} (hc : c ∈ g.commands) :
    ∃ main next others, Plot g.nodes c main next others ∧ ⟨c.name, main :: others⟩ ∈ g.groups :=
  h.laid.plot_of_command hc

theorem Declares.plot_of_child (h : g.Declares) {l : Nat} (hl : l ∈ g.children Graph.root) :
    ∃ c ∈ g.commands, ∃ main next others, Plot g.nodes c main next others ∧
      ⟨c.name, main :: others⟩ ∈ g.groups ∧ l ∈ main :: others :=
  h.laid.plot_of_root (h.children ▸ hl)

theorem Declares.child_of_mem (h : g.Declares) {group : Group} (hg : group ∈ g.groups) {l : Nat}
    (hl : l ∈ group.roots) : l ∈ g.children Graph.root := by
  show l ∈ childrenOf g.nodes Graph.root
  rw [h.children]
  exact List.mem_flatMap.mpr ⟨group, hg, hl⟩

/-- There is a group for every command, in their order. -/
theorem Declares.map_command (h : g.Declares) :
    g.groups.map Group.command = g.commands.map fun c => c.name :=
  map_eq_of_forall₂ h.laid.commands

theorem Declares.nodup_command (h : g.Declares) : (g.groups.map Group.command).Nodup := by
  rw [h.map_command, List.map_eq_flatMap]
  refine h.names.sublist (List.Sublist.flatMap_right _ fun c _ => ?_)
  exact List.singleton_sublist.mpr List.mem_cons_self

/-- A group is known by its command. -/
theorem Declares.group_eq_of_command (h : g.Declares) {group group' : Group}
    (hg : group ∈ g.groups) (hg' : group' ∈ g.groups) (he : group.command = group'.command) :
    group = group' :=
  List.inj_on_of_nodup_map h.nodup_command hg hg' he

/-- A group is known by any of its literals. -/
theorem Declares.group_eq_of_root (h : g.Declares) {group group' : Group} (hg : group ∈ g.groups)
    (hg' : group' ∈ g.groups) {id : Nat} (hid : id ∈ group.roots) (hid' : id ∈ group'.roots) :
    group = group' := by
  have hnd : (g.groups.flatMap Group.roots).Nodup := h.children ▸ h.tree.nodup root
  exact eq_of_nodup_flatMap hnd hg hg' hid hid'

end Graph

end CommandGrammar
