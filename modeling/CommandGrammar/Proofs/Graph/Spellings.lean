import CommandGrammar.Proofs.Argument.Hint
import CommandGrammar.Proofs.Graph.Lots
import CommandGrammar.Proofs.Wire.Size
import Mathlib.Data.List.Dedup

/-!
# A graph is the prefix tree of its usages

Nodes below the main literal of a command are the beginnings of its usages, spelled label by label:
each beginning leads to one node, and each node is led to by one of them
(`Nodes.IsTree.biUnique_path`). So a command has as many nodes as it has names and beginnings
(`Graph.Divided.length_ids_of_mem`), and it is known beforehand how large a graph will be
(`Graph.nodesNeeded`).

Nothing is said of labels but what is sent of them and the list of choices
(`Label.fields_injective`).
-/

namespace CommandGrammar

open Nodes

/-! ## What a label is made of -/

/-- A hint is known by what is sent of it. -/
theorem Hint.eq_of_properties :
    ∀ {h h' : Hint}, h.identifier = h'.identifier → h.properties = h'.properties → h = h'
  | text mode, text mode', _, hprops => by
    cases mode <;> cases mode' <;> first | rfl | exact absurd hprops (by decide)
  | boolean, boolean, _, _ => rfl
  | integer min max, integer min' max', _, hprops => by
    have hread := readBounds_properties min max
    rw [hprops, readBounds_properties min' max'] at hread
    obtain ⟨hbounds, -⟩ := EStateM.Result.ok.inj hread
    obtain ⟨rfl, rfl⟩ := Prod.mk.inj hbounds
    rfl
  | text _, boolean, hid, _ | text _, integer .., hid, _ | boolean, text _, hid, _
  | boolean, integer .., hid, _ | integer .., text _, hid, _ | integer .., boolean, hid, _ => by
    simp [identifier, textParser, booleanParser, integerParser] at hid

/-- Kind, name, parser as it is sent, list of choices, and whether a command may end here. -/
def Label.fields (l : Label) :
    NodeKind × String × Option (String × List UInt8) × Option (List String) × Bool :=
  (l.shape.kind, l.name, l.shape.hint?.map fun h => (h.identifier, h.properties), l.shape.choices?,
    l.executable)

/-- Labels that differ at all differ in these. -/
theorem Label.fields_injective : Function.Injective Label.fields := by
  rintro ⟨shape, name, executable⟩ ⟨shape', name', executable'⟩ h
  simp only [fields, Prod.mk.injEq] at h
  obtain ⟨hkind, rfl, hhint, hchoices, rfl⟩ := h
  suffices shape = shape' by rw [this]
  cases shape with
  | literal =>
    cases shape' with
    | literal => rfl
    | choice choices' => cases hchoices
    | argument hint' => cases hkind
  | choice choices =>
    cases shape' with
    | literal => cases hchoices
    | choice choices' => rw [Option.some.inj hchoices]
    | argument hint' => cases hkind
  | argument hint =>
    cases shape' with
    | literal => cases hkind
    | choice choices' => cases hkind
    | argument hint' =>
      obtain ⟨hid, hprops⟩ := Prod.mk.inj (Option.some.inj hhint)
      rw [Hint.eq_of_properties hid hprops]

/-! ## All that is spelled -/

/-- All that some of the first arguments spell. -/
@[simp] def Usage.spellings : List Argument → List (List Label)
  | [] => []
  | a :: rest => (a.contributions rest.isEmpty).flatMap fun c =>
      [c.label] :: (spellings rest).map (c.label :: ·)

theorem Usage.mem_spellings : ∀ {args : List Argument} {ls : List Label},
    ls ∈ spellings args ↔ ls ≠ [] ∧ Spells args ls
  | [], [] => by simp
  | [], l :: ls => by simp [Spells]
  | a :: rest, [] => by simp
  | a :: rest, l :: ls => by
    simp only [spellings, List.mem_flatMap, List.mem_cons, List.mem_map, List.cons.injEq, ne_eq,
      reduceCtorEq, not_false_eq_true, true_and, Spells, mem_spellings]
    constructor
    · rintro ⟨c, hc, ⟨rfl, rfl⟩ | ⟨ls, ⟨-, hs⟩, rfl, rfl⟩⟩
      · exact ⟨⟨c, hc, rfl⟩, spells_nil rest⟩
      · exact ⟨⟨c, hc, rfl⟩, hs⟩
    · rintro ⟨⟨c, hc, rfl⟩, hs⟩
      refine ⟨c, hc, ?_⟩
      by_cases hls : ls = []
      · exact .inl ⟨rfl, hls⟩
      · exact .inr ⟨ls, ⟨hls, hs⟩, rfl, rfl⟩

/-- All that the usages of the command spell, each once. -/
def Command.spellings (c : Command) : List (List Label) :=
  (c.usages.flatMap fun u => Usage.spellings u.arguments).dedup

theorem Command.mem_spellings {c : Command} {ls : List Label} :
    ls ∈ c.spellings ↔ ls ≠ [] ∧ ∃ u ∈ c.usages, Usage.Spells u.arguments ls := by
  simp only [spellings, List.mem_dedup, List.mem_flatMap, Usage.mem_spellings]
  exact ⟨fun ⟨u, hu, hne, hs⟩ => ⟨hne, u, hu, hs⟩, fun ⟨hne, u, hu, hs⟩ => ⟨u, hu, hne, hs⟩⟩

theorem Command.nodup_spellings (c : Command) : c.spellings.Nodup :=
  List.nodup_dedup _

/-- How many nodes a command has: a literal for each name, and one node for all that is spelled
alike. -/
def Command.nodeCount (c : Command) : Nat :=
  1 + c.aliases.length + c.spellings.length

/-- How many nodes the graph of these commands has, if no name repeats. -/
def Graph.nodesNeeded (cs : List Command) : Nat :=
  1 + (cs.map Command.nodeCount).sum

/-! ## Paths in a tree -/

namespace Nodes.IsTree

variable {ns : Array Node} (t : IsTree ns)

include t

/-- Labels lead to one node, and a node is led to by one list of labels. -/
theorem biUnique_path (p : Nat) : Relator.BiUnique fun ls x => Path ns p ls x := by
  constructor
  · intro ls ls' x
    induction ls using List.reverseRecOn generalizing ls' x with
    | nil =>
      rintro rfl hp
      rcases hp.eq_nil_or_concat with ⟨rfl, -⟩ | ⟨_, _, q, -, hq, he⟩
      · rfl
      · exact absurd (t.lt_of_edge he) (Nat.not_lt_of_le (t.le_of_path hq))
    | append_singleton ls l ih =>
      intro h h'
      obtain ⟨q, hq, he⟩ := path_concat.mp h
      rcases h'.eq_nil_or_concat with ⟨-, rfl⟩ | ⟨ls', l', q', rfl, hq', he'⟩
      · exact absurd (t.lt_of_edge he) (Nat.not_lt_of_le (t.le_of_path hq))
      · obtain ⟨rfl, rfl⟩ := t.edge_unique he he'
        rw [ih hq hq']
  · intro ls x y
    induction ls generalizing p with
    | nil => exact fun h h' => Eq.trans h h'.symm
    | cons l ls ih =>
      rintro ⟨q, he, h⟩ ⟨q', he', h'⟩
      obtain rfl := t.siblings he.1 he'.1 (he.2.trans he'.2.symm)
      exact ih q h h'

end Nodes.IsTree

/-! ## Counting nodes -/

namespace Graph

variable {g : Graph}

/-- What labels lead to is not below the root. -/
theorem Declares.notMem_roots_of_path (h : g.Declares) {c : Command} {main next : Nat}
    {others : List Nat} (p : Plot g.nodes c main next others)
    (hgroup : ⟨c.name, main :: others⟩ ∈ g.groups) {ls : List Label} (hls : ls ≠ []) {id : Nat}
    (hpath : Path g.nodes main ls id) : id ∉ main :: others := by
  intro hmem
  rcases hpath.eq_nil_or_concat with ⟨rfl, -⟩ | ⟨_, _, q, -, hq, he⟩
  · exact hls rfl
  · have hroot : q = root := h.tree.unique he.1 (h.child_of_mem hgroup hmem)
    exact absurd (h.tree.le_of_path hq) (Nat.not_le_of_lt (hroot ▸ p.start_pos))

namespace Divided

variable {lots : List Lot} (d : g.Divided lots) {x : Lot} {main next : Nat} {others : List Nat}

include d

/-- An id of a lot is a literal, or labels lead to it from the main literal, the only one that has
children. -/
theorem mem_roots_or_path (p : Plot g.nodes x.command main next others)
    (hroots : x.group.roots = main :: others) (hx : x ∈ lots) {id : Nat} (hid : id ∈ x.ids) :
    id ∈ main :: others ∨ ∃ ls ≠ [], Path g.nodes main ls id := by
  induction id using Nat.strongRecOn with
  | ind id ih =>
    rcases d.led hx hid with hroot | ⟨q, hq, hlt, hchild⟩
    · exact .inl (hroots ▸ hroot)
    obtain ⟨l, he⟩ := d.tree.exists_edge hchild
    right
    rcases ih q hlt hq with hroot | ⟨ls, hls, hpath⟩
    · rcases List.mem_cons.mp hroot with rfl | hother
      · exact ⟨[l], by simp, id, he, rfl⟩
      · obtain ⟨-, -, -, -, hnone⟩ := exists_left_of_forall₂ p.aliases q hother
        exact absurd (hnone ▸ he.1) List.not_mem_nil
    · exact ⟨ls ++ [l], by simp, path_concat.mpr ⟨q, hpath, he⟩⟩

theorem mem_ids_of_path (hx : x ∈ lots) :
    ∀ {ls : List Label} {id id' : Nat}, id ∈ x.ids → Path g.nodes id ls id' → id' ∈ x.ids
  | [], _, _, hid, h => h ▸ hid
  | _ :: _, _, _, hid, ⟨_, he, h⟩ => mem_ids_of_path hx ((d.owns x hx).children hid he.1) h

/-- A command has one id for each name and one for all that its usages spell alike. -/
theorem length_ids_of_mem (hx : x ∈ lots) : x.ids.length = x.command.nodeCount := by
  have hc : x.command ∈ g.commands := d.command ▸ List.mem_map_of_mem hx
  obtain ⟨main, next, others, p, hgroup⟩ := d.plot_of_command hc
  have hroots : x.group.roots = main :: others :=
    congrArg Group.roots (d.group_eq_of_command (d.mem_groups hx) hgroup (d.group_command hx))
  obtain ⟨nodes, hnodes⟩ := exists_forall₂ fun ls (hls : ls ∈ x.command.spellings) =>
    let ⟨_, u, hu, hs⟩ := Command.mem_spellings.mp hls
    p.paths u hu ls hs
  have hperm : x.ids.Perm ((main :: others) ++ nodes) := by
    refine (List.perm_ext_iff_of_nodup ?_ ?_).mpr fun id => ⟨fun hid => ?_, fun hid => ?_⟩
    · exact (List.nodup_flatMap.mp d.nodup_ids).1 x hx
    · have hnd : (main :: others).Nodup := List.nodup_cons.mpr
        ⟨fun h => Nat.lt_irrefl _ (p.others_mem h).1, p.others_nodup⟩
      refine List.nodup_append.mpr ⟨hnd, ?_, ?_⟩
      · exact (List.rel_nodup (d.tree.biUnique_path main) hnodes).mp x.command.nodup_spellings
      · rintro id hroot _ hnode rfl
        obtain ⟨ls, hls, hpath⟩ := exists_left_of_forall₂ hnodes id hnode
        exact d.notMem_roots_of_path p hgroup (Command.mem_spellings.mp hls).1 hpath hroot
    · rcases d.mem_roots_or_path p hroots hx hid with hroot | ⟨ls, hls, hpath⟩
      · exact List.mem_append_left _ hroot
      · have hspelled := (p.only ls id hpath).resolve_left hls
        obtain ⟨id', hid', hpath'⟩ :=
          exists_right_of_forall₂ hnodes ls (Command.mem_spellings.mpr ⟨hls, hspelled⟩)
        obtain rfl := (d.tree.biUnique_path main).2 hpath hpath'
        exact List.mem_append_right _ hid'
    · have hmain := (d.owns x hx).roots (hroots ▸ List.mem_cons_self)
      rcases List.mem_append.mp hid with hroot | hnode
      · exact (d.owns x hx).roots (hroots ▸ hroot)
      · obtain ⟨ls, -, hpath⟩ := exists_left_of_forall₂ hnodes id hnode
        exact d.mem_ids_of_path hx hmain hpath
  rw [hperm.length_eq, List.length_append, List.length_cons, ← p.aliases.length_eq,
    ← hnodes.length_eq, Command.nodeCount]
  omega

end Divided

/-- A graph is as large as its commands need. -/
theorem Declares.size_eq (h : g.Declares) : g.size = nodesNeeded g.commands := by
  obtain ⟨lots, d⟩ := h.exists_lots
  have hcounts : lots.map (List.length ∘ Lot.ids) = g.commands.map Command.nodeCount := by
    rw [← d.command, List.map_map]
    exact List.map_congr_left fun x hx => d.length_ids_of_mem hx
  rw [← d.length_ids, List.flatMap_def, List.length_flatten, List.map_map, hcounts, nodesNeeded,
    Nat.add_comm]

/-! ## Prefix trees -/

/-- Below the main literal, paths spell the beginnings of usages, and what is spelled alike leads to
one node. -/
structure PrefixTree (g : Graph) (c : Command) (main : Nat) : Prop where
  child : main ∈ g.children root
  label : labelOf g.nodes main = some (c.nameLabel c.name)
  spells : ∀ {ls : List Label}, ls ≠ [] →
    ((∃ x, Path g.nodes main ls x) ↔ ∃ u ∈ c.usages, Usage.Spells u.arguments ls)
  unique : ∀ {ls : List Label} {x y : Nat},
    Path g.nodes main ls x → Path g.nodes main ls y → x = y

/-- Below the literals of commands that have no name twice are the prefix trees of their usages, and
nothing else. -/
theorem BuiltFrom.prefixTree {cs : List Command} (h : g.BuiltFrom cs)
    (hnd : (cs.flatMap fun c => c.names).Nodup) :
    (∀ c ∈ cs, ∃ main others, ⟨c.name, main :: others⟩ ∈ g.groups ∧ g.PrefixTree c main) ∧
      g.size = 1 + (cs.map fun c => 1 + c.aliases.length + c.spellings.length).sum := by
  have declares := h.declares hnd
  rw [← h.commands_eq hnd]
  refine ⟨fun c hc => ?_, ?_⟩
  · obtain ⟨main, next, others, p, hgroup⟩ := declares.plot_of_command hc
    refine ⟨main, others, hgroup, declares.child_of_mem hgroup List.mem_cons_self, p.label,
      fun {ls} hls => ⟨fun ⟨x, hx⟩ => (p.only ls x hx).resolve_left hls, fun ⟨u, hu, hs⟩ => ?_⟩,
      fun hx hy => (declares.tree.biUnique_path main).2 hx hy⟩
    exact p.paths u hu ls hs
  · exact declares.size_eq

/-- The second usage shares its first argument with the third, but not with the first usage, which
ends there. -/
def branching : List Command :=
  let mode : Word := { id := "mode", areTokens := fun _ h => absurd h (Option.not_mem_none _) }
  ((mode.restrict ["on", "off"]).bind fun mode => Command.define "light" [.otherName "l",
    .usage [.word mode], .usage [.word mode, .boolean "all"],
    .usage [.word mode, .phrase ⟨"room", .greedy⟩]]).toOption.toList

/-- A literal for each of two names, two choices that a command ends with, and two that it goes on
from in two ways each. -/
theorem branching_prefixTree : ∃ g, ofCommands true 1 branching = .ok g ∧
    (branching.flatMap fun c => c.names).Nodup ∧ g.size = 1 + 2 + 2 + 2 * 3 ∧
    ∀ c ∈ branching, ∃ main others, ⟨c.name, main :: others⟩ ∈ g.groups ∧ g.PrefixTree c main := by
  have hnd : (branching.flatMap fun c => c.names).Nodup := by decide +kernel
  have hbuilt : (ofCommands true 1 branching).toOption.isSome := by decide +kernel
  cases hg : ofCommands true 1 branching with
  | error fault => simp [hg, Except.toOption] at hbuilt
  | ok g =>
    obtain ⟨hmain, hsize⟩ := (builtFrom_of_ofCommands hg).prefixTree hnd
    exact ⟨g, rfl, hnd, hsize.trans (by decide +kernel), hmain⟩

end Graph

end CommandGrammar
