import CommandGrammar.Proofs.Graph.Declared
import CommandGrammar.Proofs.Registry.Reachable

/-!
# What holds of a registry at all times

Whatever operations were asked for, and whatever came of each, no two names of registered commands
are one name, so a name leads to one command at most; and the published graph is that of the
registered commands, in which redirects go from the aliases of a command to its main literal and
nowhere else (`Registry.consistent_applyAll`).
-/

namespace CommandGrammar

open Nodes

/-! ## Literals of a graph -/

/-- The node is a literal of this name that redirects to `main`, where `m` is, and leads nowhere
else. -/
structure Node.IsAlias (n m : Node) (main : Nat) (name : String) : Prop where
  kind : n.kind = .literal
  name : n.name? = some name
  executable : n.executable = m.executable
  children : n.children = []
  redirect : n.redirect = some main

/-- The group is made up of the command's literals: one for its name, and one for each alias. -/
structure Graph.LiteralsOf (g : Graph) (c : Command) (group : Group) : Prop where
  command : group.command = c.name
  roots : ∃ main others m, group.roots = main :: others ∧ g.node? main = some m ∧
    m.kind = .literal ∧ m.name? = some c.name ∧ m.redirect = none ∧
    List.Forall₂ (fun name id => ∃ n, g.node? id = some n ∧ n.IsAlias m main name) c.aliases others

namespace Nodes

variable {g : Graph} {c : Command} {start stop : Nat} {others : List Nat}

theorem exists_node_of_label {id : Nat} {name : String}
    (h : labelOf g.nodes id = some (c.nameLabel name)) : ∃ n, g.node? id = some n ∧
      n.kind = .literal ∧ n.name? = some name ∧ n.executable = c.runnable := by
  obtain ⟨n, hn, hl⟩ := Option.bind_eq_some_iff.mp h
  refine ⟨n, hn, ?_, ?_, ?_⟩
  · rw [Node.kind, hl]
    rfl
  · rw [Node.name?, hl]
    rfl
  · rw [Node.executable, hl]
    rfl

theorem Plot.literalsOf (h : Plot g.nodes c start stop others) :
    g.LiteralsOf c ⟨c.name, start :: others⟩ := by
  obtain ⟨m, hm, hkind, hname, hexecutable⟩ := exists_node_of_label h.label
  have hstart : start ∉ others := fun hmem => Nat.lt_irrefl _ (h.others_mem hmem).1
  refine ⟨rfl, start, others, m, rfl, hm, hkind, hname, ?_, h.aliases.imp fun name id hid => ?_⟩
  · exact (redirectOf_eq hm).symm.trans (h.redirect (Nat.le_refl _) h.start_lt hstart)
  · obtain ⟨hlabel, hredirect, hchildren⟩ := hid
    obtain ⟨n, hn, hkind', hname', hexecutable'⟩ := exists_node_of_label hlabel
    exact ⟨n, hn, hkind', hname', hexecutable'.trans hexecutable.symm,
      (childrenOf_eq hn).symm.trans hchildren, (redirectOf_eq hn).symm.trans hredirect⟩

/-- The names of the literals are those of the command. -/
theorem Plot.map_nameOf (h : Plot g.nodes c start stop others) :
    (start :: others).map g.nameOf = c.names := by
  have hothers := map_eq_of_forall₂ (f := id) (g := g.nameOf) (h.aliases.imp fun name id hid =>
    Graph.nameOf_eq hid.1)
  rw [List.map_cons, Graph.nameOf_eq h.label, hothers, List.map_id]
  rfl

/-- Each group has the literals of its command. -/
theorem Laid.literalsOf {cs : List Command} {gs : List Group} (h : Laid g.nodes start stop cs gs) :
    List.Forall₂ g.LiteralsOf cs gs := by
  induction h with
  | nil => exact .nil
  | cons p _ ih => exact .cons p.literalsOf ih

/-- The literals, in order, have the names of all commands. -/
theorem Laid.map_nameOf {cs : List Command} {gs : List Group} (h : Laid g.nodes start stop cs gs) :
    (gs.flatMap Group.roots).map g.nameOf = cs.flatMap fun c => c.names := by
  induction h with
  | nil => rfl
  | cons p _ ih => rw [List.flatMap_cons, List.map_append, p.map_nameOf, ih, List.flatMap_cons]

/-- Only aliases redirect. -/
theorem Laid.redirect {cs : List Command} {gs : List Group} (h : Laid g.nodes start stop cs gs)
    {i t : Nat} (hi : start ≤ i) (hlt : i < stop) (ht : redirectOf g.nodes i = some t) :
    ∃ group ∈ gs, ∃ others, group.roots = t :: others ∧ i ∈ others := by
  induction h with
  | nil => exact absurd hlt (Nat.not_lt_of_le hi)
  | @cons c cs gs start next stop others p _ ih =>
    rcases Nat.lt_or_ge i next with hnext | hnext
    · by_cases hmem : i ∈ others
      · obtain ⟨name, -, -, hredirect, -⟩ := exists_left_of_forall₂ p.aliases i hmem
        obtain rfl := Option.some.inj (hredirect.symm.trans ht)
        exact ⟨_, List.mem_cons_self, others, rfl, hmem⟩
      · exact absurd (ht.symm.trans (p.redirect hi hnext hmem)) (Option.some_ne_none t)
    · obtain ⟨group, hgroup, hroots⟩ := ih hnext hlt
      exact ⟨group, List.mem_cons_of_mem _ hgroup, hroots⟩

end Nodes

/-! ## Registries -/

namespace Registry

/-- The names of commands tell them apart, and the published graph is theirs. -/
structure Consistent (r : Registry) : Prop where
  distinct : (r.commands.flatMap fun c => c.names).Pairwise fun a b => ¬r.matchesName a b
  find? : ∀ name, r.commands.filter (·.answersTo r.config.caseInsensitive name) =
    (r.current.find? name).toList
  generation : r.current.generation = r.generation
  commands : r.current.commands = r.commands
  caseInsensitive : r.current.caseInsensitive = r.config.caseInsensitive
  names_root : ((r.current.children Graph.root).map r.current.nameOf).Pairwise
    fun a b => ¬r.matchesName a b
  children_root : r.current.children Graph.root = r.current.groups.flatMap Group.roots
  literals : List.Forall₂ r.current.LiteralsOf r.commands r.current.groups
  /-- Redirects lead from an alias to the main literal, so they do not lead on. -/
  redirect : ∀ {i t : Nat} {n : Node}, r.current.node? i = some n → n.redirect = some t →
    (∃ group ∈ r.current.groups, ∃ others, group.roots = t :: others ∧ i ∈ others) ∧
      ∃ m, r.current.node? t = some m ∧ m.redirect = none

namespace Sound

variable {r : Registry} (h : r.Sound)

include h

theorem pairwise_names :
    (r.commands.flatMap fun c => c.names).Pairwise fun a b => ¬r.matchesName a b :=
  (List.pairwise_map.mp h.distinct).imp fun hne hsame => hne (sameName_iff.mp hsame)

/-- A redirect leads from the literal of an alias to the main one, which leads no further. -/
theorem redirect {i t : Nat} {n : Node} (hn : r.current.node? i = some n)
    (ht : n.redirect = some t) :
    (∃ group ∈ r.current.groups, ∃ others, group.roots = t :: others ∧ i ∈ others) ∧
      ∃ m, r.current.node? t = some m ∧ m.redirect = none := by
  have declares := h.declares
  have hredirect := (redirectOf_eq hn).trans ht
  have hpos : 1 ≤ i := by
    refine Nat.pos_of_ne_zero fun hzero => ?_
    rw [hzero] at hredirect
    exact absurd (hredirect.symm.trans declares.redirect) (Option.some_ne_none t)
  obtain ⟨group, hgroup, others, hroots, hi⟩ :=
    declares.laid.redirect hpos (Array.getElem?_eq_some_iff.mp hn).1 hredirect
  refine ⟨⟨group, hgroup, others, hroots, hi⟩, ?_⟩
  obtain ⟨c, -, -, main, others', m, hroots', hm, -, -, hnone, -⟩ :=
    exists_left_of_forall₂ declares.laid.literalsOf group hgroup
  obtain ⟨rfl, -⟩ := List.cons.inj (hroots.symm.trans hroots')
  exact ⟨m, hm, hnone⟩

/-- What a sound registry has published agrees with the commands that it has. -/
theorem consistent : r.Consistent where
  distinct := h.pairwise_names
  find? := h.filter_eq_find?
  generation := h.generation_current
  commands := h.commands_current
  caseInsensitive := h.caseInsensitive_current
  names_root := by
    rw [show r.current.children Graph.root = _ from h.declares.children, h.declares.laid.map_nameOf,
      h.commands_current]
    exact h.pairwise_names
  children_root := h.declares.children
  literals := by
    have := h.declares.laid.literalsOf
    rwa [h.commands_current] at this
  redirect := h.redirect

end Sound

/-- Operations lead only to registries of which this holds. -/
theorem consistent_applyAll (config : Config) (os : List Operation) :
    ((new config).applyAll os).Consistent :=
  (sound_applyAll os (sound_new config)).consistent

end Registry

end CommandGrammar
