import CommandGrammar.Proofs.Graph.Declared

/-!
# What each command has of a graph

The ids of a declared graph, but for the root, are divided among its commands: each has its literals
and all that these lead to, and no id belongs to two of them (`Graph.Divided`). As commands are laid
side by side, every declared graph is divided (`Graph.Declares.exists_lots`).
-/

namespace CommandGrammar

open Nodes

/-- A command, its literals, and all ids that it has in a graph. -/
structure Lot where
  command : Command
  group : Group
  ids : List Nat

namespace Nodes

/-- The literals are among the ids, and these refer to none but each other. -/
structure Owns (ns : Array Node) (x : Lot) : Prop where
  roots : x.group.roots ⊆ x.ids
  children : ∀ {i q : Nat}, i ∈ x.ids → q ∈ childrenOf ns i → q ∈ x.ids
  redirect : ∀ {i q : Nat}, i ∈ x.ids → redirectOf ns i = some q → q ∈ x.ids

variable {ns : Array Node} {c : Command} {start stop : Nat} {others : List Nat}

theorem mem_range'_sub {id : Nat} :
    id ∈ List.range' start (stop - start) ↔ start ≤ id ∧ id < stop := by
  rw [List.mem_range'_1]
  omega

/-- Nothing in a plot leads out of it. -/
theorem Plot.owns (h : Plot ns c start stop others) :
    Owns ns ⟨c, ⟨c.name, start :: others⟩, List.range' start (stop - start)⟩ where
  roots := by
    intro id hid
    refine mem_range'_sub.mpr ?_
    rcases List.mem_cons.mp hid with rfl | hid
    · exact ⟨Nat.le_refl _, h.start_lt⟩
    · exact ⟨Nat.le_of_lt (h.others_mem hid).1, (h.others_mem hid).2⟩
  children {i q} hi hq := by
    obtain ⟨hle, hlt⟩ := mem_range'_sub.mp hi
    obtain ⟨hiq, hq⟩ := h.closed hle hlt hq
    exact mem_range'_sub.mpr ⟨by omega, hq⟩
  redirect {i q} hi hq := by
    obtain ⟨hle, hlt⟩ := mem_range'_sub.mp hi
    by_cases hmem : i ∈ others
    · obtain ⟨name, -, -, hredirect, -⟩ := exists_left_of_forall₂ h.aliases i hmem
      obtain rfl := Option.some.inj (hredirect.symm.trans hq)
      exact mem_range'_sub.mpr ⟨Nat.le_refl _, h.start_lt⟩
    · rw [h.redirect hle hlt hmem] at hq
      simp at hq

/-- Plots laid side by side are lots that share no id. -/
theorem Laid.exists_lots {cs : List Command} {gs : List Group} (h : Laid ns start stop cs gs) :
    ∃ lots : List Lot, lots.map Lot.command = cs ∧ lots.map Lot.group = gs ∧
      lots.flatMap Lot.ids = List.range' start (stop - start) ∧ ∀ x ∈ lots, Owns ns x := by
  induction h with
  | nil => exact ⟨[], rfl, rfl, by simp, by simp⟩
  | @cons c cs gs start next stop others p l ih =>
    obtain ⟨lots, hcommands, hgroups, hids, howns⟩ := ih
    refine ⟨⟨c, ⟨c.name, start :: others⟩, List.range' start (next - start)⟩ :: lots, ?_, ?_, ?_,
      List.forall_mem_cons.mpr ⟨p.owns, howns⟩⟩
    · rw [List.map_cons, hcommands]
    · rw [List.map_cons, hgroups]
    · have hlt := p.start_lt
      have hle := l.le
      rw [List.flatMap_cons, hids]
      have := @List.range'_append_1 start (next - start) (stop - next)
      rwa [Nat.add_sub_cancel' (Nat.le_of_lt hlt),
        show next - start + (stop - next) = stop - start by omega] at this

end Nodes

namespace Graph

/-- These are the lots of all commands, which have every id but the root's, and have it once. -/
structure Divided (g : Graph) (lots : List Lot) : Prop extends g.Declares where
  command : lots.map Lot.command = g.commands
  group : lots.map Lot.group = g.groups
  ids : lots.flatMap Lot.ids = List.range' 1 (g.size - 1)
  owns : ∀ x ∈ lots, Owns g.nodes x

/-- Every declared graph is divided among its commands. -/
theorem Declares.exists_lots {g : Graph} (h : g.Declares) : ∃ lots, g.Divided lots := by
  obtain ⟨lots, hcommands, hgroups, hids, howns⟩ := h.laid.exists_lots
  exact ⟨lots, h, hcommands, hgroups, hids, howns⟩

namespace Divided

variable {g : Graph} {lots : List Lot} (d : g.Divided lots) {x y : Lot} {id : Nat}

include d

/-- Some command has the id, unless it is the root's or belongs to no node. -/
theorem mem_ids : id ∈ lots.flatMap Lot.ids ↔ 0 < id ∧ id < g.size := by
  rw [d.ids]
  exact mem_range'_sub

theorem nodup_ids : (lots.flatMap Lot.ids).Nodup := by
  rw [d.ids]
  exact List.nodup_range'

theorem exists_mem (hpos : 0 < id) (hlt : id < g.size) : ∃ x ∈ lots, id ∈ x.ids :=
  List.mem_flatMap.mp (d.mem_ids.mpr ⟨hpos, hlt⟩)

theorem bounds (hx : x ∈ lots) (hid : id ∈ x.ids) : 0 < id ∧ id < g.size :=
  d.mem_ids.mp (List.mem_flatMap.mpr ⟨x, hx, hid⟩)

/-- A lot is known by any of its ids. -/
theorem eq_of_mem (hx : x ∈ lots) (hy : y ∈ lots) (hid : id ∈ x.ids) (hid' : id ∈ y.ids) :
    x = y :=
  eq_of_nodup_flatMap d.nodup_ids hx hy hid hid'

theorem group_command (hx : x ∈ lots) : x.group.command = x.command.name := by
  have := d.map_command
  rw [← d.group, ← d.command, List.map_map, List.map_map] at this
  exact List.map_inj_left.mp this x hx

theorem nodup_name : (lots.map fun x => x.command.name).Nodup := by
  have := d.nodup_command
  rwa [d.map_command, ← d.command, List.map_map] at this

theorem nodup : lots.Nodup :=
  List.Nodup.of_map _ d.nodup_name

/-- A lot is known by the name of its command. -/
theorem eq_of_name (hx : x ∈ lots) (hy : y ∈ lots) (h : x.command.name = y.command.name) : x = y :=
  List.inj_on_of_nodup_map d.nodup_name hx hy h

theorem mem_groups (hx : x ∈ lots) : x.group ∈ g.groups := by
  rw [← d.group]
  exact List.mem_map_of_mem hx

/-- The root has the literals of all commands, in order. -/
theorem children_root : g.children root = lots.flatMap fun x => x.group.roots := by
  rw [show g.children root = _ from d.children, ← d.group, List.flatMap_map]

theorem mem_children : id ∈ g.children root ↔ ∃ x ∈ lots, id ∈ x.group.roots := by
  rw [d.children_root, List.mem_flatMap]

theorem nodup_roots : (lots.flatMap fun x => x.group.roots).Nodup :=
  d.children_root ▸ d.tree.nodup root

/-- The ids of all commands and the root are all there are. -/
theorem length_ids : (lots.flatMap Lot.ids).length + 1 = g.size := by
  have hpos : 0 < g.size := d.tree.nonempty
  rw [d.ids, List.length_range']
  omega

theorem length_roots_le : (lots.flatMap fun x => x.group.roots).length ≤ g.size := by
  have hsub : (lots.flatMap fun x => x.group.roots) ⊆ lots.flatMap Lot.ids := fun id hid => by
    obtain ⟨x, hx, hroot⟩ := List.mem_flatMap.mp hid
    exact List.mem_flatMap.mpr ⟨x, hx, (d.owns x hx).roots hroot⟩
  have hle := d.nodup_roots.length_le_of_subset hsub
  have := d.length_ids
  omega

/-- Every id of a lot is one of the command's literals or a child of an older id of the lot. -/
theorem led (hx : x ∈ lots) (hid : id ∈ x.ids) :
    id ∈ x.group.roots ∨ ∃ p ∈ x.ids, p < id ∧ id ∈ g.children p := by
  obtain ⟨hpos, hlt⟩ := d.bounds hx hid
  obtain ⟨p, hp⟩ := d.tree.parent hpos hlt
  have hpid := (d.tree.down hp).1
  rcases Nat.eq_zero_or_pos p with rfl | hp0
  · obtain ⟨y, hy, hroot⟩ := d.mem_children.mp hp
    obtain rfl := d.eq_of_mem hx hy hid ((d.owns y hy).roots hroot)
    exact .inl hroot
  · obtain ⟨y, hy, hmem⟩ := d.exists_mem hp0 (Nat.lt_trans hpid hlt)
    obtain rfl := d.eq_of_mem hx hy hid ((d.owns y hy).children hmem hp)
    exact .inr ⟨p, hmem, hpid, hp⟩

end Divided

end Graph

end CommandGrammar
