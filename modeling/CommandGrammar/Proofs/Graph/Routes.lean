import CommandGrammar.Proofs.Graph.Spellings

/-!
# Nodes by the labels that lead to them

If names repeat, commands share nodes: there is one literal for what is asked for alike, and what is
spelled alike below it leads to one node, whichever command asked. So a node is known by the labels
that lead to it from the root, and commands need one node for each list of labels that one of them
asks for (`Command.routes`, `Graph.distinctNodes`). Each step of building adds the routes it asks
for and no others (`Nodes.Routed`), so what is built of commands has just these
(`Build.all_routed`), and as many nodes (`Nodes.Routed.size_eq`).
-/

namespace CommandGrammar

open Nodes

/-! ## Routes -/

/-- The labels that lead from the root to what the command asks for: its main literal, what its
usages spell from there, and the literals of its other names. -/
def Command.routes (c : Command) : List (List Label) :=
  [c.nameLabel c.name] :: c.spellings.map (c.nameLabel c.name :: ·) ++
    c.aliases.map fun name => [c.nameLabel name]

/-- How many nodes the graph of these commands has. What is asked for twice is counted once. -/
def Graph.distinctNodes (cs : List Command) : Nat :=
  1 + (cs.flatMap Command.routes).dedup.length

namespace Graph

/-- Fewer commands need no more nodes. -/
theorem distinctNodes_le_of_subset {cs cs' : List Command} (h : cs ⊆ cs') :
    distinctNodes cs ≤ distinctNodes cs' := by
  have hsub : (cs.flatMap Command.routes).dedup ⊆ (cs'.flatMap Command.routes).dedup := by
    intro ls hls
    obtain ⟨c, hc, hls⟩ := List.mem_flatMap.mp (List.mem_dedup.mp hls)
    exact List.mem_dedup.mpr (List.mem_flatMap.mpr ⟨c, h hc, hls⟩)
  exact Nat.add_le_add_left ((List.nodup_dedup _).subperm hsub).length_le 1

/-- There is the root, and a literal for the name of each command. -/
theorem two_le_distinctNodes {cs : List Command} (hne : cs ≠ []) : 2 ≤ distinctNodes cs := by
  obtain ⟨c, hc⟩ := List.exists_mem_of_ne_nil cs hne
  have hmem : [c.nameLabel c.name] ∈ (cs.flatMap Command.routes).dedup :=
    List.mem_dedup.mpr (List.mem_flatMap.mpr ⟨c, hc, List.mem_cons_self⟩)
  have := List.length_pos_of_mem hmem
  unfold distinctNodes
  omega

/-- Of commands that need more than a bound there is a first one that goes past it. -/
theorem exists_first_lt_distinctNodes {bound : Nat} {cs : List Command} (hne : cs ≠ [])
    (h : bound < distinctNodes cs) : ∃ before c after, cs = before ++ c :: after ∧
      bound < distinctNodes (before ++ [c]) ∧
        ∀ part, part <+: before → part ≠ [] → distinctNodes part ≤ bound := by
  induction cs using List.reverseRecOn with
  | nil => exact absurd rfl hne
  | append_singleton cs c ih =>
    by_cases hearlier : cs ≠ [] ∧ bound < distinctNodes cs
    · obtain ⟨before, d, after, rfl, hfirst⟩ := ih hearlier.1 hearlier.2
      exact ⟨before, d, after ++ [c], by simp, hfirst⟩
    · refine ⟨cs, c, [], rfl, h, fun part hpart hne => Nat.le_of_not_lt fun hlt => hearlier ?_⟩
      refine ⟨fun hnil => hne (List.prefix_nil.mp (hnil ▸ hpart)), ?_⟩
      exact Nat.lt_of_lt_of_le hlt (distinctNodes_le_of_subset hpart.subset)

end Graph

/-! ## Nodes by their routes -/

namespace Nodes

/-- Nodes are a tree, and these are the lists of labels that lead from the root to the others. -/
structure Routed (ns : Array Node) (routes : List (List Label)) : Prop where
  tree : IsTree ns
  ne_nil : [] ∉ routes
  paths : ∀ ls ∈ routes, ∃ x, Path ns Graph.root ls x
  only : Only ns Graph.root fun ls => ls = [] ∨ ls ∈ routes

variable {ns : Array Node} {routes : List (List Label)}

theorem routed_singleton : Routed #[Node.root] [] where
  tree := isTree_singleton
  ne_nil := List.not_mem_nil
  paths := List.forall_mem_nil _
  only := only_of_childrenOf_eq_nil (childrenOf_singleton _) (.inl rfl)

theorem Routed.paths_of_grows (r : Routed ns routes) {ns' : Array Node} (g : Grows ns ns') :
    ∀ ls ∈ routes, ∃ x, Path ns' Graph.root ls x := by
  intro ls hls
  obtain ⟨x, hx⟩ := r.paths ls hls
  exact ⟨x, g.path hx⟩

theorem Path.lt_size (t : IsTree ns) {ls : List Label} {x : Nat} (h : Path ns Graph.root ls x) :
    x < ns.size := by
  rcases h.eq_nil_or_concat with ⟨-, rfl⟩ | ⟨_, _, _, -, -, he⟩
  · exact t.nonempty
  · exact he.lt_size

/-- By induction on the id, as parents are older. -/
theorem IsTree.exists_path_root (t : IsTree ns) {x : Nat} (hx : x < ns.size) :
    ∃ ls, Path ns Graph.root ls x := by
  induction x using Nat.strongRecOn with
  | ind x ih =>
    rcases Nat.eq_zero_or_pos x with rfl | hpos
    · exact ⟨[], rfl⟩
    · obtain ⟨p, hp⟩ := t.parent hpos hx
      obtain ⟨l, he⟩ := t.exists_edge hp
      obtain ⟨ls, hls⟩ := ih p (t.down hp).1 (Nat.lt_trans (t.down hp).1 hx)
      exact ⟨ls ++ [l], path_concat.mpr ⟨p, hls, he⟩⟩

/-- There is one node for each route, and the root. -/
theorem Routed.size_eq (r : Routed ns routes) : ns.size = 1 + routes.dedup.length := by
  have hpaths : ∀ ls ∈ [] :: routes.dedup, ∃ x, Path ns Graph.root ls x := by
    refine List.forall_mem_cons.mpr ⟨⟨Graph.root, rfl⟩, fun ls hls => ?_⟩
    exact r.paths ls (List.mem_dedup.mp hls)
  have hnd : ([] :: routes.dedup).Nodup :=
    List.nodup_cons.mpr ⟨fun h => r.ne_nil (List.mem_dedup.mp h), List.nodup_dedup _⟩
  obtain ⟨ids, hids⟩ := exists_forall₂ hpaths
  have hperm : ids.Perm (List.range ns.size) := by
    refine (List.perm_ext_iff_of_nodup ?_ List.nodup_range).mpr fun id => ?_
    · exact (List.rel_nodup (r.tree.biUnique_path _) hids).mp hnd
    · rw [List.mem_range]
      constructor
      · intro hid
        obtain ⟨ls, -, hpath⟩ := exists_left_of_forall₂ hids id hid
        exact hpath.lt_size r.tree
      · intro hlt
        obtain ⟨ls, hpath⟩ := r.tree.exists_path_root hlt
        have hmem : ls ∈ [] :: routes.dedup :=
          List.mem_cons.mpr ((r.only ls id hpath).imp_right List.mem_dedup.mpr)
        obtain ⟨id', hid', hpath'⟩ := exists_right_of_forall₂ hids ls hmem
        exact (r.tree.biUnique_path _).2 hpath' hpath ▸ hid'
  calc ns.size = (List.range ns.size).length := List.length_range.symm
    _ = ids.length := hperm.length_eq.symm
    _ = ([] :: routes.dedup).length := hids.length_eq.symm
    _ = 1 + routes.dedup.length := Nat.add_comm ..

end Nodes

/-! ## Steps add routes -/

theorem Arena.path_setRedirect (a : Arena) (id target : Nat) :
    ∀ {ls : List Label} {p x : Nat},
      Path (a.setRedirect id target).nodes p ls x ↔ Path a.nodes p ls x
  | [], _, _ => Iff.rfl
  | _ :: _, _, _ => exists_congr fun _ =>
      and_congr (by simp [Edge])
        (path_setRedirect a id target)

namespace Build

open Arena

variable {a a' : Arena} {c : Command} {routes : List (List Label)}

/-- A redirect leads nowhere by labels. -/
theorem setRedirect_routed (r : Routed a.nodes routes) (id target : Nat) :
    Routed (a.setRedirect id target).nodes routes where
  tree := isTree_setRedirect r.tree id target
  ne_nil := r.ne_nil
  paths ls hls := by
    obtain ⟨x, hx⟩ := r.paths ls hls
    exact ⟨x, (path_setRedirect a id target).mpr hx⟩
  only ls x hp := r.only ls x ((path_setRedirect a id target).mp hp)

theorem nameLiteral_routed {name : String} {id : Nat} (r : Routed a.nodes routes)
    (h : nameLiteral c name a = .ok id a') :
    Routed a'.nodes (routes ++ [[c.nameLabel name]]) ∧
      Edge a'.nodes Graph.root (c.nameLabel name) id := by
  obtain ⟨asked, he⟩ := child_asked r.tree r.tree.nonempty h
  refine ⟨⟨asked.tree, by simpa using r.ne_nil, ?_, fun ls x hp => ?_⟩, he⟩
  · refine List.forall_mem_append.mpr ⟨r.paths_of_grows asked.grows, ?_⟩
    exact List.forall_mem_singleton.mpr ⟨id, id, he, rfl⟩
  rcases hp.eq_nil_or_concat with ⟨rfl, -⟩ | ⟨ls, l, q, rfl, hq, hlast⟩
  · exact .inl rfl
  -- A path whose last edge is old is old.
  rcases asked.edge hlast with hold | ⟨rfl, rfl⟩
  · exact (r.only _ x (asked.path_of_lt hp hold.lt_size)).imp_right (List.mem_append_left _)
  · have hroot : Path a'.nodes Graph.root [] Graph.root := rfl
    obtain rfl := (asked.tree.biUnique_path _).1 hq hroot
    exact .inr (List.mem_append_right _ List.mem_cons_self)

/-- Usages add what they spell below the main literal. -/
theorem usages_routed {l : Label} {main : Nat} (r : Routed a.nodes routes) (hl : [l] ∈ routes)
    (he : Edge a.nodes Graph.root l main)
    (h : (c.usages.forM fun u => declare [main] u.arguments : Build Unit) a = .ok () a') :
    Routed a'.nodes (routes ++ c.spellings.map (l :: ·)) := by
  obtain ⟨asked, paths⟩ := usages_asked r.tree he.lt_size h
  refine ⟨asked.tree, by simpa using r.ne_nil, ?_, usages_only r.tree he.lt_size ?_ ?_ h⟩
  · refine List.forall_mem_append.mpr ⟨r.paths_of_grows asked.grows, ?_⟩
    refine List.forall_mem_map.mpr fun ls hls => ?_
    obtain ⟨-, u, hu, hs⟩ := Command.mem_spellings.mp hls
    obtain ⟨x, hx⟩ := paths u hu ls hs
    exact ⟨x, main, asked.grows.edge he, hx⟩
  · intro u hu p hp
    obtain rfl := List.mem_singleton.mp hp
    refine ⟨Nat.zero_le _, he.lt_size, fun {ls ls'} hpath hs => .inr ?_⟩
    have hl' : Path a.nodes Graph.root [l] p := ⟨p, he, rfl⟩
    obtain rfl := (r.tree.biUnique_path _).1 hpath hl'
    rcases eq_or_ne ls' [] with rfl | hne
    · exact List.mem_append_left _ hl
    · have hspelled := Command.mem_spellings.mpr ⟨hne, u, hu, hs⟩
      exact List.mem_append_right _ (List.mem_map_of_mem hspelled)
  · exact fun ls x hp => (r.only ls x hp).imp_right (List.mem_append_left _)

theorem aliases_routed {main : Nat} :
    ∀ {names : List String} {ids : List Nat} {a a' : Arena} {routes : List (List Label)},
      Routed a.nodes routes → names.mapM (aliasLiteral c main) a = .ok ids a' →
      Routed a'.nodes (routes ++ names.map fun name => [c.nameLabel name])
  | [], ids, a, a', routes, r, h => by
    obtain ⟨-, rfl⟩ := EStateM.mapM_nil_eq_ok.mp h
    simpa using r
  | name :: names, ids, a, a', routes, r, h => by
    obtain ⟨id, _, ids, h₁, h₂, rfl⟩ := EStateM.mapM_cons_eq_ok.mp h
    obtain ⟨a₁, hname, rfl⟩ := aliasLiteral_eq_ok.mp h₁
    have r₁ := setRedirect_routed (nameLiteral_routed r hname).1 id main
    simpa using aliases_routed r₁ h₂

/-- A command adds its routes, whether or not there are some of them already. -/
theorem command_routed (r : Routed a.nodes routes) (h : command c a = .ok () a') :
    Routed a'.nodes (routes ++ c.routes) := by
  obtain ⟨main, a₁, a₂, others, a₃, h₁, h₂, h₃, rfl⟩ := command_eq_ok.mp h
  obtain ⟨r₁, he⟩ := nameLiteral_routed r h₁
  have r₂ := usages_routed r₁ (List.mem_append_right _ List.mem_cons_self) he h₂
  have r₃ := aliases_routed r₂ h₃
  show Routed a₃.nodes _
  simpa [Command.routes] using r₃

/-- All commands add their routes. -/
theorem all_routed {cs : List Command} (r : Routed a.nodes routes) (h : all cs a = .ok () a') :
    Routed a'.nodes (routes ++ cs.flatMap Command.routes) := by
  refine EStateM.forM_induction
    (P := fun done a => Routed a.nodes (routes ++ done.flatMap Command.routes)) ?_ ?_ h
  · intro done c a a' r h
    simpa using command_routed r h
  · simpa using r

end Build

end CommandGrammar
