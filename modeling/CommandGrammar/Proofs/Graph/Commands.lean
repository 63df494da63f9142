import CommandGrammar.Proofs.Graph.Changes
import CommandGrammar.Proofs.Graph.Plot

/-!
# Building commands

`Arena.Extends` says what building commands does to an arena in which their names are free: old
nodes stay, the root gets the literals of the new groups at the end of its list of children, and
the new ids are the plots of the commands. `Build.command_extends` is one command,
`Build.all_extends` is all, and `Graph.Declares` is what a finished graph is, if no name repeats.
-/

namespace CommandGrammar

open Nodes

namespace Arena

/-- What building commands adds, if their names are free. -/
structure Extends (cs : List Command) (gs : List Group) (a a' : Arena) : Prop where
  tree : IsTree a'.nodes
  grows : Grows a.nodes a'.nodes
  kept : ∀ {i : Nat}, 0 < i → i < a.nodes.size → a'.nodes[i]? = a.nodes[i]?
  root : childrenOf a'.nodes 0 = childrenOf a.nodes 0 ++ gs.flatMap Group.roots
  groups : a'.groups = a.groups ++ gs
  commands : a'.commands = a.commands ++ cs
  laid : Laid a'.nodes a.nodes.size a'.nodes.size cs gs

theorem Extends.refl {a : Arena} (t : IsTree a.nodes) : Extends [] [] a a :=
  ⟨t, .refl _, fun _ _ => rfl, by simp, by simp, by simp, .nil _⟩

theorem Extends.trans {cs cs' : List Command} {gs gs' : List Group} {a a' a'' : Arena}
    (h : Extends cs gs a a') (h' : Extends cs' gs' a' a'') (hpos : 0 < a.nodes.size) :
    Extends (cs ++ cs') (gs ++ gs') a a'' where
  tree := h'.tree
  grows := h.grows.trans h'.grows
  kept hi hlt := (h'.kept hi (Nat.lt_of_lt_of_le hlt h.grows.size_le)).trans (h.kept hi hlt)
  root := by rw [h'.root, h.root, List.flatMap_append, List.append_assoc]
  groups := by rw [h'.groups, h.groups, List.append_assoc]
  commands := by rw [h'.commands, h.commands, List.append_assoc]
  laid := (h.laid.congr fun _ hi hlt => h'.kept (Nat.lt_of_lt_of_le hpos hi) hlt).append h'.laid

/-- A name is free after commands were built if it was and none of them has it. -/
theorem Extends.free {cs : List Command} {gs : List Group} {a a' : Arena}
    (h : Extends cs gs a a') (t : IsTree a.nodes) {name : String} (hfree : Free a.nodes name)
    (hname : ∀ c ∈ cs, name ∉ c.names) : Free a'.nodes name := by
  rintro q l ⟨hq, hl⟩ rfl
  rw [h.root] at hq
  rcases List.mem_append.mp hq with hq | hq
  · exact hfree q l ⟨hq, (h.grows.labelOf (t.down hq).2).symm.trans hl⟩ rfl
  · obtain ⟨c, hc, name, hmem, hl'⟩ := h.laid.label_of_mem hq
    obtain rfl := Option.some.inj (hl.symm.trans hl')
    exact hname c hc hmem

/-- What the main literal and the usages of a command add, if its name is free. -/
structure Opened (c : Command) (a a' : Arena) : Prop where
  tree : IsTree a'.nodes
  grows : Grows a.nodes a'.nodes
  kept : ∀ {i : Nat}, 0 < i → i < a.nodes.size → a'.nodes[i]? = a.nodes[i]?
  root : childrenOf a'.nodes 0 = childrenOf a.nodes 0 ++ [a.nodes.size]
  lt : a.nodes.size < a'.nodes.size
  groups : a'.groups = a.groups
  commands : a'.commands = a.commands
  label : labelOf a'.nodes a.nodes.size = some (c.nameLabel c.name)
  redirect : ∀ {i : Nat}, a.nodes.size ≤ i → redirectOf a'.nodes i = none
  paths : ∀ u ∈ c.usages, ∀ ls, Usage.Spells u.arguments ls →
    ∃ x, Path a'.nodes a.nodes.size ls x
  only : Only a'.nodes a.nodes.size fun ls =>
    ls = [] ∨ ∃ u ∈ c.usages, Usage.Spells u.arguments ls

/-- A name other than the command's own is still free. -/
theorem Opened.free {c : Command} {a a' : Arena} (o : Opened c a a') (t : IsTree a.nodes)
    {name : String} (hfree : Free a.nodes name) (hne : name ≠ c.name) : Free a'.nodes name := by
  rintro q l ⟨hq, hl⟩
  rw [o.root] at hq
  rcases List.mem_append.mp hq with hq | hq
  · exact hfree q l ⟨hq, (o.grows.labelOf (t.down hq).2).symm.trans hl⟩
  · obtain rfl := List.mem_singleton.mp hq
    obtain rfl := Option.some.inj (o.label.symm.trans hl)
    exact hne.symm

/-- What the literals of aliases add, if their names are free. -/
structure Aliased (c : Command) (main : Nat) (names : List String) (ids : List Nat)
    (a a' : Arena) : Prop where
  tree : IsTree a'.nodes
  grows : Grows a.nodes a'.nodes
  kept : ∀ {i : Nat}, 0 < i → i < a.nodes.size → a'.nodes[i]? = a.nodes[i]?
  root : childrenOf a'.nodes 0 = childrenOf a.nodes 0 ++ ids
  groups : a'.groups = a.groups
  commands : a'.commands = a.commands
  aliases : List.Forall₂ (fun name id => labelOf a'.nodes id = some (c.nameLabel name) ∧
    redirectOf a'.nodes id = some main ∧ childrenOf a'.nodes id = []) names ids
  mem : ∀ {id : Nat}, id ∈ ids ↔ a.nodes.size ≤ id ∧ id < a'.nodes.size
  nodup : ids.Nodup

theorem Aliased.refl {a : Arena} {c : Command} {main : Nat} (t : IsTree a.nodes) :
    Aliased c main [] [] a a :=
  ⟨t, .refl _, fun _ _ => rfl, by simp, rfl, rfl, .nil, by simp, .nil⟩

theorem Aliased.trans {c : Command} {main : Nat} {names names' : List String} {ids ids' : List Nat}
    {a a' a'' : Arena} (h : Aliased c main names ids a a') (h' : Aliased c main names' ids' a' a'')
    (hpos : 0 < a.nodes.size) : Aliased c main (names ++ names') (ids ++ ids') a a'' where
  tree := h'.tree
  grows := h.grows.trans h'.grows
  kept hi hlt := (h'.kept hi (Nat.lt_of_lt_of_le hlt h.grows.size_le)).trans (h.kept hi hlt)
  root := by rw [h'.root, h.root, List.append_assoc]
  groups := h'.groups.trans h.groups
  commands := h'.commands.trans h.commands
  aliases := by
    refine List.rel_append ?_ h'.aliases
    refine List.forall₂_iff_zip.mpr ⟨h.aliases.length_eq, fun {name id} hz => ?_⟩
    have := List.forall₂_zip h.aliases hz
    obtain ⟨hle, hlt⟩ := h.mem.mp (List.of_mem_zip hz).2
    rwa [labelOf, redirectOf, childrenOf, h'.kept (Nat.lt_of_lt_of_le hpos hle) hlt]
  mem {id} := by
    have := h.grows.size_le
    have := h'.grows.size_le
    rw [List.mem_append, h.mem, h'.mem]
    omega
  nodup := by
    refine List.nodup_append.mpr ⟨h.nodup, h'.nodup, fun i hi j hj hij => ?_⟩
    have := h.mem.mp hi
    have := h'.mem.mp hj
    omega

end Arena

namespace Build

open Arena

/-! ## Names -/

/-- The literal of a free name is a new node. -/
theorem nameLiteral_of_free {a a' : Arena} {c : Command} {name : String} {id : Nat}
    (hfree : Free a.nodes name) (h : nameLiteral c name a = .ok id a') :
    id = a.nodes.size ∧ a' = a.addChild 0 (.literal name c.runnable) := by
  rcases child_eq_ok h with ⟨-, he⟩ | ⟨-, hid, -, ha⟩
  · exact absurd rfl (hfree _ _ he)
  · exact ⟨hid, ha⟩

theorem aliasLiteral_of_free {a a' : Arena} {c : Command} {main id : Nat} {name : String}
    (hfree : Free a.nodes name) (h : aliasLiteral c main name a = .ok id a') :
    id = a.nodes.size ∧
      a' = (a.addChild 0 (.literal name c.runnable)).setRedirect a.nodes.size main := by
  obtain ⟨a₁, h₁, rfl⟩ := aliasLiteral_eq_ok.mp h
  obtain ⟨rfl, rfl⟩ := nameLiteral_of_free hfree h₁
  exact ⟨rfl, rfl⟩

/-- A name other than that of a new alias is still free. -/
theorem free_aliasLiteral {a : Arena} {name name' : String} {executable : Bool} {main : Nat}
    (t : IsTree a.nodes) (hfree : Free a.nodes name) (hne : name ≠ name') :
    Free ((a.addChild 0 (.literal name' executable)).setRedirect a.nodes.size main).nodes name := by
  rintro q l ⟨hq, hl⟩
  rw [childrenOf_setRedirect] at hq
  rw [labelOf_setRedirect, labelOf_addChild t.nonempty] at hl
  rcases (mem_childrenOf_addChild t.nonempty).mp hq with hq | ⟨-, rfl⟩
  · rw [if_neg (Nat.ne_of_lt (t.down hq).2)] at hl
    exact hfree q l ⟨hq, hl⟩
  · rw [if_pos rfl] at hl
    obtain rfl := Option.some.inj hl
    exact hne.symm

/-- One alias. -/
theorem aliased_singleton {a : Arena} {c : Command} {main : Nat} {name : String}
    (t : IsTree a.nodes) (hfree : Free a.nodes name) :
    Aliased c main [name] [a.nodes.size] a
      ((a.addChild 0 (.literal name c.runnable)).setRedirect a.nodes.size main) := by
  have hpos := t.nonempty
  have hnew : ∀ q, ¬Edge a.nodes 0 (c.nameLabel name) q := fun q he => hfree q _ he rfl
  refine ⟨isTree_setRedirect (isTree_addChild t hpos hnew) _ _,
    grows_setRedirect main (grows_addChild a 0 _) (Nat.le_refl _), ?_, ?_, rfl, rfl, ?_, ?_, ?_⟩
  · intro i hi hlt
    rw [getElem?_setRedirect, if_neg (Nat.ne_of_lt hlt), getElem?_addChild,
      if_neg (Nat.ne_of_lt hlt), if_neg (Nat.ne_of_gt hi)]
  · simp [childrenOf_addChild hpos]
  · refine .cons ⟨?_, ?_, ?_⟩ .nil
    · rw [labelOf_setRedirect, labelOf_addChild_size hpos]
      rfl
    · rw [redirectOf, getElem?_setRedirect, if_pos rfl, getElem?_addChild, if_pos rfl]
      rfl
    · rw [childrenOf_setRedirect, childrenOf_addChild hpos, if_neg (Nat.ne_of_gt hpos),
        childrenOf_eq_nil (Nat.le_refl _)]
  · intro id
    rw [List.mem_singleton, size_setRedirect, size_addChild]
    omega
  · exact List.nodup_singleton _

/-- Aliases with free and distinct names are literals one after another. -/
theorem mapM_aliasLiteral_aliased {c : Command} {main : Nat} :
    ∀ {names : List String} {ids : List Nat} {a a' : Arena}, IsTree a.nodes →
      (∀ name ∈ names, Free a.nodes name) → names.Nodup →
      names.mapM (aliasLiteral c main) a = .ok ids a' → Aliased c main names ids a a'
  | [], ids, a, a', t, _, _, h => by
    obtain ⟨rfl, rfl⟩ := EStateM.mapM_nil_eq_ok.mp h
    exact .refl t
  | name :: names, ids, a, a', t, hfree, hnd, h => by
    obtain ⟨id, a₁, ids, h₁, h₂, rfl⟩ := EStateM.mapM_cons_eq_ok.mp h
    obtain ⟨hname, hnd⟩ := List.nodup_cons.mp hnd
    obtain ⟨rfl, rfl⟩ := aliasLiteral_of_free (hfree name (by simp)) h₁
    have one : Aliased c main [name] [a.nodes.size] a _ :=
      aliased_singleton t (hfree name (by simp))
    refine one.trans (mapM_aliasLiteral_aliased one.tree (fun other hother => ?_) hnd h₂) t.nonempty
    exact free_aliasLiteral t (hfree other (by simp [hother])) fun he => hname (he ▸ hother)

/-! ## Usages -/

/-- Usages add only what they spell below the main literal, and all of it. -/
theorem usages_asked {main : Nat} :
    ∀ {us : List Usage} {a a' : Arena}, IsTree a.nodes → main < a.nodes.size →
      (us.forM fun u => declare [main] u.arguments : Build Unit) a = .ok () a' →
      Asked (fun p _ => main ≤ p) a a' ∧
        ∀ u ∈ us, ∀ ls, Usage.Spells u.arguments ls → ∃ x, Path a'.nodes main ls x
  | [], a, a', t, _, h => by
    obtain ⟨-, rfl⟩ := EStateM.pure_eq_ok.mp h
    exact ⟨.refl t _, by simp⟩
  | u :: us, a, a', t, hmain, h => by
    obtain ⟨⟨⟩, a₁, h₁, h₂⟩ := EStateM.bind_eq_ok.mp h
    obtain ⟨asked₁, paths⟩ := declare_asked (m := main) t (by simpa using hmain) h₁
    obtain ⟨asked₂, paths'⟩ :=
      usages_asked asked₁.tree (Nat.lt_of_lt_of_le hmain asked₁.grows.size_le) h₂
    refine ⟨asked₁.trans asked₂, fun v hv ls hs => ?_⟩
    rcases List.mem_cons.mp hv with rfl | hv
    · obtain ⟨x, hx⟩ := paths main (by simp) ls hs
      exact ⟨x, asked₂.grows.path hx⟩
    · exact paths' v hv ls hs

/-- What is asked for later makes no other path to the frontier. -/
theorem Frontier.later {m : Nat} {allowed : List Label → Prop} {ask : Nat → Label → Prop}
    {args : List Argument} {parents : List Nat} {a a' : Arena}
    (hf : Frontier a m allowed args parents) (h : Asked ask a a') :
    Frontier a' m allowed args parents := by
  intro p hp
  obtain ⟨hle, hlt, hallowed⟩ := hf p hp
  exact ⟨hle, Nat.lt_of_lt_of_le hlt h.grows.size_le,
    fun hpath hs => hallowed (h.path_of_lt hpath hlt) hs⟩

/-- Only the empty path leads from the main literal to itself. -/
theorem frontier_self {m : Nat} {allowed : List Label → Prop} {args : List Argument} {a : Arena}
    (t : IsTree a.nodes) (hm : m < a.nodes.size) (h : ∀ ls, Usage.Spells args ls → allowed ls) :
    Frontier a m allowed args [m] := by
  intro p hp
  obtain rfl := List.mem_singleton.mp hp
  refine ⟨Nat.le_refl _, hm, fun {ls ls'} hpath hs => ?_⟩
  rcases hpath.eq_nil_or_concat with ⟨rfl, -⟩ | ⟨_, _, q, -, hq, he⟩
  · exact h ls' hs
  · exact absurd (t.lt_of_edge he) (Nat.not_lt_of_le (t.le_of_path hq))

/-- Declaring usages spells nothing but what is allowed. -/
theorem usages_only {m main : Nat} {allowed : List Label → Prop} :
    ∀ {us : List Usage} {a a' : Arena}, IsTree a.nodes → main < a.nodes.size →
      (∀ u ∈ us, Frontier a m allowed u.arguments [main]) → Only a.nodes m allowed →
      (us.forM fun u => declare [main] u.arguments : Build Unit) a = .ok () a' →
      Only a'.nodes m allowed
  | [], a, a', _, _, _, honly, h => by
    obtain ⟨-, rfl⟩ := EStateM.pure_eq_ok.mp h
    exact honly
  | u :: us, a, a', t, hmain, hus, honly, h => by
    obtain ⟨⟨⟩, a₁, h₁, h₂⟩ := EStateM.bind_eq_ok.mp h
    obtain ⟨hu, hus⟩ := List.forall_mem_cons.mp hus
    have asked := (declare_asked (m := main) t (by simpa using hmain) h₁).1
    exact usages_only asked.tree (Nat.lt_of_lt_of_le hmain asked.grows.size_le)
      (fun v hv => (hus v hv).later asked) (declare_only t honly hu h₁) h₂

/-! ## Commands -/

/-- A command is its main literal, its usages, its aliases, and a group of the literals. -/
theorem command_eq_ok {c : Command} {a a' : Arena} {u : Unit} :
    command c a = .ok u a' ↔ ∃ main a₁ a₂ others a₃, nameLiteral c c.name a = .ok main a₁ ∧
      (c.usages.forM fun u => declare [main] u.arguments : Build Unit) a₁ = .ok () a₂ ∧
      c.aliases.mapM (aliasLiteral c main) a₂ = .ok others a₃ ∧
      a₃.addCommand c (main :: others) = a' := by
  simp only [command, EStateM.bind_eq_ok, EStateM.modify_eq_ok]
  constructor
  · rintro ⟨main, a₁, h₁, ⟨⟩, a₂, h₂, others, a₃, h₃, rfl⟩
    exact ⟨main, a₁, a₂, others, a₃, h₁, h₂, h₃, rfl⟩
  · rintro ⟨main, a₁, a₂, others, a₃, h₁, h₂, h₃, rfl⟩
    exact ⟨main, a₁, h₁, ⟨⟩, a₂, h₂, others, a₃, h₃, rfl⟩

/-- The main literal is the next node, and what the usages add comes after it. -/
theorem opened {c : Command} {a a₂ : Arena} (t : IsTree a.nodes) (hfree : Free a.nodes c.name)
    (h : (c.usages.forM fun u => declare [a.nodes.size] u.arguments : Build Unit)
      (a.addChild 0 (.literal c.name c.runnable)) = .ok () a₂) : Opened c a a₂ := by
  have hpos := t.nonempty
  have t₁ := isTree_addChild t hpos (c := .literal c.name c.runnable)
    fun q he => hfree q _ he rfl
  have hlt : a.nodes.size < (a.addChild 0 (.literal c.name c.runnable)).nodes.size := by
    rw [size_addChild]
    omega
  obtain ⟨asked, paths⟩ := usages_asked t₁ hlt h
  have kept : ∀ {i}, i < a.nodes.size →
      a₂.nodes[i]? = (a.addChild 0 (.literal c.name c.runnable)).nodes[i]? := fun {i} hi =>
    asked.kept (Nat.lt_trans hi hlt) fun l hl => Nat.not_lt_of_le hl hi
  refine ⟨asked.tree, (grows_addChild a 0 _).trans asked.grows, ?_, ?_, ?_, asked.groups,
    asked.commands, ?_, ?_, paths, usages_only t₁ hlt ?_ ?_ h⟩
  · intro i hi hi'
    rw [kept hi', getElem?_addChild, if_neg (Nat.ne_of_lt hi'), if_neg (Nat.ne_of_gt hi)]
  · rw [childrenOf, kept hpos, ← childrenOf, childrenOf_addChild hpos, if_pos rfl]
  · exact Nat.lt_of_lt_of_le hlt asked.grows.size_le
  · rw [asked.grows.labelOf hlt, labelOf_addChild_size hpos]
    rfl
  · intro i hi
    rcases Nat.eq_or_lt_of_le hi with rfl | hi
    · rw [asked.grows.redirectOf hlt, redirectOf, getElem?_addChild, if_pos rfl]
      rfl
    · exact asked.redirect (by rw [size_addChild]; omega)
  · exact fun u hu => frontier_self t₁ hlt fun ls hs => .inr ⟨u, hu, hs⟩
  · refine only_of_childrenOf_eq_nil ?_ (.inl rfl)
    rw [childrenOf_addChild hpos, if_neg (Nat.ne_of_gt hpos), childrenOf_eq_nil (Nat.le_refl _)]

/-- A command whose names are free gets a plot at the end of the arena. -/
theorem command_extends {c : Command} {a a' : Arena} (t : IsTree a.nodes)
    (hfree : ∀ name ∈ c.names, Free a.nodes name) (hnd : c.names.Nodup)
    (h : command c a = .ok () a') : ∃ g, Extends [c] [g] a a' := by
  obtain ⟨main, a₁, a₂, others, a₃, h₁, h₂, h₃, rfl⟩ := command_eq_ok.mp h
  obtain ⟨hname, hnd⟩ := List.nodup_cons.mp hnd
  obtain ⟨rfl, rfl⟩ := nameLiteral_of_free (hfree c.name List.mem_cons_self) h₁
  have o := opened t (hfree c.name List.mem_cons_self) h₂
  have free₂ : ∀ name ∈ c.aliases, Free a₂.nodes name := fun name hmem =>
    o.free t (hfree name (List.mem_cons_of_mem _ hmem)) fun he => hname (he ▸ hmem)
  have al := mapM_aliasLiteral_aliased o.tree free₂ hnd h₃
  have hle := al.grows.size_le
  have kept : ∀ i, a.nodes.size ≤ i → i < a₂.nodes.size → a₃.nodes[i]? = a₂.nodes[i]? :=
    fun i hi hlt => al.kept (Nat.lt_of_lt_of_le t.nonempty hi) hlt
  have plot : Plot a₃.nodes c a.nodes.size a₃.nodes.size others := by
    refine ⟨t.nonempty, Nat.lt_of_lt_of_le o.lt hle, ?_, al.aliases, ?_, al.nodup, ?_, ?_, ?_, ?_⟩
    · rw [al.grows.labelOf o.lt, o.label]
    · intro id hid
      exact ⟨Nat.lt_of_lt_of_le o.lt (al.mem.mp hid).1, (al.mem.mp hid).2⟩
    · intro i hi hlt hid
      have hi₂ : i < a₂.nodes.size := Nat.lt_of_not_le fun hle => hid (al.mem.mpr ⟨hle, hlt⟩)
      rw [al.grows.redirectOf hi₂, o.redirect hi]
    · exact fun _ _ hq => al.tree.down hq
    · intro u hu ls hs
      obtain ⟨x, hx⟩ := o.paths u hu ls hs
      exact ⟨x, al.grows.path hx⟩
    · intro ls x hp
      refine o.only ls x ((path_congr kept ?_ (Nat.le_refl _) o.lt).mp hp)
      exact fun _ _ hq => o.tree.down hq
  refine ⟨⟨c.name, a.nodes.size :: others⟩, al.tree, o.grows.trans al.grows, ?_, ?_, ?_, ?_, ?_⟩
  · exact fun hi hlt => (al.kept hi (Nat.lt_trans hlt o.lt)).trans (o.kept hi hlt)
  · rw [List.flatMap_singleton, addCommand, al.root, o.root, List.append_assoc,
      List.singleton_append]
  · rw [addCommand, al.groups, o.groups]
  · rw [addCommand, al.commands, o.commands]
  · exact .cons plot (.nil _)

/-- After the first of several commands the names of the others are still free. -/
theorem free_tail {c : Command} {cs : List Command} {g : Group} {a a₁ : Arena} (t : IsTree a.nodes)
    (e : Extends [c] [g] a a₁) (hfree : ∀ d ∈ c :: cs, ∀ name ∈ d.names, Free a.nodes name)
    (hnd : ((c :: cs).flatMap fun d => d.names).Nodup) :
    ∀ d ∈ cs, ∀ name ∈ d.names, Free a₁.nodes name := by
  rw [List.flatMap_cons, List.nodup_append] at hnd
  obtain ⟨-, -, hdisj⟩ := hnd
  intro d hd name hname
  refine e.free t (hfree d (by simp [hd]) name hname) fun c' hc' hmem => ?_
  obtain rfl := List.mem_singleton.mp hc'
  exact hdisj name hmem name (List.mem_flatMap.mpr ⟨d, hd, hname⟩) rfl

/-- Commands that have no name twice get their plots one after another. -/
theorem all_extends :
    ∀ {cs : List Command} {a a' : Arena}, IsTree a.nodes →
      (∀ c ∈ cs, ∀ name ∈ c.names, Free a.nodes name) →
      (cs.flatMap fun c => c.names).Nodup → all cs a = .ok () a' → ∃ gs, Extends cs gs a a'
  | [], a, a', t, _, _, h => by
    obtain ⟨-, rfl⟩ := EStateM.pure_eq_ok.mp h
    exact ⟨[], .refl t⟩
  | c :: cs, a, a', t, hfree, hnd, h => by
    obtain ⟨⟨⟩, a₁, h₁, h₂⟩ := EStateM.bind_eq_ok.mp h
    have hnd' := hnd
    rw [List.flatMap_cons, List.nodup_append] at hnd'
    obtain ⟨g, e₁⟩ := command_extends t (hfree c (by simp)) hnd'.1 h₁
    obtain ⟨gs, e₂⟩ := all_extends e₁.tree (free_tail t e₁ hfree hnd) hnd'.2.1 h₂
    exact ⟨g :: gs, e₁.trans e₂ t.nonempty⟩

end Build

/-! ## Graphs -/

namespace Graph

/-- The graph declares its commands, none of which has a name of another. -/
structure Declares (g : Graph) : Prop where
  names : (g.commands.flatMap fun c => c.names).Nodup
  tree : IsTree g.nodes
  children : childrenOf g.nodes root = g.groups.flatMap Group.roots
  redirect : redirectOf g.nodes root = none
  laid : Laid g.nodes 1 g.size g.commands g.groups

section

variable {caseInsensitive : Bool} {generation : Nat} {cs : List Command} {g : Graph}

theorem ofCommands_eq_ok :
    ofCommands caseInsensitive generation cs = .ok g ↔
      ∃ a, Build.all cs {} = .ok () a ∧ a.finish caseInsensitive generation = g := by
  unfold ofCommands
  cases h : (Build.all cs).run {} with
  | ok u a =>
    have h' : Build.all cs {} = .ok () a := h
    simp only [h', EStateM.Result.ok.injEq, Except.ok.injEq, true_and, exists_eq_left']
  | error fault a =>
    have h' : Build.all cs {} = .error fault a := h
    simp [h']

/-- A builder that allows for some number of nodes takes the commands one after another, and this is
the graph that it makes of them. -/
def BuiltFrom (g : Graph) (cs : List Command) : Prop :=
  ∃ limit a, Build.all cs (.limited limit) = .ok () a ∧
    a.finish g.caseInsensitive g.generation = g

theorem builtFrom_of_ofCommands (h : ofCommands caseInsensitive generation cs = .ok g) :
    g.BuiltFrom cs := by
  obtain ⟨a, ha, rfl⟩ := ofCommands_eq_ok.mp h
  exact ⟨maxNodes, a, ha, rfl⟩

theorem BuiltFrom.size_le (h : g.BuiltFrom cs) : g.size ≤ maxNodes := by
  obtain ⟨limit, a, ha, hg⟩ := h
  have within := Build.all_within (a := .limited limit) (Nat.min_le_right limit maxNodes) cs
    Nat.one_pos ⟨rfl, show 1 ≤ maxNodes by decide⟩
  rw [ha] at within
  rw [← hg]
  exact within.2

/-- In the root alone every name is free. -/
theorem free_root (limit : Nat) (cs : List Command) :
    ∀ c ∈ cs, ∀ name ∈ c.names, Free ({ limit } : Arena).nodes name := by
  rintro c - name - q l ⟨hq, -⟩
  simp at hq

/-- What commands make of the root alone declares them, if no name repeats. -/
theorem declares_of_all (hnd : (cs.flatMap fun c => c.names).Nodup) {limit : Nat} {a : Arena}
    (h : Build.all cs { limit } = .ok () a) (caseInsensitive : Bool) (generation : Nat) :
    (a.finish caseInsensitive generation).Declares ∧ a.commands = cs := by
  obtain ⟨gs, e⟩ := Build.all_extends isTree_singleton (free_root limit cs) hnd h
  have hcommands : a.commands = cs := e.commands
  have hgroups : a.groups = gs := e.groups
  refine ⟨⟨?_, e.tree, ?_, e.grows.redirectOf Nat.one_pos, ?_⟩, hcommands⟩
  · rwa [Arena.finish, hcommands]
  · rw [Arena.finish, hgroups]
    exact e.root
  · rw [Arena.finish, hcommands, hgroups]
    exact e.laid

/-- Where names are distinct, the graph keeps the commands as they are. -/
theorem BuiltFrom.commands_eq (h : g.BuiltFrom cs) (hnd : (cs.flatMap fun c => c.names).Nodup) :
    g.commands = cs := by
  obtain ⟨limit, a, ha, hg⟩ := h
  rw [← hg]
  exact (declares_of_all hnd ha g.caseInsensitive g.generation).2

/-- Where names are distinct, the graph declares its commands. -/
theorem BuiltFrom.declares (h : g.BuiltFrom cs) (hnd : (cs.flatMap fun c => c.names).Nodup) :
    g.Declares := by
  obtain ⟨limit, a, ha, hg⟩ := h
  rw [← hg]
  exact (declares_of_all hnd ha g.caseInsensitive g.generation).1

theorem commands_of_ofCommands (hnd : (cs.flatMap fun c => c.names).Nodup)
    (h : ofCommands caseInsensitive generation cs = .ok g) : g.commands = cs :=
  (builtFrom_of_ofCommands h).commands_eq hnd

theorem declares_of_ofCommands (hnd : (cs.flatMap fun c => c.names).Nodup)
    (h : ofCommands caseInsensitive generation cs = .ok g) : g.Declares :=
  (builtFrom_of_ofCommands h).declares hnd

end

end Graph

end CommandGrammar
