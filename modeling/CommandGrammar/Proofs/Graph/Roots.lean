import CommandGrammar.Proofs.Graph.Formed

/-!
# Below the root

The root of a graph does not redirect, and all of its children are literals of commands, several
commands having some of them in common if names repeat (`Graph.BuiltFrom.rooted`). While a command
is built its literals are not yet told as such, so until then they are kept in mind beside the
arena (`Arena.Rooted`).
-/

namespace CommandGrammar

open Nodes

/-- The root does not redirect, and each of its children is one of these ids or a literal of a
command. -/
structure Arena.Rooted (a : Arena) (ids : List Nat) : Prop where
  redirect : redirectOf a.nodes Graph.root = none
  child : ∀ q ∈ childrenOf a.nodes Graph.root, q ∈ ids ∨ ∃ group ∈ a.groups, q ∈ group.roots

namespace Arena

variable {a a' : Arena} {ids ids' : List Nat}

theorem rooted_limited (limit : Nat) : (limited limit).Rooted [] where
  redirect := rfl
  child q hq := by
    rw [limited, childrenOf_singleton] at hq
    exact absurd hq List.not_mem_nil

/-- Of what is asked for, only children of the root matter. -/
theorem Asked.rooted {ask : Nat → Label → Prop} (h : Asked ask a a') (hpos : 0 < a.nodes.size)
    (r : a.Rooted ids) (hids : ids ⊆ ids')
    (hnew : ∀ {l q}, ask Graph.root l → Edge a'.nodes Graph.root l q → q ∈ ids') :
    a'.Rooted ids' where
  redirect := (h.grows.redirectOf hpos).trans r.redirect
  child q hq := by
    rw [h.groups]
    obtain ⟨l, he⟩ := h.tree.exists_edge hq
    rcases h.edge he with hold | hask
    · exact (r.child q hold.1).imp_left fun hmem => hids hmem
    · exact .inl (hnew hask he)

theorem Rooted.setRedirect (r : a.Rooted ids) {id : Nat} (hid : 0 < id) (target : Nat) :
    (a.setRedirect id target).Rooted ids where
  redirect := by
    have hne : Graph.root ≠ id := Nat.ne_of_lt hid
    rw [redirectOf, getElem?_setRedirect, if_neg hne]
    exact r.redirect
  child q hq := by
    rw [childrenOf_setRedirect] at hq
    exact r.child q hq

/-- Once its command is told, the literals need not be kept in mind. -/
theorem Rooted.addCommand {roots : List Nat} (r : a.Rooted roots) (c : Command) :
    (a.addCommand c roots).Rooted [] where
  redirect := r.redirect
  child q hq := by
    refine .inr ?_
    rcases r.child q hq with hroot | ⟨group, hgroup, hmem⟩
    · exact ⟨⟨c.name, roots⟩, List.mem_append_right _ List.mem_cons_self, hroot⟩
    · exact ⟨group, List.mem_append_left _ hgroup, hmem⟩

end Arena

/-! ## Steps -/

namespace Build

open Arena

/-- The literal of a name is kept in mind until its command is told. -/
theorem nameLiteral_rooted {a a' : Arena} {ids : List Nat} {c : Command} {name : String} {id : Nat}
    (t : IsTree a.nodes) (r : a.Rooted ids) (h : nameLiteral c name a = .ok id a') :
    IsTree a'.nodes ∧ a'.Rooted (ids ++ [id]) ∧ 0 < id ∧ id < a'.nodes.size := by
  obtain ⟨asked, he⟩ := child_asked t t.nonempty h
  refine ⟨asked.tree, asked.rooted t.nonempty r (List.subset_append_left _ _) ?_,
    asked.tree.ne_root he.1, he.lt_size⟩
  rintro l q ⟨-, rfl⟩ hq
  -- siblings have different labels
  obtain rfl := asked.tree.siblings hq.1 he.1 (hq.2.trans he.2.symm)
  exact List.mem_append_right _ List.mem_cons_self

/-- The literals of aliases are kept in mind beside those that are. -/
theorem aliases_rooted {c : Command} {main : Nat} :
    ∀ {names : List String} {ids others : List Nat} {a a' : Arena}, IsTree a.nodes → a.Rooted ids →
      names.mapM (aliasLiteral c main) a = .ok others a' → a'.Rooted (ids ++ others)
  | [], ids, others, a, a', _, r, h => by
    obtain ⟨rfl, rfl⟩ := EStateM.mapM_nil_eq_ok.mp h
    rwa [List.append_nil]
  | name :: names, ids, others, a, a', t, r, h => by
    obtain ⟨id, a₁, others, h₁, h₂, rfl⟩ := EStateM.mapM_cons_eq_ok.mp h
    obtain ⟨a₃, h₃, rfl⟩ := aliasLiteral_eq_ok.mp h₁
    obtain ⟨t₃, r₃, hpos, -⟩ := nameLiteral_rooted t r h₃
    have := aliases_rooted (isTree_setRedirect t₃ _ main) (r₃.setRedirect hpos main) h₂
    rwa [List.append_assoc] at this

/-- A command that is built has told all of its literals. -/
theorem command_rooted {c : Command} {a a' : Arena} (t : IsTree a.nodes) (r : a.Rooted [])
    (h : command c a = .ok () a') : a'.Rooted [] := by
  obtain ⟨main, a₁, a₂, others, a₃, h₁, h₂, h₃, rfl⟩ := command_eq_ok.mp h
  obtain ⟨t₁, r₁, hpos, hlt⟩ := nameLiteral_rooted t r h₁
  obtain ⟨asked, -⟩ := usages_asked t₁ hlt h₂
  have r₂ : a₂.Rooted [main] := asked.rooted t₁.nonempty r₁ (List.Subset.refl _)
    fun hle _ => absurd hpos (Nat.not_lt_of_le hle)
  exact (aliases_rooted asked.tree r₂ h₃).addCommand c

/-- Nothing is to be kept in mind between commands. -/
theorem all_rooted {cs : List Command} {a a' : Arena} (t : IsTree a.nodes) (r : a.Rooted [])
    (h : all cs a = .ok () a') : a'.Rooted [] := by
  refine (EStateM.forM_induction (P := fun _ a => IsTree a.nodes ∧ a.Rooted []) ?_ ⟨t, r⟩ h).2
  rintro - c a a' ⟨t, r⟩ h
  have t' := kept_tree.changes t (command_changes (c := c) (fun _ hx => hx) t.nonempty)
  rw [h] at t'
  exact ⟨t', command_rooted t r h⟩

end Build

/-! ## Graphs -/

namespace Graph

/-- The root does not redirect, and each of its children is a literal of a command. -/
structure Rooted (g : Graph) : Prop where
  redirect : redirectOf g.nodes root = none
  child : ∀ q ∈ g.children root, ∃ group ∈ g.groups, q ∈ group.roots

/-- In a graph, every child of the root is a literal of a command. -/
theorem BuiltFrom.rooted {g : Graph} {cs : List Command} (h : g.BuiltFrom cs) : g.Rooted := by
  obtain ⟨limit, a, ha, hg⟩ := h
  have r := Build.all_rooted isTree_singleton (Arena.rooted_limited limit) ha
  rw [← hg]
  exact ⟨r.redirect, fun q hq => (r.child q hq).resolve_left List.not_mem_nil⟩

end Graph

end CommandGrammar
