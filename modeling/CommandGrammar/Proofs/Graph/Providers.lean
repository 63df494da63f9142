import CommandGrammar.Proofs.Graph.Routes

/-!
# Whose provider a node has

The provider of suggestions does not tell siblings apart. A node is made for the usage that is the
first to spell the labels that lead there (`Graph.FirstAsks`), and has the provider of the word that
this usage has in its place (`Nodes.Supplied`). A later usage comes to the node as it is, and what
its word says of a provider is not looked at.

So the words of a graph have the providers they ask for as long as words that share a node agree on
it (`Graph.BuiltFrom.provider_of_first`), and not otherwise (`Graph.unheard_provider`).
-/

namespace CommandGrammar

open Nodes

/-! ## Providers of arguments -/

/-- Who suggests values of the argument. Of a restricted word nobody does. -/
def Argument.provider? : Argument → Option String
  | word w => if w.choiceList = [] then w.provider else none
  | literal _ | phrase _ | boolean _ | number _ => none

theorem Argument.provider?_word {w : Word} (h : w.choiceList = []) :
    (word w).provider? = w.provider :=
  if_pos h

namespace Word

variable {w : Word} {executable : Bool} {c : Contribution}

theorem areTokens_none : ∀ cs ∈ (none : Option (List String)), ∀ c ∈ cs, IsToken c :=
  fun _ h => absurd h (Option.not_mem_none _)

/-- A word without choices is one node, which has its provider. -/
theorem contributions_of_free (h : w.choiceList = []) : w.contributions executable =
    [{ Contribution.argument w.id (.text .word) executable with provider := w.provider }] := by
  simp [contributions, h]

/-- A word with choices is a literal for each, and literals have no provider. -/
theorem mem_contributions_of_restricted (h : w.choiceList ≠ [])
    (hc : c ∈ w.contributions executable) :
    c.provider = none ∧ c.label.shape = .choice w.choiceList := by
  obtain ⟨first, others, hcs⟩ := List.exists_cons_of_ne_nil h
  simp only [contributions, hcs] at hc
  obtain ⟨name, -, rfl⟩ := List.mem_map.mp hc
  exact ⟨rfl, hcs ▸ rfl⟩

end Word

namespace Argument

variable {a : Argument} {executable : Bool} {c : Contribution}

/-- All nodes of an argument have the same provider. -/
theorem provider_of_mem (hc : c ∈ a.contributions executable) : c.provider = a.provider? := by
  cases a with
  | word w =>
    by_cases hfree : w.choiceList = []
    · rw [contributions, Word.contributions_of_free hfree, List.mem_singleton] at hc
      rw [hc, provider?_word hfree]
    · rw [(Word.mem_contributions_of_restricted hfree hc).1, provider?, if_neg hfree]
  | literal _ | phrase _ | boolean _ | number _ =>
    rw [contributions, List.mem_singleton] at hc
    exact hc ▸ rfl

/-- No argument but an unrestricted word is declared by the parser of words. -/
theorem eq_word_of_shape (hc : c ∈ a.contributions executable)
    (hshape : c.label.shape = .argument (.text .word)) :
    ∃ w, a = .word w ∧ w.choiceList = [] ∧ w.id = c.label.name := by
  cases a with
  | word w =>
    by_cases hfree : w.choiceList = []
    · rw [contributions, Word.contributions_of_free hfree, List.mem_singleton] at hc
      exact ⟨w, rfl, hfree, hc ▸ rfl⟩
    · have hchoice := (Word.mem_contributions_of_restricted hfree hc).2
      cases hshape.symm.trans hchoice
  | phrase p =>
    obtain rfl := List.mem_singleton.mp hc
    obtain ⟨id, mode⟩ := p
    cases mode <;> cases hshape
  | literal _ | boolean _ | number _ =>
    obtain rfl := List.mem_singleton.mp hc
    cases hshape

end Argument

namespace Usage.Spells

/-- The last label is of the argument in its place. -/
theorem exists_argument {l : Label} :
    ∀ {args : List Argument} {ls : List Label}, Spells args (ls ++ [l]) →
      ∃ a, args[ls.length]? = some a ∧ ∃ executable, ∃ c ∈ a.contributions executable, l = c.label
  | [], [], hs | [], _ :: _, hs => hs.elim
  | a :: _, [], ⟨hc, _⟩ => ⟨a, rfl, _, hc⟩
  | _ :: _, _ :: _, ⟨_, hs⟩ => by simpa using hs.exists_argument

variable {args : List Argument} {ls : List Label} {l : Label}

/-- Where a word without choices is spelled, the label is that of a text of one word. -/
theorem label_of_word (h : Spells args (ls ++ [l])) {w : Word}
    (hw : args[ls.length]? = some (.word w)) (hfree : w.choiceList = []) :
    ∃ executable, l = ⟨.argument (.text .word), w.id, executable⟩ := by
  obtain ⟨a, ha, executable, c, hc, rfl⟩ := h.exists_argument
  obtain rfl : Argument.word w = a := Option.some.inj (hw.symm.trans ha)
  rw [Argument.contributions, Word.contributions_of_free hfree, List.mem_singleton] at hc
  exact ⟨executable, hc ▸ rfl⟩

/-- A label of a text of one word comes from a word without choices, with that name. -/
theorem word_of_label (h : Spells args (ls ++ [l])) (hl : l.shape = .argument (.text .word)) :
    ∃ w, args[ls.length]? = some (.word w) ∧ w.choiceList = [] ∧ w.id = l.name := by
  obtain ⟨a, ha, executable, c, hc, rfl⟩ := h.exists_argument
  obtain ⟨w, rfl, hfree, hid⟩ := Argument.eq_word_of_shape hc hl
  exact ⟨w, ha, hfree, hid⟩

end Usage.Spells

/-! ## Providers of nodes -/

namespace Nodes

/-- The provider of an id. -/
def providerOf (ns : Array Node) (id : Nat) : Option String :=
  ns[id]?.bind Node.provider

theorem Grows.providerOf {ns ns' : Array Node} (g : Grows ns ns') {id : Nat} (hid : id < ns.size) :
    providerOf ns' id = Nodes.providerOf ns id := by
  obtain ⟨new, hn, -⟩ := g.node (Array.getElem?_eq_getElem hid)
  simp [Nodes.providerOf, hn, hid]

end Nodes

@[simp] theorem Arena.providerOf_addChild_size (a : Arena) (p : Nat) (c : Contribution) :
    providerOf (a.addChild p c).nodes a.nodes.size = c.provider := by
  rw [providerOf, getElem?_addChild, if_pos rfl]
  rfl

@[simp] theorem Arena.providerOf_setRedirect (a : Arena) (id target i : Nat) :
    providerOf (a.setRedirect id target).nodes i = providerOf a.nodes i := by
  simp only [providerOf, getElem?_setRedirect]
  split
  · rw [Option.bind_map]
    rfl
  · rfl

/-! ## New nodes -/

namespace Build

open Arena Usage

variable {a a' : Arena}

/-- A node that was made has what was asked for. -/
theorem child_new {p id x : Nat} {c : Contribution} (t : IsTree a.nodes) (hp : p < a.nodes.size)
    (h : child p c a = .ok id a') (hge : a.nodes.size ≤ x) (hlt : x < a'.nodes.size) :
    Edge a'.nodes p c.label x ∧ providerOf a'.nodes x = c.provider := by
  have he := (child_asked t hp h).2
  rcases child_eq_ok h with ⟨rfl, -⟩ | ⟨-, rfl, -, rfl⟩
  · exact absurd hlt (Nat.not_lt_of_le hge)
  · rw [size_addChild] at hlt
    obtain rfl := Nat.le_antisymm (Nat.le_of_lt_succ hlt) hge
    exact ⟨he, providerOf_addChild_size a p c⟩

/-- A new node has the provider of the child it was made for. -/
theorem mapM_child_new {x : Nat} : ∀ {pairs : List (Nat × Contribution)} {a a' : Arena}
    {ids : List Nat}, IsTree a.nodes → (∀ y ∈ pairs, y.1 < a.nodes.size) →
    (pairs.mapM fun (p, c) => child p c : Build (List Nat)) a = .ok ids a' →
    a.nodes.size ≤ x → x < a'.nodes.size →
    ∃ y ∈ pairs, Edge a'.nodes y.1 y.2.label x ∧ providerOf a'.nodes x = y.2.provider
  | [], a, a', ids, _, _, h, hge, hlt => by
    obtain ⟨-, rfl⟩ := EStateM.mapM_nil_eq_ok.mp h
    exact absurd hlt (Nat.not_lt_of_le hge)
  | y :: pairs, a, a', ids, t, hpairs, h, hge, hlt => by
    obtain ⟨id, a₁, ids, h₁, h₂, rfl⟩ := EStateM.mapM_cons_eq_ok.mp h
    obtain ⟨hy, hpairs⟩ := List.forall_mem_cons.mp hpairs
    have asked₁ := (child_asked t hy h₁).1
    have hpairs₁ : ∀ z ∈ pairs, z.1 < a₁.nodes.size := fun z hz =>
      Nat.lt_of_lt_of_le (hpairs z hz) asked₁.grows.size_le
    have grows := (mapM_child_asked asked₁.tree hpairs₁ h₂).1.grows
    rcases Nat.lt_or_ge x a₁.nodes.size with hlt₁ | hge₁
    · obtain ⟨he, hprovider⟩ := child_new t hy h₁ hge hlt₁
      exact ⟨y, List.mem_cons_self, grows.edge he, (grows.providerOf hlt₁).trans hprovider⟩
    · obtain ⟨z, hz, hnew⟩ := mapM_child_new asked₁.tree hpairs₁ h₂ hge₁ hlt
      exact ⟨z, List.mem_cons_of_mem y hz, hnew⟩

/-- A new node has the provider of the contribution it was made for. -/
theorem extend_new {parents next : List Nat} {cs : List Contribution} {x : Nat}
    (t : IsTree a.nodes) (hparents : ∀ p ∈ parents, p < a.nodes.size)
    (h : extend parents cs a = .ok next a') (hge : a.nodes.size ≤ x) (hlt : x < a'.nodes.size) :
    ∃ p ∈ parents, ∃ c ∈ cs, Edge a'.nodes p c.label x ∧ providerOf a'.nodes x = c.provider := by
  obtain ⟨ids, h, -⟩ := extend_eq_ok.mp h
  obtain ⟨y, hy, hnew⟩ := mapM_child_new t (fun y hy => hparents _ (mem_pairs.mp hy).1) h hge hlt
  exact ⟨y.1, (mem_pairs.mp hy).1, y.2, (mem_pairs.mp hy).2, hnew⟩

/-- Whatever is made for arguments is led to by labels that they spell from the frontier, and has
the provider of the argument that spells the last one. -/
theorem declare_new {x : Nat} : ∀ {args : List Argument} {parents : List Nat} {a a' : Arena},
    IsTree a.nodes → (∀ p ∈ parents, p < a.nodes.size) → declare parents args a = .ok () a' →
    a.nodes.size ≤ x → x < a'.nodes.size →
    ∃ p ∈ parents, ∃ ls l, Path a'.nodes p (ls ++ [l]) x ∧ Spells args (ls ++ [l]) ∧
      providerOf a'.nodes x = args[ls.length]?.bind Argument.provider?
  | [], parents, a, a', _, _, h, hge, hlt => by
    obtain rfl := declare_nil_eq_ok.mp h
    exact absurd hlt (Nat.not_lt_of_le hge)
  | arg :: rest, parents, a, a', t, hparents, h, hge, hlt => by
    obtain ⟨next, a₁, h₁, h₂⟩ := declare_cons_eq_ok.mp h
    obtain ⟨asked₁, -, hup⟩ := extend_asked t hparents h₁
    have hnext : ∀ q ∈ next, q < a₁.nodes.size := by
      intro q hq
      obtain ⟨p, -, c, -, he⟩ := hup q hq
      exact he.lt_size
    have grows := (declare_asked (m := 0) asked₁.tree
      (fun q hq => ⟨Nat.zero_le q, hnext q hq⟩) h₂).1.grows
    rcases Nat.lt_or_ge x a₁.nodes.size with hlt₁ | hge₁
    · obtain ⟨p, hp, c, hc, he, hprovider⟩ := extend_new t hparents h₁ hge hlt₁
      refine ⟨p, hp, [], c.label, ⟨x, grows.edge he, rfl⟩, ⟨⟨c, hc, rfl⟩, spells_nil rest⟩, ?_⟩
      exact (grows.providerOf hlt₁).trans (hprovider.trans (Argument.provider_of_mem hc))
    · obtain ⟨q, hq, ls, l, hpath, hs, hprovider⟩ := declare_new asked₁.tree hnext h₂ hge₁ hlt
      obtain ⟨p, hp, c, hc, he⟩ := hup q hq
      exact ⟨p, hp, c.label :: ls, l, ⟨q, grows.edge he, hpath⟩, ⟨⟨c, hc, rfl⟩, hs⟩, by
        simpa using hprovider⟩

end Build

/-! ## Who asks first -/

/-- The usages of the command, each with the label of the main literal that it starts from. -/
def Command.requests (c : Command) : List (Label × Usage) :=
  c.usages.map (c.nameLabel c.name, ·)

namespace Graph

/-- Of these usages, the first that spells the labels from a literal with the label `l`. -/
def FirstAsks (requests : List (Label × Usage)) (l : Label) (ls : List Label) (u : Usage) : Prop :=
  ∃ before after, requests = before ++ (l, u) :: after ∧ Usage.Spells u.arguments ls ∧
    ∀ v, (l, v) ∈ before → ¬Usage.Spells v.arguments ls

variable {requests requests' : List (Label × Usage)} {l : Label} {ls : List Label} {u v : Usage}

theorem FirstAsks.append (h : FirstAsks requests l ls u) (requests' : List (Label × Usage)) :
    FirstAsks (requests ++ requests') l ls u := by
  obtain ⟨before, after, rfl, hs, hbefore⟩ := h
  exact ⟨before, after ++ requests', by simp, hs, hbefore⟩

theorem FirstAsks.spells (h : FirstAsks requests l ls u) : Usage.Spells u.arguments ls := by
  obtain ⟨-, -, -, hs, -⟩ := h
  exact hs

/-- A usage comes first if none before it spells the same. -/
theorem firstAsks_concat (hs : Usage.Spells u.arguments ls)
    (hnew : ∀ v, (l, v) ∈ requests → ¬Usage.Spells v.arguments ls) :
    FirstAsks (requests ++ [(l, u)]) l ls u :=
  ⟨requests, [], rfl, hs, hnew⟩

/-- There is one first usage. -/
theorem FirstAsks.unique (h : FirstAsks requests l ls u) (h' : FirstAsks requests l ls v) :
    u = v := by
  obtain ⟨before, after, rfl, hu, hbefore⟩ := h
  obtain ⟨before', after', heq, hv, hbefore'⟩ := h'
  rcases List.append_eq_append_iff.mp heq with ⟨between, rfl, hrest⟩ | ⟨between, rfl, hrest⟩
  · cases between with
    | nil => exact congrArg Prod.snd (List.cons.inj hrest).1
    | cons first others =>
      obtain ⟨rfl, -⟩ := List.cons.inj hrest
      exact absurd hu (hbefore' u (by simp))
  · cases between with
    | nil => exact (congrArg Prod.snd (List.cons.inj hrest).1).symm
    | cons first others =>
      obtain ⟨rfl, -⟩ := List.cons.inj hrest
      exact absurd hv (hbefore v (by simp))

end Graph

/-! ## Steps supply nodes -/

namespace Nodes

theorem path_cons_concat {ns : Array Node} {p x : Nat} {l l' : Label} {ls : List Label} :
    Path ns p (l :: (ls ++ [l'])) x ↔ ∃ q, Path ns p (l :: ls) q ∧ Edge ns q l' x := by
  rw [← List.cons_append, path_concat]

/-- What usages spell is there, and each node below a literal has the provider of the usage that was
the first to ask for it. -/
structure Supplied (ns : Array Node) (requests : List (Label × Usage)) : Prop where
  tree : IsTree ns
  paths : ∀ {l u ls}, (l, u) ∈ requests → Usage.Spells u.arguments ls →
    ∃ x, Path ns Graph.root (l :: ls) x
  first : ∀ {l ls l' x}, Path ns Graph.root (l :: (ls ++ [l'])) x →
    ∃ u, Graph.FirstAsks requests l (ls ++ [l']) u ∧
      providerOf ns x = u.arguments[ls.length]?.bind Argument.provider?

theorem supplied_singleton : Supplied #[Node.root] [] where
  tree := isTree_singleton
  paths h := absurd h List.not_mem_nil
  first h := by
    obtain ⟨q, ⟨hq, -⟩, -⟩ := h
    simp at hq

theorem Supplied.path_of_grows {ns ns' : Array Node} {requests : List (Label × Usage)}
    (s : Supplied ns requests) (g : Grows ns ns') {l : Label} {u : Usage} {ls : List Label}
    (hmem : (l, u) ∈ requests) (hs : Usage.Spells u.arguments ls) :
    ∃ x, Path ns' Graph.root (l :: ls) x := by
  obtain ⟨x, hx⟩ := s.paths hmem hs
  exact ⟨x, g.path hx⟩

/-- Only the empty path comes back to the root. -/
theorem IsTree.ne_root_of_path {ns : Array Node} (t : IsTree ns) {l : Label} {ls : List Label}
    {x : Nat} (h : Path ns Graph.root (l :: ls) x) : x ≠ Graph.root := by
  rintro rfl
  exact List.cons_ne_nil l ls ((t.biUnique_path Graph.root).1 h rfl)

end Nodes

/-- Old nodes keep their providers. -/
theorem Arena.Asked.first_of_lt {a a' : Arena} {ask : Nat → Label → Prop}
    {requests : List (Label × Usage)} (h : Arena.Asked ask a a') (s : Supplied a.nodes requests)
    {l l' : Label} {ls : List Label} {x : Nat}
    (hpath : Path a'.nodes Graph.root (l :: (ls ++ [l'])) x) (hx : x < a.nodes.size) :
    ∃ u, Graph.FirstAsks requests l (ls ++ [l']) u ∧
      providerOf a'.nodes x = u.arguments[ls.length]?.bind Argument.provider? := by
  obtain ⟨u, hu, hprovider⟩ := s.first (h.path_of_lt hpath hx)
  exact ⟨u, hu, (h.grows.providerOf hx).trans hprovider⟩

namespace Build

open Arena

variable {a a' : Arena} {requests : List (Label × Usage)} {l : Label} {main : Nat}

/-- A usage supplies the nodes that were not there. -/
theorem declare_supplied {u : Usage} (s : Supplied a.nodes requests)
    (he : Edge a.nodes Graph.root l main) (h : declare [main] u.arguments a = .ok () a') :
    Supplied a'.nodes (requests ++ [(l, u)]) ∧ Grows a.nodes a'.nodes := by
  have hmain : ∀ p ∈ [main], p < a.nodes.size := by simpa using he.lt_size
  obtain ⟨asked, paths⟩ := declare_asked s.tree (fun p hp => ⟨Nat.zero_le p, hmain p hp⟩) h
  refine ⟨⟨asked.tree, fun hmem hs => ?_, fun {l' ls l'' x} hpath => ?_⟩, asked.grows⟩
  · rcases List.mem_append.mp hmem with hold | hnew
    · exact s.path_of_grows asked.grows hold hs
    · obtain ⟨rfl, rfl⟩ := Prod.mk.inj (List.mem_singleton.mp hnew)
      obtain ⟨x, hx⟩ := paths main List.mem_cons_self _ hs
      exact ⟨x, main, asked.grows.edge he, hx⟩
  rcases Nat.lt_or_ge x a.nodes.size with hlt | hge
  · obtain ⟨v, hv, hprovider⟩ := asked.first_of_lt s hpath hlt
    exact ⟨v, hv.append _, hprovider⟩
  · obtain ⟨p, hp, ls', k, hpath', hs, hprovider⟩ :=
      declare_new s.tree hmain h hge (hpath.lt_size asked.tree)
    obtain rfl := List.mem_singleton.mp hp
    -- The node is new, so the labels that lead to it are those that the usage spells.
    have hroot : Path a'.nodes Graph.root (l :: (ls' ++ [k])) x :=
      ⟨p, asked.grows.edge he, hpath'⟩
    obtain ⟨rfl, heq⟩ := List.cons.inj ((asked.tree.biUnique_path Graph.root).1 hpath hroot)
    obtain ⟨rfl, -⟩ := List.append_inj' heq rfl
    rw [← heq] at hs
    refine ⟨u, Graph.firstAsks_concat hs fun v hv hsv => ?_, hprovider⟩
    -- If it were spelled before, the node would have been there.
    obtain ⟨y, hy⟩ := s.paths hv hsv
    obtain rfl := (asked.tree.biUnique_path Graph.root).2 (asked.grows.path hy) hpath
    exact absurd (hy.lt_size s.tree) (Nat.not_lt_of_le hge)

/-- Usages are supplied one after another, each below the main literal. -/
theorem usages_supplied {us : List Usage} (s : Supplied a.nodes requests)
    (he : Edge a.nodes Graph.root l main)
    (h : (us.forM fun u => declare [main] u.arguments : Build Unit) a = .ok () a') :
    Supplied a'.nodes (requests ++ us.map (l, ·)) := by
  refine (EStateM.forM_induction (P := fun done a =>
    Supplied a.nodes (requests ++ done.map (l, ·)) ∧ Edge a.nodes Graph.root l main) ?_ ?_ h).1
  · rintro done u a a' ⟨s, he⟩ h
    obtain ⟨s', grows⟩ := declare_supplied s he h
    exact ⟨by simpa using s', grows.edge he⟩
  · exact ⟨by simpa using s, he⟩

/-- A literal is no node below a literal. -/
theorem nameLiteral_supplied {c : Command} {name : String} {id : Nat}
    (s : Supplied a.nodes requests) (h : nameLiteral c name a = .ok id a') :
    Supplied a'.nodes requests ∧ Edge a'.nodes Graph.root (c.nameLabel name) id := by
  obtain ⟨asked, he⟩ := child_asked s.tree s.tree.nonempty h
  refine ⟨⟨asked.tree, s.path_of_grows asked.grows, fun {l ls l' x} hpath => ?_⟩, he⟩
  obtain ⟨q, hq, hlast⟩ := path_cons_concat.mp hpath
  rcases asked.edge hlast with hold | ⟨hroot, -⟩
  · exact asked.first_of_lt s hpath hold.lt_size
  · exact absurd hroot (asked.tree.ne_root_of_path hq)

theorem setRedirect_supplied (s : Supplied a.nodes requests) (id target : Nat) :
    Supplied (a.setRedirect id target).nodes requests where
  tree := isTree_setRedirect s.tree id target
  paths hmem hs := by
    obtain ⟨x, hx⟩ := s.paths hmem hs
    exact ⟨x, (path_setRedirect a id target).mpr hx⟩
  first hpath := by
    rw [providerOf_setRedirect]
    exact s.first ((path_setRedirect a id target).mp hpath)

/-- Aliases have nothing below them, so they supply nothing. -/
theorem aliases_supplied {c : Command} {main : Nat} : ∀ {names : List String} {ids : List Nat}
    {a a' : Arena}, Supplied a.nodes requests →
    names.mapM (aliasLiteral c main) a = .ok ids a' → Supplied a'.nodes requests
  | [], ids, a, a', s, h => by
    obtain ⟨-, rfl⟩ := EStateM.mapM_nil_eq_ok.mp h
    exact s
  | name :: names, ids, a, a', s, h => by
    obtain ⟨id, _, ids, h₁, h₂, rfl⟩ := EStateM.mapM_cons_eq_ok.mp h
    obtain ⟨a₁, hname, rfl⟩ := aliasLiteral_eq_ok.mp h₁
    exact aliases_supplied (setRedirect_supplied (nameLiteral_supplied s hname).1 id main) h₂

/-- A command supplies its usages, after those of earlier commands. -/
theorem command_supplied {c : Command} (s : Supplied a.nodes requests)
    (h : command c a = .ok () a') : Supplied a'.nodes (requests ++ c.requests) := by
  obtain ⟨main, a₁, a₂, others, a₃, h₁, h₂, h₃, rfl⟩ := command_eq_ok.mp h
  obtain ⟨s₁, he⟩ := nameLiteral_supplied s h₁
  show Supplied a₃.nodes (requests ++ c.requests)
  exact aliases_supplied (usages_supplied s₁ he h₂) h₃

/-- All commands supply their usages, in order. -/
theorem all_supplied {cs : List Command} (s : Supplied a.nodes requests)
    (h : all cs a = .ok () a') : Supplied a'.nodes (requests ++ cs.flatMap Command.requests) := by
  refine EStateM.forM_induction
    (P := fun done a => Supplied a.nodes (requests ++ done.flatMap Command.requests)) ?_ ?_ h
  · intro done c a a' s h
    simpa using command_supplied s h
  · simpa using s

end Build

/-! ## The nodes of words -/

namespace Graph

variable {g : Graph} {cs : List Command}

/-- In a graph, the usages of all commands are supplied. -/
theorem BuiltFrom.supplied (h : g.BuiltFrom cs) :
    Supplied g.nodes (cs.flatMap Command.requests) := by
  obtain ⟨limit, a, ha, hg⟩ := h
  have s := Build.all_supplied (a := .limited limit) supplied_singleton ha
  rw [← hg]
  exact s

/-- The labels that a usage spells up to an unrestricted word lead to an argument node of its name.
The node has the provider of the word that the first of all usages that spell these labels has
there, which is the word itself if no usage was before this one. -/
theorem BuiltFrom.provider_of_first (h : g.BuiltFrom cs) {c : Command} (hc : c ∈ cs) {u : Usage}
    (hu : u ∈ c.usages) {ls : List Label} {l : Label} (hs : Usage.Spells u.arguments (ls ++ [l]))
    {w : Word} (hw : u.arguments[ls.length]? = some (.word w)) (hfree : w.choiceList = []) :
    (∃ x, Path g.nodes root (c.nameLabel c.name :: (ls ++ [l])) x) ∧
      ∀ x, Path g.nodes root (c.nameLabel c.name :: (ls ++ [l])) x →
        ∃ n v w', g.node? x = some n ∧ n.kind = .argument ∧ n.name = w.id ∧
          FirstAsks (cs.flatMap Command.requests) (c.nameLabel c.name) (ls ++ [l]) v ∧
          v.arguments[ls.length]? = some (.word w') ∧ w'.choiceList = [] ∧ w'.id = w.id ∧
          n.provider = w'.provider ∧ (FirstAsks (cs.flatMap Command.requests)
            (c.nameLabel c.name) (ls ++ [l]) u → n.provider = w.provider) := by
  have s := h.supplied
  have hrequest : (c.nameLabel c.name, u) ∈ cs.flatMap Command.requests :=
    List.mem_flatMap.mpr ⟨c, hc, List.mem_map_of_mem hu⟩
  refine ⟨s.paths hrequest hs, fun x hpath => ?_⟩
  obtain ⟨executable, rfl⟩ := hs.label_of_word hw hfree
  obtain ⟨v, hv, hprovider⟩ := s.first hpath
  -- The first usage spells the same label, so it has such a word there too.
  obtain ⟨w', hw', hfree', hid⟩ := hv.spells.word_of_label rfl
  rw [hw', Option.bind_some, Argument.provider?_word hfree'] at hprovider
  obtain ⟨q, -, -, hlast⟩ := path_cons_concat.mp hpath
  obtain ⟨n, hn, hlabel⟩ := Option.bind_eq_some_iff.mp hlast
  rw [providerOf, hn, Option.bind_some] at hprovider
  refine ⟨n, v, w', hn, ?_, ?_, hv, hw', hfree', hid, hprovider, fun hfirst => ?_⟩
  · rw [Node.kind, hlabel]
    rfl
  · rw [Node.name, Node.name?, hlabel]
    rfl
  · rw [hv.unique hfirst, hw] at hw'
    obtain rfl := Argument.word.inj (Option.some.inj hw')
    exact hprovider

/-- A word, by itself or with a provider. -/
def targetWord (provider : Option String) : Word :=
  { id := "target", provider, areTokens := Word.areTokens_none }

/-- What the word is declared by if more arguments follow. -/
def targetLabel : Label :=
  ⟨.argument (.text .word), "target", false⟩

/-- Two usages begin with the same word. The second one says who suggests it. -/
def give : Command where
  name := "give"
  usages := [⟨[.word (targetWord none), .boolean "all"], List.cons_ne_nil _ _⟩,
    ⟨[.word (targetWord "minecraft:ask_server"), .phrase ⟨"item", .greedy⟩], List.cons_ne_nil _ _⟩]
  valid := Draft.fault?_eq_none_iff.mp (by decide +kernel)

theorem mem_usages_give : ∃ u ∈ give.usages,
    u.arguments[0]? = some (.word (targetWord "minecraft:ask_server")) ∧
    Usage.Spells u.arguments [targetLabel] :=
  ⟨_, List.mem_cons_of_mem _ List.mem_cons_self, rfl, ⟨_, List.mem_cons_self, rfl⟩, trivial⟩

theorem built_give : ∃ g, ofCommands true 1 [give] = .ok g ∧
    Path g.nodes root [give.nameLabel "give", targetLabel] 2 ∧
    g.node? 2 = some { label := some targetLabel, children := [3, 4] } := by
  have facts : (ofCommands true 1 [give]).toOption.map (fun g =>
      (childrenOf g.nodes root, labelOf g.nodes 1, childrenOf g.nodes 1, g.node? 2)) =
      some ([1], some (give.nameLabel "give"), [2],
        some { label := some targetLabel, children := [3, 4] }) := by
    decide +kernel
  obtain ⟨g, hg, facts⟩ := Except.exists_of_map_toOption facts
  obtain ⟨hroot, hlabel, hchildren, hnode⟩ := by simpa using facts
  have htarget : labelOf g.nodes 2 = some targetLabel := labelOf_eq hnode
  exact ⟨g, hg, ⟨1, ⟨by simp [hroot], hlabel⟩, 2, ⟨by simp [hchildren], htarget⟩, rfl⟩, hnode⟩

/-- The first usage's word has no provider, so neither has the node. -/
theorem provider_give : ∃ (g : Graph) (u v : Usage) (w w' : Word) (x : Nat) (n : Node),
    g.BuiltFrom [give] ∧ u ∈ give.usages ∧ Usage.Spells u.arguments [targetLabel] ∧
    u.arguments[0]? = some (.word w) ∧ w.choiceList = [] ∧
    Path g.nodes root [give.nameLabel "give", targetLabel] x ∧
    g.node? x = some n ∧ n.name = "target" ∧
    FirstAsks give.requests (give.nameLabel "give") [targetLabel] v ∧
    v.arguments[0]? = some (.word w') ∧ n.provider = w'.provider := by
  obtain ⟨g, hg, hpath, -⟩ := built_give
  obtain ⟨u, hu, hword, hs⟩ := mem_usages_give
  have built := builtFrom_of_ofCommands hg
  have hfirst : Usage.Spells u.arguments ([] ++ [targetLabel]) := hs
  obtain ⟨-, hall⟩ := built.provider_of_first List.mem_cons_self hu hfirst hword rfl
  obtain ⟨n, v, w', hn, -, hname, hv, hw', -, -, hprovider, -⟩ := hall 2 hpath
  rw [List.flatMap_singleton] at hv
  exact ⟨g, u, v, _, w', 2, n, built, hu, hs, hword, rfl, hpath, hn, hname, hv, hw', hprovider⟩

/-- What the second usage says of a provider is lost. -/
theorem unheard_provider : ∃ (g : Graph) (u : Usage) (w : Word) (x : Nat) (n : Node),
    ofCommands true 1 [give] = .ok g ∧ u ∈ give.usages ∧ u.arguments[0]? = some (.word w) ∧
    w.choiceList = [] ∧ Usage.Spells u.arguments [targetLabel] ∧
    Path g.nodes root [give.nameLabel "give", targetLabel] x ∧ g.node? x = some n ∧
    n.kind = .argument ∧ n.name = w.id ∧ w.provider = some "minecraft:ask_server" ∧
    n.provider = none := by
  obtain ⟨g, hg, hpath, hnode⟩ := built_give
  obtain ⟨u, hu, hword, hs⟩ := mem_usages_give
  exact ⟨g, u, _, 2, _, hg, hu, hword, rfl, hs, hpath, hnode, rfl, rfl, rfl, rfl⟩

end Graph

end CommandGrammar
