import CommandGrammar.Proofs.Graph.Formed
import CommandGrammar.Proofs.Graph.Spellings

/-!
# The invariant of arenas

Whatever commands a builder is given, its arena is a tree below the one root, with siblings that a
client can tell apart, nodes named by tokens, and references to literals below the root only
(`Arena.Invariant`). This holds at any time (`Build.all_invariant`): each change keeps the root as
it is (`Build.kept_plainRoot`), and every name that is asked for was found to be a token when its
command was defined (`Command.isToken_name`).
-/

namespace CommandGrammar

open Nodes

/-! ## Names -/

theorem Argument.isToken_name {a : Argument} (ha : IsToken a.id) {executable : Bool}
    {x : Contribution} (h : x ∈ a.contributions executable) : IsToken x.label.name := by
  cases a with
  | word w =>
    rw [contributions, Word.contributions] at h
    split at h
    · obtain rfl := List.mem_singleton.mp h
      exact ha
    · next name names hw =>
      obtain ⟨choice, hchoice, rfl⟩ := List.mem_map.mp h
      rw [← hw] at hchoice
      exact w.isToken_of_mem hchoice
  | literal name | phrase p | boolean id | number n =>
    obtain rfl := List.mem_singleton.mp h
    exact ha

/-- All names that a command asks for are tokens. -/
theorem Command.isToken_name {c : Command} {x : Contribution} (h : x ∈ c.contributions) :
    IsToken x.label.name := by
  rcases mem_contributions.mp h with ⟨name, hname, rfl⟩ | ⟨u, hu, a, ha, executable, hx⟩
  · exact c.valid.names name hname
  · exact Argument.isToken_name ((c.valid.usages u hu).ids a ha) hx

namespace Build

open Arena

/-- New nodes are named as they are asked for, so if that is by tokens, all are. -/
theorem kept_isToken : Kept (fun x => IsToken x.label.name) fun a =>
    ∀ i l, labelOf a.nodes i = some l → IsToken l.name := by
  rintro a _ ha (@⟨p, x, hx, hp, -, -, -⟩ | _ | _) i l hl
  · rw [labelOf_addChild hp] at hl
    split at hl
    · obtain rfl := Option.some.inj hl
      exact hx
    · exact ha i l hl
  · rw [labelOf_setRedirect] at hl
    exact ha i l hl
  · exact ha i l hl

end Build

/-! ## The root -/

/-- The root of the tree does not redirect, and has literals for children. -/
structure Arena.PlainRoot (a : Arena) : Prop where
  tree : IsTree a.nodes
  redirect : redirectOf a.nodes Graph.root = none
  literal : ∀ {l : Label} {q : Nat}, Edge a.nodes Graph.root l q → l.shape = .literal

theorem Arena.plainRoot_limited (limit : Nat) : (limited limit).PlainRoot where
  tree := isTree_singleton
  redirect := rfl
  literal he := absurd he.1 (by simp [limited])

/-- Only literals are put below the root, and it is never redirected. -/
theorem Build.kept_plainRoot {asked : Contribution → Prop} :
    Arena.Kept asked Arena.PlainRoot := by
  intro a a' r hchange
  have t := kept_tree r.tree hchange
  cases hchange with
  | child hx hp hroot hnew hlimit =>
    refine ⟨t, ?_, fun {l q} he => ?_⟩
    · have hne : Graph.root ≠ a.nodes.size := Nat.ne_of_lt r.tree.nonempty
      rw [Arena.redirectOf_addChild, if_neg hne]
      exact r.redirect
    · obtain ⟨hq, hl⟩ := he
      rw [Arena.labelOf_addChild hp] at hl
      rcases (Arena.mem_childrenOf_addChild hp).mp hq with hq | ⟨rfl, rfl⟩
      · rw [if_neg (Nat.ne_of_lt (r.tree.down hq).2)] at hl
        exact r.literal ⟨hq, hl⟩
      · rw [if_pos rfl] at hl
        obtain rfl := Option.some.inj hl
        exact hroot r.tree.root
  | @redirect id target hid htarget =>
    refine ⟨t, ?_, fun {l q} he => ?_⟩
    · obtain ⟨l, he⟩ := hid
      have hne : Graph.root ≠ id := Nat.ne_of_lt (r.tree.ne_root he.1)
      rw [redirectOf, Arena.getElem?_setRedirect, if_neg hne]
      exact r.redirect
    · rw [Edge, Arena.childrenOf_setRedirect, Arena.labelOf_setRedirect] at he
      exact r.literal he
  | command c hroots => exact ⟨t, r.redirect, r.literal⟩

/-! ## The invariant -/

/-- Kind, name, parser as it is sent, list of choices, and whether a command may end here. -/
def Node.features (n : Node) :
    NodeKind × Option String × Option (String × List UInt8) × Option (List String) × Bool :=
  (n.kind, n.name?, n.hint?.map fun h => (h.identifier, h.properties), n.choices?, n.executable)

/-- What tells a node from its siblings is in its label. -/
theorem Node.features_eq {n : Node} {l : Label} (h : n.label = some l) :
    n.features = (l.fields.1, some l.fields.2.1, l.fields.2.2) := by
  simp [features, kind, name?, hint?, choices?, executable, h, Label.fields]

/-- `q` is a child of `p`. -/
def Nodes.Child (ns : Array Node) (p q : Nat) : Prop :=
  q ∈ childrenOf ns p

/-- What holds of an arena at any time. -/
structure Arena.Invariant (a : Arena) : Prop where
  root : ∃ n, a.nodes[Graph.root]? = some n ∧ n.kind = .root ∧ n.executable = false ∧
    n.name? = none ∧ n.redirect = none
  root_unique : ∀ {i : Nat} {n : Node}, a.nodes[i]? = some n → n.kind = .root → i = Graph.root
  root_not_child : ∀ p, ¬Child a.nodes p Graph.root
  name : ∀ {i : Nat} {n : Node}, a.nodes[i]? = some n → i ≠ Graph.root →
    ∃ name, n.name? = some name ∧ IsToken name
  child_lt : ∀ {p q : Nat}, Child a.nodes p q → q < a.nodes.size
  /-- Every other node is listed once, among the children of one older node. -/
  parent : ∀ {q : Nat}, q < a.nodes.size → q ≠ Graph.root → ∃ p < q,
    (childrenOf a.nodes p).count q = 1 ∧ ∀ p' ≠ p, ¬Child a.nodes p' q
  reachable : ∀ {i : Nat}, i < a.nodes.size → Relation.ReflTransGen (Child a.nodes) Graph.root i
  acyclic : ∀ i, ¬Relation.TransGen (Child a.nodes) i i
  siblings : ∀ {p q q' : Nat} {n n' : Node}, Child a.nodes p q → Child a.nodes p q' → q ≠ q' →
    a.nodes[q]? = some n → a.nodes[q']? = some n' → n.features ≠ n'.features
  redirect : ∀ {i t : Nat} {n : Node}, a.nodes[i]? = some n → n.redirect = some t →
    Child a.nodes Graph.root t ∧ ∃ m, a.nodes[t]? = some m ∧ m.kind = .literal
  group : ∀ {group : Group}, group ∈ a.groups → ∀ id ∈ group.roots, Child a.nodes Graph.root id
  hint : ∀ {i : Nat} {n : Node}, a.nodes[i]? = some n → n.kind = .argument → n.hint?.isSome

namespace Nodes.IsTree

variable {ns : Array Node} (t : IsTree ns)

include t

theorem label_ne_none {i : Nat} {n : Node} (hn : ns[i]? = some n) (hi : i ≠ Graph.root) :
    ∃ l, n.label = some l := by
  obtain ⟨l, hl⟩ := t.labelled (Nat.pos_of_ne_zero hi) (Array.getElem?_eq_some_iff.mp hn).1
  exact ⟨l, (labelOf_eq hn).symm.trans hl⟩

theorem lt_of_transGen {p q : Nat} (h : Relation.TransGen (Child ns) p q) : p < q := by
  induction h with
  | single hq => exact (t.down hq).1
  | tail _ hq ih => exact Nat.lt_trans ih (t.down hq).1

/-- By induction on the id, as parents are older. -/
theorem reachable {i : Nat} (hi : i < ns.size) :
    Relation.ReflTransGen (Child ns) Graph.root i := by
  induction i using Nat.strongRecOn with
  | ind i ih =>
    rcases Nat.eq_zero_or_pos i with rfl | hpos
    · exact .refl
    · obtain ⟨p, hp⟩ := t.parent hpos hi
      have hlt := (t.down hp).1
      exact (ih p hlt (Nat.lt_trans hlt hi)).tail hp

end Nodes.IsTree

namespace Arena

variable {a : Arena}

/-- All of the invariant follows from a plain root, references to its children, and names that are
tokens. -/
theorem PlainRoot.invariant (r : a.PlainRoot) (refers : a.Refers)
    (tokens : ∀ i l, labelOf a.nodes i = some l → IsToken l.name) : a.Invariant where
  root := by
    obtain ⟨n, hn⟩ : ∃ n, a.nodes[Graph.root]? = some n :=
      ⟨_, Array.getElem?_eq_getElem r.tree.nonempty⟩
    have hlabel : n.label = none := (labelOf_eq hn).symm.trans r.tree.root
    refine ⟨n, hn, ?_, ?_, ?_, (redirectOf_eq hn).symm.trans r.redirect⟩ <;>
      simp [Node.kind, Node.executable, Node.name?, hlabel]
  root_unique {i n} hn hkind := by
    by_contra hi
    obtain ⟨l, hl⟩ := r.tree.label_ne_none hn hi
    rw [Node.kind, hl] at hkind
    cases hshape : l.shape <;> simp [hshape, Shape.kind] at hkind
  root_not_child p hp := Nat.not_lt_zero p (r.tree.down hp).1
  name {i n} hn hi := by
    obtain ⟨l, hl⟩ := r.tree.label_ne_none hn hi
    exact ⟨l.name, by rw [Node.name?, hl]; rfl, tokens i l ((labelOf_eq hn).trans hl)⟩
  child_lt hq := (r.tree.down hq).2
  parent {q} hq hne := by
    obtain ⟨p, hp⟩ := r.tree.parent (Nat.pos_of_ne_zero hne) hq
    exact ⟨p, (r.tree.down hp).1, List.count_eq_one_of_mem (r.tree.nodup p) hp,
      fun p' hne hp' => hne (r.tree.unique hp' hp)⟩
  reachable := r.tree.reachable
  acyclic i hi := Nat.lt_irrefl i (r.tree.lt_of_transGen hi)
  siblings {p q q' n n'} hq hq' hne hn hn' hfeatures := by
    obtain ⟨l, hl⟩ := r.tree.exists_edge hq
    obtain ⟨l', hl'⟩ := r.tree.exists_edge hq'
    rw [Node.features_eq ((labelOf_eq hn).symm.trans hl.2),
      Node.features_eq ((labelOf_eq hn').symm.trans hl'.2)] at hfeatures
    simp only [Prod.mk.injEq, Option.some.injEq] at hfeatures
    obtain ⟨hkind, hname, hrest⟩ := hfeatures
    have hlabel : l = l' := Label.fields_injective (Prod.ext hkind (Prod.ext hname hrest))
    exact hne (r.tree.siblings hq hq' (by rw [hl.2, hl'.2, hlabel]))
  redirect {i t n} hn ht := by
    obtain ⟨l, he⟩ := refers.target ((redirectOf_eq hn).trans ht)
    obtain ⟨m, hm, hl⟩ := Option.bind_eq_some_iff.mp he.2
    refine ⟨he.1, m, hm, ?_⟩
    rw [Node.kind, hl]
    simp only [r.literal he, Shape.kind]
  group hgroup id hid := by
    obtain ⟨l, he⟩ := refers.group hgroup id hid
    exact he.1
  hint {i n} _ hkind := by
    unfold Node.kind at hkind
    cases hl : n.label with
    | none => simp [hl] at hkind
    | some l =>
      cases hshape : l.shape <;> simp [hl, hshape, Shape.kind, Node.hint?, Shape.hint?] at hkind ⊢

end Arena

theorem Arena.isToken_limited (limit i : Nat) (l : Label)
    (h : labelOf (limited limit).nodes i = some l) : IsToken l.name := by
  obtain ⟨n, hn, hl⟩ := Option.bind_eq_some_iff.mp h
  rw [eq_root_of_limited hn, Node.root] at hl
  cases hl

/-- The invariant holds of whatever a builder makes of commands, one after another, whether or not
names repeat, and also if there are too many nodes for its limit. -/
theorem Build.all_invariant (limit : Nat) (cs : List Command) :
    (EStateM.Result.state (all cs (.limited limit))).Invariant := by
  have hnames : ∀ c ∈ cs, ∀ x ∈ c.contributions, IsToken x.label.name := fun _ _ _ hx =>
    Command.isToken_name hx
  have plain := all_holds kept_plainRoot hnames (Arena.plainRoot_limited limit)
  have refers := all_holds kept_refers hnames (Arena.refers_limited limit)
  exact plain.invariant refers (all_holds kept_isToken hnames (Arena.isToken_limited limit))

end CommandGrammar
