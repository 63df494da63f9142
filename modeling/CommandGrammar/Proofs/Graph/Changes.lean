import CommandGrammar.Proofs.Graph.Arena
import Mathlib.Logic.Relation

/-!
# All that building changes

However commands are built, an arena changes in three ways only (`Arena.Change`): a node gets a
child with a label that none of its children has, a literal below the root is made to redirect to
another one, or a command is noted with some of these literals. What becomes of an arena is always a
row of such changes, whether or not names repeat, and also if a step fails on the way
(`Build.command_changes`, `Build.all_changes`). So what every change keeps holds of all that a
builder makes (`Build.all_holds`).

The limit on nodes is such a property: no step takes an arena past it, nor past anything more than
that (`Build.all_within`).
-/

namespace CommandGrammar

open Nodes

/-! ## What may be asked for -/

/-- All nodes that the argument may be declared as. -/
def Argument.allContributions (a : Argument) : List Contribution :=
  a.contributions false ++ a.contributions true

/-- All nodes that a command may ask for. -/
def Command.contributions (c : Command) : List Contribution :=
  c.names.map (.literal · c.runnable) ++
    c.usages.flatMap fun u => u.arguments.flatMap Argument.allContributions

/-- A command asks for a literal of each name, and for the nodes of its arguments. -/
theorem Command.mem_contributions {c : Command} {x : Contribution} :
    x ∈ c.contributions ↔ (∃ name ∈ c.names, x = .literal name c.runnable) ∨
      ∃ u ∈ c.usages, ∃ a ∈ u.arguments, ∃ executable, x ∈ a.contributions executable := by
  simp only [contributions, Argument.allContributions, List.mem_append, List.mem_map,
    List.mem_flatMap, Bool.exists_bool, eq_comm]

/-! ## Changes -/

namespace Arena

/-- The node is a child of the root. -/
def RootChild (a : Arena) (id : Nat) : Prop :=
  ∃ l, Edge a.nodes Graph.root l id

/-- One change that building makes, if only such nodes are asked for. -/
inductive Change (asked : Contribution → Prop) (a : Arena) : Arena → Prop
  /-- Only the root has no label, and it has literals for children. -/
  | child {p : Nat} {x : Contribution} (hx : asked x) (hp : p < a.nodes.size)
      (hroot : labelOf a.nodes p = none → x.label.shape = .literal)
      (hnew : ∀ q, ¬Edge a.nodes p x.label q) (hlimit : a.nodes.size < a.limit) :
      Change asked a (a.addChild p x)
  | redirect {id target : Nat} (hid : a.RootChild id) (htarget : a.RootChild target) :
      Change asked a (a.setRedirect id target)
  | command (c : Command) {roots : List Nat} (hroots : ∀ id ∈ roots, a.RootChild id) :
      Change asked a (a.addCommand c roots)

/-- Changes one after another. -/
abbrev Changes (asked : Contribution → Prop) : Arena → Arena → Prop :=
  Relation.ReflTransGen (Change asked)

/-- What holds of an arena holds after each change. -/
def Kept (asked : Contribution → Prop) (holds : Arena → Prop) : Prop :=
  ∀ ⦃a a' : Arena⦄, holds a → Change asked a a' → holds a'

variable {asked : Contribution → Prop} {holds : Arena → Prop} {a a' : Arena}

/-- What every change keeps holds after all of them. -/
theorem Kept.changes (h : Kept asked holds) (ha : holds a) (hs : Changes asked a a') :
    holds a' := by
  induction hs with
  | refl => exact ha
  | tail _ hchange ih => exact h ih hchange

theorem kept_nonempty : Kept asked fun a => 0 < a.nodes.size := by
  rintro a _ ha (_ | _ | _)
  · rw [size_addChild]
    omega
  · rwa [size_setRedirect]
  · exact ha

/-- Children are added, and none is lost or labelled anew. -/
theorem kept_edge (p : Nat) (l : Label) (q : Nat) : Kept asked fun a => Edge a.nodes p l q := by
  rintro a _ ha (_ | _ | _)
  · exact (grows_addChild ..).edge ha
  · rwa [Edge, childrenOf_setRedirect, labelOf_setRedirect]
  · exact ha

theorem kept_label (id : Nat) (l : Label) : Kept asked fun a => labelOf a.nodes id = some l := by
  rintro a _ ha (_ | _ | _)
  · rwa [(grows_addChild ..).labelOf (lt_size_of_labelOf ha)]
  · rwa [labelOf_setRedirect]
  · exact ha

theorem kept_rootChild (id : Nat) : Kept asked fun a => a.RootChild id :=
  fun _ _ ⟨l, he⟩ hchange => ⟨l, kept_edge _ l id he hchange⟩

theorem kept_labelled (id : Nat) : Kept asked fun a => ∃ l, labelOf a.nodes id = some l :=
  fun _ _ ⟨l, hl⟩ hchange => ⟨l, kept_label id l hl hchange⟩

end Arena

/-! ## Steps -/

namespace Build

open Arena CommandGrammar.EStateM

/-- The step makes changes only, and what it gives, if it succeeds, is as said. -/
def Leads {α : Type} (asked : Contribution → Prop) (a : Arena) (step : Build α)
    (gives : α → Arena → Prop) : Prop :=
  Changes asked a (Result.state (step a)) ∧ ∀ {x a'}, step a = .ok x a' → gives x a'

variable {asked : Contribution → Prop} {a : Arena}

section

variable {α β : Type} {gives : α → Arena → Prop} {gives' : β → Arena → Prop}

/-- Doing nothing makes no change. -/
theorem leads_pure {x : α} (h : gives x a) : Leads asked a (pure x) gives := by
  refine ⟨.refl, fun hx => ?_⟩
  obtain ⟨rfl, rfl⟩ := pure_eq_ok.mp hx
  exact h

theorem leads_modify {f : Arena → Arena} {gives : PUnit → Arena → Prop}
    (h : Change asked a (f a)) (hgives : gives ⟨⟩ (f a)) : Leads asked a (modify f) gives :=
  ⟨.single h, fun hx => modify_eq_ok.mp hx ▸ hgives⟩

/-- A step may count on what the one before it gives, after whatever changes that one made. -/
theorem Leads.bind {step : Build α} {next : α → Build β} (h : Leads asked a step gives)
    (hnext : ∀ {x a'}, Changes asked a a' → gives x a' → Leads asked a' (next x) gives') :
    Leads asked a (step >>= next) gives' := by
  obtain ⟨hchanges, hgives⟩ := h
  show Leads asked a (EStateM.bind step next) gives'
  unfold Leads EStateM.bind
  cases hstep : step a with
  | ok x a' =>
    rw [hstep] at hchanges
    obtain ⟨hchanges', hgives'⟩ := hnext hchanges (hgives hstep)
    exact ⟨hchanges.trans hchanges', hgives'⟩
  | error e a' =>
    rw [hstep] at hchanges
    exact ⟨hchanges, fun hx => by cases hx⟩

/-- What each step gives still holds once all of them are made. -/
theorem leads_mapM {step : β → Build α} (hkept : ∀ x, Kept asked (gives x)) :
    ∀ {ys : List β} {a : Arena},
      (∀ y ∈ ys, ∀ {a'}, Changes asked a a' → Leads asked a' (step y) gives) →
      Leads asked a (ys.mapM step) fun xs a' => ∀ x ∈ xs, gives x a'
  | [], a, _ => by
    rw [List.mapM_nil]
    exact leads_pure (List.forall_mem_nil _)
  | y :: ys, a, h => by
    obtain ⟨hy, hys⟩ := List.forall_mem_cons.mp h
    rw [List.mapM_cons]
    refine (hy .refl).bind fun {x a₁} h₁ hx => ?_
    refine (leads_mapM hkept fun y hy a' ha => hys y hy (h₁.trans ha)).bind fun h₂ hxs => ?_
    exact leads_pure (List.forall_mem_cons.mpr ⟨(hkept x).changes hx h₂, hxs⟩)

theorem leads_forM {step : β → Build Unit} :
    ∀ {ys : List β} {a : Arena},
      (∀ y ∈ ys, ∀ {a'}, Changes asked a a' → Leads asked a' (step y) fun _ _ => True) →
      Leads asked a (ys.forM step) fun _ _ => True
  | [], a, _ => leads_pure trivial
  | y :: ys, a, h => by
    obtain ⟨hy, hys⟩ := List.forall_mem_cons.mp h
    exact (hy .refl).bind fun h₁ _ => leads_forM fun y hy a' ha => hys y hy (h₁.trans ha)

end

/-- Whether the child is found or added, there is an edge to it in the end. -/
theorem child_leads {p : Nat} {x : Contribution} (hx : asked x) (hp : p < a.nodes.size)
    (hroot : labelOf a.nodes p = none → x.label.shape = .literal) :
    Leads asked a (child p x) fun id a' => Edge a'.nodes p x.label id := by
  cases hc : a.childOf? p x.label with
  | some id =>
    simp only [Leads, child, hc]
    refine ⟨.refl, fun h => ?_⟩
    obtain ⟨rfl, rfl⟩ := EStateM.Result.ok.inj h
    exact edge_of_childOf? hc
  | none =>
    simp only [Leads, child, hc]
    split
    · exact ⟨.refl, fun h => by cases h⟩
    · next hlimit =>
      refine ⟨.single (.child hx hp hroot (not_edge_of_childOf? hc) (Nat.lt_of_not_le hlimit)),
        fun h => ?_⟩
      obtain ⟨rfl, rfl⟩ := EStateM.Result.ok.inj h
      refine ⟨?_, by rw [labelOf_addChild hp, if_pos rfl]⟩
      rw [childrenOf_addChild hp, if_pos rfl]
      exact List.mem_append_right _ List.mem_cons_self

/-- A frontier has no root in it: all of its nodes have labels. -/
theorem extend_leads {parents : List Nat} {cs : List Contribution} (hcs : ∀ x ∈ cs, asked x)
    (hparents : ∀ p ∈ parents, ∃ l, labelOf a.nodes p = some l) :
    Leads asked a (extend parents cs) fun ids a' =>
      ∀ id ∈ ids, ∃ l, labelOf a'.nodes id = some l := by
  refine Leads.bind (leads_mapM kept_labelled fun pair hpair a' ha => ?_) fun _ hids => ?_
  · obtain ⟨p, hp, hmem⟩ := List.mem_flatMap.mp hpair
    obtain ⟨x, hx, rfl⟩ := List.mem_map.mp hmem
    obtain ⟨l, hl⟩ := (kept_labelled p).changes (hparents p hp) ha
    obtain ⟨hchanges, hgives⟩ := child_leads (hcs x hx) (lt_size_of_labelOf hl)
      fun hnone => absurd (hl.symm.trans hnone) (Option.some_ne_none l)
    exact ⟨hchanges, fun hid => ⟨_, (hgives hid).2⟩⟩
  · exact leads_pure fun id hid => hids id (List.mem_eraseDups.mp hid)

/-- Each argument is declared below the nodes of the one before it, none of which is the root. -/
theorem declare_leads : ∀ {args : List Argument} {parents : List Nat} {a : Arena},
    (∀ arg ∈ args, ∀ executable, ∀ x ∈ arg.contributions executable, asked x) →
    (∀ p ∈ parents, ∃ l, labelOf a.nodes p = some l) →
    Leads asked a (declare parents args) fun _ _ => True
  | [], _, _, _, _ => leads_pure trivial
  | arg :: rest, _, _, hargs, hparents => by
    obtain ⟨harg, hrest⟩ := List.forall_mem_cons.mp hargs
    exact (extend_leads (harg _) hparents).bind fun _ hnext => declare_leads hrest hnext

theorem nameLiteral_leads {c : Command} {name : String} (hx : asked (.literal name c.runnable))
    (hpos : 0 < a.nodes.size) :
    Leads asked a (nameLiteral c name) fun id a' => a'.RootChild id := by
  obtain ⟨hchanges, hgives⟩ := child_leads hx hpos fun _ => rfl
  exact ⟨hchanges, fun hid => ⟨_, hgives hid⟩⟩

/-- The literal of an alias is a child of the root, with a redirect to the main one. -/
theorem aliasLiteral_leads {c : Command} {name : String} {main : Nat}
    (hx : asked (.literal name c.runnable)) (hpos : 0 < a.nodes.size) (hmain : a.RootChild main) :
    Leads asked a (aliasLiteral c main name) fun id a' => a'.RootChild id := by
  refine (nameLiteral_leads hx hpos).bind fun {id a₁} h₁ hid => ?_
  have hredirect : Change asked a₁ (a₁.setRedirect id main) :=
    .redirect hid ((kept_rootChild main).changes hmain h₁)
  exact (leads_modify hredirect (kept_rootChild id hid hredirect)).bind fun _ hid => leads_pure hid

theorem usages_leads {us : List Usage} {main : Nat}
    (hus : ∀ u ∈ us, ∀ arg ∈ u.arguments, ∀ executable, ∀ x ∈ arg.contributions executable,
      asked x)
    (hmain : a.RootChild main) :
    Leads asked a (us.forM fun u => declare [main] u.arguments) fun _ _ => True := by
  refine leads_forM fun u hu a' ha => declare_leads (hus u hu) fun p hp => ?_
  obtain rfl := List.mem_singleton.mp hp
  obtain ⟨l, he⟩ := (kept_rootChild p).changes hmain ha
  exact ⟨l, he.2⟩

/-- The literals of all aliases are children of the root. -/
theorem aliases_leads {c : Command} {names : List String} {main : Nat}
    (hnames : ∀ name ∈ names, asked (.literal name c.runnable)) (hpos : 0 < a.nodes.size)
    (hmain : a.RootChild main) :
    Leads asked a (names.mapM (aliasLiteral c main)) fun ids a' => ∀ id ∈ ids, a'.RootChild id :=
  leads_mapM kept_rootChild fun name hname _ ha => aliasLiteral_leads (hnames name hname)
    (kept_nonempty.changes hpos ha) ((kept_rootChild main).changes hmain ha)

/-- A command makes changes only, whatever comes of it. -/
theorem command_changes {c : Command} (hc : ∀ x ∈ c.contributions, asked x)
    (hpos : 0 < a.nodes.size) : Changes asked a (Result.state (command c a)) := by
  have hname : ∀ name ∈ c.names, asked (.literal name c.runnable) := fun name hname =>
    hc _ (Command.mem_contributions.mpr (.inl ⟨name, hname, rfl⟩))
  have husage : ∀ u ∈ c.usages, ∀ arg ∈ u.arguments, ∀ executable,
      ∀ x ∈ arg.contributions executable, asked x := fun u hu arg harg executable x hx =>
    hc x (Command.mem_contributions.mpr (.inr ⟨u, hu, arg, harg, executable, hx⟩))
  have hleads : Leads asked a (command c) fun _ _ => True := by
    refine (nameLiteral_leads (hname _ List.mem_cons_self) hpos).bind fun {main a₁} h₁ hmain => ?_
    refine (usages_leads husage hmain).bind fun {_ a₂} h₂ _ => ?_
    -- The main literal stays a child of the root.
    have hmain₂ := (kept_rootChild main).changes hmain h₂
    have hpos₂ := kept_nonempty.changes hpos (h₁.trans h₂)
    refine (aliases_leads (fun name h => hname name (List.mem_cons_of_mem _ h)) hpos₂ hmain₂).bind
      fun h₃ hothers => ?_
    have hmain₃ := (kept_rootChild main).changes hmain₂ h₃
    exact leads_modify (.command c (List.forall_mem_cons.mpr ⟨hmain₃, hothers⟩)) trivial
  exact hleads.1

/-- Building all commands is a row of changes, up to the first one that fails. -/
theorem all_changes {cs : List Command} (hcs : ∀ c ∈ cs, ∀ x ∈ c.contributions, asked x)
    (hpos : 0 < a.nodes.size) : Changes asked a (Result.state (all cs a)) :=
  (leads_forM fun c hc _ ha =>
    ⟨command_changes (hcs c hc) (kept_nonempty.changes hpos ha), fun _ => trivial⟩).1

/-- What every change keeps holds of all that a builder makes, if it holds of the root alone. -/
theorem all_holds {holds : Arena → Prop} {limit : Nat} {cs : List Command} (h : Kept asked holds)
    (hcs : ∀ c ∈ cs, ∀ x ∈ c.contributions, asked x) (ha : holds (.limited limit)) :
    holds (Result.state (all cs (.limited limit))) :=
  h.changes ha (all_changes hcs Nat.one_pos)

/-! ## The limit on nodes -/

/-- The limit is the same, and there are no more nodes than `bound`. -/
def Within (limit bound : Nat) (a : Arena) : Prop :=
  a.limit = limit ∧ a.nodes.size ≤ bound

section

variable {limit bound : Nat} (hle : limit ≤ bound)

include hle

/-- A child is only added below the limit. -/
theorem kept_within : Kept asked (Within limit bound) := by
  rintro a _ ⟨rfl, hsize⟩ (⟨-, -, -, -, hlimit⟩ | _ | _)
  · exact ⟨rfl, by rw [size_addChild]; omega⟩
  · exact ⟨rfl, by rwa [size_setRedirect]⟩
  · exact ⟨rfl, hsize⟩

theorem command_within (c : Command) (hpos : 0 < a.nodes.size) (ha : Within limit bound a) :
    Within limit bound (Result.state (command c a)) :=
  (kept_within hle).changes ha (command_changes (fun _ hx => hx) hpos)

/-- No command takes the arena past the limit. -/
theorem all_within (cs : List Command) (hpos : 0 < a.nodes.size) (ha : Within limit bound a) :
    Within limit bound (Result.state (all cs a)) :=
  (kept_within hle).changes ha (all_changes (fun _ _ _ _ => trivial) hpos)

end

end Build

end CommandGrammar
