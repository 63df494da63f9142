import CommandGrammar.Proofs.Graph.Formed
import CommandGrammar.Proofs.Wire.Size

/-!
# The texts of a graph

A text can be written if its length can. The only texts of a graph are those of its commands, so if
all of these can be written, so can those of the graph (`Graph.BuiltFrom.textsFit`). The converse
fails, as not every text gets into a graph: a word with choices leaves its id out. So it is enough
of either (`Graph.BuiltFrom.textsFit_of_or`).
-/

namespace CommandGrammar

/-- The texts that the record of a node may have. -/
def Node.texts (n : Node) : List String :=
  n.name?.toList ++ n.provider.toList

/-- No text of the graph is too long. -/
def Graph.TextsFit (g : Graph) : Prop :=
  ∀ n ∈ g.nodes, ∀ s ∈ n.texts, Write.Fits s

instance (g : Graph) : Decidable g.TextsFit :=
  inferInstanceAs (Decidable (∀ n ∈ g.nodes, ∀ s ∈ n.texts, Write.Fits s))

/-- All texts of an argument. -/
def Argument.texts : Argument → List String
  | word w => w.id :: (w.choiceList ++ w.provider.toList)
  | a => [a.id]

/-- All texts of a command. -/
def Command.texts (c : Command) : List String :=
  c.names ++ c.usages.flatMap fun u => u.arguments.flatMap Argument.texts

/-- No text of the command is too long. -/
def Command.TextsFit (c : Command) : Prop :=
  ∀ s ∈ c.texts, Write.Fits s

instance : DecidablePred Command.TextsFit := fun c =>
  inferInstanceAs (Decidable (∀ s ∈ c.texts, Write.Fits s))

/-- The texts that are asked for with a node. -/
def Contribution.texts (x : Contribution) : List String :=
  x.label.name :: x.provider.toList

/-- A node that an argument asks for has only texts of the argument. -/
theorem Argument.texts_subset {a : Argument} {executable : Bool} {x : Contribution}
    (h : x ∈ a.contributions executable) : x.texts ⊆ a.texts := by
  have one : ∀ {name : String} {y : Contribution}, x ∈ [y] → y.texts = [name] →
      a.texts = [name] → x.texts ⊆ a.texts := fun hx hy ha => by
    rw [List.mem_singleton.mp hx, hy, ha]
    exact List.Subset.refl _
  cases a with
  | word w =>
    rw [contributions, Word.contributions] at h
    split at h
    · next hw =>
      obtain rfl := List.mem_singleton.mp h
      simp [Contribution.texts, texts, Contribution.argument]
    · next name names hw =>
      obtain ⟨choice, hchoice, rfl⟩ := List.mem_map.mp h
      rw [← hw] at hchoice
      exact List.cons_subset.mpr
        ⟨List.mem_cons_of_mem _ (List.mem_append_left _ hchoice), List.nil_subset _⟩
  | literal name => exact one h rfl rfl
  | phrase p => exact one h rfl rfl
  | boolean id => exact one h rfl rfl
  | number n => exact one h rfl rfl

theorem Command.texts_subset {c : Command} {x : Contribution} (h : x ∈ c.contributions) :
    x.texts ⊆ c.texts := by
  rcases mem_contributions.mp h with ⟨name, hname, rfl⟩ | ⟨u, hu, a, ha, executable, hx⟩
  · exact List.cons_subset.mpr ⟨List.mem_append_left _ hname, List.nil_subset _⟩
  · exact fun s hs => List.mem_append_right _
      (List.mem_flatMap.mpr ⟨u, hu, List.mem_flatMap.mpr ⟨a, ha, Argument.texts_subset hx hs⟩⟩)

namespace Build

open Arena

/-- All texts of the arena are such. -/
def TextsAre (holds : String → Prop) (a : Arena) : Prop :=
  ∀ (i : Nat) (n : Node), a.nodes[i]? = some n → ∀ s ∈ n.texts, holds s

variable {holds : String → Prop}

/-- New nodes have the texts that they are asked for with. -/
theorem kept_textsAre : Kept (fun x => ∀ s ∈ x.texts, holds s) (TextsAre holds) := by
  rintro a _ ha (@⟨p, x, hx, -, -, -, -⟩ | @⟨id, target, -, -⟩ | _) i n hn
  · rw [getElem?_addChild] at hn
    split at hn
    · obtain rfl := Option.some.inj hn
      exact hx
    · split at hn
      · obtain ⟨m, hm, rfl⟩ := Option.map_eq_some_iff.mp hn
        exact ha i m hm
      · exact ha i n hn
  · rw [getElem?_setRedirect] at hn
    split at hn
    · obtain ⟨m, hm, rfl⟩ := Option.map_eq_some_iff.mp hn
      exact ha i m hm
    · exact ha i n hn
  · exact ha i n hn

end Build

/-- The texts of a graph are those of its commands. -/
theorem Graph.BuiltFrom.textsFit {g : Graph} {cs : List Command} (h : g.BuiltFrom cs)
    (hfit : ∀ c ∈ cs, c.TextsFit) : g.TextsFit := by
  obtain ⟨limit, a, ha, hg⟩ := h
  have hroot : Build.TextsAre Write.Fits (.limited limit) := by
    intro i n hn s hs
    rw [Arena.eq_root_of_limited hn] at hs
    simp [Node.texts, Node.root, Node.name?] at hs
  have htexts := Build.all_holds Build.kept_textsAre
    (fun c hc x hx s hs => hfit c hc s (Command.texts_subset hx hs)) hroot
  rw [ha] at htexts
  intro n hn
  rw [← hg] at hn
  obtain ⟨i, hi⟩ := Array.mem_iff_getElem?.mp hn
  exact htexts i n hi

/-- It is enough of the texts of the graph, and of those of the commands. -/
theorem Graph.BuiltFrom.textsFit_of_or {g : Graph} {cs : List Command} (h : g.BuiltFrom cs)
    (hfit : g.TextsFit ∨ ∀ c ∈ cs, c.TextsFit) : g.TextsFit :=
  hfit.elim id h.textsFit

end CommandGrammar
