import CommandGrammar.Registry.Basic
import CommandGrammar.Proofs.Graph.Commands
import Mathlib.Data.List.Flatten

/-!
# Reachable registries

A registry is reachable if operations, whatever came of each, lead to it from a new one. Two things
hold of every such registry (`Registry.Sound`): the graph that was published last is the graph of
the registered commands, and no two names among these, of one command or of two, are one name under
the configuration. Hence the graph declares its commands (`Registry.Reachable.declares`), and a name
leads to one command only (`Registry.Sound.find?_eq_some`).
-/

namespace CommandGrammar

/-! ## Names -/

/-- What counts of a name when names are compared. -/
def foldName (caseInsensitive : Bool) (name : String) : List Char :=
  if caseInsensitive then name.toList.map Char.toLower else name.toList

@[simp] theorem sameName_iff {caseInsensitive : Bool} {a b : String} :
    sameName caseInsensitive a b ↔ foldName caseInsensitive a = foldName caseInsensitive b := by
  cases caseInsensitive with
  | true => simp [sameName, foldName, eqIgnoreAsciiCase]
  | false => simp [sameName, foldName, String.toList_inj]

/-- The names of all commands, as they count when names are compared. -/
def foldedNames (caseInsensitive : Bool) (cs : List Command) : List (List Char) :=
  (cs.flatMap fun c => c.names).map (foldName caseInsensitive)

/-- Fewer commands, fewer names, in the same order. -/
theorem foldedNames_sublist {caseInsensitive : Bool} {cs cs' : List Command} (h : cs.Sublist cs') :
    (foldedNames caseInsensitive cs).Sublist (foldedNames caseInsensitive cs') :=
  (h.flatMap fun c => c.names).map _

theorem answersTo_iff {caseInsensitive : Bool} {c : Command} {name : String} :
    c.answersTo caseInsensitive name ↔
      ∃ n ∈ c.names, foldName caseInsensitive n = foldName caseInsensitive name := by
  simp [Command.answersTo]

/-- If no two have it both, one has it at most. -/
theorem filter_eq_find? {α : Type} {p : α → Bool} :
    ∀ {as : List α}, (as.Pairwise fun a b => ¬(p a ∧ p b)) → as.filter p = (as.find? p).toList
  | [], _ => rfl
  | a :: as, h => by
    obtain ⟨ha, has⟩ := List.pairwise_cons.mp h
    cases hp : p a with
    | true =>
      have hnil : as.filter p = [] := List.filter_eq_nil_iff.mpr fun b hb hpb => ha b hb ⟨hp, hpb⟩
      rw [List.filter_cons_of_pos hp, List.find?_cons_of_pos hp, hnil, Option.toList_some]
    | false =>
      rw [List.filter_cons_of_neg (by simp [hp]), List.find?_cons_of_neg (by simp [hp]),
        filter_eq_find? has]

/-- If no name repeats, one command at most answers to a name. -/
theorem filter_answersTo {caseInsensitive : Bool} {cs : List Command}
    (h : (foldedNames caseInsensitive cs).Nodup) (name : String) :
    cs.filter (·.answersTo caseInsensitive name) =
      (cs.find? (·.answersTo caseInsensitive name)).toList := by
  have hnames := (List.pairwise_flatMap.mp (List.pairwise_map.mp h)).2
  refine filter_eq_find? (hnames.imp fun hne => ?_)
  rintro ⟨hc, hd⟩
  obtain ⟨n, hn, he⟩ := answersTo_iff.mp hc
  obtain ⟨n', hn', he'⟩ := answersTo_iff.mp hd
  exact hne n hn n' hn' (he.trans he'.symm)

namespace Registry

/-! ## What every change keeps -/

/-- The published graph is that of the commands, and no name repeats. -/
structure Sound (r : Registry) : Prop where
  built : Graph.ofCommands r.config.caseInsensitive r.generation r.commands = .ok r.current
  distinct : (foldedNames r.config.caseInsensitive r.commands).Nodup

/-- A new registry is sound: it has no commands, and has published their graph. -/
theorem sound_new (config : Config) : (new config).Sound where
  built := rfl
  distinct := .nil

/-- A registered command has the name. -/
def Taken (r : Registry) (name : String) : Prop :=
  ∃ d ∈ r.commands, ∃ n ∈ d.names, r.matchesName n name

/-- No name of the command is taken, and no two of them are one. -/
def Admits (r : Registry) (c : Command) : Prop :=
  (∀ name ∈ c.names, ¬r.Taken name) ∧ c.names.Pairwise fun a b => ¬r.matchesName a b

theorem isTaken_iff {r : Registry} {name : String} : r.isTaken name ↔ r.Taken name := by
  simp only [isTaken, Command.answersTo, List.any_eq_true, Taken, matchesName]

/-- No name comes up again if no two of them are one. -/
@[simp] theorem repeated?_eq_none_iff {r : Registry} : ∀ {names : List String},
    r.repeated? names = none ↔ names.Pairwise fun a b => ¬r.matchesName a b
  | [] => by simp
  | a :: rest => by
    rw [repeated?, Option.or_eq_none_iff, List.find?_eq_none, repeated?_eq_none_iff,
      List.pairwise_cons]

/-- There is no collision with names that are free and pairwise different. -/
@[simp] theorem collision?_eq_none_iff {r : Registry} {c : Command} :
    r.collision? c = none ↔ r.Admits c := by
  simp only [collision?, Option.or_eq_none_iff, List.find?_eq_none, isTaken_iff,
    repeated?_eq_none_iff, Admits]

/-- The commands that are admitted are those that add names of their own. -/
theorem Sound.admits_iff {r : Registry} (h : r.Sound) {c : Command} :
    r.Admits c ↔ (foldedNames r.config.caseInsensitive (r.commands ++ [c])).Nodup := by
  rw [foldedNames, List.flatMap_append, List.map_append, List.flatMap_singleton, List.nodup_append]
  constructor
  · rintro ⟨htaken, hrepeated⟩
    refine ⟨h.distinct, List.pairwise_map.mpr (hrepeated.imp fun h he => h (sameName_iff.mpr he)),
      ?_⟩
    rintro _ hx _ hy rfl
    obtain ⟨n, hn, he⟩ := List.mem_map.mp hx
    obtain ⟨n', hn', he'⟩ := List.mem_map.mp hy
    obtain ⟨d, hd, hmem⟩ := List.mem_flatMap.mp hn
    exact htaken n' hn' ⟨d, hd, n, hmem, sameName_iff.mpr (he.trans he'.symm)⟩
  · rintro ⟨-, hnd, hdisjoint⟩
    refine ⟨?_, (List.pairwise_map.mp hnd).imp fun hne hsame => hne (sameName_iff.mp hsame)⟩
    rintro name hname ⟨d, hd, n, hn, hsame⟩
    exact hdisjoint _ (List.mem_map_of_mem (List.mem_flatMap.mpr ⟨d, hd, hn⟩)) _
      (List.mem_map_of_mem hname) (sameName_iff.mp hsame)

open CommandGrammar.EStateM

/-- Publishing commands without a repeated name keeps a registry sound, whether or not their graph
can be built. -/
theorem sound_publish {r : Registry} {cs : List Command} (h : r.Sound)
    (hcs : (foldedNames r.config.caseInsensitive cs).Nodup) :
    (Result.state (publish cs r)).Sound := by
  cases hg : Graph.ofCommands r.config.caseInsensitive (r.generation + 1) cs with
  | ok g =>
    simp only [publish, hg]
    exact ⟨hg, hcs⟩
  | error fault =>
    simp only [publish, hg]
    exact h

/-- What depends on the state is one step for each state. -/
theorem keeps_get {α : Type} {holds : Registry → Prop} {next : Registry → Edit α}
    (h : ∀ r, holds r → holds (Result.state (next r r))) : Keeps holds (get >>= next) :=
  h

/-- Registering adds names that are free only, so all names stay distinct. -/
theorem keeps_register (c : Command) : Keeps Sound (register c) := by
  refine keeps_get fun r h => ?_
  cases hc : r.collision? c with
  | some name => exact h
  | none => exact sound_publish h (h.admits_iff.mp (collision?_eq_none_iff.mp hc))

/-- What is left when a command is removed is part of what was there. -/
theorem keeps_unregister (name : String) : Keeps Sound (unregister name) := by
  refine keeps_get fun r h => ?_
  cases r.commands.findIdx? (r.matchesName ·.name name) with
  | none => exact h
  | some i =>
    rw [state_map]
    exact sound_publish h (h.distinct.sublist (foldedNames_sublist (List.eraseIdx_sublist ..)))

theorem keeps_rebuild : Keeps Sound rebuild :=
  fun _ h => sound_publish h h.distinct

/-- Every edit, also one that is refused, leaves a sound registry. -/
theorem keeps_edit (o : Operation) : Keeps Sound o.edit := by
  cases o with
  | register c => exact (keeps_register c).map _
  | registerDefined definition =>
    cases definition with
    | ok c => exact (keeps_register c).map _
    | error fault =>
      exact (show Keeps Sound (registerDefined (.error fault)) from keeps_throw _).map _
  | unregister name => exact (keeps_unregister name).bind fun _ => keeps_pure _
  | rebuild => exact keeps_rebuild.map _

theorem sound_apply {r : Registry} (h : r.Sound) (o : Operation) : (r.apply o).2.Sound := by
  have := keeps_edit o r h
  unfold apply EStateM.run
  cases ho : o.edit r with
  | ok outcome r' => rwa [ho] at this
  | error report r' => rwa [ho] at this

/-! ## Reachable registries -/

/-- Operations lead to the registry from a new one. -/
def Reachable (r : Registry) : Prop :=
  ∃ (config : Config) (os : List Operation), r = (new config).applyAll os

theorem sound_applyAll : ∀ (os : List Operation) {r : Registry}, r.Sound → (r.applyAll os).Sound
  | [], _, h => h
  | o :: os, _, h => sound_applyAll os (sound_apply h o)

/-- From a new registry, operations lead to sound ones only. -/
theorem Reachable.sound {r : Registry} (h : r.Reachable) : r.Sound := by
  obtain ⟨config, os, rfl⟩ := h
  exact sound_applyAll os (sound_new config)

namespace Sound

variable {r : Registry} (h : r.Sound)

include h

/-- No two names of the commands are equal, even without folding. -/
theorem nodup_names : (r.commands.flatMap fun c => c.names).Nodup :=
  h.distinct.of_map

theorem commands_current : r.current.commands = r.commands :=
  Graph.commands_of_ofCommands h.nodup_names h.built

theorem caseInsensitive_current : r.current.caseInsensitive = r.config.caseInsensitive := by
  obtain ⟨a, -, ha⟩ := Graph.ofCommands_eq_ok.mp h.built
  rw [← ha, Arena.finish]

theorem generation_current : r.current.generation = r.generation := by
  obtain ⟨a, -, ha⟩ := Graph.ofCommands_eq_ok.mp h.built
  rw [← ha, Arena.finish]

/-- The published graph declares the registered commands. -/
theorem declares : r.current.Declares :=
  Graph.declares_of_ofCommands h.nodup_names h.built

/-- The registered commands that answer to a name are the one that the graph finds, if any. -/
theorem filter_eq_find? (name : String) :
    r.commands.filter (·.answersTo r.config.caseInsensitive name) =
      (r.current.find? name).toList := by
  rw [filter_answersTo h.distinct, Graph.find?, h.commands_current, h.caseInsensitive_current]

theorem find?_eq_some {c : Command} {name : String} (hc : c ∈ r.current.commands)
    (hname : c.answersTo r.config.caseInsensitive name) : r.current.find? name = some c := by
  rw [h.commands_current] at hc
  have hmem : c ∈ r.commands.filter (·.answersTo r.config.caseInsensitive name) :=
    List.mem_filter.mpr ⟨hc, hname⟩
  rwa [h.filter_eq_find?, Option.mem_toList] at hmem

end Sound

/-- The published graph has what its commands declare, and nothing else. -/
theorem Reachable.declares {r : Registry} (h : r.Reachable) : r.current.Declares :=
  h.sound.declares

/-- A registry with a command that has a usage, and one that has none. -/
def sample : Registry :=
  (new {}).applyAll
    [.registerDefined (Command.define "say"
        [.otherName "tell", .usage [.literal "to", .boolean "loud", .phrase ⟨"text", .quotable⟩]]),
      .registerDefined (Command.define "heal" [.otherName "h", .runnable])]

theorem reachable_sample : sample.Reachable :=
  ⟨_, _, rfl⟩

end Registry

end CommandGrammar
