import CommandGrammar.Proofs.Graph.Demand
import CommandGrammar.Proofs.Registry.Reachable

/-!
# Operations are all or nothing

An operation that is refused, or finds nothing to remove, leaves the registry as it was. One that
goes well adds or removes one command, or none, and publishes the graph of the commands that there
are then (`Registry.Transactional`). Whether a command is registered depends on its names and on how
many nodes all commands need (`Registry.publish_of_le`, `Registry.publish_of_lt`); removing one and
publishing again always goes well, as no more nodes are needed than were.
-/

namespace CommandGrammar

/-- A graph was published. -/
def Outcome.isPublished : Outcome → Bool
  | published _ => true
  | absent | refused _ => false

@[simp] theorem Outcome.isPublished_iff {o : Outcome} : o.isPublished ↔ ∃ g, o = .published g := by
  cases o <;> simp [isPublished]

namespace Registry

variable {r : Registry}

/-! ## Collisions -/

/-- The names at these places are one, the second being the later one. -/
def Repeats (r : Registry) (names : List String) (i j : Nat) : Prop :=
  i < j ∧ ∃ a b, names[i]? = some a ∧ names[j]? = some b ∧ r.matchesName a b

/-- The first name of the command that is taken. If none is, it is the later one of the first two
that are one, those coming first whose earlier name does, then those whose later name does. -/
def Collides (r : Registry) (c : Command) (name : String) : Prop :=
  (∃ pre post, c.names = pre ++ name :: post ∧ r.Taken name ∧ ∀ n ∈ pre, ¬r.Taken n) ∨
    (∀ n ∈ c.names, ¬r.Taken n) ∧ ∃ i j, r.Repeats c.names i j ∧ c.names[j]? = some name ∧
      ∀ i' j', r.Repeats c.names i' j' → i < i' ∨ i = i' ∧ j ≤ j'

@[simp] theorem not_repeats_zero {names : List String} {i : Nat} : ¬r.Repeats names i 0 :=
  fun h => Nat.not_lt_zero i h.1

@[simp] theorem repeats_cons_zero {a : String} {names : List String} {j : Nat} :
    r.Repeats (a :: names) 0 (j + 1) ↔ ∃ b, names[j]? = some b ∧ r.matchesName a b := by
  simp [Repeats]

@[simp] theorem repeats_cons_succ {a : String} {names : List String} {i j : Nat} :
    r.Repeats (a :: names) (i + 1) (j + 1) ↔ r.Repeats names i j := by
  simp [Repeats]

/-- The search finds the first pair in order of the earlier name, then of the later one. -/
theorem repeats_of_repeated? :
    ∀ {names : List String} {b : String}, r.repeated? names = some b →
      ∃ i j, r.Repeats names i j ∧ names[j]? = some b ∧
        ∀ i' j', r.Repeats names i' j' → i < i' ∨ i = i' ∧ j ≤ j'
  | [], _, h => nomatch h
  | a :: rest, b, h => by
    rw [repeated?] at h
    cases hfind : rest.find? (r.matchesName a) with
    | some b' =>
      rw [hfind, Option.some_or] at h
      obtain rfl := Option.some.inj h
      obtain ⟨hmatch, k, hk, rfl, hbefore⟩ := List.find?_eq_some_iff_getElem.mp hfind
      have hget := List.getElem?_eq_getElem hk
      refine ⟨0, k + 1, repeats_cons_zero.mpr ⟨_, hget, hmatch⟩, hget, ?_⟩
      rintro (_ | i') (_ | j') hrepeats
      · exact absurd hrepeats not_repeats_zero
      · obtain ⟨y, hy, hmatch'⟩ := repeats_cons_zero.mp hrepeats
        refine .inr ⟨rfl, Nat.succ_le_succ (Nat.le_of_not_lt fun hj => ?_)⟩
        obtain ⟨hj', rfl⟩ := List.getElem?_eq_some_iff.mp hy
        have hno : ¬r.matchesName a rest[j'] := by simpa using hbefore j' hj
        exact hno hmatch'
      · exact absurd hrepeats not_repeats_zero
      · exact .inl (Nat.succ_pos i')
    | none =>
      rw [hfind, Option.none_or] at h
      obtain ⟨i, j, hrepeats, hb, hfirst⟩ := repeats_of_repeated? h
      refine ⟨i + 1, j + 1, repeats_cons_succ.mpr hrepeats, hb, ?_⟩
      rintro (_ | i') (_ | j') hrepeats'
      · exact absurd hrepeats' not_repeats_zero
      · obtain ⟨y, hy, hmatch⟩ := repeats_cons_zero.mp hrepeats'
        exact absurd hmatch (List.find?_eq_none.mp hfind y (List.mem_of_getElem? hy))
      · exact absurd hrepeats' not_repeats_zero
      · have := hfirst i' j' (repeats_cons_succ.mp hrepeats')
        omega

/-- The name that the search gives is the one to be told. -/
theorem collides_of_collision? {c : Command} {name : String} (h : r.collision? c = some name) :
    r.Collides c name := by
  rw [collision?] at h
  cases hfind : c.names.find? r.isTaken with
  | some name' =>
    rw [hfind, Option.some_or] at h
    obtain rfl := Option.some.inj h
    obtain ⟨htaken, pre, post, hnames, hpre⟩ := List.find?_eq_some_iff_append.mp hfind
    refine .inl ⟨pre, post, hnames, isTaken_iff.mp htaken, fun n hn ht => ?_⟩
    have hno : ¬r.isTaken n := by simpa using hpre n hn
    exact hno (isTaken_iff.mpr ht)
  | none =>
    rw [hfind, Option.none_or] at h
    refine .inr ⟨fun n hn ht => ?_, repeats_of_repeated? h⟩
    exact List.find?_eq_none.mp hfind n hn (isTaken_iff.mpr ht)

/-! ## Publishing -/

/-- The operation makes these the commands and publishes their graph, and does nothing else. -/
def Publishes (r : Registry) (o : Operation) (cs : List Command) : Prop :=
  ∃ g, Graph.ofCommands r.config.caseInsensitive (r.generation + 1) cs = .ok g ∧
    r.apply o =
      (.published g, { r with commands := cs, current := g, generation := r.generation + 1 })

section

variable {cs : List Command}

/-- Distinct commands are published if their nodes are within the limit. -/
theorem publish_of_le (hcs : (foldedNames r.config.caseInsensitive cs).Nodup)
    (h : Graph.nodesNeeded cs ≤ Graph.maxNodes) :
    ∃ g, Graph.ofCommands r.config.caseInsensitive (r.generation + 1) cs = .ok g ∧
      publish cs r =
        .ok g { r with commands := cs, current := g, generation := r.generation + 1 } := by
  obtain ⟨g, hg⟩ := Graph.exists_ofCommands hcs.of_map r.config.caseInsensitive (r.generation + 1) h
  exact ⟨g, hg, by simp only [publish, hg]⟩

/-- Too many nodes for the limit: nothing is published, and the registry is as before. -/
theorem publish_of_lt (hcs : (foldedNames r.config.caseInsensitive cs).Nodup)
    (h : Graph.maxNodes < Graph.nodesNeeded cs) :
    publish cs r =
      .error { failure := .inconsistency (.nodeLimitExceeded Graph.maxNodes) } r := by
  have := Graph.ofCommands_of_maxNodes_lt hcs.of_map r.config.caseInsensitive (r.generation + 1) h
  simp only [publish, this]

end

/-- What is published fits, and so does any part of it. -/
theorem Sound.nodesNeeded_le (h : r.Sound) {cs : List Command} (hcs : cs.Sublist r.commands) :
    Graph.nodesNeeded cs ≤ Graph.maxNodes := by
  have hsize := h.declares.size_eq
  have hle := (Graph.builtFrom_of_ofCommands h.built).size_le
  have hsub := (hcs.map Command.nodeCount).sum_le_sum fun _ _ => Nat.zero_le _
  rw [h.commands_current] at hsize
  unfold Graph.nodesNeeded at hsize ⊢
  omega

/-! ## Operations -/

theorem apply_of_ok {o : Operation} {outcome : Outcome} {r' : Registry}
    (h : o.edit r = .ok outcome r') : r.apply o = (outcome, r') := by
  rw [apply, EStateM.run, h]

theorem apply_of_error {o : Operation} {report : Report} {r' : Registry}
    (h : o.edit r = .error report r') : r.apply o = (.refused report, r') := by
  rw [apply, EStateM.run, h]

theorem publishes_of_edit {o : Operation} {cs : List Command}
    (hedit : ∀ {g r'}, publish cs r = .ok g r' → o.edit r = .ok (.published g) r')
    (hcs : (foldedNames r.config.caseInsensitive cs).Nodup)
    (h : Graph.nodesNeeded cs ≤ Graph.maxNodes) : r.Publishes o cs := by
  obtain ⟨g, hg, hpublish⟩ := publish_of_le hcs h
  exact ⟨g, hg, apply_of_ok (hedit hpublish)⟩

@[simp] theorem bind_get {α : Type} (next : Registry → Edit α) (r : Registry) :
    (get >>= next) r = next r r :=
  rfl

/-- With names that are free, the new command comes last. -/
theorem register_of_admits {c : Command} (hc : r.Admits c) :
    register c r = publish (r.commands ++ [c]) r := by
  simp [register, collision?_eq_none_iff.mpr hc]

theorem register_of_collision? {c : Command} {name : String} (hc : r.collision? c = some name) :
    register c r = .error { failure := .misconfiguration (.nameTaken name),
                            place := some { command := c.name } } r := by
  rw [register, bind_get, hc]
  rfl

/-- The first command of that name is taken out. -/
theorem unregister_of_first {pre post : List Command} {c : Command} {name : String}
    (hcs : r.commands = pre ++ c :: post) (hc : r.matchesName c.name name)
    (hpre : ∀ d ∈ pre, ¬r.matchesName d.name name) :
    unregister name r = (some <$> publish (pre ++ post)) r := by
  have hindex : r.commands.findIdx? (r.matchesName ·.name name) = some pre.length := by
    rw [hcs, List.findIdx?_append, List.findIdx?_eq_none_iff.mpr, List.findIdx?_cons, hc]
    · simp
    · exact fun d hd => Bool.eq_false_iff.mpr (hpre d hd)
  have herase : r.commands.eraseIdx pre.length = pre ++ post := by
    rw [hcs, List.eraseIdx_append_of_length_le (Nat.le_refl _), Nat.sub_self,
      List.eraseIdx_cons_zero]
  rw [unregister, bind_get, hindex, ← herase]

theorem unregister_of_none {name : String} (h : ∀ d ∈ r.commands, ¬r.matchesName d.name name) :
    unregister name r = .ok none r := by
  have hindex : r.commands.findIdx? (r.matchesName ·.name name) = none :=
    List.findIdx?_eq_none_iff.mpr fun d hd => Bool.eq_false_iff.mpr (h d hd)
  rw [unregister, bind_get, hindex]
  rfl

/-- A command with a taken name is refused for the first such name. -/
theorem apply_register_of_not_admits {c : Command} (hc : ¬r.Admits c) :
    ∃ name, r.Collides c name ∧ r.apply (.register c) =
      (.refused ⟨.misconfiguration (.nameTaken name), some { command := c.name }⟩, r) := by
  cases hcollision : r.collision? c with
  | none => exact absurd (collision?_eq_none_iff.mp hcollision) hc
  | some name =>
    refine ⟨name, collides_of_collision? hcollision, apply_of_error (EStateM.map_eq_error.mpr ?_)⟩
    exact register_of_collision? hcollision

theorem apply_unregister_of_none {name : String}
    (hnone : ∀ d ∈ r.commands, ¬r.matchesName d.name name) :
    r.apply (.unregister name) = (.absent, r) :=
  apply_of_ok (EStateM.bind_eq_ok.mpr ⟨none, r, unregister_of_none hnone, rfl⟩)

/-- Every operation changes what it is asked to change, or nothing. -/
structure Transactional (r : Registry) : Prop where
  /-- What is not published changes nothing. -/
  unchanged : ∀ o, (∀ g, (r.apply o).1 ≠ .published g) → (r.apply o).2 = r
  published : ∀ {o g}, (r.apply o).1 = .published g → ∃ cs, r.Publishes o cs
  register_iff : ∀ c, (∃ g, (r.apply (.register c)).1 = .published g) ↔
    r.Admits c ∧ Graph.nodesNeeded (r.commands ++ [c]) ≤ Graph.maxNodes
  register : ∀ {c}, r.Admits c → Graph.nodesNeeded (r.commands ++ [c]) ≤ Graph.maxNodes →
    r.Publishes (.register c) (r.commands ++ [c])
  collision : ∀ {c}, ¬r.Admits c → ∃ name, r.Collides c name ∧ r.apply (.register c) =
    (.refused ⟨.misconfiguration (.nameTaken name), some { command := c.name }⟩, r)
  tooLarge : ∀ {c}, r.Admits c → Graph.maxNodes < Graph.nodesNeeded (r.commands ++ [c]) →
    r.apply (.register c) = (.refused ⟨.inconsistency (.nodeLimitExceeded Graph.maxNodes), none⟩, r)
  defined : ∀ c, r.apply (.registerDefined (.ok c)) = r.apply (.register c)
  undefined : ∀ fault, r.apply (.registerDefined (.error fault)) =
    (.refused ⟨.misconfiguration fault, some { argument := fault.argument? }⟩, r)
  unregister : ∀ {pre c post name}, r.commands = pre ++ c :: post → r.matchesName c.name name →
    (∀ d ∈ pre, ¬r.matchesName d.name name) → r.Publishes (.unregister name) (pre ++ post)
  absent : ∀ {name}, (∀ d ∈ r.commands, ¬r.matchesName d.name name) →
    r.apply (.unregister name) = (.absent, r)
  rebuild : r.Publishes .rebuild r.commands

namespace Sound

variable (h : r.Sound)

include h

/-- Distinct names and room for the nodes are all it takes. -/
theorem publishes_register {c : Command} (hc : r.Admits c)
    (hle : Graph.nodesNeeded (r.commands ++ [c]) ≤ Graph.maxNodes) :
    r.Publishes (.register c) (r.commands ++ [c]) :=
  publishes_of_edit (fun hpublish => EStateM.map_eq_ok.mpr
    ⟨_, (register_of_admits hc).trans hpublish, rfl⟩) (h.admits_iff.mp hc) hle

/-- Removing a command goes well, as fewer nodes always fit. -/
theorem publishes_unregister {pre post : List Command} {c : Command} {name : String}
    (hcs : r.commands = pre ++ c :: post) (hc : r.matchesName c.name name)
    (hpre : ∀ d ∈ pre, ¬r.matchesName d.name name) :
    r.Publishes (.unregister name) (pre ++ post) := by
  have hsub : (pre ++ post).Sublist r.commands := by
    rw [hcs]
    exact (List.Sublist.refl pre).append (List.sublist_cons_self c post)
  refine publishes_of_edit (fun {g r'} hpublish => EStateM.bind_eq_ok.mpr ⟨some g, r', ?_, rfl⟩)
    (h.distinct.sublist (foldedNames_sublist hsub)) (h.nodesNeeded_le hsub)
  rw [unregister_of_first hcs hc hpre]
  exact EStateM.map_eq_ok.mpr ⟨g, hpublish, rfl⟩

theorem publishes_rebuild : r.Publishes .rebuild r.commands :=
  publishes_of_edit (fun hpublish => EStateM.map_eq_ok.mpr ⟨_, hpublish, rfl⟩) h.distinct
    (h.nodesNeeded_le (List.Sublist.refl _))

/-- A command with free names is refused if its nodes do not fit. -/
theorem apply_register_of_lt {c : Command} (hc : r.Admits c)
    (hlt : Graph.maxNodes < Graph.nodesNeeded (r.commands ++ [c])) : r.apply (.register c) =
      (.refused ⟨.inconsistency (.nodeLimitExceeded Graph.maxNodes), none⟩, r) :=
  apply_of_error (EStateM.map_eq_error.mpr
    ((register_of_admits hc).trans (publish_of_lt (h.admits_iff.mp hc) hlt)))

/-- An operation publishes a graph, or leaves the registry as it is. -/
theorem publishes_or_eq (o : Operation) :
    (∃ cs, r.Publishes o cs) ∨ (∀ g, (r.apply o).1 ≠ .published g) ∧ (r.apply o).2 = r := by
  have register : ∀ c, (∃ cs, r.Publishes (.register c) cs) ∨
      (∀ g, (r.apply (.register c)).1 ≠ .published g) ∧ (r.apply (.register c)).2 = r := fun c => by
    by_cases hc : r.Admits c
    · rcases Nat.lt_or_ge Graph.maxNodes (Graph.nodesNeeded (r.commands ++ [c])) with hlt | hle
      · rw [h.apply_register_of_lt hc hlt]
        exact .inr ⟨nofun, rfl⟩
      · exact .inl ⟨_, h.publishes_register hc hle⟩
    · obtain ⟨name, -, happly⟩ := apply_register_of_not_admits hc
      rw [happly]
      exact .inr ⟨nofun, rfl⟩
  cases o with
  | register c => exact register c
  | registerDefined definition =>
    cases definition with
    | ok c => exact register c
    | error fault => exact .inr ⟨nofun, rfl⟩
  | unregister name =>
    cases hfind : r.commands.find? (r.matchesName ·.name name) with
    | some c =>
      obtain ⟨hc, pre, post, hcs, hpre⟩ := List.find?_eq_some_iff_append.mp hfind
      exact .inl ⟨_, h.publishes_unregister hcs hc fun d hd => by simpa using hpre d hd⟩
    | none =>
      rw [apply_unregister_of_none (List.find?_eq_none.mp hfind)]
      exact .inr ⟨nofun, rfl⟩
  | rebuild => exact .inl ⟨_, h.publishes_rebuild⟩

/-- A sound registry is changed as asked, or not at all. -/
theorem transactional : r.Transactional where
  unchanged o ho := by
    rcases h.publishes_or_eq o with ⟨cs, g, -, happly⟩ | ⟨-, heq⟩
    · exact absurd (congrArg Prod.fst happly) (ho g)
    · exact heq
  published {o g} hg := (h.publishes_or_eq o).resolve_right fun hno => hno.1 g hg
  register_iff c := by
    constructor
    · rintro ⟨g, hg⟩
      by_cases hc : r.Admits c
      · refine ⟨hc, Nat.le_of_not_lt fun hlt => ?_⟩
        rw [h.apply_register_of_lt hc hlt] at hg
        cases hg
      · obtain ⟨name, -, happly⟩ := apply_register_of_not_admits hc
        rw [happly] at hg
        cases hg
    · rintro ⟨hc, hle⟩
      obtain ⟨g, -, happly⟩ := h.publishes_register hc hle
      exact ⟨g, congrArg Prod.fst happly⟩
  register := h.publishes_register
  collision := apply_register_of_not_admits
  tooLarge := h.apply_register_of_lt
  defined _ := rfl
  undefined _ := rfl
  unregister := h.publishes_unregister
  absent := apply_unregister_of_none
  rebuild := h.publishes_rebuild

end Sound

/-! ## Runs -/

/-- What comes of operations, one after another. -/
def outcomes (r : Registry) : List Operation → List Outcome
  | [] => []
  | o :: os => (r.apply o).1 :: (r.apply o).2.outcomes os

theorem Sound.generation_apply (h : r.Sound) (o : Operation) :
    (r.apply o).2.generation = r.generation + if (r.apply o).1.isPublished then 1 else 0 := by
  rcases h.publishes_or_eq o with ⟨cs, g, -, happly⟩ | ⟨hno, heq⟩
  · rw [happly]
    rfl
  · rw [heq]
    cases ho : (r.apply o).1 with
    | published g => exact absurd ho (hno g)
    | absent => rfl
    | refused report => rfl

/-- Generations count what is published. -/
theorem Sound.generation_applyAll : ∀ (os : List Operation) {r : Registry}, r.Sound →
    (r.applyAll os).generation = r.generation + (r.outcomes os).countP Outcome.isPublished
  | [], _, _ => rfl
  | o :: os, r, h => by
    have ih := generation_applyAll os (sound_apply h o)
    rw [h.generation_apply, Nat.add_assoc, Nat.add_comm (ite ..)] at ih
    rw [outcomes, List.countP_cons]
    exact ih

/-- Whatever operations led to a registry, it is transactional, and its generation is that of a new
registry and one more for each graph that was published. -/
theorem transactional_applyAll (config : Config) (os : List Operation) :
    ((new config).applyAll os).Transactional ∧ ((new config).applyAll os).generation =
      1 + ((new config).outcomes os).countP Outcome.isPublished :=
  ⟨(sound_applyAll os (sound_new config)).transactional,
    (sound_new config).generation_applyAll os⟩

end Registry

end CommandGrammar
