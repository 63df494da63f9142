import CommandGrammar.Proofs.Registry.Transactions
import CommandGrammar.Registry.Event

/-!
# Events tell what comes of operations

The events of an operation tell of a failure exactly if the operation is refused, and then of that
failure alone; they tell of a finished graph exactly if one is published, and then of this one
(`Registry.toldBy_events`). A graph that cannot be built is told with the command that building it
stops at (`Build.stopsAt?_of_error`).
-/

namespace CommandGrammar

/-! ## Where building stops -/

namespace Build

/-- Building that goes well stops nowhere. -/
theorem stopsAt?_of_ok : ∀ {cs : List Command} {a b : Arena}, all cs a = .ok () b →
    stopsAt? a cs = none
  | [], _, _, _ => rfl
  | c :: cs, a, b, h => by
    obtain ⟨⟨⟩, a', hc, hcs⟩ := EStateM.bind_eq_ok.mp h
    rw [stopsAt?, EStateM.run, hc]
    exact stopsAt?_of_ok hcs

/-- Building stops at the first command that cannot be added to what those before it made. -/
theorem stopsAt?_of_error {fault : Inconsistency} :
    ∀ {cs : List Command} {a b : Arena}, all cs a = .error fault b →
      ∃ before c after b₀, cs = before ++ c :: after ∧ stopsAt? a cs = some c ∧
        all before a = .ok () b₀ ∧ command c b₀ = .error fault b
  | [], _, _, h => nomatch h
  | c :: cs, a, b, h => by
    rcases EStateM.bind_eq_error.mp h with hc | ⟨⟨⟩, a', hc, hcs⟩
    · exact ⟨[], c, cs, a, rfl, by rw [stopsAt?, EStateM.run, hc], rfl, hc⟩
    · obtain ⟨before, d, after, b₀, rfl, hstops, hbefore, hd⟩ := stopsAt?_of_error hcs
      refine ⟨c :: before, d, after, b₀, rfl, ?_, EStateM.bind_eq_ok.mpr ⟨(), a', hc, hbefore⟩, hd⟩
      rw [stopsAt?, EStateM.run, hc]
      exact hstops

end Build

/-! ## What events tell -/

namespace Event

/-- The failure that an event tells of. -/
def failure? : Event → Option Failure
  | refused _ failure | rebuildFailed _ failure => some failure
  | _ => none

/-- The generation and the numbers of nodes and commands of the graph that an event tells of. -/
def graph? : Event → Option (Nat × Nat × Nat)
  | built generation nodes commands => some (generation, nodes, commands)
  | _ => none

/-- The event tells neither of a failure nor of a graph. -/
def IsAside (e : Event) : Prop :=
  e.failure? = none ∧ e.graph? = none

end Event

namespace Outcome

/-- The failure that an operation is refused for. -/
def failure? : Outcome → Option Failure
  | refused report => some report.failure
  | _ => none

/-- The generation and the numbers of nodes and commands of the graph that is published. -/
def graph? : Outcome → Option (Nat × Nat × Nat)
  | published g => some (g.generation, g.size, g.commands.length)
  | _ => none

/-- The failures and graphs that the events tell of are those of the outcome. -/
structure ToldBy (outcome : Outcome) (events : List Event) : Prop where
  failure : events.filterMap Event.failure? = outcome.failure?.toList
  graph : events.filterMap Event.graph? = outcome.graph?.toList

variable {outcome : Outcome} {asides events : List Event}

/-- What is told aside tells nothing of the outcome. -/
theorem ToldBy.asides_append (h : outcome.ToldBy events) (hasides : ∀ e ∈ asides, e.IsAside) :
    outcome.ToldBy (asides ++ events) where
  failure := by
    rw [List.filterMap_append, List.filterMap_eq_nil_iff.mpr fun e he => (hasides e he).1]
    exact h.failure
  graph := by
    rw [List.filterMap_append, List.filterMap_eq_nil_iff.mpr fun e he => (hasides e he).2]
    exact h.graph

theorem toldBy_published (g : Graph) (cs : List Command) (hasides : ∀ e ∈ asides, e.IsAside) :
    (published g).ToldBy ((published g).events cs asides) where
  failure := by
    rw [events, List.filterMap_cons, List.filterMap_eq_nil_iff.mpr fun e he => (hasides e he).1]
    rfl
  graph := by
    rw [events, List.filterMap_cons, List.filterMap_eq_nil_iff.mpr fun e he => (hasides e he).2]
    rfl

/-- A graph that cannot be built is told as there is a command to tell it with. -/
theorem toldBy_refused (report : Report) (asides : List Event) {cs : List Command} {c : Command}
    (h : Build.stopsAt? {} cs = some c) :
    (refused report).ToldBy ((refused report).events cs asides) := by
  rw [events, h]
  exact ⟨rfl, rfl⟩

end Outcome

/-- That a word has many choices is an aside. -/
theorem Config.isAside_of_mem_choiceEvents {config : Config} {c : Command} {e : Event}
    (he : e ∈ config.choiceEvents c) : e.IsAside := by
  obtain ⟨a, -, ha⟩ := List.mem_filterMap.mp he
  split at ha
  · split at ha
    · obtain rfl := Option.some.inj ha
      exact ⟨rfl, rfl⟩
    · cases ha
  · cases ha

/-! ## Operations -/

namespace Registry

variable {r : Registry}

/-- Publishing goes well, or there is a command that building stops at. -/
theorem publish_cases (r : Registry) (cs : List Command) :
    (∃ g r', publish cs r = .ok g r') ∨ ∃ fault c,
      publish cs r = .error { failure := .inconsistency fault } r ∧
        Build.stopsAt? {} cs = some c := by
  cases hbuild : (Build.all cs).run {} with
  | ok x arena =>
    refine .inl ?_
    simp only [publish, Graph.ofCommands, hbuild]
    exact ⟨_, _, rfl⟩
  | error fault arena =>
    obtain ⟨-, c, -, -, -, hstops, -⟩ := Build.stopsAt?_of_error hbuild
    refine .inr ⟨fault, c, ?_, hstops⟩
    simp only [publish, Graph.ofCommands, hbuild]

/-- The events of registering a command tell what comes of it. -/
theorem toldBy_register (r : Registry) (c : Command) :
    (r.apply (.register c)).1.ToldBy (r.registrationEvents c (r.apply (.register c)).1) := by
  cases hcollision : r.collision? c with
  | some name =>
    rw [apply_of_error (EStateM.map_eq_error.mpr (register_of_collision? hcollision))]
    exact ⟨rfl, rfl⟩
  | none =>
    have hedit := register_of_admits (collision?_eq_none_iff.mp hcollision)
    rcases r.publish_cases (r.commands ++ [c]) with ⟨g, r', h⟩ | ⟨fault, d, h, hstops⟩
    · rw [apply_of_ok (EStateM.map_eq_ok.mpr ⟨g, hedit.trans h, rfl⟩)]
      have hpublished := Outcome.toldBy_published g (r.commands ++ [c])
        (List.forall_mem_singleton.mpr ⟨rfl, rfl⟩ : ∀ e ∈ [Event.registered c.name], e.IsAside)
      exact hpublished.asides_append fun _ => Config.isAside_of_mem_choiceEvents
    · rw [apply_of_error (EStateM.map_eq_error.mpr (hedit.trans h))]
      exact (Outcome.toldBy_refused _ [.registered c.name] hstops).asides_append
        fun _ => Config.isAside_of_mem_choiceEvents

/-- Removing a command tells of the graph that is published, or of nothing. -/
theorem toldBy_unregister (r : Registry) (name : String) :
    (r.apply (.unregister name)).1.ToldBy
      ((Operation.unregister name).events r (r.apply (.unregister name)).1) := by
  cases hindex : r.commands.findIdx? (r.matchesName ·.name name) with
  | none =>
    have hedit : unregister name r = .ok none r := by
      rw [unregister, bind_get, hindex]
      rfl
    rw [apply_of_ok (o := .unregister name) (EStateM.bind_eq_ok.mpr ⟨none, r, hedit, rfl⟩)]
    exact ⟨rfl, rfl⟩
  | some i =>
    have hedit : unregister name r =
        (some <$> publish (r.commands.eraseP (r.matchesName ·.name name))) r := by
      rw [unregister, bind_get, hindex, List.eraseP_eq_eraseIdx, hindex]
    rcases r.publish_cases (r.commands.eraseP (r.matchesName ·.name name)) with
      ⟨g, r', h⟩ | ⟨fault, d, h, hstops⟩
    · rw [apply_of_ok (o := .unregister name) (EStateM.bind_eq_ok.mpr
        ⟨some g, r', hedit.trans (EStateM.map_eq_ok.mpr ⟨g, h, rfl⟩), rfl⟩)]
      exact Outcome.toldBy_published g r.commands (List.forall_mem_singleton.mpr ⟨rfl, rfl⟩)
    · rw [apply_of_error (o := .unregister name) (EStateM.bind_eq_error.mpr
        (.inl (hedit.trans (EStateM.map_eq_error.mpr h))))]
      exact Outcome.toldBy_refused _ [.unregistered name] hstops

/-- Publishing again tells of the graph. -/
theorem toldBy_rebuild (r : Registry) :
    (r.apply .rebuild).1.ToldBy (Operation.rebuild.events r (r.apply .rebuild).1) := by
  rcases r.publish_cases r.commands with ⟨g, r', h⟩ | ⟨fault, d, h, hstops⟩
  · rw [apply_of_ok (EStateM.map_eq_ok.mpr ⟨g, h, rfl⟩)]
    exact Outcome.toldBy_published g r.commands (List.forall_mem_nil _)
  · rw [apply_of_error (EStateM.map_eq_error.mpr h)]
    exact Outcome.toldBy_refused _ [] hstops

/-- Whatever the registry and the operation, its events tell of the failure that it is refused for
and of the graph that it publishes, and of no others. -/
theorem toldBy_events (r : Registry) (o : Operation) :
    (r.apply o).1.ToldBy (o.events r (r.apply o).1) := by
  cases o with
  | register c => exact r.toldBy_register c
  | registerDefined definition =>
    cases definition with
    | ok c => exact r.toldBy_register c
    | error fault => exact ⟨rfl, rfl⟩
  | unregister name => exact r.toldBy_unregister name
  | rebuild => exact r.toldBy_rebuild

end Registry

end CommandGrammar
