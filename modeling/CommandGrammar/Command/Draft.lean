import CommandGrammar.Argument.Basic

/-!
# Drafts of commands

A draft is a command as it was written down, clause by clause, before anything is checked.
`Draft.fault?` is the first fault in the order name, aliases, usages; it is there exactly when the
draft is not valid (`Draft.fault?_eq_none_iff`).
-/

namespace CommandGrammar

/-- One way to go on after a command's name: one or more arguments. -/
structure Usage where
  arguments : List Argument
  nonempty : arguments ≠ []

namespace Usage

/-- Ids are tokens and differ, and what takes the rest of the line comes last. -/
structure Valid (args : List Argument) : Prop where
  ids : ∀ a ∈ args, IsToken a.id
  distinct : (args.map Argument.id).Nodup
  greedyLast : ∀ a ∈ args.dropLast, a.span ≠ .rest

/-- The first fault among arguments, with the ids of those before them. -/
def faultAfter? (seen : List String) : List Argument → Option Misconfiguration
  | [] => none
  | a :: rest =>
    if ¬IsToken a.id then some (.invalidName a.id)
    else if a.id ∈ seen then some (.duplicateId a.id)
    else if a.span = .rest ∧ rest ≠ [] then some (.greedyNotLast a.id)
    else faultAfter? (a.id :: seen) rest

@[simp] theorem faultAfter?_eq_none_iff :
    ∀ {seen : List String} {args : List Argument},
      faultAfter? seen args = none ↔ Valid args ∧ ∀ a ∈ args, a.id ∉ seen
  | seen, [] => by
    simp only [faultAfter?, List.not_mem_nil, false_implies, implies_true, and_true, true_iff]
    exact ⟨by simp, by simp, by simp⟩
  | seen, a :: rest => by
    rw [faultAfter?]
    split
    · next h => simpa using fun v : Valid (a :: rest) => absurd (v.ids a (by simp)) h
    split
    · next h => simpa using fun _ hseen => absurd h hseen
    split
    · next h =>
      have : a ∈ (a :: rest).dropLast := by
        rw [List.dropLast_cons_of_ne_nil h.2]
        exact List.mem_cons_self
      simpa using fun v : Valid (a :: rest) => absurd h.1 (v.greedyLast a this)
    next hid hseen hgreedy =>
      rw [Decidable.not_not] at hid
      rw [faultAfter?_eq_none_iff]
      constructor
      · rintro ⟨v, hv⟩
        refine ⟨⟨?_, ?_, ?_⟩, ?_⟩
        · simpa using ⟨hid, v.ids⟩
        · simpa [v.distinct] using fun b hb h => hv b hb (by simp [h])
        · cases rest with
          | nil => simp
          | cons b rest =>
            simpa using ⟨fun h => hgreedy ⟨h, by simp⟩, by simpa using v.greedyLast⟩
        · simpa using ⟨hseen, fun b hb h => hv b hb (by simp [h])⟩
      · rintro ⟨v, hv⟩
        have hd := v.distinct
        simp only [List.map_cons, List.nodup_cons, List.mem_map, not_exists, not_and] at hd
        refine ⟨⟨fun b hb => v.ids b (by simp [hb]), hd.2, ?_⟩, ?_⟩
        · intro b hb
          refine v.greedyLast b ?_
          cases rest with
          | nil => simp at hb
          | cons _ _ => simpa using .inr hb
        · intro b hb
          simpa using ⟨hd.1 b hb, hv b (by simp [hb])⟩

/-- The first fault of a usage. -/
def fault? (u : Usage) : Option Misconfiguration :=
  faultAfter? [] u.arguments

@[simp] theorem fault?_eq_none_iff {u : Usage} : u.fault? = none ↔ Valid u.arguments := by
  simp [fault?]

end Usage

/-- What is said of a command beside its name. -/
inductive Clause
  /-- Another name. -/
  | otherName (name : String)
  /-- The name alone is a complete command. -/
  | runnable
  /-- A usage; one without arguments is the name alone. -/
  | usage (arguments : List Argument)

/-- A command that has not been checked. -/
structure Draft where
  name : String
  aliases : List String := []
  runnable : Bool := false
  usages : List Usage := []

namespace Draft

/-- The draft with one more clause. -/
def add (d : Draft) : Clause → Draft
  | .otherName name => { d with aliases := d.aliases ++ [name] }
  | .runnable => { d with runnable := true }
  | .usage args =>
    if h : args = [] then { d with runnable := true }
    else { d with usages := d.usages ++ [⟨args, h⟩] }

/-- The draft of a name and clauses. -/
def ofClauses (name : String) (clauses : List Clause) : Draft :=
  clauses.foldl add { name }

/-- The name, then the aliases. -/
def names (d : Draft) : List String :=
  d.name :: d.aliases

/-- Names are tokens, and usages are valid. -/
structure Valid (d : Draft) : Prop where
  names : ∀ n ∈ d.names, IsToken n
  usages : ∀ u ∈ d.usages, Usage.Valid u.arguments

/-- The fault of a name. -/
def nameFault? (name : String) : Option Misconfiguration :=
  if IsToken name then none else some (.invalidName name)

/-- The first fault in the order name, aliases, usages. -/
def fault? (d : Draft) : Option Misconfiguration :=
  (d.names.findSome? nameFault?).or (d.usages.findSome? Usage.fault?)

theorem fault?_eq_none_iff {d : Draft} : d.fault? = none ↔ d.Valid := by
  simp only [fault?, Option.or_eq_none_iff, List.findSome?_eq_none_iff, nameFault?,
    Usage.fault?_eq_none_iff]
  constructor
  · rintro ⟨hn, hu⟩
    exact ⟨fun n h => by simpa using hn n h, hu⟩
  · rintro ⟨hn, hu⟩
    exact ⟨fun n h => by simp [hn n h], hu⟩

end Draft

end CommandGrammar
