import CommandGrammar.Command.Basic
import Mathlib.Data.List.Basic

/-!
# Faults of a definition

A definition is checked clause by clause, and the check stops at the first fault. All faults that a
name and clauses have, in the order in which they are looked for, are listed by `faults`: those of
the name and the aliases, then those of the arguments of each usage, where an argument's fault is
told from its place among the others and not from what was seen before it. A command is defined
exactly if there are no faults, and then it is what the clauses say; else the first fault is told
(`Command.define_ok_or_first_fault`).
-/

namespace CommandGrammar

/-! ## What clauses say -/

namespace Clause

/-- The alias that the clause adds. -/
def alias? : Clause → Option String
  | otherName name => some name
  | runnable => none
  | usage _ => none

/-- The arguments of the usage that the clause adds. -/
def arguments? : Clause → Option (List Argument)
  | otherName _ => none
  | runnable => none
  | usage args => if args = [] then none else some args

end Clause

namespace Draft

/-- What a draft comes to with more clauses. -/
theorem foldl_add (d : Draft) (clauses : List Clause) :
    (clauses.foldl add d).name = d.name ∧
    (clauses.foldl add d).aliases = d.aliases ++ clauses.filterMap Clause.alias? ∧
    (clauses.foldl add d).usages.map Usage.arguments =
      d.usages.map Usage.arguments ++ clauses.filterMap Clause.arguments? ∧
    ((clauses.foldl add d).runnable ↔
      d.runnable ∨ Clause.runnable ∈ clauses ∨ Clause.usage [] ∈ clauses) := by
  induction clauses generalizing d with
  | nil => simp
  | cons clause clauses ih =>
    obtain ⟨hname, haliases, husages, hrunnable⟩ := ih (d.add clause)
    rw [List.foldl_cons, hname, haliases, husages, hrunnable]
    cases clause with
    | otherName name => simp [add, List.filterMap_cons, Clause.alias?, Clause.arguments?]
    | runnable => simp [add, List.filterMap_cons, Clause.alias?, Clause.arguments?]
    | usage args =>
      by_cases h : args = []
      · simp [add, List.filterMap_cons, Clause.alias?, Clause.arguments?, h]
      · simp [add, List.filterMap_cons, Clause.alias?, Clause.arguments?, h]

/-- The draft of a name and clauses has what the clauses say, in their order. -/
theorem ofClauses_says (name : String) (clauses : List Clause) :
    (ofClauses name clauses).name = name ∧
    (ofClauses name clauses).aliases = clauses.filterMap Clause.alias? ∧
    (ofClauses name clauses).usages.map Usage.arguments = clauses.filterMap Clause.arguments? ∧
    ((ofClauses name clauses).runnable ↔
      Clause.runnable ∈ clauses ∨ Clause.usage [] ∈ clauses) := by
  simpa [ofClauses] using foldl_add { name } clauses

end Draft

/-! ## All faults -/

/-- The faults of a name. -/
def nameFaults (name : String) : List Misconfiguration :=
  if IsToken name then [] else [.invalidName name]

namespace Usage

/-- The faults of the argument at this place among the others. -/
def faultsAt (args : List Argument) (a : Argument) (place : Nat) : List Misconfiguration :=
  nameFaults a.id ++
  (if a.id ∈ (args.take place).map Argument.id then [.duplicateId a.id] else []) ++
  (if a.span = .rest ∧ place < args.length - 1 then [.greedyNotLast a.id] else [])

/-- The faults of the arguments of a usage. -/
def faults (args : List Argument) : List Misconfiguration :=
  args.zipIdx.flatMap fun p => faultsAt args p.1 p.2

/-- Where the ids before it have been seen, a check begins with the faults of the argument at its
place. -/
theorem head?_faultsAt {seen : List String} {before rest : List Argument} {a : Argument}
    (hseen : ∀ id, id ∈ seen ↔ id ∈ before.map Argument.id) :
    faultAfter? seen (a :: rest) =
      (faultsAt (before ++ a :: rest) a before.length).head?.or
        (faultAfter? (a.id :: seen) rest) := by
  have hplace : before.length < (before ++ a :: rest).length - 1 ↔ rest ≠ [] := by
    cases rest <;> simp
  rw [faultsAt, List.take_left, faultAfter?, nameFaults]
  simp only [hplace, hseen]
  by_cases hid : IsToken a.id
  · by_cases hmem : a.id ∈ before.map Argument.id
    · simp [hid, hmem]
    · simp only [hid, hmem, not_true_eq_false, if_false, if_true, List.nil_append]
      split <;> rfl
  · simp [hid]

/-- With the ids before it seen, the search goes on to the first of the faults that are left. -/
theorem faultAfter?_eq {seen : List String} (before : List Argument) {rest : List Argument}
    (hseen : ∀ id, id ∈ seen ↔ id ∈ before.map Argument.id) :
    faultAfter? seen rest =
      ((rest.zipIdx before.length).flatMap fun p => faultsAt (before ++ rest) p.1 p.2).head? := by
  induction rest generalizing seen before with
  | nil => rfl
  | cons a rest ih =>
    have hnext : ∀ id, id ∈ a.id :: seen ↔ id ∈ (before ++ [a]).map Argument.id := fun id => by
      simp [hseen, or_comm]
    have hrest := ih _ hnext
    rw [List.length_append, List.length_singleton, List.append_assoc,
      List.singleton_append] at hrest
    rw [head?_faultsAt hseen, hrest, List.zipIdx_cons, List.flatMap_cons, List.head?_append]

/-- The fault that is told is the first of all faults of the arguments. -/
theorem faultAfter?_nil (args : List Argument) : faultAfter? [] args = (faults args).head? :=
  faultAfter?_eq [] fun _ => Iff.rfl

end Usage

/-! ## Definitions -/

namespace Clause

@[simp] theorem mem_aliases {name : String} {clauses : List Clause} :
    name ∈ clauses.filterMap alias? ↔ otherName name ∈ clauses := by
  rw [List.mem_filterMap]
  constructor
  · rintro ⟨clause, hmem, h⟩
    cases clause with
    | otherName name' => exact Option.some.inj h ▸ hmem
    | runnable => cases h
    | usage args => cases h
  · exact fun h => ⟨_, h, rfl⟩

@[simp] theorem mem_usages {args : List Argument} {clauses : List Clause} :
    args ∈ clauses.filterMap arguments? ↔ usage args ∈ clauses ∧ args ≠ [] := by
  rw [List.mem_filterMap]
  constructor
  · rintro ⟨clause, hmem, h⟩
    cases clause with
    | otherName name => cases h
    | runnable => cases h
    | usage args' =>
      rw [arguments?] at h
      split at h
      · cases h
      · next hne =>
        obtain rfl := Option.some.inj h
        exact ⟨hmem, hne⟩
  · exact fun ⟨hmem, hne⟩ => ⟨_, hmem, if_neg hne⟩

end Clause

namespace Command

@[simp] theorem ofDraft_eq_error {d : Draft} {fault : Misconfiguration} :
    ofDraft d = .error fault ↔ d.fault? = some fault := by
  unfold ofDraft
  split
  · next h => simp [h]
  · next h => simp [h]

theorem toDraft_of_ofDraft {d : Draft} {c : Command} (h : ofDraft d = .ok c) : c.toDraft = d := by
  unfold ofDraft at h
  split at h
  · cases h
  · obtain rfl := Except.ok.inj h
    rfl

/-- A draft becomes a command if it is valid. -/
theorem exists_ofDraft {d : Draft} : (∃ c, ofDraft d = .ok c) ↔ d.Valid := by
  constructor
  · rintro ⟨c, h⟩
    exact toDraft_of_ofDraft h ▸ c.valid
  · intro h
    unfold ofDraft
    split
    · next hfault => rw [Draft.fault?_eq_none_iff.mpr h] at hfault; cases hfault
    · exact ⟨_, rfl⟩

/-- The faults of a name and clauses, in the order in which they are looked for. -/
def faults (name : String) (clauses : List Clause) : List Misconfiguration :=
  (name :: clauses.filterMap Clause.alias?).flatMap nameFaults ++
    (clauses.filterMap Clause.arguments?).flatMap Usage.faults

variable {name : String} {clauses : List Clause}

/-- The main name comes first, and the other names follow in order. -/
@[simp] theorem names_ofClauses :
    (Draft.ofClauses name clauses).names = name :: clauses.filterMap Clause.alias? := by
  obtain ⟨hname, haliases, -⟩ := Draft.ofClauses_says name clauses
  rw [Draft.names, hname, haliases]

/-- What a check finds first is the first of all faults. -/
@[simp] theorem fault?_ofClauses :
    (Draft.ofClauses name clauses).fault? = (faults name clauses).head? := by
  obtain ⟨-, -, husages, -⟩ := Draft.ofClauses_says name clauses
  have hname : (fun name => (nameFaults name).head?) = Draft.nameFault? := by
    funext name
    rw [nameFaults, Draft.nameFault?]
    split <;> rfl
  have husage : (fun args => (Usage.faults args).head?) = Usage.faultAfter? [] :=
    funext fun args => (Usage.faultAfter?_nil args).symm
  rw [faults, List.head?_append, List.head?_flatMap, List.head?_flatMap, hname, husage, ← husages,
    List.findSome?_map, ← names_ofClauses]
  rfl

/-- Clauses are valid if all names are tokens and all usages are valid. -/
theorem valid_ofClauses : (Draft.ofClauses name clauses).Valid ↔
    IsToken name ∧ (∀ other, Clause.otherName other ∈ clauses → IsToken other) ∧
      ∀ args, Clause.usage args ∈ clauses → args ≠ [] → Usage.Valid args := by
  obtain ⟨-, -, husages, -⟩ := Draft.ofClauses_says name clauses
  have hvalid : (∀ u ∈ (Draft.ofClauses name clauses).usages, Usage.Valid u.arguments) ↔
      ∀ args ∈ clauses.filterMap Clause.arguments?, Usage.Valid args := by
    rw [← husages, List.forall_mem_map]
  constructor
  · rintro ⟨hnames, h⟩
    rw [names_ofClauses, List.forall_mem_cons] at hnames
    exact ⟨hnames.1, fun other h => hnames.2 other (Clause.mem_aliases.mpr h),
      fun args hmem hne => hvalid.mp h args (Clause.mem_usages.mpr ⟨hmem, hne⟩)⟩
  · rintro ⟨hname, hother, h⟩
    refine ⟨?_, hvalid.mpr fun args hargs => ?_⟩
    · rw [names_ofClauses, List.forall_mem_cons]
      exact ⟨hname, fun other h => hother other (Clause.mem_aliases.mp h)⟩
    · obtain ⟨hmem, hne⟩ := Clause.mem_usages.mp hargs
      exact h args hmem hne

/-- A command is defined exactly if its name and aliases are tokens and in every usage that is not
empty, the ids are tokens and differ, and no argument but the last takes the rest of the line. It
has the name, aliases and usages of the clauses, in their order, and may stand alone exactly if a
clause says so or is an empty usage. Otherwise the first of all faults is told. Every usage has a
last argument, with which an argument's place can be compared. -/
theorem define_ok_or_first_fault (name : String) (clauses : List Clause) :
    ((∃ c, define name clauses = .ok c) ↔
      IsToken name ∧ (∀ other, Clause.otherName other ∈ clauses → IsToken other) ∧
      ∀ args, Clause.usage args ∈ clauses → args ≠ [] →
        (∀ a ∈ args, IsToken a.id) ∧ (args.map Argument.id).Nodup ∧
          ∀ a ∈ args.dropLast, a.span ≠ .rest) ∧
    (∀ c, define name clauses = .ok c → c.name = name ∧
      c.aliases = clauses.filterMap Clause.alias? ∧
      c.usages.map Usage.arguments = clauses.filterMap Clause.arguments? ∧
      (c.runnable ↔ Clause.runnable ∈ clauses ∨ Clause.usage [] ∈ clauses)) ∧
    (∀ fault, define name clauses = .error fault ↔
      (faults name clauses).head? = some fault) ∧
    ∀ u ∈ (Draft.ofClauses name clauses).usages, 1 ≤ u.arguments.length := by
  have husage : ∀ args, Usage.Valid args ↔ (∀ a ∈ args, IsToken a.id) ∧
      (args.map Argument.id).Nodup ∧ ∀ a ∈ args.dropLast, a.span ≠ .rest := fun args =>
    ⟨fun h => ⟨h.ids, h.distinct, h.greedyLast⟩, fun ⟨hids, hdistinct, hlast⟩ =>
      ⟨hids, hdistinct, hlast⟩⟩
  refine ⟨?_, fun c hc => ?_, fun fault => ?_, fun u hu => ?_⟩
  · rw [define, exists_ofDraft, valid_ofClauses]
    simp only [husage]
  · rw [toDraft_of_ofDraft hc]
    exact Draft.ofClauses_says name clauses
  · simp [define]
  · obtain ⟨-, -, husages, -⟩ := Draft.ofClauses_says name clauses
    have hargs : u.arguments ∈ clauses.filterMap Clause.arguments? :=
      husages ▸ List.mem_map_of_mem hu
    exact List.length_pos_iff.mpr (Clause.mem_usages.mp hargs).2

/-- An argument with two faults, and a command that may stand alone by an empty usage. -/
theorem define_say :
    faults "say" [.usage [.literal "x", .phrase ⟨"x", .greedy⟩, .boolean "y"], .otherName "s"] =
      [.duplicateId "x", .greedyNotLast "x"] ∧
    define "say" [.usage [.literal "x", .phrase ⟨"x", .greedy⟩, .boolean "y"], .otherName "s"] =
      .error (.duplicateId "x") ∧
    ∃ c, define "say" [.usage [], .usage [.phrase ⟨"x", .greedy⟩], .otherName "s"] = .ok c ∧
      c.name = "say" ∧ c.aliases = ["s"] ∧ c.runnable ∧ c.usages.length = 1 := by
  have hfaults : faults "say"
      [.usage [.literal "x", .phrase ⟨"x", .greedy⟩, .boolean "y"], .otherName "s"] =
        [.duplicateId "x", .greedyNotLast "x"] := by decide +kernel
  have hnone : faults "say" [.usage [], .usage [.phrase ⟨"x", .greedy⟩], .otherName "s"] = [] := by
    decide +kernel
  obtain ⟨-, -, herror, -⟩ := define_ok_or_first_fault "say"
    [.usage [.literal "x", .phrase ⟨"x", .greedy⟩, .boolean "y"], .otherName "s"]
  obtain ⟨-, hsays, hfirst, -⟩ := define_ok_or_first_fault "say"
    [.usage [], .usage [.phrase ⟨"x", .greedy⟩], .otherName "s"]
  refine ⟨hfaults, (herror _).mpr (by rw [hfaults]; rfl), ?_⟩
  cases h : define "say" [.usage [], .usage [.phrase ⟨"x", .greedy⟩], .otherName "s"] with
  | error fault =>
    rw [hfirst, hnone] at h
    cases h
  | ok c =>
    obtain ⟨hname, haliases, husages, hrunnable⟩ := hsays c h
    refine ⟨c, rfl, hname, haliases, hrunnable.mpr (.inr (by simp)), ?_⟩
    rw [← List.length_map Usage.arguments, husages]
    rfl

end Command

end CommandGrammar
