import CommandGrammar.Proofs.Line.Course
import CommandGrammar.Proofs.Steps

/-!
# Choosing a usage

Usages are tried one after another from the same place of the line, and of those that do not read it
only the furthest mismatch is kept. What comes of it can be told from what each usage does on its
own: the first that reads the line gives the values (`FirstMatch`), and if there is none, the first
of those that got furthest gives the rejection (`Furthest`).

`Tried` is what the kept mismatch says of the usages tried so far. One more usage that is stopped
keeps it true (`Tried.snoc`), hence a whole run does (`Tried.exists_readUsages`).
-/

namespace CommandGrammar

theorem Usage.Stops.unique {u : Usage} {c : Cursor} {m m' : Mismatch} (h : u.Stops c m)
    (h' : u.Stops c m') : m = m' :=
  Except.error.inj ((Usage.read_eq_error.mpr h).symm.trans (Usage.read_eq_error.mpr h'))

namespace Command

/-- Usage number `i` reads the line with these values, and those before it do not read it. -/
def FirstMatch (us : List Usage) (c : Cursor) (i : Nat) (values : Bindings) : Prop :=
  ∃ before u after, us = before ++ u :: after ∧ before.length = i ∧ u.read c = .ok values ∧
    ∀ v ∈ before, ∃ m, v.Stops c m

/-- Some usage is stopped by this mismatch, those before it got less far, and those after it no
further. -/
def Furthest (us : List Usage) (c : Cursor) (m : Mismatch) : Prop :=
  ∃ before u after, us = before ++ u :: after ∧ u.Stops c m ∧
    (∀ v ∈ before, ∃ m', v.Stops c m' ∧ m'.progress < m.progress) ∧
    ∀ v ∈ after, ∃ m', v.Stops c m' ∧ m'.progress ≤ m.progress

/-- What is kept of the usages tried so far, none of which reads the line. -/
inductive Tried (c : Cursor) : List Usage → Option Mismatch → Prop
  | start : Tried c [] none
  | kept {us : List Usage} {m : Mismatch} : Furthest us c m → Tried c us (some m)

variable {us : List Usage} {u : Usage} {c : Cursor} {best : Option Mismatch} {m : Mismatch}

theorem FirstMatch.append {i : Nat} {values : Bindings} (h : FirstMatch us c i values)
    (more : List Usage) : FirstMatch (us ++ more) c i values := by
  obtain ⟨before, u, after, rfl, hi, hread, hbefore⟩ := h
  exact ⟨before, u, after ++ more, by simp, hi, hread, hbefore⟩

/-- No usage got further than the furthest. -/
theorem Furthest.progress_le {m' : Mismatch} (h : Furthest us c m) (hu : u ∈ us)
    (hstops : u.Stops c m') : m'.progress ≤ m.progress := by
  obtain ⟨before, w, after, rfl, hw, hbefore, hafter⟩ := h
  rcases List.mem_append.mp hu with hu | hu
  · obtain ⟨_, hv, hlt⟩ := hbefore u hu
    exact hstops.unique hv ▸ Nat.le_of_lt hlt
  · rcases List.mem_cons.mp hu with rfl | hu
    · exact hstops.unique hw ▸ Nat.le_refl _
    · obtain ⟨_, hv, hle⟩ := hafter u hu
      exact hstops.unique hv ▸ hle

/-- One more usage that is stopped takes the place of the furthest only if it got further. -/
theorem Tried.snoc (h : Tried c us best) (hu : u.Stops c m) :
    Tried c (us ++ [u]) (some (Mismatch.furthest best m)) := by
  cases h with
  | start => exact .kept ⟨[], u, [], rfl, hu, by simp, by simp⟩
  | @kept _ b hb =>
    obtain ⟨before, w, after, rfl, hw, hbefore, hafter⟩ := hb
    simp only [Mismatch.furthest]
    split
    · next hlt =>
      refine .kept ⟨before ++ w :: after, u, [], rfl, hu, fun v hv => ?_, by simp⟩
      rcases List.mem_append.mp hv with hv | hv
      · obtain ⟨m', hm', hlt'⟩ := hbefore v hv
        exact ⟨m', hm', Nat.lt_trans hlt' hlt⟩
      · rcases List.mem_cons.mp hv with rfl | hv
        · exact ⟨b, hw, hlt⟩
        · obtain ⟨m', hm', hle⟩ := hafter v hv
          exact ⟨m', hm', Nat.lt_of_le_of_lt hle hlt⟩
    · next hle =>
      refine .kept ⟨before, w, after ++ [u], by simp, hw, hbefore, fun v hv => ?_⟩
      rcases List.mem_append.mp hv with hv | hv
      · exact hafter v hv
      · obtain rfl := List.mem_singleton.mp hv
        exact ⟨m, hu, Nat.le_of_not_lt hle⟩

/-- Usages that are stopped are passed over, and what is kept is true of them. -/
theorem Tried.exists_readUsages :
    ∀ {us vs : List Usage} {best : Option Mismatch}, Tried c us best →
      (∀ v ∈ vs, ∃ m, v.Stops c m) → ∃ best', Tried c (us ++ vs) best' ∧
        ∀ ws, readUsages c us.length best (vs ++ ws) =
          readUsages c (us ++ vs).length best' ws
  | us, [], best, h, _ => ⟨best, by rwa [List.append_nil], fun ws => by simp⟩
  | us, v :: vs, best, h, hstops => by
    obtain ⟨⟨m, hm⟩, hvs⟩ := List.forall_mem_cons.mp hstops
    obtain ⟨best', tried, hrun⟩ := (h.snoc hm).exists_readUsages hvs
    have happend : us ++ v :: vs = us ++ [v] ++ vs := by simp
    refine ⟨best', happend ▸ tried, fun ws => ?_⟩
    rw [List.cons_append, readUsages, Usage.read_eq_error.mpr hm, happend, ← hrun,
      List.length_append]
    rfl

/-- The place of the first usage does not matter to what is read, only to its number. -/
theorem readUsages_succ (c : Cursor) :
    ∀ (index : Nat) (best : Option Mismatch) (us : List Usage),
      readUsages c (index + 1) best us =
        (readUsages c index best us).map fun found => (found.1 + 1, found.2)
  | _, _, [] => rfl
  | index, best, u :: us => by
    rw [readUsages, readUsages]
    cases u.read c with
    | ok values => rfl
    | error m => exact readUsages_succ c _ _ us

/-- Some usage is the first that reads the line, or all of them are stopped. -/
theorem firstMatch_or_stops (c : Cursor) :
    ∀ us : List Usage, (∃ i values, FirstMatch us c i values) ∨ ∀ u ∈ us, ∃ m, u.Stops c m
  | [] => .inr (by simp)
  | u :: us => by
    cases hu : u.read c with
    | ok values => exact .inl ⟨0, values, [], u, us, rfl, rfl, hu, by simp⟩
    | error m =>
      have hstops := Usage.read_eq_error.mp hu
      rcases firstMatch_or_stops c us with ⟨i, values, before, v, after, rfl, rfl, hv, hbefore⟩ | h
      · exact .inl ⟨_, values, u :: before, v, after, rfl, rfl, hv,
          List.forall_mem_cons.mpr ⟨⟨m, hstops⟩, hbefore⟩⟩
      · exact .inr (List.forall_mem_cons.mpr ⟨⟨m, hstops⟩, h⟩)

theorem readUsages_of_firstMatch {i : Nat} {values : Bindings} (h : FirstMatch us c i values) :
    readUsages c 0 none us = .ok (i, values) := by
  obtain ⟨before, u, after, rfl, rfl, hread, hbefore⟩ := h
  obtain ⟨best, -, hrun⟩ := Tried.start.exists_readUsages hbefore
  rw [List.nil_append] at hrun
  simpa [hread] using hrun (u :: after)

theorem readArguments_of_firstMatch {c : Command} {d : Cursor} {i : Nat} {values : Bindings}
    (h : FirstMatch c.usages d i values) : c.readArguments d = .ok ⟨c.name, some i, values⟩ := by
  rw [readArguments, readUsages_of_firstMatch h]

theorem readArguments_of_stops {c : Command} (hne : c.usages ≠ []) {d : Cursor}
    (h : ∀ u ∈ c.usages, ∃ m, u.Stops d m) :
    ∃ m, Furthest c.usages d m ∧ c.readArguments d = .error m.rejection := by
  obtain ⟨best, tried, hrun⟩ := Tried.start.exists_readUsages h
  rw [List.nil_append] at tried hrun
  have hrun : readUsages d 0 none c.usages = .error best := by simpa using hrun []
  generalize hus : c.usages = us at tried hne
  cases tried with
  | start => exact absurd rfl hne
  | @kept _ m hm =>
    refine ⟨m, hm, ?_⟩
    rw [readArguments, hrun]

/-- A command rejects what follows its name because it takes no arguments, or because something
stops one of its usages. -/
theorem halt_of_readArguments {c : Command} {d : Cursor} {r : Rejection}
    (h : c.readArguments d = .error r) :
    r.reason = .takesNoArguments ∨ ∃ args e, Usage.Halt args e r := by
  by_cases hne : c.usages = []
  · rw [readArguments, hne] at h
    exact .inl (Except.error.inj h ▸ rfl)
  · rcases firstMatch_or_stops d c.usages with ⟨i, values, hfirst⟩ | hstops
    · rw [readArguments_of_firstMatch hfirst] at h
      cases h
    · obtain ⟨m, ⟨_, u, _, _, ⟨_, after, _, _, e, _, _, halt, _⟩, _⟩, hm⟩ :=
        readArguments_of_stops hne hstops
      obtain rfl := Except.error.inj (hm.symm.trans h)
      exact .inr ⟨after, e, halt⟩

/-- A usage that gets no further than one before it is passed over. -/
theorem readUsages_skip {before : List Usage} {v : Usage} {m' : Mismatch} (hv : v ∈ before)
    (hm : v.Stops c m) (hu : u.Stops c m') (hle : m'.progress ≤ m.progress)
    (hstops : ∀ w ∈ before, ∃ m, w.Stops c m) (after : List Usage) :
    readUsages c 0 none (before ++ u :: after) =
      (readUsages c 0 none (before ++ after)).map fun found => (found.1 + 1, found.2) := by
  obtain ⟨best, tried, hrun⟩ := Tried.start.exists_readUsages hstops
  rw [List.nil_append] at tried hrun
  cases tried with
  | start => cases hv
  | @kept _ best hbest =>
    have hrun : ∀ ws, readUsages c 0 none (before ++ ws) =
        readUsages c before.length (some best) ws := hrun
    have hkeep : Mismatch.furthest (some best) m' = best :=
      if_neg (Nat.not_lt.mpr (Nat.le_trans hle (hbest.progress_le hv hm)))
    rw [hrun, hrun, readUsages, Usage.read_eq_error.mpr hu]
    simp only [hkeep, readUsages_succ]

/-- What follows the name of a command with usages is read as the first usage that reads it, or
rejected for the reason of the first that got furthest. So usages after one that reads it make no
difference, and one that gets no further than one before it makes none to the rejection. -/
theorem readArguments_chooses (c : Command) (hne : c.usages ≠ []) (d : Cursor) :
    (∀ u ∈ c.usages, ∀ values, u.read d = .ok values → ∃ i values',
      FirstMatch c.usages d i values' ∧ c.readArguments d = .ok ⟨c.name, some i, values'⟩) ∧
    ((∀ u ∈ c.usages, ∀ values, u.read d ≠ .ok values) → ∃ m,
      Furthest c.usages d m ∧ c.readArguments d = .error m.rejection) ∧
    (∀ (c' : Command) (more : List Usage) (p : Parsed), c'.name = c.name →
      c'.usages = c.usages ++ more → c.readArguments d = .ok p → c'.readArguments d = .ok p) ∧
    ∀ (c' : Command) (before after : List Usage) (u v : Usage) (m m' : Mismatch),
      c.usages = before ++ after → c'.usages = before ++ u :: after → v ∈ before →
      v.Stops d m → u.Stops d m' → m'.progress ≤ m.progress →
      ∀ r, c'.readArguments d = .error r ↔ c.readArguments d = .error r := by
  refine ⟨fun u hu values hread => ?_, fun hnone => ?_, fun c' more p hname husages hp => ?_,
    fun c' before after u v m m' hc hc' hv hm hm' hle r => ?_⟩
  · rcases firstMatch_or_stops d c.usages with ⟨i, values', h⟩ | hstops
    · exact ⟨i, values', h, readArguments_of_firstMatch h⟩
    · obtain ⟨m, hm⟩ := hstops u hu
      rw [Usage.read_eq_error.mpr hm] at hread
      cases hread
  · rcases firstMatch_or_stops d c.usages with ⟨_, values, _, u, _, hus, -, hread, -⟩ | hstops
    · exact absurd hread (hnone u (by simp [hus]) values)
    · exact readArguments_of_stops hne hstops
  · rcases firstMatch_or_stops d c.usages with ⟨i, values, h⟩ | hstops
    · have h' : FirstMatch c'.usages d i values := husages ▸ h.append more
      rw [readArguments_of_firstMatch h] at hp
      rw [readArguments_of_firstMatch h', hname, hp]
    · obtain ⟨m, -, hm⟩ := readArguments_of_stops hne hstops
      rw [hm] at hp
      cases hp
  · rcases firstMatch_or_stops d before with ⟨i, values, h⟩ | hstops
    · have h₁ : FirstMatch c.usages d i values := hc ▸ h.append after
      have h₂ : FirstMatch c'.usages d i values := hc' ▸ h.append (u :: after)
      rw [readArguments_of_firstMatch h₁, readArguments_of_firstMatch h₂]
      simp
    · have hskip := readUsages_skip hv hm hm' hle hstops after
      unfold readArguments
      rw [hc, hc', hskip]
      cases readUsages d 0 none (before ++ after) with
      | ok found => simp [Except.map]
      | error best =>
        cases best with
        | none => exact Iff.rfl
        | some best => exact Iff.rfl

/-- A command of two usages with a common beginning. -/
def give : Except Misconfiguration Command :=
  define "give"
    [.usage [.phrase ⟨"target", .quotable⟩, .boolean "hidden"],
      .usage [.phrase ⟨"target", .quotable⟩, .phrase ⟨"item", .quotable⟩]]

/-- A line that only the second usage reads, and one by which both are stopped after one argument,
so that the first tells what is missing. -/
theorem readArguments_chooses_give : ∃ c, give = .ok c ∧ c.usages ≠ [] ∧
    (∃ values, FirstMatch c.usages (Cursor.start "Notch diamond") 1 values ∧
      c.readArguments (Cursor.start "Notch diamond") = .ok ⟨c.name, some 1, values⟩) ∧
    ∃ m, Furthest c.usages (Cursor.start "Notch") m ∧
      c.readArguments (Cursor.start "Notch") = .error m.rejection ∧
      m.rejection = ⟨.missingArgument "hidden", ""⟩ := by
  have reads : give.toOption.map (fun c =>
      (c.usages.map fun u => (u.read (Cursor.start "Notch diamond")).toOption.isSome,
        (c.readArguments (Cursor.start "Notch diamond")).toOption.map (·.usage))) =
      some ([false, true], some (some 1)) := by decide +kernel
  have stops : give.toOption.map (fun c =>
      (c.usages.map fun u => (u.read (Cursor.start "Notch")).toOption.isSome,
        Except.error? (c.readArguments (Cursor.start "Notch")))) =
      some ([false, false], some ⟨.missingArgument "hidden", ""⟩) := by decide +kernel
  obtain ⟨c, hc, reads⟩ := Except.exists_of_map_toOption reads
  obtain ⟨c', hc', stops⟩ := Except.exists_of_map_toOption stops
  obtain rfl : c = c' := Except.ok.inj (hc.symm.trans hc')
  obtain ⟨hreads, hnumber⟩ := Prod.mk.inj reads
  obtain ⟨hstops, hrejection⟩ := Prod.mk.inj stops
  have hne : c.usages ≠ [] := fun h => by simp [h] at hreads
  refine ⟨c, hc, hne, ?_, ?_⟩
  · obtain ⟨u, hu, hsome⟩ := List.mem_map.mp (hreads ▸ (by decide : true ∈ [false, true]))
    cases hread : u.read (Cursor.start "Notch diamond") with
    | error m => simp [hread, Except.toOption] at hsome
    | ok values =>
      obtain ⟨i, values, hfirst, hp⟩ :=
        (readArguments_chooses c hne (Cursor.start "Notch diamond")).1 u hu values hread
      obtain rfl : i = 1 := by simpa [hp, Except.toOption] using hnumber
      exact ⟨values, hfirst, hp⟩
  · have hnone : ∀ u ∈ c.usages, ∀ values, u.read (Cursor.start "Notch") ≠ .ok values := by
      intro u hu values hread
      have hmem : true ∈ c.usages.map fun u =>
          (u.read (Cursor.start "Notch")).toOption.isSome :=
        List.mem_map.mpr ⟨u, hu, by rw [hread]; rfl⟩
      rw [hstops] at hmem
      simp at hmem
    obtain ⟨m, hfurthest, hm⟩ := (readArguments_chooses c hne (Cursor.start "Notch")).2.1 hnone
    exact ⟨m, hfurthest, hm,
      Except.error.inj (hm.symm.trans (Except.error?_eq_some.mp hrejection))⟩

end Command

end CommandGrammar
