import CommandGrammar.Proofs.Line.Read
import CommandGrammar.Proofs.Registry.Reachable

/-!
# The values of a line

Values are put under the ids of their arguments one after another, and one put under an id that is
in use would take the place of another. The ids of a usage differ, so this does not happen: a line
that is read has exactly one value for every argument of its usage, and it is the one that this
argument made of its piece of the line (`Graph.values_of_read`).
-/

namespace CommandGrammar

/-- Under different ids, every value is found. -/
theorem Bindings.get?_of_mem :
    ∀ {bs : Bindings} {id : String} {v : Value}, (bs.map Prod.fst).Nodup → (id, v) ∈ bs →
      bs.get? id = some v
  | [], _, _, _, h => by simp at h
  | e :: bs, id, v, hnd, h => by
    rw [List.map_cons, List.nodup_cons] at hnd
    rw [get?, List.lookup_cons]
    rcases List.mem_cons.mp h with rfl | h
    · simp
    · have hne : id ≠ e.1 := fun he => hnd.1 (he ▸ List.mem_map_of_mem (f := Prod.fst) h)
      rw [beq_eq_false_iff_ne.mpr hne]
      exact get?_of_mem hnd.2 h

namespace Usage

variable {args : List Argument} {texts : List String} {values : List Value} {c d : Cursor}

theorem Course.map_fst_zip (h : Course args c texts values d) :
    ((args.map Argument.id).zip values).map Prod.fst = args.map Argument.id :=
  List.map_fst_zip (by simp [h.length_values])

/-- Under its id, each argument has the value that it made. -/
theorem Course.forall₂_get? (h : Course args c texts values d)
    (hnd : (args.map Argument.id).Nodup) :
    List.Forall₂ (fun a v => Bindings.get? ((args.map Argument.id).zip values) a.id = some v)
      args values := by
  refine List.forall₂_iff_zip.mpr ⟨h.length_values.symm, fun {a v} hmem => ?_⟩
  refine Bindings.get?_of_mem (by rwa [h.map_fst_zip]) ?_
  rw [List.zip_map_left]
  exact List.mem_map.mpr ⟨(a, v), hmem, rfl⟩

end Usage

/-- A line that is read has the values of its arguments. If it is the name of a command alone, the
command may stand alone, and there are none. Otherwise the arguments of its usage, from the name
on, took their pieces of the line to its end and made values of them; the values are found under
the arguments' ids, there is one for each argument, and no other. -/
theorem Graph.values_of_read {g : Graph} {line : String} {p : Parsed} (h : g.read line = .ok p) :
    ∃ name d c, (lineStart line).take? .single = some (name, d) ∧ g.find? name = some c ∧
      p.command = c.name ∧
      (p.usage = none → p.values = [] ∧ c.runnable ∧ d.isDone) ∧
      ∀ i, p.usage = some i → ∃ u texts values e, c.usages[i]? = some u ∧
        Usage.Course u.arguments d texts values e ∧ e.isDone ∧
        p.values.map Prod.fst = u.arguments.map Argument.id ∧ (p.values.map Prod.fst).Nodup ∧
        p.values.length = u.arguments.length ∧
        List.Forall₂ (fun a v => p.values.get? a.id = some v) u.arguments values := by
  obtain ⟨name, d, c, htake, hfind, hcases⟩ := cases_of_read h
  refine ⟨name, d, c, htake, hfind, ?_⟩
  rcases hcases with ⟨hdone, hrunnable, rfl⟩ | ⟨-, i, u, bs, hi, hread, rfl⟩
  · exact ⟨rfl, fun _ => ⟨rfl, hrunnable, hdone⟩, fun i hi => by cases hi⟩
  · refine ⟨rfl, fun hnone => (by cases hnone), fun j hj => ?_⟩
    obtain rfl := Option.some.inj hj
    have valid := c.valid.usages u (List.mem_of_getElem? hi)
    obtain ⟨texts, values, e, course, hdone, rfl⟩ := (Usage.read_eq_ok valid).mp hread
    refine ⟨u, texts, values, e, hi, course, hdone, course.map_fst_zip, ?_, ?_,
      course.forall₂_get? valid.distinct⟩
    · rw [course.map_fst_zip]
      exact valid.distinct
    · rw [← List.length_map Prod.fst, course.map_fst_zip, List.length_map]

/-- Three values after an alias, the last of them from quotes. -/
theorem Registry.sample_values_tell : ∃ p,
    sample.current.read "/tell to TRUE \"a b\"" = .ok p ∧ p.usage = some 0 ∧
      p.values.get? "text" = some (.phrase "a b") ∧
      ∃ name d c u texts values e,
        (Graph.lineStart "/tell to TRUE \"a b\"").take? .single = some (name, d) ∧
        sample.current.find? name = some c ∧ c.usages[0]? = some u ∧
        Usage.Course u.arguments d texts values e ∧ e.isDone ∧
        u.arguments.map Argument.id = ["to", "loud", "text"] ∧
        List.Forall₂ (fun a v => p.values.get? a.id = some v) u.arguments values := by
  have facts : (sample.current.read "/tell to TRUE \"a b\"").toOption.map
      (fun p => (p.usage, p.values)) = some (some 0,
        [("to", .literal "to"), ("loud", .boolean true), ("text", .phrase "a b")]) := by
    decide +kernel
  obtain ⟨p, hp, facts⟩ := Except.exists_of_map_toOption facts
  obtain ⟨husage, hvalues⟩ := Prod.mk.inj facts
  obtain ⟨name, d, c, htake, hfind, -, -, hsome⟩ := Graph.values_of_read hp
  obtain ⟨u, texts, values, e, hu, course, hdone, hkeys, -, -, hget⟩ := hsome 0 husage
  refine ⟨p, hp, husage, ?_, name, d, c, u, texts, values, e, htake, hfind, hu, course, hdone, ?_,
    hget⟩
  · rw [hvalues]
    decide
  · rw [← hkeys, hvalues]
    rfl

end CommandGrammar
