import CommandGrammar.Line.Parsed

/-!
# The course of a reading

A usage is read argument by argument. As long as all goes well, each argument takes the piece of its
span from where the one before it left the line, and makes a value of it (`Course`). In the end the
line is used up together with the arguments, or something is in the way (`Halt`): text that no
argument is left for, an argument that no text is left for, a piece that is rejected.

Every reading is one or the other (`course_or_halt`), and the two say all about it: what a usage
reads (`read_eq_ok`), and how far it came where it does not (`read_eq_error`).
-/

namespace CommandGrammar

namespace Bindings

/-- The bindings with the new ones put in, one after another. -/
def insertAll (bs new : Bindings) : Bindings :=
  new.foldl (fun bs e => bs.insert e.1 e.2) bs

/-- New bindings of different ids stay what they are, in their order. -/
theorem insertAll_of_nodup :
    ∀ {bs new : Bindings}, ((bs ++ new).map Prod.fst).Nodup → bs.insertAll new = bs ++ new
  | bs, [], _ => (List.append_nil bs).symm
  | bs, e :: new, h => by
    have hfree : bs.insert e.1 e.2 = bs ++ [e] := by
      rw [insert, List.filter_eq_self.mpr]
      intro b hb
      rw [List.map_append, List.map_cons, List.nodup_append] at h
      simpa using h.2.2 b.1 (List.mem_map_of_mem hb) e.1 List.mem_cons_self
    have happend : bs ++ e :: new = (bs ++ [e]) ++ new := by simp
    rw [happend] at h ⊢
    rw [← insertAll_of_nodup h, ← hfree]
    rfl

end Bindings

namespace Usage

/-- From the first cursor to the second, the arguments take these texts and make these values of
them. -/
inductive Course : List Argument → Cursor → List String → List Value → Cursor → Prop
  | nil (c : Cursor) : Course [] c [] [] c
  | cons {a : Argument} {args : List Argument} {text : String} {texts : List String} {v : Value}
      {values : List Value} {c d e : Cursor} : c.take? a.span = some (text, d) →
      a.read text = .ok v → Course args d texts values e →
      Course (a :: args) c (text :: texts) (v :: values) e

/-- Why these arguments cannot go on from the cursor, and the rejection that says so. -/
inductive Halt : List Argument → Cursor → Rejection → Prop
  | trailing {c : Cursor} : c.isDone = false → Halt [] c ⟨.trailingInput, c.remaining⟩
  | missing {a : Argument} {args : List Argument} {c : Cursor} : c.take? a.span = none →
      Halt (a :: args) c ⟨.missingArgument a.id, ""⟩
  | rejected {a : Argument} {args : List Argument} {text : String} {r : Rejection}
      {c d : Cursor} : c.take? a.span = some (text, d) → a.read text = .error r →
      Halt (a :: args) c r

/-- The usage gets through as many arguments as the mismatch says, and is stopped by its
rejection. -/
def Stops (u : Usage) (c : Cursor) (m : Mismatch) : Prop :=
  ∃ before after texts values d, u.arguments = before ++ after ∧
    Course before c texts values d ∧ Halt after d m.rejection ∧ m.progress = before.length

namespace Course

variable {args : List Argument} {texts : List String} {values : List Value} {c d : Cursor}

theorem length_values (h : Course args c texts values d) : values.length = args.length := by
  induction h with
  | nil => rfl
  | cons _ _ _ ih => rw [List.length_cons, List.length_cons, ih]

/-- What goes well is read, and reading goes on from there. -/
theorem readFrom (h : Course args c texts values d) (progress : Nat) (found : Bindings)
    (more : List Argument) :
    Usage.readFrom progress found (args ++ more) c =
      Usage.readFrom (progress + args.length)
        (found.insertAll ((args.map Argument.id).zip values)) more d := by
  induction h generalizing progress found with
  | nil => rfl
  | @cons a args text texts v values c d e htake hread _ ih =>
    rw [List.cons_append, Usage.readFrom, htake]
    simp only [hread]
    rw [ih, List.length_cons, Nat.add_right_comm, Nat.add_assoc]
    rfl

end Course

theorem Halt.readFrom {args : List Argument} {c : Cursor} {r : Rejection} (h : Halt args c r)
    (progress : Nat) (found : Bindings) :
    Usage.readFrom progress found args c = .error ⟨progress, r⟩ := by
  cases h with
  | trailing hdone => simp [hdone]
  | missing htake => simp [htake]
  | rejected htake hread => simp [htake, hread]

/-- The arguments get through to the end of the line, or up to where something is in the way. -/
theorem course_or_halt :
    ∀ (args : List Argument) (c : Cursor),
      (∃ texts values d, Course args c texts values d ∧ d.isDone) ∨
        ∃ before after texts values d r, args = before ++ after ∧
          Course before c texts values d ∧ Halt after d r
  | [], c => by
    cases hdone : c.isDone with
    | true => exact .inl ⟨[], [], c, .nil c, hdone⟩
    | false => exact .inr ⟨[], [], [], [], c, _, rfl, .nil c, .trailing hdone⟩
  | a :: args, c => by
    cases htake : c.take? a.span with
    | none => exact .inr ⟨[], a :: args, [], [], c, _, rfl, .nil c, .missing htake⟩
    | some taken =>
      obtain ⟨text, d⟩ := taken
      cases hread : a.read text with
      | error r => exact .inr ⟨[], a :: args, [], [], c, _, rfl, .nil c, .rejected htake hread⟩
      | ok v =>
        rcases course_or_halt args d with ⟨texts, values, e, course, hdone⟩ |
          ⟨before, after, texts, values, e, r, rfl, course, halt⟩
        · exact .inl ⟨_, _, e, .cons htake hread course, hdone⟩
        · exact .inr ⟨a :: before, after, _, _, e, r, rfl, .cons htake hread course, halt⟩

variable {args : List Argument} {progress : Nat} {found bs : Bindings} {c : Cursor}

theorem readFrom_of_course {texts : List String} {values : List Value} {d : Cursor}
    (h : Course args c texts values d) (hdone : d.isDone) :
    readFrom progress found args c =
      .ok (found.insertAll ((args.map Argument.id).zip values)) := by
  have hread := h.readFrom progress found []
  rw [List.append_nil] at hread
  simp [hread, hdone]

/-- A usage that is stopped tells how many arguments went well. -/
theorem readFrom_of_halt {before after : List Argument} {texts : List String}
    {values : List Value} {d : Cursor} {r : Rejection} (h : Course before c texts values d)
    (halt : Halt after d r) :
    readFrom progress found (before ++ after) c = .error ⟨progress + before.length, r⟩ := by
  rw [h.readFrom, halt.readFrom]

/-- A usage reads nothing but what its arguments get through to the end of. -/
theorem readFrom_eq_ok :
    readFrom progress found args c = .ok bs ↔ ∃ texts values d, Course args c texts values d ∧
      d.isDone ∧ bs = found.insertAll ((args.map Argument.id).zip values) := by
  constructor
  · intro h
    rcases course_or_halt args c with ⟨texts, values, d, course, hdone⟩ |
      ⟨before, after, texts, values, d, r, rfl, course, halt⟩
    · rw [readFrom_of_course course hdone] at h
      exact ⟨texts, values, d, course, hdone, (Except.ok.inj h).symm⟩
    · rw [readFrom_of_halt course halt] at h
      cases h
  · rintro ⟨texts, values, d, course, hdone, rfl⟩
    exact readFrom_of_course course hdone

variable {u : Usage}

/-- A usage reads a line if its arguments get through to the end, and gives each its value. -/
theorem read_eq_ok (valid : Valid u.arguments) :
    u.read c = .ok bs ↔ ∃ texts values d, Course u.arguments c texts values d ∧
      d.isDone ∧ bs = (u.arguments.map Argument.id).zip values := by
  have hall : ∀ {texts : List String} {values : List Value} {d : Cursor},
      Course u.arguments c texts values d →
        Bindings.insertAll [] ((u.arguments.map Argument.id).zip values) =
          (u.arguments.map Argument.id).zip values := fun course => by
    refine Bindings.insertAll_of_nodup ?_
    rw [List.nil_append, List.map_fst_zip (by simp [course.length_values])]
    exact valid.distinct
  rw [read, readFrom_eq_ok]
  constructor
  · rintro ⟨texts, values, d, course, hdone, rfl⟩
    exact ⟨texts, values, d, course, hdone, hall course⟩
  · rintro ⟨texts, values, d, course, hdone, rfl⟩
    exact ⟨texts, values, d, course, hdone, (hall course).symm⟩

/-- A usage that does not read a line tells where it was stopped, and by what. -/
theorem read_eq_error {m : Mismatch} : u.read c = .error m ↔ u.Stops c m := by
  unfold read
  constructor
  · intro h
    rcases course_or_halt u.arguments c with ⟨texts, values, d, course, hdone⟩ |
      ⟨before, after, texts, values, d, r, hargs, course, halt⟩
    · rw [readFrom_of_course course hdone] at h
      cases h
    · rw [hargs, readFrom_of_halt course halt, Nat.zero_add] at h
      cases h
      exact ⟨before, after, texts, values, d, hargs, course, halt, rfl⟩
  · rintro ⟨before, after, texts, values, d, hargs, course, halt, hprogress⟩
    rw [hargs, readFrom_of_halt course halt, Nat.zero_add, ← hprogress]

end Usage

end CommandGrammar
