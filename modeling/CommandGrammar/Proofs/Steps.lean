import Mathlib.Data.List.Forall2

/-!
# Steps that may fail

What a composed step that succeeded was composed of. Building a graph, changing a registry and
reading a payload are steps with a state (`EStateM`), writing a payload is one without (`Except`);
either way a sequence succeeds exactly when its parts do, one after another.

`EStateM.Keeps` says that a step keeps what holds of the state, also when it fails.
-/

namespace CommandGrammar

universe u

variable {ε σ α β : Type u}

/-! ## Lists side by side -/

/-- Everything on the left is paired with something on the right. -/
theorem exists_right_of_forall₂ {R : α → β → Prop} :
    ∀ {as : List α} {bs : List β}, List.Forall₂ R as bs → ∀ a ∈ as, ∃ b ∈ bs, R a b
  | _, _, .cons (a := a') h hs, a, ha => by
    rcases List.mem_cons.mp ha with rfl | ha
    · exact ⟨_, List.mem_cons_self, h⟩
    · obtain ⟨b, hb, hr⟩ := exists_right_of_forall₂ hs a ha
      exact ⟨b, List.mem_cons_of_mem _ hb, hr⟩

theorem exists_left_of_forall₂ {R : α → β → Prop} {as : List α} {bs : List β}
    (h : List.Forall₂ R as bs) : ∀ b ∈ bs, ∃ a ∈ as, R a b :=
  exists_right_of_forall₂ (R := fun b a => R a b) h.flip

/-- Choosing for each makes a list of choices. -/
theorem exists_forall₂ {R : α → β → Prop} :
    ∀ {as : List α}, (∀ a ∈ as, ∃ b, R a b) → ∃ bs, List.Forall₂ R as bs
  | [], _ => ⟨[], .nil⟩
  | _ :: _, h => by
    obtain ⟨⟨b, hb⟩, has⟩ := List.forall_mem_cons.mp h
    obtain ⟨bs, hbs⟩ := exists_forall₂ has
    exact ⟨b :: bs, .cons hb hbs⟩

theorem map_eq_of_forall₂ {γ : Type u} {f : α → γ} {g : β → γ} {as : List α} {bs : List β}
    (h : List.Forall₂ (fun a b => g b = f a) as bs) : bs.map g = as.map f := by
  induction h with
  | nil => rfl
  | cons he _ ih => rw [List.map_cons, List.map_cons, he, ih]

/-! ## Steps with a state -/

namespace EStateM

/-- Steps in a row succeed if each does, the second where the first has led to. -/
@[simp] theorem bind_eq_ok {x : EStateM ε σ α} {f : α → EStateM ε σ β} {s t : σ} {b : β} :
    (x >>= f) s = .ok b t ↔ ∃ a s', x s = .ok a s' ∧ f a s' = .ok b t := by
  show EStateM.bind x f s = _ ↔ _
  unfold EStateM.bind
  cases x s with
  | ok a s' => simp
  | error e s' => simp

/-- Steps in a row fail at the first that does, with what had changed until then. -/
@[simp] theorem bind_eq_error {x : EStateM ε σ α} {f : α → EStateM ε σ β} {s t : σ} {e : ε} :
    (x >>= f) s = .error e t ↔ x s = .error e t ∨ ∃ a s', x s = .ok a s' ∧ f a s' = .error e t := by
  show EStateM.bind x f s = _ ↔ _
  unfold EStateM.bind
  cases x s with
  | ok a s' => simp
  | error e s' => simp

@[simp] theorem pure_eq_ok {a b : α} {s t : σ} :
    (pure a : EStateM ε σ α) s = .ok b t ↔ a = b ∧ s = t := by
  show EStateM.Result.ok a s = _ ↔ _
  simp

@[simp] theorem modify_eq_ok {f : σ → σ} {s t : σ} {b : PUnit} :
    (modify f : EStateM ε σ PUnit) s = .ok b t ↔ f s = t := by
  show EStateM.Result.ok PUnit.unit (f s) = _ ↔ _
  simp

@[simp] theorem map_eq_ok {x : EStateM ε σ α} {f : α → β} {s t : σ} {b : β} :
    (f <$> x) s = .ok b t ↔ ∃ a, x s = .ok a t ∧ f a = b := by
  show EStateM.map f x s = _ ↔ _
  unfold EStateM.map
  cases x s with
  | ok a s' => simp only [EStateM.Result.ok.injEq]; grind
  | error e s' => simp

@[simp] theorem map_eq_error {x : EStateM ε σ α} {f : α → β} {s t : σ} {e : ε} :
    (f <$> x) s = .error e t ↔ x s = .error e t := by
  show EStateM.map f x s = _ ↔ _
  unfold EStateM.map
  cases x s with
  | ok a s' => simp
  | error e s' => simp

/-- No steps give nothing, and change nothing. -/
theorem mapM_nil_eq_ok {step : α → EStateM ε σ β} {s t : σ} {bs : List β} :
    ([] : List α).mapM step s = .ok bs t ↔ bs = [] ∧ s = t := by
  simp

/-- Steps succeed one after another if the first does, and the others where it has led to. -/
theorem mapM_cons_eq_ok {step : α → EStateM ε σ β} {a : α} {as : List α} {s t : σ}
    {bs : List β} : (a :: as).mapM step s = .ok bs t ↔
      ∃ b s' bs', step a s = .ok b s' ∧ as.mapM step s' = .ok bs' t ∧ bs = b :: bs' := by
  simp only [List.mapM_cons, bind_eq_ok, pure_eq_ok]
  constructor
  · rintro ⟨b, s', h, bs', _, hs, rfl, rfl⟩
    exact ⟨b, s', bs', h, hs, rfl⟩
  · rintro ⟨b, s', bs', h, hs, rfl⟩
    exact ⟨b, s', h, bs', t, hs, rfl, rfl⟩

/-- What holds of the steps done so far, if each step adds itself to it, holds of all of them. -/
theorem forM_induction {step : β → EStateM ε σ PUnit} {xs : List β} {P : List β → σ → Prop}
    {s t : σ}
    (hstep : ∀ {ys : List β} {y : β} {s t : σ}, P ys s → step y s = .ok ⟨⟩ t → P (ys ++ [y]) t)
    (hnil : P [] s) (h : xs.forM step s = .ok ⟨⟩ t) : P xs t := by
  induction xs generalizing P s with
  | nil =>
    obtain ⟨-, rfl⟩ := pure_eq_ok.mp h
    exact hnil
  | cons x xs ih =>
    obtain ⟨⟨⟩, s₁, h₁, h₂⟩ := bind_eq_ok.mp h
    exact ih (P := fun ys => P (x :: ys)) hstep (hstep hnil h₁) h₂

/-- The state that a step leaves. -/
def Result.state : EStateM.Result ε σ α → σ
  | .ok _ s => s
  | .error _ s => s

@[simp] theorem state_map {step : EStateM ε σ α} {f : α → β} {s : σ} :
    Result.state ((f <$> step) s) = Result.state (step s) := by
  show Result.state (EStateM.map f step s) = _
  unfold EStateM.map
  cases step s <;> rfl

/-- Whatever comes of it, the step keeps what holds of the state. -/
def Keeps (holds : σ → Prop) (step : EStateM ε σ α) : Prop :=
  ∀ s, holds s → holds (Result.state (step s))

section

variable {holds : σ → Prop}

theorem keeps_pure (x : α) : Keeps holds (pure x : EStateM ε σ α) :=
  fun _ h => h

theorem keeps_throw (e : ε) : Keeps holds (throw e : EStateM ε σ α) :=
  fun _ h => h

/-- What both steps keep is kept, whether or not the second one is come to. -/
theorem Keeps.bind {step : EStateM ε σ α} {next : α → EStateM ε σ β} (h : Keeps holds step)
    (hnext : ∀ x, Keeps holds (next x)) : Keeps holds (step >>= next) := by
  intro s hs
  show holds (Result.state (EStateM.bind step next s))
  unfold EStateM.bind
  have := h s hs
  cases hstep : step s with
  | ok x s' => exact hnext x s' (by rwa [hstep] at this)
  | error e s' => rwa [hstep] at this

theorem Keeps.map {step : EStateM ε σ α} (f : α → β) (h : Keeps holds step) :
    Keeps holds (f <$> step) := by
  intro s hs
  rw [state_map]
  exact h s hs

end

end EStateM

/-! ## Steps without a state -/

namespace Except

/-- Steps in a row succeed if each does. -/
@[simp] theorem bind_eq_ok {x : Except ε α} {f : α → Except ε β} {b : β} :
    (x >>= f) = .ok b ↔ ∃ a, x = .ok a ∧ f a = .ok b := by
  cases x with
  | ok a => simp [bind, Except.bind]
  | error e => simp [bind, Except.bind]

@[simp] theorem pure_eq_ok {a b : α} : (pure a : Except ε α) = .ok b ↔ a = b := by
  simp [pure, Except.pure]

@[simp] theorem map_eq_ok {x : Except ε α} {f : α → β} {b : β} :
    (f <$> x) = .ok b ↔ ∃ a, x = .ok a ∧ f a = b := by
  cases x with
  | ok a => simp [Functor.map, Except.map]
  | error e => simp [Functor.map, Except.map]

@[simp] theorem map_eq_error {x : Except ε α} {f : α → β} {e : ε} :
    (f <$> x) = .error e ↔ x = .error e := by
  cases x with
  | ok a => simp [Functor.map, Except.map]
  | error e => simp [Functor.map, Except.map]

/-- A list of steps succeeds exactly when each does. -/
theorem mapM_eq_ok {f : α → Except ε β} :
    ∀ {as : List α} {bs : List β}, as.mapM f = .ok bs ↔ List.Forall₂ (fun a b => f a = .ok b) as bs
  | [], bs => by
    rw [List.mapM_nil, List.forall₂_nil_left_iff]
    exact ⟨fun h => (Except.ok.inj h).symm, fun h => h ▸ rfl⟩
  | a :: as, bs => by
    simp only [List.mapM_cons, bind_eq_ok, List.forall₂_cons_left_iff, mapM_eq_ok]
    constructor
    · rintro ⟨b, hb, bs', hbs, h⟩
      exact ⟨b, bs', hb, hbs, (Except.ok.inj h).symm⟩
    · rintro ⟨b, bs', hb, hbs, rfl⟩
      exact ⟨b, hb, bs', hbs, rfl⟩

/-- Steps that give the same results may replace each other, whatever their errors. -/
theorem mapM_eq_ok_congr {f f' : α → Except ε β} {as : List α} {bs : List β}
    (h : ∀ a ∈ as, ∀ b, f a = .ok b ↔ f' a = .ok b) : as.mapM f = .ok bs ↔ as.mapM f' = .ok bs := by
  induction as generalizing bs with
  | nil => rw [List.mapM_nil, List.mapM_nil]
  | cons a as ih =>
    obtain ⟨ha, has⟩ := List.forall_mem_cons.mp h
    simp [ha, ih has]

theorem exists_mapM_eq_ok {f : α → Except ε β}
    {as : List α} (h : ∀ a ∈ as, ∃ b, f a = .ok b) : ∃ bs, as.mapM f = .ok bs := by
  obtain ⟨bs, hbs⟩ := exists_forall₂ h
  exact ⟨bs, mapM_eq_ok.mpr hbs⟩

/-- What is told of the results of two steps, one after the other, on each of a list. -/
theorem map_eq_of_mapM {γ : Type u} {δ : Type u} {f : α → Except ε β} {f' : β → Except ε γ}
    {tell : γ → δ} {of : α → δ} {as : List α} {bs : List β} {cs : List γ} (h : as.mapM f = .ok bs)
    (h' : bs.mapM f' = .ok cs)
    (htell : ∀ a b c, f a = .ok b → f' b = .ok c → tell c = of a) : cs.map tell = as.map of := by
  induction mapM_eq_ok.mp h generalizing cs with
  | nil =>
    obtain rfl := Except.ok.inj h'
    rfl
  | cons hb hbs ih =>
    obtain ⟨c, cs, hc, hcs, rfl⟩ := List.forall₂_cons_left_iff.mp (mapM_eq_ok.mp h')
    rw [List.map_cons, List.map_cons, htell _ _ _ hb hc,
      ih (mapM_eq_ok.mpr hbs) (mapM_eq_ok.mpr hcs)]

/-- What is computed of a result tells that there is one. -/
theorem exists_of_map_toOption {x : Except ε α} {f : α → β} {b : β}
    (h : x.toOption.map f = some b) : ∃ a, x = .ok a ∧ f a = b := by
  cases x with
  | ok a => exact ⟨a, rfl, Option.some.inj h⟩
  | error e => cases h

/-- The error of a step that failed. -/
def error? : Except ε α → Option ε
  | .ok _ => none
  | .error e => some e

/-- The error, if there is one, is that of the result. -/
@[simp] theorem error?_eq_some {x : Except ε α} {e : ε} : error? x = some e ↔ x = .error e := by
  cases x with
  | ok a => simp [error?]
  | error e => simp [error?]

/-- A step on what may be absent is one on a list of one at most. -/
theorem optionMapM_eq_ok {f : α → Except ε β} {o : Option α} {r : Option β} :
    o.mapM f = .ok r ↔ o.toList.mapM f = .ok r.toList := by
  cases o with
  | none => cases r <;> simp
  | some a => cases r <;> simp

end Except

end CommandGrammar
