import CompactFont.Fault

/-!
# Computations that succeed

What a computation that can fail says when it is known to have succeeded: each of its steps did. Two
computations that begin with the same step come to the same if they do so where it succeeds.

A computation extends another one if it succeeds wherever the other one does, with the same value
(`Extends`). Steps that extend each other one by one make up computations that do.

Two computations are related if they fail alike or succeed with values that are (`Related`). This is
kept from step to step as well.
-/

namespace CompactFont

variable {ε α β γ δ : Type}

theorem ok_ne_error {a : α} {e : ε} : (.ok a : Except ε α) ≠ .error e := by
  intro h
  cases h

theorem bind_eq_ok {x : Except ε α} {f : α → Except ε β} {b : β} :
    x >>= f = .ok b ↔ ∃ a, x = .ok a ∧ f a = .ok b := by
  cases x with
  | error e => simp [bind, Except.bind]
  | ok a => simp [bind, Except.bind]

theorem map_eq_ok {x : Except ε α} {f : α → β} {b : β} :
    f <$> x = .ok b ↔ ∃ a, x = .ok a ∧ f a = b := by
  cases x with
  | error e => simp [Functor.map, Except.map]
  | ok a => simp [Functor.map, Except.map]

theorem bind_eq_error {x : Except ε α} {f : α → Except ε β} {e : ε} :
    x >>= f = .error e ↔ x = .error e ∨ ∃ a, x = .ok a ∧ f a = .error e := by
  cases x with
  | error e => simp [bind, Except.bind]
  | ok a => simp [bind, Except.bind]

theorem bind_pure_eq_error {x : Except ε α} {f : α → β} {e : ε} :
    (x >>= fun a => pure (f a)) = .error e ↔ x = .error e := by
  cases x with
  | error e => simp [bind, Except.bind]
  | ok a => simp [bind, Except.bind, pure, Except.pure]

theorem map_eq_error {x : Except ε α} {f : α → β} {e : ε} : f <$> x = .error e ↔ x = .error e := by
  cases x with
  | error e => simp [Functor.map, Except.map]
  | ok a => simp [Functor.map, Except.map]

/-- Two computations that look the same through a function fail alike, or succeed with values that
look the same. -/
theorem ok_or_error_of_map_eq {x y : Except ε α} {f : α → β} (h : f <$> x = f <$> y) :
    (∃ a b, x = .ok a ∧ y = .ok b ∧ f a = f b) ∨ ∃ e, x = .error e ∧ y = .error e := by
  cases x with
  | error e =>
    cases y with
    | error e' =>
      cases h
      exact .inr ⟨e, rfl, rfl⟩
    | ok b => cases h
  | ok a =>
    cases y with
    | error e => cases h
    | ok b => exact .inl ⟨a, b, rfl, rfl, Except.ok.inj h⟩

theorem map_bind_congr {x : Except ε α} {f : α → Except ε β} {g : α → Except ε γ} {h : β → γ}
    (same : ∀ a, x = .ok a → h <$> f a = g a) : h <$> (x >>= f) = x >>= g := by
  cases x with
  | error e => rfl
  | ok a => exact same a rfl

/-- What is made of a list one by one is as long as the list. -/
theorem length_of_mapM_eq_ok {f : α → Except ε β} {list : List α} {made : List β}
    (h : list.mapM f = .ok made) : made.length = list.length := by
  induction list generalizing made with
  | nil =>
    cases h
    rfl
  | cons a list ih =>
    rw [List.mapM_cons] at h
    obtain ⟨b, -, h⟩ := bind_eq_ok.mp h
    obtain ⟨others, hothers, h⟩ := bind_eq_ok.mp h
    cases h
    rw [List.length_cons, List.length_cons, ih hothers]

theorem guard_of {p : Prop} [Decidable p] (h : p) : (guard p : Option Unit) = some () := if_pos h

theorem guard_of_not {p : Prop} [Decidable p] (h : ¬p) : (guard p : Option Unit) = none := if_neg h

/-- A step that can only fail while reading. -/
theorem lift_eq_ok {x : Except ReadFault α} {a : α} :
    (liftM x : Except FontFault α) = .ok a ↔ x = .ok a := by
  cases x with
  | error e => exact ⟨nofun, nofun⟩
  | ok b => exact ⟨fun h => by cases h; rfl, fun h => by cases h; rfl⟩

/-! ### Computations that succeed where others do -/

/-- Where `x` succeeds, `y` does, with the same value. -/
def Extends (x y : Except ε α) : Prop := ∀ a, x = .ok a → y = .ok a

namespace Extends

theorem refl (x : Except ε α) : Extends x x := fun _ h => h

theorem bind {x y : Except ε α} {f g : α → Except ε β} (h : Extends x y)
    (each : ∀ a, Extends (f a) (g a)) : Extends (x >>= f) (y >>= g) := by
  intro b hb
  obtain ⟨a, ha, hb⟩ := bind_eq_ok.mp hb
  exact bind_eq_ok.mpr ⟨a, h a ha, each a b hb⟩

/-- The first step is the same. -/
theorem of_each (x : Except ε α) {f g : α → Except ε β} (each : ∀ a, Extends (f a) (g a)) :
    Extends (x >>= f) (x >>= g) := bind (refl x) each

theorem map {x y : Except ε α} (h : Extends x y) (f : α → β) : Extends (f <$> x) (f <$> y) := by
  intro b hb
  obtain ⟨a, ha, rfl⟩ := map_eq_ok.mp hb
  exact map_eq_ok.mpr ⟨a, h a ha, rfl⟩

theorem mapM {f g : α → Except ε β} (each : ∀ a, Extends (f a) (g a)) (list : List α) :
    Extends (list.mapM f) (list.mapM g) := by
  induction list with
  | nil => exact refl _
  | cons a list ih =>
    rw [List.mapM_cons, List.mapM_cons]
    exact bind (each a) fun b => bind ih fun bs => refl _

end Extends

/-! ### Computations that come to related values -/

/-- Both come to the same fault, or to values that are related. -/
inductive Related (R : α → β → Prop) : Except ε α → Except ε β → Prop where
  /-- To the same fault. -/
  | error (fault : ε) : Related R (.error fault) (.error fault)
  /-- To values that are related. -/
  | ok {a : α} {b : β} (h : R a b) : Related R (.ok a) (.ok b)

namespace Related

variable {R : α → β → Prop} {S : γ → δ → Prop} {x : Except ε α} {y : Except ε β}

theorem bind {f : α → Except ε γ} {g : β → Except ε δ} (h : Related R x y)
    (each : ∀ a b, x = .ok a → y = .ok b → R a b → Related S (f a) (g b)) :
    Related S (x >>= f) (y >>= g) := by
  cases h with
  | error fault => exact .error fault
  | ok h => exact each _ _ rfl rfl h

theorem map {f : α → γ} {g : β → δ} (h : Related R x y) (each : ∀ a b, R a b → S (f a) (g b)) :
    Related S (f <$> x) (g <$> y) := by
  cases h with
  | error fault => exact .error fault
  | ok h => exact .ok (each _ _ h)

theorem mono {R' : α → β → Prop} (h : Related R x y) (each : ∀ a b, R a b → R' a b) :
    Related R' x y := by
  cases h with
  | error fault => exact .error fault
  | ok h => exact .ok (each _ _ h)

/-- Two values that are made of the same one. -/
theorem of_same (x : Except ε α) {f : α → γ} {g : α → δ} (each : ∀ a, x = .ok a → S (f a) (g a)) :
    Related S (f <$> x) (g <$> x) := by
  cases x with
  | error fault => exact .error fault
  | ok a => exact .ok (each a rfl)

end Related

end CompactFont
