import Mathlib.Data.List.Forall2
import Mathlib.Tactic.Common

/-! Checked computations: a program in `Except ε` whose assertions raise `ε`. `check` is an assertion
    on a decidable condition, `orFail` one on a lookup; the lemmas peel a successful run apart one
    statement at a time. -/

namespace Lib

variable {ε α β : Type}

/-- Assert `p`, failing with `e`. -/
def check (p : Prop) [Decidable p] (e : ε) : Except ε Unit := if p then .ok () else .error e

/-- The value of a lookup, failing with `e` when there is none. -/
def orFail (o : Option α) (e : ε) : Except ε α :=
  match o with
  | some a => .ok a
  | none => .error e

@[simp, grind =] theorem bind_eq_ok {x : Except ε α} {f : α → Except ε β} {b : β} :
    (x >>= f) = .ok b ↔ ∃ a, x = .ok a ∧ f a = .ok b := by
  cases x <;> simp [bind, Except.bind]

theorem ok_bind (a : α) (f : α → Except ε β) : (Except.ok a >>= f) = f a := rfl

@[simp, grind =] theorem map_eq_ok {x : Except ε α} {f : α → β} {b : β} :
    (f <$> x) = .ok b ↔ ∃ a, x = .ok a ∧ f a = b := by
  cases x <;> simp [Functor.map, Except.map]

@[simp] theorem map_eq_error {x : Except ε α} {f : α → β} {e : ε} :
    (f <$> x) = .error e ↔ x = .error e := by
  cases x <;> simp [Functor.map, Except.map]

theorem bind_eq_error {x : Except ε α} {f : α → Except ε β} {e : ε} :
    (x >>= f) = .error e ↔ x = .error e ∨ ∃ a, x = .ok a ∧ f a = .error e := by
  cases x <;> simp [bind, Except.bind]

@[simp, grind =] theorem check_eq_ok {p : Prop} [Decidable p] {e : ε} {u : Unit} :
    check p e = .ok u ↔ p := by
  by_cases h : p <;> simp [check, h]

@[simp, grind =] theorem check_eq_error {p : Prop} [Decidable p] {e e' : ε} :
    check p e = .error e' ↔ ¬ p ∧ e = e' := by
  by_cases h : p <;> simp [check, h]

@[simp, grind =] theorem orFail_eq_ok {o : Option α} {e : ε} {a : α} :
    orFail o e = .ok a ↔ o = some a := by
  cases o <;> simp [orFail]

@[simp, grind =] theorem orFail_eq_error {o : Option α} {e e' : ε} :
    orFail o e = .error e' ↔ o = none ∧ e = e' := by
  cases o <;> simp [orFail]

@[simp, grind =] theorem pure_eq_ok {a b : α} : (pure a : Except ε α) = .ok b ↔ a = b := by
  simp [pure, Except.pure]

@[simp, grind =] theorem throw_ne_ok {e : ε} {a : α} : (throw e : Except ε α) = .ok a ↔ False := by
  simp [throw, throwThe, MonadExceptOf.throw]

/-- A loop that succeeds has succeeded on each element. -/
theorem mapM_eq_ok {f : α → Except ε β} {l : List α} {r : List β} :
    l.mapM f = .ok r ↔ List.Forall₂ (fun a b => f a = .ok b) l r := by
  induction l generalizing r with
  | nil => rw [List.mapM_nil, pure_eq_ok, List.forall₂_nil_left_iff, eq_comm]
  | cons a l ih =>
    rw [List.mapM_cons, bind_eq_ok]
    constructor
    · rintro ⟨b, hb, h⟩
      rw [bind_eq_ok] at h
      obtain ⟨bs, hbs, h⟩ := h
      rw [pure_eq_ok] at h
      exact h ▸ .cons hb (ih.1 hbs)
    · rintro (_ | ⟨hb, hbs⟩)
      exact ⟨_, hb, bind_eq_ok.2 ⟨_, ih.2 hbs, rfl⟩⟩

theorem pure_ne_error {a : α} {e : ε} : (pure a : Except ε α) ≠ .error e := by
  simp [pure, Except.pure]

theorem throw_eq_error {e e' : ε} : (throw e : Except ε α) = .error e' ↔ e = e' := by
  simp [throw, throwThe, MonadExceptOf.throw]

/-! ### Which errors -/

/-- Whatever error `x` ends with, `P` holds of it. -/
def Raises (P : ε → Prop) (x : Except ε α) : Prop := ∀ e, x = .error e → P e

section
variable {P : ε → Prop}

@[simp] theorem raises_pure (a : α) : Raises P (pure a : Except ε α) :=
  fun _ h => absurd h pure_ne_error

@[simp] theorem raises_throw {e : ε} : Raises P (throw e : Except ε α) ↔ P e := by
  simp [Raises, throw_eq_error]

@[simp] theorem raises_check {p : Prop} [Decidable p] {e : ε} : Raises P (check p e) ↔ ¬ p → P e := by
  simp [Raises]

@[simp] theorem raises_orFail {o : Option α} {e : ε} : Raises P (orFail o e) ↔ o = none → P e := by
  simp [Raises]

@[simp] theorem raises_map {x : Except ε α} {f : α → β} : Raises P (f <$> x) ↔ Raises P x := by
  simp [Raises]

@[simp] theorem raises_bind {x : Except ε α} {f : α → Except ε β} :
    Raises P (x >>= f) ↔ Raises P x ∧ ∀ a, x = .ok a → Raises P (f a) := by
  cases x <;> simp [Raises, bind, Except.bind]

end
end Lib
