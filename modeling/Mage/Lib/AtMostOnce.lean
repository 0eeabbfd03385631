import Mage.Lib.Table
import Mathlib.Data.Multiset.Count
import Mathlib.Data.Nat.Notation

/-! Linear bookkeeping. A thing that may be moved but never copied is counted over all the places it
    can be in; `AtMostOnce` says that the counts add up to at most one, without a sum over the places.
    The lemmas cover the ways a step moves things: within a place, from one place to another, and
    out of nowhere when the thing is new. -/

namespace Lib

variable {π : Type}

/-- Whatever is counted by `f` is in at most one place, and there at most once. -/
def AtMostOnce (f : π → ℕ) : Prop := ∀ p q, 0 < f p → 0 < f q → p = q ∧ f p = 1

namespace AtMostOnce
variable {f f' : π → ℕ}

theorem zero (h : ∀ p, f p = 0) : AtMostOnce f := fun p _ hp => absurd (h p) (by omega)

theorem mono (hf : AtMostOnce f) (h : ∀ p, f' p ≤ f p) : AtMostOnce f' := by
  intro p q hp hq
  have h1 := hf p q (by have := h p; omega) (by have := h q; omega)
  have := h p
  exact ⟨h1.1, by omega⟩

/-- What leaves place `p` may enter place `q`. -/
theorem transfer (hf : AtMostOnce f) (p q : π) (hne : p ≠ q)
    (h : ∀ r, r ≠ p → r ≠ q → f' r ≤ f r) (hpq : f' p + f' q ≤ f p + f q) : AtMostOnce f' := by
  have both : ¬ (0 < f p ∧ 0 < f q) := fun ⟨h1, h2⟩ => hne (hf p q h1 h2).1
  have one : f p + f q ≤ 1 := by
    by_cases h1 : 0 < f p
    · have := (hf p p h1 h1).2
      have : f q = 0 := by
        by_contra hq
        exact both ⟨h1, by omega⟩
      omega
    · by_cases h2 : 0 < f q
      · have := (hf q q h2 h2).2; omega
      · omega
  have away : ∀ r, r ≠ p → r ≠ q → 0 < f' r → 0 < f p + f q → False := by
    intro r hp hq hr hpos
    have hr' : 0 < f r := by have := h r hp hq; omega
    rcases Nat.eq_zero_or_pos (f p) with h0 | h1
    · exact hq (hf r q hr' (by omega)).1
    · exact hp (hf r p hr' h1).1
  intro a b ha hb
  by_cases hap : a = p <;> by_cases haq : a = q
  · exact absurd (hap.symm.trans haq) hne
  · subst hap
    by_cases hbp : b = a
    · subst hbp; exact ⟨rfl, by omega⟩
    · by_cases hbq : b = q
      · subst hbq; omega
      · exact absurd (away b hbp hbq hb (by omega)) id
  · subst haq
    by_cases hbq : b = a
    · subst hbq; exact ⟨rfl, by omega⟩
    · by_cases hbp : b = p
      · subst hbp; omega
      · exact absurd (away b hbp hbq hb (by omega)) id
  · by_cases hbp : b = p
    · subst hbp; exact absurd (away a hap haq ha (by omega)) id
    · by_cases hbq : b = q
      · subst hbq; exact absurd (away a hap haq ha (by omega)) id
      · have h1 := hf a b (by have := h a hap haq; omega) (by have := h b hbp hbq; omega)
        have := h a hap haq
        exact ⟨h1.1, by omega⟩

/-- A thing that was nowhere may appear in one place. -/
theorem fresh (p : π) (h0 : ∀ r, r ≠ p → f' r = 0) (h1 : f' p ≤ 1) : AtMostOnce f' := by
  have key : ∀ r, 0 < f' r → r = p := by
    intro r hr
    by_contra hne
    have := h0 r hne
    omega
  intro a b ha hb
  rw [key a ha, key b hb]
  have := key a ha ▸ ha
  exact ⟨rfl, by omega⟩

theorem eq_zero (hf : AtMostOnce f) {p q : π} (hp : 0 < f p) (hq : q ≠ p) : f q = 0 := by
  by_contra h
  exact hq (hf q p (by omega) hp).1

theorem le_one (hf : AtMostOnce f) (p : π) : f p ≤ 1 := by
  by_contra h
  have := (hf p p (by omega) (by omega)).2
  omega

end AtMostOnce
end Lib
