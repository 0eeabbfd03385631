import Mathlib.Logic.Relation
import Mathlib.Data.Nat.Notation
import Mathlib.Tactic.Common

/-! Chains of links. Where every link climbs a bounded rank, each chain ends, and none comes back to
    where it was; where every thing has at most one link, it ends in one place. Two chains whose
    members name each other's beginnings lead from each end to the other. -/

namespace Lib
open Relation

variable {α : Type} {R : α → α → Prop}

/-- Following the links from `a` as far as they go leads to `e`. -/
def Ends (R : α → α → Prop) (a e : α) : Prop := ReflTransGen R a e ∧ ∀ b, ¬ R e b

section
variable {rank : α → ℕ} (hrank : ∀ a b, R a b → rank a < rank b)
include hrank

theorem rank_le_of_chain {a b : α} (h : ReflTransGen R a b) : rank a ≤ rank b := by
  induction h with
  | refl => exact Nat.le_refl _
  | tail _ hbc ih => exact Nat.le_trans ih (Nat.le_of_lt (hrank _ _ hbc))

/-- A chain visits nothing twice. -/
theorem acyclic_of_rank (a : α) : ¬ TransGen R a a := by
  intro h
  obtain ⟨b, hab, hba⟩ := TransGen.head'_iff.1 h
  have h1 := hrank a b hab
  have h2 := rank_le_of_chain hrank hba
  omega

theorem exists_end {bound : ℕ} (hbound : ∀ a b, R a b → rank b ≤ bound) (a : α) :
    ∃ e, Ends R a e := by
  induction hk : bound - rank a using Nat.strongRecOn generalizing a with
  | ind k ih =>
    by_cases ha : ∃ b, R a b
    · obtain ⟨b, hab⟩ := ha
      have h1 := hrank a b hab
      have h2 := hbound a b hab
      obtain ⟨e, he, hend⟩ := ih (bound - rank b) (by omega) b rfl
      exact ⟨e, ReflTransGen.head hab he, hend⟩
    · exact ⟨a, ReflTransGen.refl, fun b hab => ha ⟨b, hab⟩⟩

end

/-- With one link at most from each thing, the end is unique. -/
theorem Ends.unique (hfun : ∀ a b c, R a b → R a c → b = c) {a e f : α} (he : Ends R a e)
    (hf : Ends R a f) : e = f := by
  obtain ⟨hae, he⟩ := he
  obtain ⟨haf, hf⟩ := hf
  induction hae using ReflTransGen.head_induction_on with
  | refl =>
    rcases ReflTransGen.cases_head haf with h | ⟨b, hb, -⟩
    · exact h
    · exact absurd hb (he b)
  | @head a b hab _ ih =>
    rcases ReflTransGen.cases_head haf with rfl | ⟨c, hac, hcf⟩
    · exact absurd hab (hf b)
    · exact ih (hfun a c b hac hab ▸ hcf)

/-! ### Twin chains -/

/-- `Mate a p` says that `a` is there and gives `p` as its counterpart. The counterpart is where a
    chain begins; its own counterpart is where the chain of `a` began. -/
structure Twins (R Mate : α → α → Prop) : Prop where
  single : ∀ a p q, Mate a p → Mate a q → p = q
  onward : ∀ a b, R a b → ∃ p, Mate a p ∧ Mate b p
  mate : ∀ a p, Mate a p → ∃ q, Mate p q ∧ Mate q p ∧ p ≠ q ∧ ReflTransGen R q a

namespace Twins
variable {Mate : α → α → Prop} (h : Twins R Mate)
include h

/-- All along a chain the counterpart is the same. -/
theorem mate_of_chain {a b p : α} (hab : ReflTransGen R a b) (ha : Mate a p) : Mate b p := by
  induction hab with
  | refl => exact ha
  | tail _ hbc ih =>
    obtain ⟨q, hb, hc⟩ := h.onward _ _ hbc
    exact h.single _ _ _ ih hb ▸ hc

/-- From the end of a chain, the counterpart leads to another end, and the counterpart of that one
    leads back. -/
theorem ends_meet (hend : ∀ a, ∃ e, Ends R a e) {e p : α} (he : Mate e p)
    (hlast : ∀ b, ¬ R e b) :
    ∃ f q, Ends R p f ∧ Mate f q ∧ Ends R q e ∧ e ≠ f := by
  obtain ⟨q, hp, hq, hpq, hchain⟩ := h.mate e p he
  obtain ⟨f, hf⟩ := hend p
  have hfq := h.mate_of_chain hf.1 hp
  refine ⟨f, q, hf, hfq, ⟨hchain, hlast⟩, ?_⟩
  rintro rfl
  exact hpq (h.single _ _ _ he hfq)

end Twins
end Lib
