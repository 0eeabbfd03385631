import Mathlib.Logic.Relation
import Mathlib.Order.Basic

/-! Lock ordering. When locks have levels, and a thread only ever waits for a lock above all those it
    holds, no thread waits for itself through others. -/

namespace Lib

variable {Thread Lock ι : Type} [Preorder ι]

/-- Thread `τ` wants a lock that `σ` holds. -/
def WaitsFor (wants holds : Thread → Lock → Prop) (τ σ : Thread) : Prop := ∃ l, wants τ l ∧ holds σ l

variable {wants holds : Thread → Lock → Prop}

/-- Along a path of waiting threads the locks climb. -/
theorem WaitsFor.climbs {level : Lock → ι}
    (order : ∀ τ l k, wants τ l → holds τ k → level k < level l) {τ σ : Thread}
    (h : Relation.TransGen (WaitsFor wants holds) τ σ) :
    ∃ l k, wants τ l ∧ holds σ k ∧ level l ≤ level k := by
  induction h with
  | single h =>
    obtain ⟨l, hw, hh⟩ := h
    exact ⟨l, l, hw, hh, le_rfl⟩
  | tail _ h ih =>
    obtain ⟨l, k, hw, hk, hle⟩ := ih
    obtain ⟨j, hj, hh⟩ := h
    exact ⟨l, j, hw, hh, hle.trans (order _ j k hj hk).le⟩

theorem WaitsFor.acyclic {level : Lock → ι}
    (order : ∀ τ l k, wants τ l → holds τ k → level k < level l) (τ : Thread) :
    ¬ Relation.TransGen (WaitsFor wants holds) τ τ := by
  intro h
  obtain ⟨l, k, hw, hk, hle⟩ := WaitsFor.climbs order h
  exact lt_irrefl _ ((order τ l k hw hk).trans_le hle)

end Lib
