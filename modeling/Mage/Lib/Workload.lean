import Mathlib.Algebra.BigOperators.Group.Finset.Basic
import Mathlib.Algebra.Order.BigOperators.Group.Finset
import Mage.Lib.Run

/-! Work that gets less. If every allowed step leaves less work to do, a run is at most as long as there
    was work to do at its start. Work is a sum over the places where it lies, and a step changes it
    at few of them. -/

namespace Lib

/-! ### Sums that change in one place -/

section
variable {ι : Type} [DecidableEq ι] {F : Finset ι} {f g : ι → ℕ} {i : ι}

/-- A sum of which one summand changes. -/
theorem sum_change (hi : i ∈ F) (h : ∀ j ∈ F, j ≠ i → g j = f j) :
    ∑ j ∈ F, g j + f i = ∑ j ∈ F, f j + g i := by
  have hrest : ∑ j ∈ F.erase i, g j = ∑ j ∈ F.erase i, f j :=
    Finset.sum_congr rfl fun j hj => h j (Finset.mem_of_mem_erase hj) (Finset.ne_of_mem_erase hj)
  rw [← Finset.add_sum_erase F f hi, ← Finset.add_sum_erase F g hi, hrest]
  omega

/-- Whether or not the summand counts, it adds no more than it is. -/
theorem sum_change_le (h : ∀ j ∈ F, j ≠ i → g j = f j) :
    ∑ j ∈ F, g j ≤ ∑ j ∈ F, f j + (g i - f i) := by
  by_cases hi : i ∈ F
  · have hsum := sum_change hi h
    omega
  · rw [Finset.sum_congr rfl fun j hj => h j hj (ne_of_mem_of_not_mem hj hi)]
    exact Nat.le_add_right _ _

end

/-! ### Runs and their length -/

variable {σ α : Type}

/-- States reached from `init` by a run of `k` steps that `ok` allows. -/
inductive ReachesIn (next : σ → α → σ → Prop) (ok : σ → α → Prop) (init : σ) : ℕ → σ → Prop where
  | init : ReachesIn next ok init 0 init
  | step {k : ℕ} {s s' : σ} {l : α} (run : ReachesIn next ok init k s) (allowed : ok s l)
      (move : next s l s') : ReachesIn next ok init (k + 1) s'

namespace ReachesIn
variable {next : σ → α → σ → Prop} {ok : σ → α → Prop} {init s : σ} {k : ℕ}

/-- As long as `P` and `Q` hold, each step takes some work away; so a run is bounded by the work at its
    start. `P` is kept by each step; `Q` holds before a step if it holds after. -/
theorem length_le (P Q : σ → Prop) (work : σ → ℕ) (h0 : P init)
    (hstep : ∀ s l s', P s → ok s l → next s l s' → P s' ∧ (Q s' → Q s ∧ work s' < work s))
    (h : ReachesIn next ok init k s) : P s ∧ (Q s → k + work s ≤ work init) := by
  induction h with
  | init => exact ⟨h0, fun _ => by omega⟩
  | step run allowed move ih =>
    obtain ⟨hs, hle⟩ := ih
    obtain ⟨hs', hlt⟩ := hstep _ _ _ hs allowed move
    refine ⟨hs', fun hq' => ?_⟩
    obtain ⟨hq, hlt⟩ := hlt hq'
    have hle := hle hq
    omega

variable {ok' : σ → α → Prop}

theorem mono (hok : ∀ s l, ok s l → ok' s l) (h : ReachesIn next ok init k s) :
    ReachesIn next ok' init k s := by
  induction h with
  | init => exact .init
  | step _ allowed move ih => exact .step ih (hok _ _ allowed) move

/-- A run goes on where another one led. -/
theorem reaches {start : σ} (hstart : Reaches next ok' start init) (hok : ∀ s l, ok s l → ok' s l)
    (h : ReachesIn next ok init k s) : Reaches next ok' start s := by
  induction h with
  | init => exact hstart
  | step _ allowed move ih => exact .step ih (hok _ _ allowed) move

end ReachesIn
end Lib
