import Mage.Lib.AtMostOnce
import Mathlib.Data.List.Perm.Basic
import Mathlib.Data.List.Count
import Mathlib.Data.List.Forall2

/-! Ledgers: which tokens lie in which place. A step of a system either swaps some tokens of one
    place for others or transfers tokens from one place to another; the order in which a place lists
    its tokens does not matter. Whatever weight the outgoing tokens have bounds the weight of the
    incoming ones, and so a weight that is in at most one place stays so. -/

namespace Lib

variable {π τ : Type}

/-- Place `P` gives up the tokens `r` and gets the tokens `a`. -/
structure Swap (t t' : π → List τ) (P : π) (r a : List τ) : Prop where
  here : ∃ l, (t P).Perm (l ++ r) ∧ (t' P).Perm (l ++ a)
  away : ∀ R, R ≠ P → (t' R).Perm (t R)

/-- Place `P` gives up the tokens `r`, and place `Q` gets the tokens `b`. -/
structure Transfer (t t' : π → List τ) (P Q : π) (r b : List τ) : Prop where
  ne : P ≠ Q
  source : (t P).Perm (t' P ++ r)
  target : (t' Q).Perm (t Q ++ b)
  away : ∀ R, R ≠ P → R ≠ Q → (t' R).Perm (t R)

/-- The weight of a ledger at each place: how many of its tokens satisfy `φ` there. -/
def weigh (φ : π → τ → Prop) [∀ P, DecidablePred (φ P)] (t : π → List τ) (P : π) : ℕ :=
  (t P).countP (φ P ·)

section
variable {φ : π → τ → Prop} [∀ P, DecidablePred (φ P)] {t : π → List τ} {P : π}

theorem weigh_pos : 0 < weigh φ t P ↔ ∃ x ∈ t P, φ P x := by
  simp [weigh, List.countP_pos_iff]

theorem weigh_eq_zero : weigh φ t P = 0 ↔ ∀ x ∈ t P, ¬ φ P x := by
  simp [weigh, List.countP_eq_zero]

theorem weigh_congr {ψ : π → τ → Prop} [∀ P, DecidablePred (ψ P)]
    (h : ∀ x ∈ t P, φ P x ↔ ψ P x) : weigh φ t P = weigh ψ t P :=
  List.countP_congr fun x hx => by simpa using h x hx

/-- Two tokens that both weigh are one token in one place. -/
theorem AtMostOnce.token_eq (h : AtMostOnce (weigh φ t)) {Q : π} {x y : τ} (hx : x ∈ t P)
    (hφ : φ P x) (hy : y ∈ t Q) (hψ : φ Q y) : P = Q ∧ x = y := by
  obtain ⟨rfl, h1⟩ := h P Q (weigh_pos.2 ⟨x, hx, hφ⟩) (weigh_pos.2 ⟨y, hy, hψ⟩)
  refine ⟨rfl, ?_⟩
  rw [weigh, List.countP_eq_length_filter, List.length_eq_one_iff] at h1
  obtain ⟨z, hz⟩ := h1
  have hx' : x ∈ (t P).filter (φ P ·) := List.mem_filter.2 ⟨hx, by simpa using hφ⟩
  have hy' : y ∈ (t P).filter (φ P ·) := List.mem_filter.2 ⟨hy, by simpa using hψ⟩
  rw [hz, List.mem_singleton] at hx' hy'
  rw [hx', hy']

end

section
variable {α β : Type} {p : β → Bool}

/-- What counts is at one place of the list. -/
theorem index_eq_of_countP {l : List β} (h : l.countP p ≤ 1) {a b : ℕ} {u v : β}
    (ha : l[a]? = some u) (hu : p u) (hb : l[b]? = some v) (hv : p v) : a = b := by
  induction l generalizing a b with
  | nil => cases ha
  | cons c l ih =>
    rw [List.countP_cons] at h
    have pos : ∀ {k w}, l[k]? = some w → p w → 0 < l.countP p := fun hk hw =>
      List.countP_pos_iff.2 ⟨_, List.mem_of_getElem? hk, hw⟩
    cases a with
    | zero =>
      cases b with
      | zero => rfl
      | succ b =>
        have := pos hb hv
        cases ha
        rw [if_pos hu] at h
        omega
    | succ a =>
      cases b with
      | zero =>
        have := pos ha hu
        cases hb
        rw [if_pos hv] at h
        omega
      | succ b => rw [ih (by omega) ha hb]

/-- In lists that follow one another, what counts is in one of them, at one place. -/
theorem indices_eq_of_countP {f : α → List β} {l : List α} (h : (l.flatMap f).countP p ≤ 1)
    {i j a b : ℕ} {x y : α} {u v : β} (hi : l[i]? = some x) (ha : (f x)[a]? = some u) (hu : p u)
    (hj : l[j]? = some y) (hb : (f y)[b]? = some v) (hv : p v) : i = j ∧ a = b := by
  induction l generalizing i j with
  | nil => cases hi
  | cons z l ih =>
    rw [List.flatMap_cons, List.countP_append] at h
    have pos : ∀ {k w c r}, l[k]? = some w → (f w)[c]? = some r → p r →
        0 < (l.flatMap f).countP p := fun hk hc hr => List.countP_pos_iff.2
      ⟨_, List.mem_flatMap.2 ⟨_, List.mem_of_getElem? hk, List.mem_of_getElem? hc⟩, hr⟩
    have here : ∀ {c r}, (f z)[c]? = some r → p r → 0 < (f z).countP p := fun hc hr =>
      List.countP_pos_iff.2 ⟨_, List.mem_of_getElem? hc, hr⟩
    cases i with
    | zero =>
      cases hi
      have hz := here ha hu
      cases j with
      | zero =>
        cases hj
        exact ⟨rfl, index_eq_of_countP (by omega) ha hu hb hv⟩
      | succ j =>
        have := pos hj hb hv
        omega
    | succ i =>
      have hl := pos hi ha hu
      cases j with
      | zero =>
        cases hj
        have := here hb hv
        omega
      | succ j =>
        obtain ⟨rfl, rfl⟩ := ih (by omega) hi hj
        exact ⟨rfl, rfl⟩

end

namespace Swap
variable {t t' : π → List τ} {P : π} {r a : List τ}

theorem mem (h : Swap t t' P r a) {R : π} {x : τ} (hx : x ∈ t' R) :
    x ∈ t R ∨ (R = P ∧ x ∈ a) := by
  by_cases hR : R = P
  · subst hR
    obtain ⟨l, h1, h2⟩ := h.here
    rcases List.mem_append.1 (h2.mem_iff.1 hx) with hl | ha
    · exact .inl (h1.mem_iff.2 (List.mem_append_left _ hl))
    · exact .inr ⟨rfl, ha⟩
  · exact .inl ((h.away R hR).mem_iff.1 hx)

/-- What stays: every token that is not given up. -/
theorem stays (h : Swap t t' P r a) {R : π} {x : τ} (hx : x ∈ t R) (hr : x ∉ r) : x ∈ t' R := by
  by_cases hR : R = P
  · subst hR
    obtain ⟨l, h1, h2⟩ := h.here
    rcases List.mem_append.1 (h1.mem_iff.1 hx) with hl | hx
    · exact h2.mem_iff.2 (List.mem_append_left _ hl)
    · exact absurd hx hr
  · exact (h.away R hR).mem_iff.2 hx

theorem mem_given (h : Swap t t' P r a) {x : τ} (hx : x ∈ r) : x ∈ t P := by
  obtain ⟨l, h1, -⟩ := h.here
  exact h1.mem_iff.2 (List.mem_append_right _ hx)

theorem mem_gained (h : Swap t t' P r a) {x : τ} (hx : x ∈ a) : x ∈ t' P := by
  obtain ⟨l, -, h2⟩ := h.here
  exact h2.mem_iff.2 (List.mem_append_right _ hx)

/-- When nothing is gained, something may be lost. -/
theorem subperm (h : Swap t t' P r []) (R : π) : (t' R).Subperm (t R) := by
  by_cases hR : R = P
  · subst hR
    obtain ⟨l, h1, h2⟩ := h.here
    rw [List.append_nil] at h2
    exact h2.subperm.trans ((List.sublist_append_left l r).subperm.trans h1.symm.subperm)
  · exact (h.away R hR).subperm

section
variable (φ : π → τ → Prop) [∀ P, DecidablePred (φ P)]

theorem weigh_away (h : Swap t t' P r a) {R : π} (hR : R ≠ P) : weigh φ t' R = weigh φ t R :=
  (h.away R hR).countP_eq _

theorem weigh_here (h : Swap t t' P r a) :
    weigh φ t' P + r.countP (φ P ·) = weigh φ t P + a.countP (φ P ·) := by
  obtain ⟨l, h1, h2⟩ := h.here
  rw [weigh, weigh, h1.countP_eq, h2.countP_eq, List.countP_append, List.countP_append]
  omega

end

variable {φ : π → τ → Prop} [∀ P, DecidablePred (φ P)]

theorem atMostOnce (h : Swap t t' P r a) (ho : AtMostOnce (weigh φ t))
    (hle : a.countP (φ P ·) ≤ r.countP (φ P ·)) : AtMostOnce (weigh φ t') := by
  refine ho.mono fun R => ?_
  by_cases hR : R = P
  · subst hR
    have := h.weigh_here φ
    omega
  · rw [h.weigh_away φ hR]

/-- A token that weighs may appear if nothing weighed before. -/
theorem atMostOnce_fresh (h : Swap t t' P r a) (h0 : ∀ R, weigh φ t R = 0)
    (hle : a.countP (φ P ·) ≤ 1) : AtMostOnce (weigh φ t') := by
  refine .fresh P (fun R hR => by rw [h.weigh_away φ hR, h0]) ?_
  have := h.weigh_here φ
  have := h0 P
  omega

/-- When the only token that weighs is given up, none is left. -/
theorem consumed (h : Swap t t' P r a) (ho : AtMostOnce (weigh φ t)) (hr : 0 < r.countP (φ P ·))
    (ha : a.countP (φ P ·) = 0) (R : π) : ∀ x ∈ t' R, ¬ φ R x := by
  have hhere := h.weigh_here φ
  have hP := ho.le_one P
  refine weigh_eq_zero.1 ?_
  by_cases hR : R = P
  · subst hR
    omega
  · rw [h.weigh_away φ hR]
    exact ho.eq_zero (p := P) (by omega) hR

end Swap

namespace Transfer
variable {t t' : π → List τ} {P Q : π} {r b : List τ}

theorem mem (h : Transfer t t' P Q r b) {R : π} {x : τ} (hx : x ∈ t' R) :
    x ∈ t R ∨ (R = Q ∧ x ∈ b) := by
  by_cases hP : R = P
  · subst hP
    exact .inl (h.source.mem_iff.2 (List.mem_append_left _ hx))
  · by_cases hQ : R = Q
    · subst hQ
      rcases List.mem_append.1 (h.target.mem_iff.1 hx) with hx | hx
      · exact .inl hx
      · exact .inr ⟨rfl, hx⟩
    · exact .inl ((h.away R hP hQ).mem_iff.1 hx)

theorem stays (h : Transfer t t' P Q r b) {R : π} {x : τ} (hx : x ∈ t R) (hr : R = P → x ∉ r) :
    x ∈ t' R := by
  by_cases hP : R = P
  · subst hP
    rcases List.mem_append.1 (h.source.mem_iff.1 hx) with hx | hx
    · exact hx
    · exact absurd hx (hr rfl)
  · by_cases hQ : R = Q
    · subst hQ
      exact h.target.mem_iff.2 (List.mem_append_left _ hx)
    · exact (h.away R hP hQ).mem_iff.2 hx

theorem mem_given (h : Transfer t t' P Q r b) {x : τ} (hx : x ∈ r) : x ∈ t P :=
  h.source.mem_iff.2 (List.mem_append_right _ hx)

theorem mem_gained (h : Transfer t t' P Q r b) {x : τ} (hx : x ∈ b) : x ∈ t' Q :=
  h.target.mem_iff.2 (List.mem_append_right _ hx)

theorem atMostOnce (h : Transfer t t' P Q r b) {φ : π → τ → Prop} [∀ P, DecidablePred (φ P)]
    (ho : AtMostOnce (weigh φ t)) (hle : b.countP (φ Q ·) ≤ r.countP (φ P ·)) :
    AtMostOnce (weigh φ t') := by
  refine ho.transfer P Q h.ne (fun R hP hQ => ((h.away R hP hQ).countP_eq _).le) ?_
  have h1 := h.source.countP_eq (φ P ·)
  have h2 := h.target.countP_eq (φ Q ·)
  rw [List.countP_append] at h1 h2
  simp only [weigh]
  omega

end Transfer

/-! ### Tokens that change on the way -/

section
variable {f : τ → τ → Prop} {r b : List τ}

theorem Forall₂.countP_le {φ ψ : τ → Prop} [DecidablePred φ] [DecidablePred ψ]
    (h : List.Forall₂ f r b) (hf : ∀ x ∈ r, ∀ y, f x y → ψ y → φ x) :
    b.countP (ψ ·) ≤ r.countP (φ ·) := by
  induction h with
  | nil => simp
  | @cons x y r b hxy _ ih =>
    have ih := ih fun z hz => hf z (List.mem_cons_of_mem _ hz)
    have hx := hf x List.mem_cons_self y hxy
    rw [List.countP_cons, List.countP_cons]
    by_cases hy : ψ y
    · simp [hy, hx hy, ih]
    · simp only [hy, decide_false, Bool.false_eq_true, if_false]
      omega

theorem Forall₂.mem_right {α β : Type} {f : α → β → Prop} {r : List α} {b : List β}
    (h : List.Forall₂ f r b) {y : β} (hy : y ∈ b) : ∃ x ∈ r, f x y := by
  induction h with
  | nil => cases hy
  | @cons x z r b hxz _ ih =>
    rcases List.mem_cons.1 hy with rfl | hy
    · exact ⟨x, List.mem_cons_self, hxz⟩
    · obtain ⟨w, hw, hwy⟩ := ih hy
      exact ⟨w, List.mem_cons_of_mem _ hw, hwy⟩

theorem Forall₂.mem_left (h : List.Forall₂ f r b) {x : τ} (hx : x ∈ r) : ∃ y ∈ b, f x y := by
  obtain ⟨y, hy, hxy⟩ := Forall₂.mem_right h.flip hx
  exact ⟨y, hy, hxy⟩

theorem Forall₂.map_map {α : Type} {g g' : α → τ} {l : List α} (h : ∀ x ∈ l, f (g x) (g' x)) :
    List.Forall₂ f (l.map g) (l.map g') := by
  rw [List.forall₂_map_left_iff, List.forall₂_map_right_iff, List.forall₂_same]
  exact h

end
end Lib
