import Mage.Lib.Table
import Mathlib.Data.List.Basic
import Mathlib.Data.Set.Subsingleton

/-! Letters and those who carry them. A letter is a value with an address; the lane of an address is
    what goes to it, in order. What arrived at a point and has to leave for one address is with
    carriers that write it out one letter after the other: an early carrier, whose letters arrived
    first, and a late one. What is written keeps the order of arrival as long as the late carrier
    does not write while the early one still has something. -/

namespace Lib

variable {α β ι : Type} [DecidableEq α]

/-- The values addressed to `a`, in order. -/
def lane (a : α) (letters : List (α × β)) : List β := (letters.filter (·.1 = a)).map Prod.snd

section
variable {a : α} {l l' : List (α × β)}

@[simp] theorem lane_nil : lane a ([] : List (α × β)) = [] := rfl

theorem lane_append : lane a (l ++ l') = lane a l ++ lane a l' := by
  rw [lane, List.filter_append, List.map_append, lane, lane]

theorem lane_cons (b : α) (x : β) : lane a ((b, x) :: l) = if b = a then x :: lane a l else lane a l := by
  by_cases h : b = a <;> simp [lane, h]

theorem lane_cons_append (x : α × β) : lane a (x :: l) = lane a [x] ++ lane a l := by
  rw [← lane_append, List.singleton_append]

theorem lane_eq_nil : lane a l = [] ↔ ∀ x ∈ l, x.1 ≠ a := by
  simp [lane]

/-- Letters that all have one address. -/
theorem lane_map {γ : Type} (f : γ → β) (b : α) (xs : List γ) :
    lane a (xs.map fun x => (b, f x)) = if b = a then xs.map f else [] := by
  induction xs with
  | nil => simp
  | cons x xs ih =>
    rw [List.map_cons, lane_cons, ih]
    split_ifs <;> rfl

end

/-- At most one carrier has something, after a step of one of them: what had nothing gets something
    only when no other has anything. -/
theorem subsingleton_of_step {box box' : ι → List β} {i : ι} (h : {j | box j ≠ []}.Subsingleton)
    (hothers : ∀ j, j ≠ i → box' j = box j)
    (hi : box' i ≠ [] → box i ≠ [] ∨ ∀ j, j ≠ i → box j = []) :
    {j | box' j ≠ []}.Subsingleton := by
  have alone : ∀ j, box' j ≠ [] → box' i ≠ [] → j = i := by
    intro j hj hne
    by_contra hji
    rw [hothers j hji] at hj
    rcases hi hne with hold | hnone
    · exact hji (h hj hold)
    · exact hj (hnone j hji)
  rintro j (hj : box' j ≠ []) k (hk : box' k ≠ [])
  by_cases hji : j = i
  · subst hji
    exact (alone k hk hj).symm
  by_cases hki : k = i
  · subst hki
    exact alone j hj hk
  refine h (show box j ≠ [] from ?_) (show box k ≠ [] from ?_)
  · rwa [hothers j hji] at hj
  · rwa [hothers k hki] at hk

/-- What arrived is what was written, then what the carriers have, the early one first, then what has
    not been picked up. -/
def Carried (box : ι → List β) (late : ι → Prop) (arrived written rest : List β) : Prop :=
  ∃ w v, w ≠ v ∧ (∀ i, i ≠ w → i ≠ v → box i = []) ∧
    arrived = written ++ box w ++ box v ++ rest ∧ (box v ≠ [] → late v)

namespace Carried
variable {box box' : ι → List β} {late late' : ι → Prop} {arrived written rest : List β}

theorem congr (h : Carried box late arrived written rest) (hbox : ∀ i, box' i = box i)
    (hlate : ∀ i, box i ≠ [] → late i → late' i) : Carried box' late' arrived written rest := by
  obtain ⟨w, v, hwv, hothers, harr, hv⟩ := h
  refine ⟨w, v, hwv, fun i hi hi' => by rw [hbox, hothers i hi hi'], by rw [hbox, hbox, harr],
    fun hne => ?_⟩
  rw [hbox] at hne
  exact hlate v hne (hv hne)

/-- A carrier writes the first of its letters. -/
theorem write (h : Carried box late arrived written rest) {i : ι} {out : List β}
    (hi : box i = out ++ box' i) (hothers : ∀ j, j ≠ i → box' j = box j)
    (hlate : ∀ j, box' j ≠ [] → late j → late' j)
    (hturn : out ≠ [] → late i → ∀ j, j ≠ i → box j = []) :
    Carried box' late' arrived (written ++ out) rest := by
  obtain ⟨w, v, hwv, hempty, harr, hv⟩ := h
  have hv' : box' v ≠ [] → late' v := by
    intro hne
    refine hlate v hne (hv fun hnil => ?_)
    by_cases hiv : i = v
    · subst hiv
      rw [hi] at hnil
      exact hne (List.append_eq_nil_iff.1 hnil).2
    · rw [hothers v (Ne.symm hiv)] at hne
      exact hne hnil
  by_cases hiw : i = w
  · subst hiw
    refine ⟨i, v, hwv, fun j hj hj' => by rw [hothers j hj, hempty j hj hj'], ?_, hv'⟩
    rw [harr, hi, hothers v hwv.symm]
    simp
  · by_cases hiv : i = v
    · subst hiv
      refine ⟨w, i, hwv, fun j hj hj' => by rw [hothers j hj', hempty j hj hj'], ?_, hv'⟩
      by_cases hout : out = []
      · subst hout
        rw [harr, hothers w hwv, hi]
        simp
      · have hne : box i ≠ [] := by
          rw [hi]
          simp [hout]
        have hw := hturn hout (hv hne) w hwv
        rw [harr, hothers w hwv, hw, hi]
        simp
    · have hnil := hempty i hiw hiv
      rw [hi, List.append_eq_nil_iff] at hnil
      refine ⟨w, v, hwv, fun j hj hj' => ?_, ?_, hv'⟩
      · by_cases hji : j = i
        · subst hji
          exact hnil.2
        · rw [hothers j hji, hempty j hj hj']
      · rw [harr, hothers w (Ne.symm hiw), hothers v (Ne.symm hiv), hnil.1]
        simp

/-- Something arrives and is picked up at once, by a carrier that had nothing. -/
theorem pick [Nontrivial ι] (h : Carried box late arrived written []) {i : ι} {x : β}
    (hi : box i = []) (hi' : box' i = [x]) (hothers : ∀ j, j ≠ i → box' j = box j)
    (hnone : ∀ j, late j → box j = []) (hlate : late' i) :
    Carried box' late' (arrived ++ [x]) written [] := by
  classical
  obtain ⟨w, v, hwv, hempty, harr, hv⟩ := h
  have hbv : box v = [] := by
    by_contra hne
    exact hne (hnone v (hv hne))
  by_cases hiw : i = w
  · subst hiw
    refine ⟨v, i, hwv.symm, fun j hj hj' => ?_, ?_, fun _ => hlate⟩
    · rw [hothers j hj', hempty j hj' hj]
    · rw [harr, hi, hbv, hothers v hwv.symm, hbv, hi']
      simp
  · refine ⟨w, i, Ne.symm hiw, fun j hj hj' => ?_, ?_, fun _ => hlate⟩
    · rw [hothers j hj']
      by_cases hjv : j = v
      · rw [hjv, hbv]
      · exact hempty j hj hjv
    · rw [harr, hbv, hothers w (Ne.symm hiw), hi']
      simp

/-- All that waits is picked up by one carrier, when no carrier has anything. -/
theorem pickAll [Nontrivial ι] (hnone : ∀ j, box j = []) {i : ι} (hi : box' i = rest)
    (hothers : ∀ j, j ≠ i → box' j = box j) :
    Carried box' late' (written ++ rest) written [] := by
  obtain ⟨v, hv⟩ := exists_ne i
  refine ⟨i, v, hv.symm, fun j hj _ => by rw [hothers j hj, hnone], ?_, fun hne => ?_⟩
  · rw [hi, hothers v hv, hnone]
    simp
  · rw [hothers v hv, hnone] at hne
    exact absurd rfl hne

theorem idle [Nontrivial ι] (hnone : ∀ j, box j = []) :
    Carried box late (written ++ rest) written rest := by
  obtain ⟨w, v, hwv⟩ := exists_pair_ne ι
  exact ⟨w, v, hwv, fun j _ _ => hnone j, by simp [hnone], fun hne => absurd (hnone v) hne⟩

/-- What is written is the beginning of what arrived. -/
theorem begins (h : Carried box late arrived written rest) : written <+: arrived := by
  obtain ⟨w, v, -, -, rfl, -⟩ := h
  exact ⟨box w ++ box v ++ rest, by simp⟩

/-- While no carrier has anything, what is not written waits. -/
theorem settled (h : Carried box late arrived written rest) (hbox : ∀ i, box i = []) :
    arrived = written ++ rest := by
  obtain ⟨w, v, -, -, rfl, -⟩ := h
  simp [hbox]

end Carried
end Lib
