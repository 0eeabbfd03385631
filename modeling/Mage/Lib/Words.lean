import Mathlib.Data.List.Basic
import Mathlib.Data.List.DropRight
import Mathlib.Data.Nat.Notation
import Mathlib.Tactic.Common

/-! Texts cut into words at separators, every second word of a list, and the removal of elements by
    value. -/

namespace Lib

variable {α : Type}

/-! ### Words -/

section
variable {p q : α → Bool} {l w : List α} {c : α}

/-- The maximal runs of elements that are no separators. -/
def words (p : α → Bool) (l : List α) : List (List α) := (l.splitOnP p).filter (!·.isEmpty)

@[simp] theorem words_nil : words p [] = [] := by simp [words]

theorem words_append_sep (a b : List α) (hc : p c) : words p (a ++ c :: b) = words p a ++ words p b := by
  rw [words, List.splitOnP_append_cons a b hc, List.filter_append]
  rfl

theorem words_sep_cons (hc : p c) : words p (c :: l) = words p l := by
  rw [← List.nil_append (c :: l), words_append_sep [] l hc, words_nil, List.nil_append]

theorem words_word (hw : ∀ c ∈ w, p c = false) (hne : w ≠ []) : words p w = [w] := by
  rw [words, List.splitOnP_eq_singleton hw, List.filter_cons_of_pos (by simpa using hne),
    List.filter_nil]

theorem words_word_sep (hw : ∀ c ∈ w, p c = false) (hne : w ≠ []) (hc : p c) :
    words p (w ++ c :: l) = w :: words p l := by
  rw [words_append_sep w l hc, words_word hw hne, List.singleton_append]

/-- Separators at either end do not matter. -/
theorem words_seps_append (s : List α) (hs : ∀ c ∈ s, p c) : words p (s ++ l) = words p l := by
  induction s with
  | nil => rfl
  | cons c s ih =>
    rw [List.cons_append, words_sep_cons (hs c List.mem_cons_self),
      ih fun d hd => hs d (List.mem_cons_of_mem c hd)]

theorem words_seps {s : List α} (hs : ∀ c ∈ s, p c) : words p s = [] := by
  rw [← List.append_nil s, words_seps_append s hs, words_nil]

theorem words_append_seps (s : List α) (hs : ∀ c ∈ s, p c) : words p (l ++ s) = words p l := by
  cases s with
  | nil => rw [List.append_nil]
  | cons c s =>
    rw [words_append_sep l s (hs c List.mem_cons_self),
      words_seps fun d hd => hs d (List.mem_cons_of_mem c hd), List.append_nil]

/-- A word ends where separators start. -/
theorem words_word_seps (hw : ∀ c ∈ w, p c = false) (hne : w ≠ []) {s : List α} (hs : ∀ c ∈ s, p c)
    (hsne : s ≠ []) : words p (w ++ (s ++ l)) = w :: words p l := by
  cases s with
  | nil => exact absurd rfl hsne
  | cons c s =>
    rw [List.cons_append, words_word_sep hw hne (hs c List.mem_cons_self),
      words_seps_append s fun d hd => hs d (List.mem_cons_of_mem c hd)]

end

/-! ### Every second element -/

/-- The elements at even positions. -/
def everyOther : List α → List α
  | [] => []
  | [a] => [a]
  | a :: _ :: l => a :: everyOther l

/-- The pairs, one after the other. -/
def unpaired (l : List (α × α)) : List α := l.flatMap fun x => [x.1, x.2]

theorem length_unpaired (l : List (α × α)) : (unpaired l).length = 2 * l.length := by
  induction l with
  | nil => rfl
  | cons x l ih =>
    rw [unpaired, List.flatMap_cons, List.length_append, ← unpaired, ih]
    simp only [List.length_cons, List.length_nil]
    omega

/-- Pairs are put together again from every second element. -/
theorem zip_everyOther_unpaired (l : List (α × α)) :
    (everyOther (unpaired l)).zip (everyOther ((unpaired l).drop 1)) = l := by
  induction l with
  | nil => rfl
  | cons x l ih =>
    have hcons : unpaired (x :: l) = x.1 :: x.2 :: unpaired l := rfl
    have htail : everyOther (x.2 :: unpaired l) = x.2 :: everyOther ((unpaired l).drop 1) := by
      cases unpaired l <;> rfl
    rw [hcons, everyOther, List.drop_one, List.tail_cons, htail, List.zip_cons_cons, ih]

theorem length_everyOther (l : List α) : (everyOther l).length = (l.length + 1) / 2 := by
  induction l using everyOther.induct with
  | case1 => simp [everyOther]
  | case2 => simp [everyOther]
  | case3 a b l ih =>
    rw [everyOther, List.length_cons, ih, List.length_cons, List.length_cons]
    omega

theorem length_zip_everyOther (l : List α) :
    ((everyOther l).zip (everyOther (l.drop 1))).length = l.length / 2 := by
  rw [List.length_zip, length_everyOther, length_everyOther, List.length_drop]
  omega

/-! ### Removal by value -/

section
variable [BEq α] [LawfulBEq α]

theorem foldl_erase_cons {a : α} {bs l : List α} (h : a ∉ bs) :
    bs.foldl List.erase (a :: l) = a :: bs.foldl List.erase l := by
  induction bs generalizing l with
  | nil => rfl
  | cons b bs ih =>
    rw [List.mem_cons, not_or] at h
    rw [List.foldl_cons, List.foldl_cons, List.erase_cons_tail (by simpa using h.1), ih h.2]

/-- Elements that are collected and then removed one by one are all gone, however often each occurs. -/
theorem foldl_erase_filter (p : α → Bool) (l : List α) :
    (l.filter p).foldl List.erase l = l.filter (fun a => !p a) := by
  induction l with
  | nil => rfl
  | cons a l ih =>
    by_cases ha : p a
    · rw [List.filter_cons_of_pos ha, List.foldl_cons, List.erase_cons_head, ih,
        List.filter_cons_of_neg (by simpa using ha)]
    · rw [List.filter_cons_of_neg ha, foldl_erase_cons fun hmem => ha (List.of_mem_filter hmem), ih,
        List.filter_cons_of_pos (by simpa using ha)]

end

/-! ### Kept elements -/

/-- If all that is kept is of some kind, then so many are of that kind; and all of them are kept if
    there are no more. -/
theorem length_filter_le_filterMap {β : Type} {p : α → Bool} {f : α → Option β} {l : List α}
    (h : ∀ a ∈ l, p a → (f a).isSome) : (l.filter p).length ≤ (l.filterMap f).length ∧
      ((l.filter p).length = (l.filterMap f).length → ∀ a ∈ l, (f a).isSome → p a) := by
  induction l with
  | nil => exact ⟨Nat.le_refl _, fun _ a ha => by cases ha⟩
  | cons a l ih =>
    obtain ⟨hle, hall⟩ := ih fun b hb => h b (List.mem_cons_of_mem a hb)
    have ha := h a List.mem_cons_self
    cases hf : f a with
    | none =>
      have hp : ¬ p a := fun hp => by simp [hf, hp] at ha
      rw [List.filter_cons_of_neg hp, List.filterMap_cons_none hf]
      refine ⟨hle, fun heq b hb hs => ?_⟩
      rcases List.mem_cons.1 hb with rfl | hb
      · simp [hf] at hs
      · exact hall heq b hb hs
    | some x =>
      rw [List.filterMap_cons_some hf, List.length_cons]
      by_cases hp : p a
      · rw [List.filter_cons_of_pos hp, List.length_cons]
        refine ⟨Nat.succ_le_succ hle, fun heq b hb hs => ?_⟩
        rcases List.mem_cons.1 hb with rfl | hb
        · exact hp
        · exact hall (Nat.succ.inj heq) b hb hs
      · rw [List.filter_cons_of_neg hp]
        exact ⟨Nat.le_succ_of_le hle, fun heq => by omega⟩

/-! ### Joined texts -/

/-- A text is cut once for each occurrence of the separator. -/
theorem length_splitOn [BEq α] (x : α) (l : List α) : (l.splitOn x).length = l.count x + 1 := by
  induction l with
  | nil => rfl
  | cons a l ih =>
    rw [List.splitOn_cons_eq_if_modifyHead, List.count_cons]
    split_ifs with h
    · rw [List.length_cons, ih]
    · rw [List.length_modifyHead, ih, Nat.add_zero]

theorem mem_intercalate {x a : α} {ls : List (List α)} (h : a ≠ x) :
    a ∈ [x].intercalate ls ↔ ∃ l ∈ ls, a ∈ l := by
  induction ls with
  | nil => simp [List.intercalate_nil]
  | cons l ls ih =>
    cases ls with
    | nil => simp [List.intercalate_singleton]
    | cons l' ls =>
      rw [List.intercalate_cons_cons, List.mem_append, List.mem_append, ih, List.mem_singleton,
        or_iff_left h, List.exists_mem_cons_iff (p := (a ∈ ·)) (a := l)]

theorem map_intercalate (f : α → α) (x : α) (ls : List (List α)) :
    ([x].intercalate ls).map f = [f x].intercalate (ls.map (List.map f)) := by
  induction ls with
  | nil => rfl
  | cons l ls ih =>
    cases ls with
    | nil => rw [List.intercalate_singleton, List.map_singleton, List.intercalate_singleton]
    | cons l' ls =>
      rw [List.intercalate_cons_cons, List.map_append, List.map_append, ih, List.map_singleton,
        List.map_cons (l := l' :: ls), List.map_cons (l := ls), List.intercalate_cons_cons]

/-- A text may be joined in two parts that meet within an element. -/
theorem intercalate_append_cons (s x y : List α) (ls ls' : List (List α)) :
    s.intercalate (ls ++ (x ++ y) :: ls') = s.intercalate (ls ++ [x]) ++ s.intercalate (y :: ls') := by
  induction ls with
  | nil =>
    rw [List.nil_append, List.nil_append, List.intercalate_singleton]
    cases ls' with
    | nil => rw [List.intercalate_singleton, List.intercalate_singleton]
    | cons l ls' =>
      rw [List.intercalate_cons_cons, List.intercalate_cons_cons, List.append_assoc,
        List.append_assoc, List.append_assoc]
  | cons l ls ih =>
    have hne : ∀ z zs, ls ++ z :: zs ≠ [] := fun z zs h => by simp at h
    rw [List.cons_append, List.cons_append, List.intercalate_cons_of_ne_nil (hne _ _), ih,
      List.intercalate_cons_of_ne_nil (hne x [])]
    simp only [List.append_assoc]

/-- The second part of a separator may be taken for the start of each later element. -/
theorem intercalate_map_cons (c d : α) (x : List α) (ls : List (List α)) :
    [c].intercalate (x :: ls.map (d :: ·)) = [c, d].intercalate (x :: ls) := by
  induction ls generalizing x with
  | nil => rfl
  | cons l ls ih =>
    rw [List.map_cons, List.intercalate_cons_cons, List.intercalate_cons_cons_left, ih,
      List.intercalate_cons_cons]
    simp

end Lib
