import Mathlib.Data.Finset.Card
import Mathlib.Data.Set.Finite.Basic

/-! Breadth-first traversal of a forest by a work queue that grows while it is consumed. Every item has
    finitely many children, no two items share one, and no root is a child. Then the queue runs empty,
    and the order in which items leave it lists each item below the roots once, roots in their order,
    and every item before its children, which keep theirs. -/

namespace Lib

variable {α : Type} {children : α → List α} {roots : List α}

/-- The items at and below the roots. -/
inductive Below (children : α → List α) (roots : List α) : α → Prop where
  | root {x : α} (h : x ∈ roots) : Below children roots x
  | child {x y : α} (h : Below children roots x) (hy : y ∈ children x) : Below children roots y

/-- A list with the roots that is closed under children has every item below them. -/
theorem Below.mem {l : List α} (hroots : ∀ x ∈ roots, x ∈ l)
    (hchildren : ∀ x ∈ l, ∀ y ∈ children x, y ∈ l) {x : α} (h : Below children roots x) :
    x ∈ l := by
  induction h with
  | root h => exact hroots _ h
  | child _ hy ih => exact hchildren _ ih _ hy

/-- Children matter only below the roots. -/
theorem Below.congr {children' : α → List α}
    (h : ∀ x, Below children roots x → children' x = children x) {x : α} :
    Below children' roots x ↔ Below children roots x := by
  constructor
  · intro hx
    induction hx with
    | root hx => exact .root hx
    | child _ hy ih => exact .child ih (h _ ih ▸ hy)
  · intro hx
    induction hx with
    | root hx => exact .root hx
    | child hx hy ih => exact .child ih ((h _ hx).symm ▸ hy)

/-- Started with `queue`, the traversal visits `order`. -/
inductive Walk (children : α → List α) : List α → List α → Prop where
  | done : Walk children [] []
  | visit {x : α} {rest order : List α} (h : Walk children (rest ++ children x) order) :
      Walk children (x :: rest) (x :: order)

structure Forest (children : α → List α) (roots : List α) : Prop where
  roots_nodup : roots.Nodup
  children_nodup : ∀ x, Below children roots x → (children x).Nodup
  orphan : ∀ x, Below children roots x → ∀ y ∈ children x, y ∉ roots
  parent : ∀ x y, Below children roots x → Below children roots y → ∀ z ∈ children x,
    z ∈ children y → x = y
  finite : {x | Below children roots x}.Finite

namespace Walk

theorem queue_sublist {queue order : List α} (h : Walk children queue order) :
    queue.Sublist order := by
  induction h with
  | done => exact .refl _
  | visit _ ih => exact ((List.sublist_append_left _ _).trans ih).cons_cons _

theorem queue_prefix {queue order : List α} (h : Walk children queue order) : queue <+: order := by
  induction h with
  | done => exact List.prefix_rfl
  | visit _ ih => exact (List.prefix_cons_inj _).2 ((List.prefix_append _ _).trans ih)

/-- An item goes before its children. -/
theorem family_sublist {queue order : List α} (h : Walk children queue order) {x : α}
    (hx : x ∈ order) : (x :: children x).Sublist order := by
  induction h with
  | done => cases hx
  | visit h ih =>
    rcases List.mem_cons.1 hx with rfl | hx
    · exact ((List.sublist_append_right _ _).trans h.queue_sublist).cons_cons _
    · exact (ih hx).cons _

end Walk

/-- Halfway through the traversal: what was visited and what is in the queue. -/
structure Halfway (children : α → List α) (roots visited queue : List α) : Prop where
  nodup : (visited ++ queue).Nodup
  below : ∀ x ∈ visited ++ queue, Below children roots x
  rooted : ∀ x ∈ roots, x ∈ visited ++ queue
  closed : ∀ x ∈ visited, ∀ y ∈ children x, y ∈ visited ++ queue
  origin : ∀ y ∈ visited ++ queue, y ∈ roots ∨ ∃ x ∈ visited, y ∈ children x

namespace Halfway
variable {visited queue rest : List α} {x : α}

theorem start (hf : Forest children roots) : Halfway children roots [] roots where
  nodup := hf.roots_nodup
  below := fun _ h => .root h
  rooted := fun _ h => h
  closed := fun _ h => by cases h
  origin := fun _ h => .inl h

theorem visit (hf : Forest children roots) (h : Halfway children roots visited (x :: rest)) :
    Halfway children roots (visited ++ [x]) (rest ++ children x) := by
  have hx : Below children roots x := h.below x (by simp)
  have hsplit : visited ++ [x] ++ (rest ++ children x) = (visited ++ x :: rest) ++ children x := by
    simp
  have hfresh : ∀ y ∈ visited ++ x :: rest, y ∉ children x := by
    intro y hy hyx
    rcases h.origin y hy with hroot | ⟨z, hz, hyz⟩
    · exact hf.orphan x hx y hyx hroot
    · obtain rfl := hf.parent z x (h.below z (List.mem_append_left _ hz)) hx y hyz hyx
      exact (List.nodup_append.1 h.nodup).2.2 z hz z List.mem_cons_self rfl
  refine ⟨?_, fun y hy => ?_, fun y hy => ?_, fun y hy z hz => ?_, fun y hy => ?_⟩
  · rw [hsplit, List.nodup_append]
    exact ⟨h.nodup, hf.children_nodup x hx, fun y hy z hz hyz => hfresh y hy (hyz ▸ hz)⟩
  · rw [hsplit, List.mem_append] at hy
    exact hy.elim (h.below y) (.child hx)
  · rw [hsplit]
    exact List.mem_append_left _ (h.rooted y hy)
  · rw [hsplit]
    rcases List.mem_append.1 hy with hy | hy
    · exact List.mem_append_left _ (h.closed y hy z hz)
    · rw [List.mem_singleton.1 hy] at hz
      exact List.mem_append_right _ hz
  · rw [hsplit, List.mem_append] at hy
    rcases hy with hy | hy
    · rcases h.origin y hy with hroot | ⟨z, hz, hyz⟩
      · exact .inl hroot
      · exact .inr ⟨z, List.mem_append_left _ hz, hyz⟩
    · exact .inr ⟨x, by simp, hy⟩

theorem length_le (hf : Forest children roots) (h : Halfway children roots visited queue) :
    visited.length + queue.length ≤ hf.finite.toFinset.card := by
  classical
  rw [← List.length_append, ← List.toFinset_card_of_nodup h.nodup]
  refine Finset.card_le_card fun x hx => ?_
  rw [Set.Finite.mem_toFinset]
  exact h.below x (List.mem_toFinset.1 hx)

/-- The rest of the traversal comes to an end. -/
theorem finish (hf : Forest children roots) (h : Halfway children roots visited queue) :
    ∃ order, Walk children queue order ∧ Halfway children roots (visited ++ order) [] := by
  have hlen := h.length_le hf
  -- every visit makes the rest smaller
  induction hn : hf.finite.toFinset.card - visited.length generalizing visited queue with
  | zero =>
    cases queue with
    | nil => exact ⟨[], .done, by simpa using h⟩
    | cons x rest =>
      rw [List.length_cons] at hlen
      omega
  | succ n ih =>
    cases queue with
    | nil => exact ⟨[], .done, by simpa using h⟩
    | cons x rest =>
      have hnext := h.visit hf
      obtain ⟨order, hw, hend⟩ := ih hnext (hnext.length_le hf)
        (by rw [List.length_append, List.length_singleton]; omega)
      exact ⟨x :: order, .visit hw, by simpa using hend⟩

end Halfway

/-- The traversal of a forest visits exactly what is below the roots, each item once. -/
theorem Forest.walk (hf : Forest children roots) :
    ∃ order, Walk children roots order ∧ order.Nodup ∧
      ∀ x, x ∈ order ↔ Below children roots x := by
  obtain ⟨order, hw, hend⟩ := (Halfway.start hf).finish hf
  simp only [List.nil_append] at hend
  refine ⟨order, hw, by simpa using hend.nodup, fun x => ⟨fun hx => hend.below x (by simpa using hx),
    fun hx => ?_⟩⟩
  induction hx with
  | root h => simpa using hend.rooted _ h
  | child _ hy ih => simpa using hend.closed _ ih _ hy

end Lib
