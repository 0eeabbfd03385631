import Mathlib.Data.List.Basic

/-! Logs whose items depend on earlier ones. Each item needs one thing and gives some, and what it needs
    is known before the log starts or is given by an item before it. -/

namespace Lib

variable {α β : Type*} (needs : α → β) (gives : α → List β)

/-- Every item of the log finds what it needs. -/
def Grounded (known : β → Prop) : List α → Prop
  | [] => True
  | a :: l => known (needs a) ∧ Grounded (fun b => known b ∨ b ∈ gives a) l

variable {needs gives} {known known' : β → Prop} {a : α} {l l' : List α}

@[simp] theorem grounded_nil : Grounded needs gives known [] := trivial

theorem grounded_cons : Grounded needs gives known (a :: l) ↔
    known (needs a) ∧ Grounded needs gives (fun b => known b ∨ b ∈ gives a) l := Iff.rfl

namespace Grounded

/-- Where more is known the log is still grounded. -/
theorem mono (h : Grounded needs gives known l) (hk : ∀ b, known b → known' b) :
    Grounded needs gives known' l := by
  induction l generalizing known known' with
  | nil => trivial
  | cons a l ih =>
    refine ⟨hk _ h.1, ih h.2 ?_⟩
    rintro b (hb | hb)
    · exact .inl (hk b hb)
    · exact .inr hb

/-- A log whose items need only what is known. -/
theorem of_forall (h : ∀ a ∈ l, known (needs a)) : Grounded needs gives known l := by
  induction l generalizing known with
  | nil => trivial
  | cons a l ih =>
    refine ⟨h a List.mem_cons_self, ih fun b hb => ?_⟩
    exact .inl (h b (List.mem_cons_of_mem _ hb))

/-- The first item gives what it gives to what comes next. -/
theorem tail (h : Grounded needs gives known (a :: l)) (hk : ∀ b, known b → known' b)
    (ha : ∀ b ∈ gives a, known' b) : Grounded needs gives known' l := by
  refine h.2.mono ?_
  rintro b (hb | hb)
  · exact hk b hb
  · exact ha b hb

end Grounded

/-- The second of two logs starts from what the first one gave. -/
theorem grounded_append : Grounded needs gives known (l ++ l') ↔ Grounded needs gives known l ∧
    Grounded needs gives (fun b => known b ∨ ∃ a ∈ l, b ∈ gives a) l' := by
  induction l generalizing known with
  | nil => simp
  | cons a l ih =>
    rw [List.cons_append, grounded_cons, grounded_cons, ih, and_assoc]
    simp only [List.mem_cons, exists_eq_or_imp, or_assoc]

/-- One item more. -/
theorem grounded_concat : Grounded needs gives known (l ++ [a]) ↔ Grounded needs gives known l ∧
    (known (needs a) ∨ ∃ b ∈ l, needs a ∈ gives b) := by
  rw [grounded_append, grounded_cons]
  simp

end Lib
