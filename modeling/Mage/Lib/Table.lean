import Mathlib.Data.Set.Finite.Basic

/-! Finite maps with the four operations of an ordered associative container: `find`, `set` (the
    write through `operator[]`), `insert` (which never overwrites) and `erase`. A table is a lookup
    function together with the proof that only finitely many keys are present, so two tables with
    the same lookups are equal and every update is read back through one `find` lemma. -/

namespace Lib

/-- A finite map from keys `κ` to values `ν`. -/
structure Table (κ ν : Type) where
  find : κ → Option ν
  finite : {k | find k ≠ none}.Finite

namespace Table
variable {κ ν : Type}

@[ext] theorem ext {t u : Table κ ν} (h : ∀ k, t.find k = u.find k) : t = u := by
  cases t; cases u; congr; exact funext h

/-- The map with no keys. -/
def empty : Table κ ν := ⟨fun _ => none, by simp⟩

@[simp] theorem find_empty (k : κ) : (empty : Table κ ν).find k = none := rfl

variable [DecidableEq κ]

/-- Write `v` under `k`, replacing what was there. -/
def set (t : Table κ ν) (k : κ) (v : ν) : Table κ ν where
  find j := if j = k then some v else t.find j
  finite := (t.finite.insert k).subset fun j hj => by
    by_cases h : j = k
    · exact Or.inl h
    · exact Or.inr (by simpa [h] using hj)

/-- Remove `k`. -/
def erase (t : Table κ ν) (k : κ) : Table κ ν where
  find j := if j = k then none else t.find j
  finite := t.finite.subset fun j hj => by
    by_cases h : j = k
    · simp [h] at hj
    · simpa [h] using hj

/-- Write `v` under `k` unless `k` is present already. -/
def insert (t : Table κ ν) (k : κ) (v : ν) : Table κ ν :=
  match t.find k with
  | none => t.set k v
  | some _ => t

@[simp, grind =] theorem find_set (t : Table κ ν) (k j : κ) (v : ν) :
    (t.set k v).find j = if j = k then some v else t.find j := rfl

@[simp, grind =] theorem find_erase (t : Table κ ν) (k j : κ) :
    (t.erase k).find j = if j = k then none else t.find j := rfl

theorem insert_of_absent {t : Table κ ν} {k : κ} (h : t.find k = none) (v : ν) :
    t.insert k v = t.set k v := by rw [insert, h]

@[simp, grind =] theorem find_insert (t : Table κ ν) (k j : κ) (v : ν) :
    (t.insert k v).find j = if j = k then some ((t.find k).getD v) else t.find j := by
  rw [insert]
  cases h : t.find k with
  | none => simp
  | some w => by_cases hj : j = k <;> simp [hj, h]

theorem set_set (t : Table κ ν) (k : κ) (v w : ν) : (t.set k v).set k w = t.set k w := by
  ext j
  by_cases hj : j = k <;> simp [hj]

/-- Inserting never overwrites. -/
theorem find_insert_of_present {t : Table κ ν} {j : κ} {w : ν} (h : t.find j = some w) (k : κ)
    (v : ν) : (t.insert k v).find j = some w := by
  rw [find_insert]
  split_ifs with hj
  · rw [← hj, h, Option.getD_some]
  · exact h

/-- Every value is stored under one key. -/
def Injective (t : Table κ ν) : Prop := ∀ j k v, t.find j = some v → t.find k = some v → j = k

namespace Injective
variable {t : Table κ ν} {k : κ} {v : ν}

theorem insert (h : t.Injective) (hv : ∀ j, t.find j ≠ some v) : (t.insert k v).Injective := by
  intro i j w hi hj
  cases hk : t.find k with
  | some u =>
    rw [Table.insert, hk] at hi hj
    exact h i j w hi hj
  | none =>
    rw [find_insert, hk] at hi hj
    split_ifs at hi hj with h1 h2 h2
    · rw [h1, h2]
    · cases hi
      exact absurd hj (hv j)
    · cases hj
      exact absurd hi (hv i)
    · exact h i j w hi hj

/-- Storing a value under another key. -/
theorem rekey (h : t.Injective) (hk : t.find k = some v) (k' : κ) :
    ((t.erase k).insert k' v).Injective := by
  refine insert (fun i j w hi hj => ?_) fun j hj => ?_
  · rw [find_erase] at hi hj
    split_ifs at hi hj
    exact h i j w hi hj
  · rw [find_erase] at hj
    split_ifs at hj with hjk
    exact hjk (h j k v hj hk)

end Injective

/-- A value stored under another key is the only one that moves. -/
theorem find_rekey {t : Table κ ν} {k k' j : κ} {v w : ν}
    (h : ((t.erase k).insert k' v).find j = some w) : t.find j = some w ∨ (j = k' ∧ w = v) := by
  rw [find_insert] at h
  split_ifs at h with hj
  · subst hj
    rw [find_erase] at h
    split_ifs at h with hjk
    · exact .inr ⟨rfl, by simpa using h.symm⟩
    · cases hf : t.find j with
      | none => exact .inr ⟨rfl, by simpa [hf] using h.symm⟩
      | some u => exact .inl (by simpa [hf] using h)
  · rw [find_erase] at h
    split_ifs at h
    exact .inl h

end Table

/-! ### Functions of two arguments, updated at one point -/

variable {α β γ : Type} [DecidableEq α] [DecidableEq β]

/-- `f` with its value at `(a, b)` replaced by `c`. -/
def upd (f : α → β → γ) (a : α) (b : β) (c : γ) : α → β → γ :=
  fun x y => if x = a ∧ y = b then c else f x y

@[simp, grind =] theorem upd_apply (f : α → β → γ) (a x : α) (b y : β) (c : γ) :
    upd f a b c x y = if x = a ∧ y = b then c else f x y := rfl

/-- `f` with its value at `a` replaced by `c`. -/
def upd₁ (f : α → γ) (a : α) (c : γ) : α → γ := fun x => if x = a then c else f x

@[simp, grind =] theorem upd₁_apply (f : α → γ) (a x : α) (c : γ) :
    upd₁ f a c x = if x = a then c else f x := rfl

theorem upd_self (f : α → β → γ) (a : α) (b : β) (c : γ) : upd f a b c a b = c := by
  simp

theorem upd_other (f : α → β → γ) {a x : α} {b y : β} (c : γ) (h : x = a → y ≠ b) :
    upd f a b c x y = f x y := by
  rw [upd_apply, if_neg fun hxy => h hxy.1 hxy.2]

theorem upd_row (f : α → β → γ) (a : α) (b : β) (c : γ) : upd f a b c a = upd₁ (f a) b c := by
  funext y
  simp

theorem upd₁_upd₁ (f : α → γ) (a : α) (c d : γ) : upd₁ (upd₁ f a c) a d = upd₁ f a d := by
  funext x
  by_cases hx : x = a <;> simp [hx]

theorem upd₁_same {f : α → γ} {a : α} {c : γ} (h : f a = c) : upd₁ f a c = f := by
  funext x
  rw [upd₁_apply]
  split_ifs with hx
  · rw [hx, h]
  · rfl

end Lib
