import Mathlib.Data.Nat.Notation
import Mathlib.Algebra.Order.Ring.Nat
import Mathlib.Tactic.Common
import Mathlib.Tactic.Ring

/-! Buffers of bytes: parts of a list read by position and overwritten in place, and numbers as
    little-endian bytes. -/

namespace Lib

section
variable {α : Type}

/-- The `n` elements from position `i` on. -/
def slice (l : List α) (i n : ℕ) : List α := (l.drop i).take n

/-- `l` with `p` written over it from position `i` on. -/
def overwrite (l : List α) (i : ℕ) (p : List α) : List α :=
  l.take i ++ p ++ l.drop (i + p.length)

/-- The parts of lengths `n` at `i` and `m` at `j` have no position in common. -/
def Apart (i n j m : ℕ) : Prop := i + n ≤ j ∨ j + m ≤ i

instance (i n j m : ℕ) : Decidable (Apart i n j m) := by unfold Apart; infer_instance

theorem Apart.symm {i n j m : ℕ} (h : Apart i n j m) : Apart j m i n := Or.symm h

variable {l r p : List α} {i j n m : ℕ}

theorem getElem?_slice (k : ℕ) : (slice l i n)[k]? = if k < n then l[i + k]? else none := by
  rw [slice, List.getElem?_take]
  simp

theorem length_slice (h : i + n ≤ l.length) : (slice l i n).length = n := by
  rw [slice, List.length_take, List.length_drop]
  omega

theorem length_overwrite (h : i + p.length ≤ l.length) :
    (overwrite l i p).length = l.length := by
  simp only [overwrite, List.length_append, List.length_take, List.length_drop]
  omega

theorem getElem?_overwrite (h : i + p.length ≤ l.length) (k : ℕ) :
    (overwrite l i p)[k]? = if i ≤ k ∧ k < i + p.length then p[k - i]? else l[k]? := by
  have htake : (l.take i).length = i := List.length_take_of_le (by omega)
  by_cases hk : k < i
  · rw [overwrite, List.append_assoc, List.getElem?_append_left (by omega), List.getElem?_take,
      if_pos hk, if_neg (by omega)]
  · by_cases hk' : k < i + p.length
    · rw [overwrite, List.append_assoc, List.getElem?_append_right (by omega),
        List.getElem?_append_left (by omega), htake, if_pos ⟨by omega, hk'⟩]
    · rw [overwrite, List.getElem?_append_right (by simp only [List.length_append]; omega),
        List.getElem?_drop, if_neg (by omega)]
      congr 1
      simp only [List.length_append]
      omega

/-- What was written is read back. -/
theorem slice_overwrite (h : i + p.length ≤ l.length) :
    slice (overwrite l i p) i p.length = p := by
  refine List.ext_getElem? fun k => ?_
  rw [getElem?_slice, getElem?_overwrite h]
  split_ifs with h1 h2
  · congr 1
    omega
  · omega
  · exact (List.getElem?_eq_none (by omega)).symm

/-- Elsewhere nothing changes. -/
theorem slice_overwrite_apart (h : i + p.length ≤ l.length) (ha : Apart i p.length j n) :
    slice (overwrite l i p) j n = slice l j n := by
  refine List.ext_getElem? fun k => ?_
  rw [getElem?_slice, getElem?_slice, getElem?_overwrite h]
  split_ifs with h1 h2
  · rcases ha with ha | ha <;> omega
  · rfl
  · rfl

theorem slice_append (h : i + n ≤ l.length) : slice (l ++ r) i n = slice l i n := by
  refine List.ext_getElem? fun k => ?_
  rw [getElem?_slice, getElem?_slice]
  split_ifs with h1
  · exact List.getElem?_append_left (by omega)
  · rfl

theorem slice_take {k : ℕ} (h : i + n ≤ k) (hk : k ≤ l.length) :
    slice (l.take k) i n = slice l i n := by
  have hlen : i + n ≤ (l.take k).length := by rw [List.length_take_of_le hk]; exact h
  rw [← slice_append (r := l.drop k) hlen, List.take_append_drop]

/-- All that follows is written over. -/
theorem overwrite_append (h : p.length = r.length) : overwrite (l ++ r) l.length p = l ++ p := by
  rw [overwrite, List.take_left' rfl, List.drop_of_length_le, List.append_nil]
  rw [List.length_append, h]

/-- What follows is written over from its beginning. -/
theorem overwrite_append_drop :
    overwrite (l ++ r) l.length p = l ++ (p ++ r.drop p.length) := by
  rw [overwrite, List.take_left' rfl, List.drop_append, List.drop_of_length_le (Nat.le_add_right _ _),
    Nat.add_sub_cancel_left, List.nil_append, List.append_assoc]

/-- Two parts written one right after the other. -/
theorem overwrite_overwrite {q : List α} (h : i + (p.length + q.length) ≤ l.length) :
    overwrite (overwrite l i p) (i + p.length) q = overwrite l i (p ++ q) := by
  have hp : i + p.length ≤ l.length := by omega
  have hlen := length_overwrite hp
  refine List.ext_getElem? fun k => ?_
  rw [getElem?_overwrite (by omega), getElem?_overwrite hp,
    getElem?_overwrite (by rw [List.length_append]; omega), List.length_append]
  by_cases h1 : i + p.length ≤ k
  · by_cases h2 : k < i + p.length + q.length
    · rw [if_pos ⟨h1, h2⟩, if_pos ⟨by omega, by omega⟩, List.getElem?_append_right (by omega)]
      congr 1
      omega
    · rw [if_neg (by omega), if_neg (by omega), if_neg (by omega)]
  · rw [if_neg (by omega)]
    by_cases h2 : i ≤ k
    · rw [if_pos ⟨h2, by omega⟩, if_pos ⟨h2, by omega⟩, List.getElem?_append_left (by omega)]
    · rw [if_neg (by omega), if_neg (by omega)]

theorem slice_append_right : slice (l ++ r) (l.length + i) n = slice r i n := by
  rw [slice, slice, List.drop_append, List.drop_of_length_le (Nat.le_add_right _ _),
    Nat.add_sub_cancel_left, List.nil_append]

theorem slice_all : slice l 0 l.length = l := by simp [slice]

/-- A part is found behind what is before it. -/
theorem slice_part (before after : List α) (hi : before.length = i) (hn : p.length = n)
    (h : l = before ++ (p ++ after)) : slice l i n = p := by
  rw [h, ← hi, ← hn, ← Nat.add_zero before.length, slice_append_right, slice_append (by omega),
    slice_all]

theorem length_flatten_of_length {ls : List (List α)} {w : ℕ} (hw : ∀ p ∈ ls, p.length = w) :
    ls.flatten.length = w * ls.length := by
  induction ls with
  | nil => rfl
  | cons q ls ih =>
    have hls := ih fun p hp => hw p (List.mem_cons_of_mem q hp)
    rw [List.flatten_cons, List.length_append, hls, hw q List.mem_cons_self, List.length_cons,
      Nat.mul_succ, Nat.add_comm]

/-- One of several parts of one length. -/
theorem slice_flatten {ls : List (List α)} {w : ℕ} (hw : ∀ p ∈ ls, p.length = w)
    (h : ls[i]? = some p) : slice ls.flatten (w * i) w = p := by
  induction ls generalizing i with
  | nil => cases h
  | cons q ls ih =>
    have hq := hw q List.mem_cons_self
    cases i with
    | zero =>
      obtain rfl : q = p := Option.some.inj h
      rw [Nat.mul_zero, List.flatten_cons, slice_append (by omega), ← hq, slice_all]
    | succ i =>
      rw [Nat.mul_succ, Nat.add_comm, List.flatten_cons, ← hq, slice_append_right, hq]
      exact ih (fun p hp => hw p (List.mem_cons_of_mem q hp)) h

/-- A part of a part. -/
theorem slice_slice (h : j + m ≤ n) : slice (slice l i n) j m = slice l (i + j) m := by
  refine List.ext_getElem? fun k => ?_
  rw [getElem?_slice, getElem?_slice, getElem?_slice]
  split_ifs with h1 h2
  · rw [Nat.add_assoc]
  · omega
  · rfl

end

/-- `l'` is `l` with more behind it, and with changes between `i` and `j` only. -/
structure Grown {α : Type} (i j : ℕ) (l l' : List α) : Prop where
  length : l.length ≤ l'.length
  same : ∀ k n, k + n ≤ l.length → k + n ≤ i ∨ j ≤ k → slice l' k n = slice l k n

namespace Grown
variable {α : Type} {i j : ℕ} {l l' l'' p : List α}

theorem refl (i j : ℕ) (l : List α) : Grown i j l l := ⟨Nat.le_refl _, fun _ _ _ _ => rfl⟩

theorem trans (h : Grown i j l l') (h' : Grown i j l' l'') : Grown i j l l'' := by
  refine ⟨h.length.trans h'.length, fun k n hk ha => ?_⟩
  rw [h'.same k n (hk.trans h.length) ha, h.same k n hk ha]

theorem mono {a b : ℕ} (h : Grown i j l l') (ha : a ≤ i) (hb : j ≤ b) : Grown a b l l' :=
  ⟨h.length, fun k n hk hor => h.same k n hk (by omega)⟩

theorem append (r : List α) : Grown i j l (l ++ r) := by
  refine ⟨?_, fun k n hk _ => slice_append hk⟩
  rw [List.length_append]
  exact Nat.le_add_right _ _

theorem overwrite (h : i + p.length ≤ l.length) : Grown i (i + p.length) l (overwrite l i p) :=
  ⟨(length_overwrite h).ge, fun _ _ _ ha => slice_overwrite_apart h (ha.elim .inr .inl)⟩

end Grown

/-! ### Little-endian numbers -/

/-- The `w` lowest bytes of `n`, the lowest first. -/
def toBytes : ℕ → ℕ → List UInt8
  | 0, _ => []
  | w + 1, n => UInt8.ofNat n :: toBytes w (n / 256)

def ofBytes : List UInt8 → ℕ
  | [] => 0
  | b :: bs => b.toNat + 256 * ofBytes bs

@[simp] theorem length_toBytes (w n : ℕ) : (toBytes w n).length = w := by
  induction w generalizing n with
  | zero => rfl
  | succ w ih => rw [toBytes, List.length_cons, ih]

theorem ofBytes_toBytes (w n : ℕ) : ofBytes (toBytes w n) = n % 256 ^ w := by
  induction w generalizing n with
  | zero => rw [toBytes, ofBytes, pow_zero, Nat.mod_one]
  | succ w ih =>
    rw [toBytes, ofBytes, ih, UInt8.toNat_ofNat', pow_succ' 256 w, Nat.mod_mul]

theorem ofBytes_toBytes_of_lt {w n : ℕ} (h : n < 256 ^ w) : ofBytes (toBytes w n) = n := by
  rw [ofBytes_toBytes, Nat.mod_eq_of_lt h]

theorem ofBytes_lt (l : List UInt8) : ofBytes l < 256 ^ l.length := by
  induction l with
  | nil => exact Nat.one_pos
  | cons x l ih =>
    have hx := x.toNat_lt
    rw [ofBytes, List.length_cons, Nat.pow_succ]
    omega

theorem toBytes_ofBytes (l : List UInt8) : toBytes l.length (ofBytes l) = l := by
  induction l with
  | nil => rfl
  | cons x l ih =>
    have hx := x.toNat_lt
    have hdiv : (x.toNat + 256 * ofBytes l) / 256 = ofBytes l := by omega
    have hmod : UInt8.ofNat (x.toNat + 256 * ofBytes l) = x := by
      refine UInt8.toNat_inj.1 ?_
      rw [UInt8.toNat_ofNat']
      omega
    rw [List.length_cons, ofBytes, toBytes, hdiv, ih, hmod]

@[simp] theorem ofBytes_replicate_zero (n : ℕ) : ofBytes (List.replicate n 0) = 0 := by
  induction n with
  | zero => rfl
  | succ n ih => rw [List.replicate_succ, ofBytes, ih]; rfl

theorem slice_replicate {α : Type} {i n m : ℕ} (x : α) (h : i + n ≤ m) :
    slice (List.replicate m x) i n = List.replicate n x := by
  rw [slice, List.drop_replicate, List.take_replicate]
  congr 1
  omega

end Lib
