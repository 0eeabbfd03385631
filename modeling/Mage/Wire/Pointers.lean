import Mage.Lib.Run
import Mage.Wire.Message
import Mathlib.Algebra.Order.BigOperators.Group.List

/-! Relative pointers survive every later change of the buffer. Fragments lie one after the other behind
    the header, and a pointer that was set keeps its distance to the fragment it was set to, wherever
    the buffer is and however far it has grown. -/

namespace Mage.Wire
open Lib

/-- A fragment, and how many bytes it was allocated with. -/
structure Allocation where
  fragment : MessageFragment
  size : ℕ
  deriving DecidableEq

/-- A message under construction, and its fragments in the order of their allocation. -/
structure Draft where
  message : Message
  fragments : List Allocation
  deriving DecidableEq

/-- Where a pointer can be: in the header, or in a fragment at some offset. -/
inductive Place where
  | header
  | member (fragment offset : ℕ)
  deriving DecidableEq

/-- What is done to a message under construction. The addresses are where the allocator puts the
    buffer. -/
inductive Op where
  | allocate (sizeof address : ℕ)
  | allocateArray (sizeof numElements address : ℕ)
  | write (fragment offset : ℕ) (part : List UInt8)
  | set (place : Place) (target : ℕ)
  | copy (address : ℕ)

namespace Draft

def new (type : MessageType) (address : ℕ) : Draft := ⟨.new type address, []⟩

/-- `data()` of the fragment with number `k`. -/
def data (s : Draft) (k : ℕ) : Except Check ℕ := do
  let f ← orFail s.fragments[k]? .bound
  f.fragment.data s.message

/-- The address of a pointer. -/
def locate (s : Draft) : Place → Except Check ℕ
  | .header => do
    let header ← s.message.get 0
    return header + MessageHeader.endpointsInMessage
  | .member k offset => do
    let a ← s.data k
    return a + offset

def step (s : Draft) : Op → Except Check Draft
  | .allocate sizeof address =>
    let (f, m) := MessageFragment.allocate s.message sizeof address
    return ⟨m, s.fragments ++ [⟨f, sizeof⟩]⟩
  | .allocateArray sizeof numElements address => do
    let (f, m) ← MessageFragment.allocateArray s.message sizeof numElements address
    return ⟨m, s.fragments ++ [⟨f, sizeofArrayHeader + sizeof * numElements⟩]⟩
  | .write k offset part => do
    let a ← s.data k
    return { s with message := s.message.store (a + offset) part }
  | .set place k => do
    let this ← s.locate place
    let ptr ← s.data k
    let m ← s.message.setPointer this ptr
    return { s with message := m }
  | .copy address => return { s with message := s.message.copy address }

/-- The size of the fragment with number `k`. -/
def extent (s : Draft) (k : ℕ) : ℕ := (s.fragments[k]?.map Allocation.size).getD 0

/-- Where the fragment with number `k` starts. -/
def start (s : Draft) (k : ℕ) : ℕ :=
  MessageHeader.sizeof + ((s.fragments.take k).map Allocation.size).sum

/-- Where a pointer is in the buffer. -/
def index (s : Draft) : Place → ℕ
  | .header => MessageHeader.endpointsInMessage
  | .member k offset => s.start k + offset

/-- Sizes stay below `2 ^ 31`; what is written lies in an allocated fragment, and a pointer lies before
    the fragment that it is set to. -/
def Legal (s : Draft) : Op → Prop
  | .allocate sizeof _ => s.message.bytes.length + sizeof < 2 ^ 31
  | .allocateArray sizeof numElements _ => 0 < sizeof ∧
    s.message.bytes.length + (sizeofArrayHeader + sizeof * numElements) < 2 ^ 31
  | .write k offset part => k < s.fragments.length ∧ offset + part.length ≤ s.extent k
  | .set .header k => k < s.fragments.length
  | .set (.member j offset) k =>
    j < k ∧ k < s.fragments.length ∧ offset + sizeofPointer ≤ s.extent j
  | .copy _ => True

/-- The operation writes nothing to the `n` bytes from position `i` on, if they are allocated. -/
def Leaves (s : Draft) (i n : ℕ) : Op → Prop
  | .write k offset part => Apart (s.start k + offset) part.length i n
  | .set place _ => Apart (s.index place) sizeofPointer i n
  | _ => True

/-- What a sequence of operations of some kind makes of a draft. -/
abbrev Becomes (ok : Draft → Op → Prop) (s : Draft) : Draft → Prop :=
  Reaches (fun s op s' => s.step op = .ok s') (fun s op => s.Legal op ∧ ok s op) s

/-- Where the fragments are. -/
structure Laid (s : Draft) : Prop where
  bounded : s.message.bytes.length < 2 ^ 31
  total : s.message.bytes.length = s.start s.fragments.length
  starts : ∀ k f, s.fragments[k]? = some f → f.fragment.startingIndex = (s.start k : ℤ)

/-- What one operation does to the buffer. -/
inductive Effect (s : Draft) (op : Op) (s' : Draft) : Prop where
  | grow (address : ℕ) (extra : List UInt8) (hb : s.message.bytes.length + extra.length < 2 ^ 31)
      (hs : s' = ⟨{ s.message with payloadBuffer := ⟨address, s.message.bytes ++ extra⟩ },
        s.fragments ++ [⟨⟨s.message.bytes.length⟩, extra.length⟩]⟩)
  | write (i : ℕ) (part : List UInt8) (hi : i + part.length ≤ s.message.bytes.length)
      (ha : ∀ j n, s.Leaves j n op → Apart i part.length j n)
      (hs : s' = { s with message := s.message.store (s.message.address + i) part })
  | copy (address : ℕ) (hs : s' = { s with message := s.message.copy address })

section
variable {s s' : Draft} {k j : ℕ}

theorem extent_of_getElem? {f : Allocation} (h : s.fragments[k]? = some f) : s.extent k = f.size := by
  simp [extent, h]

theorem start_succ (h : k < s.fragments.length) : s.start (k + 1) = s.start k + s.extent k := by
  have hk := List.getElem?_eq_getElem h
  rw [start, start, extent_of_getElem? hk, ← List.take_append_getElem h, List.map_append,
    List.sum_append]
  simp [Nat.add_assoc]

theorem start_mono (h : j ≤ k) : s.start j ≤ s.start k := by
  have hsub : (s.fragments.take j).Sublist (s.fragments.take k) :=
    List.take_sublist_take_left h
  exact Nat.add_le_add_left
    ((hsub.map Allocation.size).sum_le_sum fun _ _ => Nat.zero_le _) _

/-- A fragment ends where a later one starts, or before. -/
theorem end_le_start (hj : j < s.fragments.length) (h : j < k) :
    s.start j + s.extent j ≤ s.start k := by
  rw [← start_succ hj]
  exact start_mono h

/-- A pointer lies before what it is set to. -/
theorem index_lt {place : Place} (hl : s.Legal (.set place k)) :
    s.index place + sizeofPointer ≤ s.start k ∧ k < s.fragments.length := by
  cases place with
  | header =>
    refine ⟨?_, hl⟩
    rw [index, start, MessageHeader.endpointsInMessage, MessageHeader.sizeof, sizeofPointer]
    omega
  | member j offset =>
    obtain ⟨hjk, hk, hoff⟩ := hl
    have := end_le_start (hjk.trans hk) hjk
    rw [index]
    exact ⟨by omega, hk⟩

namespace Laid
variable (h : s.Laid)
include h

theorem start_le (hk : k ≤ s.fragments.length) : s.start k ≤ s.message.bytes.length := by
  rw [h.total]
  exact start_mono hk

theorem end_le (hk : k < s.fragments.length) :
    s.start k + s.extent k ≤ s.message.bytes.length := by
  rw [h.total]
  exact end_le_start hk hk

theorem data (hk : k < s.fragments.length) :
    s.data k = .ok (s.message.address + s.start k) := by
  have hget := List.getElem?_eq_getElem hk
  have hstart := h.starts k _ hget
  simp [Draft.data, hget, MessageFragment.data, Message.get, hstart, orFail, check, bind,
    Except.bind, pure, Except.pure]

theorem locate {place : Place} (hl : s.Legal (.set place k)) :
    s.locate place = .ok (s.message.address + s.index place) := by
  cases place with
  | header =>
    rw [Draft.locate, s.message.get_zero]
    rfl
  | member j offset =>
    obtain ⟨hjk, hk, -⟩ := hl
    simp [Draft.locate, h.data (hjk.trans hk), bind, Except.bind, pure, Except.pure, index,
      Nat.add_assoc]

/-- `EncodePointer` finds the pointer before what it is set to. -/
theorem step_set {place : Place} (hl : s.Legal (.set place k)) : s.step (.set place k) =
    .ok { s with
      message := s.message.store (s.message.address + s.index place)
        (toBytes sizeofPointer (s.start k - s.index place)) } := by
  have hlt := (index_lt hl).1
  have hsize : sizeofPointer = 8 := rfl
  have hset := s.message.setPointer_add (i := s.index place) (k := s.start k) (by omega)
  rw [step, h.locate hl, h.data (index_lt hl).2]
  simp only [bind, Except.bind, hset]
  rfl

/-- No assertion fails, and the buffer changes in one way only. -/
theorem effect {op : Op} (hl : s.Legal op) : ∃ s', s.step op = .ok s' ∧ Effect s op s' := by
  cases op with
  | allocate sizeof address =>
    refine ⟨_, by rw [step, MessageFragment.allocate_eq hl]; rfl,
      .grow address (List.replicate sizeof 0) ?_ ?_⟩
    · rw [List.length_replicate]
      exact hl
    · rw [List.length_replicate]
  | allocateArray sizeof numElements address =>
    refine ⟨_, by rw [step, MessageFragment.allocateArray_eq hl.2]; rfl,
      .grow address (intBytes numElements ++ List.replicate (sizeof * numElements) 0) ?_ ?_⟩
    · simpa [sizeofArrayHeader, sizeofInt] using hl.2
    · simp [sizeofArrayHeader, sizeofInt]
  | write k offset part =>
    obtain ⟨hk, hoff⟩ := hl
    have hend := h.end_le hk
    refine ⟨_, by rw [step, h.data hk]; rfl, .write (s.start k + offset) part ?_ ?_ ?_⟩
    · omega
    · exact fun j n ha => ha
    · rw [Nat.add_assoc]
  | set place k =>
    have hlt := index_lt hl
    have hend := h.start_le hlt.2.le
    refine ⟨_, h.step_set hl,
      .write (s.index place) (toBytes sizeofPointer (s.start k - s.index place)) ?_ ?_ rfl⟩
    · rw [length_toBytes]
      omega
    · rw [length_toBytes]
      exact fun j n ha => ha
  | copy address => exact ⟨_, rfl, .copy address rfl⟩

end Laid
end

/-- `s'` has all that `s` has, at the same places. -/
structure Extends (s s' : Draft) : Prop where
  fragments : s.fragments <+: s'.fragments
  bytes : s.message.bytes.length ≤ s'.message.bytes.length

theorem Extends.refl (s : Draft) : Extends s s := ⟨List.prefix_rfl, Nat.le_refl _⟩

theorem Extends.trans {s s' s'' : Draft} (h : Extends s s') (h' : Extends s' s'') : Extends s s'' :=
  ⟨h.fragments.trans h'.fragments, h.bytes.trans h'.bytes⟩

section
variable {s s' : Draft} {op : Op} {k i n : ℕ}

theorem Extends.start (h : Extends s s') (hk : k ≤ s.fragments.length) : s'.start k = s.start k := by
  obtain ⟨rest, hrest⟩ := h.fragments
  rw [Draft.start, Draft.start, ← hrest, List.take_append_of_le_length hk]

theorem Extends.getElem? (h : Extends s s') (hk : k < s.fragments.length) :
    s'.fragments[k]? = s.fragments[k]? := by
  obtain ⟨rest, hrest⟩ := h.fragments
  rw [← hrest, List.getElem?_append_left hk]

theorem Extends.extent (h : Extends s s') (hk : k < s.fragments.length) :
    s'.extent k = s.extent k := by
  rw [Draft.extent, Draft.extent, h.getElem? hk]

theorem Extends.lt (h : Extends s s') (hk : k < s.fragments.length) : k < s'.fragments.length :=
  Nat.lt_of_lt_of_le hk h.fragments.length_le

theorem Extends.index (h : Extends s s') {place : Place} (hl : s.Legal (.set place k)) :
    s'.index place = s.index place := by
  cases place with
  | header => rfl
  | member j offset => rw [Draft.index, Draft.index, h.start (hl.1.trans hl.2.1).le]

theorem Extends.legal (h : Extends s s') {place : Place} (hl : s.Legal (.set place k)) :
    s'.Legal (.set place k) := by
  cases place with
  | header => exact h.lt hl
  | member j offset =>
    obtain ⟨hjk, hk, hoff⟩ := hl
    refine ⟨hjk, h.lt hk, ?_⟩
    rw [h.extent (hjk.trans hk)]
    exact hoff

theorem Effect.extends (h : Effect s op s') : Extends s s' := by
  cases h with
  | grow address extra hb hs =>
    subst hs
    exact ⟨List.prefix_append _ _, by simp [Message.bytes]⟩
  | write j part hj ha hs =>
    subst hs
    refine ⟨List.prefix_rfl, ?_⟩
    rw [Message.store_add, length_overwrite hj]
  | copy address hs =>
    subst hs
    exact ⟨List.prefix_rfl, Nat.le_refl _⟩

theorem Effect.laid (h : Effect s op s') (hs : s.Laid) : s'.Laid := by
  cases h with
  | grow address extra hb heq =>
    subst heq
    have hnew : (Draft.mk ⟨⟨address, s.message.bytes ++ extra⟩, s.message.pipes⟩
        (s.fragments ++ [⟨⟨s.message.bytes.length⟩, extra.length⟩])).start s.fragments.length =
        s.message.bytes.length := by
      rw [hs.total, start, start, List.take_append_of_le_length (Nat.le_refl _)]
    refine ⟨?_, ?_, fun k f hf => ?_⟩
    · simpa [Message.bytes] using hb
    · have hlen := start_succ (s := Draft.mk ⟨⟨address, s.message.bytes ++ extra⟩, s.message.pipes⟩
        (s.fragments ++ [⟨⟨s.message.bytes.length⟩, extra.length⟩])) (k := s.fragments.length)
        (by simp)
      rw [hnew] at hlen
      simpa [extent, Message.bytes] using hlen.symm
    · by_cases hk : k < s.fragments.length
      · rw [List.getElem?_append_left hk] at hf
        rw [hs.starts k f hf, start, start, List.take_append_of_le_length hk.le]
      · have hlen := (List.getElem?_eq_some_iff.1 hf).1
        obtain rfl : k = s.fragments.length := by
          rw [List.length_append, List.length_singleton] at hlen
          omega
        rw [hnew]
        rw [List.getElem?_append_right (Nat.le_refl _), Nat.sub_self] at hf
        cases hf
        rfl
  | write j part hj ha heq =>
    subst heq
    have hlen : (s.message.store (s.message.address + j) part).bytes.length =
        s.message.bytes.length := by
      rw [Message.store_add, length_overwrite hj]
    exact ⟨hlen.symm ▸ hs.bounded, hlen.trans hs.total, hs.starts⟩
  | copy address heq =>
    subst heq
    exact ⟨hs.bounded, hs.total, hs.starts⟩

/-- What an operation does not write to stays as it is. -/
theorem Effect.slice (h : Effect s op s') (hl : s.Leaves i n op)
    (hi : i + n ≤ s.message.bytes.length) :
    Lib.slice s'.message.bytes i n = Lib.slice s.message.bytes i n := by
  cases h with
  | grow address extra hb hs =>
    subst hs
    exact slice_append hi
  | write j part hj ha hs =>
    subst hs
    rw [Message.store_add]
    exact slice_overwrite_apart hj (ha i n hl)
  | copy address hs =>
    subst hs
    rfl

theorem laid_new (type : MessageType) (address : ℕ) : (new type address).Laid := by
  have hlen := Message.length_new type address
  refine ⟨?_, hlen, fun k f hf => ?_⟩
  · rw [new, hlen]
    decide
  · cases hf

/-- A sequence of operations keeps what is there, and the parts that it writes nothing to. -/
theorem Becomes.keeps {ok : Draft → Op → Prop} (h : s.Becomes ok s') (hs : s.Laid) :
    s'.Laid ∧ Extends s s' ∧ ((∀ u op, ok u op → u.Leaves i n op) → i + n ≤ s.message.bytes.length →
      Lib.slice s'.message.bytes i n = Lib.slice s.message.bytes i n) := by
  refine h.invariant (P := fun u => u.Laid ∧ Extends s u ∧ ((∀ u op, ok u op → u.Leaves i n op) →
    i + n ≤ s.message.bytes.length → Lib.slice u.message.bytes i n = Lib.slice s.message.bytes i n))
    ⟨hs, .refl s, fun _ _ => rfl⟩ ?_
  rintro u op u' - ⟨hu, hext, hslice⟩ ⟨hl, hok⟩ hstep
  obtain ⟨v, hv, heff⟩ := hu.effect hl
  rw [hv, Except.ok.injEq] at hstep
  subst hstep
  refine ⟨heff.laid hu, hext.trans heff.extends, fun hleaves hi => ?_⟩
  rw [heff.slice (hleaves u op hok) (hi.trans hext.bytes), hslice hleaves hi]

end

/-! ### What is read back -/

section
variable {s s' : Draft} {k n i : ℕ}

/-- The draft has been made of a new message. -/
abbrev Drafted (type : MessageType) (address : ℕ) (s : Draft) : Prop :=
  (new type address).Becomes (fun _ _ => True) s

theorem Drafted.laid {type : MessageType} {address : ℕ} (h : Drafted type address s) : s.Laid :=
  (h.keeps (i := 0) (n := 0) (laid_new type address)).1

/-- The pointer at position `i`. -/
theorem getPointer_index : s.message.getPointer (s.message.address + i) =
    decodePointer (ofBytes (slice s.message.bytes i sizeofPointer)) (s.message.address + i) := by
  rw [Message.getPointer, Message.load_add]

/-- A pointer that has just been set holds the distance to the fragment. -/
theorem slice_set {place : Place} (hs : s.Laid) (hl : s.Legal (.set place k))
    (hstep : s.step (.set place k) = .ok s') :
    slice s'.message.bytes (s.index place) sizeofPointer =
      toBytes sizeofPointer (s.start k - s.index place) := by
  have hlt := index_lt hl
  have hend := hs.start_le hlt.2.le
  rw [hs.step_set hl, Except.ok.injEq] at hstep
  subst hstep
  have hover := slice_overwrite (l := s.message.bytes) (i := s.index place)
    (p := toBytes sizeofPointer (s.start k - s.index place)) (by rw [length_toBytes]; omega)
  rw [length_toBytes] at hover
  rw [Message.store_add]
  exact hover

/-- As long as nothing else is written there, the pointer leads to the fragment. -/
theorem Laid.getPointer {place : Place} (hs : s'.Laid) (hl : s'.Legal (.set place k))
    (hslice : slice s'.message.bytes (s'.index place) sizeofPointer =
      toBytes sizeofPointer (s'.start k - s'.index place)) :
    s'.message.getPointer (s'.message.address + s'.index place) =
      some (s'.message.address + s'.start k) := by
  have hlt := index_lt hl
  have hend := hs.start_le hlt.2.le
  have hb := hs.bounded
  have hsize : sizeofPointer = 8 := rfl
  exact s'.message.getPointer_add (by omega) (by omega) hslice

theorem getPointer_zero (hslice : slice s.message.bytes i sizeofPointer =
    List.replicate sizeofPointer 0) : s.message.getPointer (s.message.address + i) = none := by
  rw [getPointer_index, hslice, ofBytes_replicate_zero]
  rfl

/-- Only the header pointer and the type are in a new message. -/
theorem slice_new (type : MessageType) (address : ℕ) :
    slice (new type address).message.bytes MessageHeader.endpointsInMessage sizeofPointer =
      List.replicate sizeofPointer 0 := by
  rw [new, Message.bytes_new, slice_overwrite_apart]
  · exact slice_replicate 0 (by decide)
  · rw [length_intBytes, List.length_replicate]
    decide
  · rw [length_intBytes]
    decide

/-- A fragment of these bytes has been allocated. -/
def Appended (s : Draft) (extra : List UInt8) (s' : Draft) : Prop :=
  ∃ address f, s' = ⟨{ s.message with payloadBuffer := ⟨address, s.message.bytes ++ extra⟩ },
    s.fragments ++ [⟨f, extra.length⟩]⟩

theorem appended_allocate {sizeof address : ℕ} (hl : s.Legal (.allocate sizeof address))
    (hstep : s.step (.allocate sizeof address) = .ok s') :
    Appended s (List.replicate sizeof 0) s' := by
  rw [step, MessageFragment.allocate_eq hl] at hstep
  refine ⟨address, ⟨s.message.bytes.length⟩, ?_⟩
  rw [List.length_replicate]
  exact (Except.ok.inj hstep).symm

/-- An array starts with its number of elements. -/
theorem appended_allocateArray {sizeof elements address : ℕ}
    (hl : s.Legal (.allocateArray sizeof elements address))
    (hstep : s.step (.allocateArray sizeof elements address) = .ok s') :
    Appended s (intBytes elements ++ List.replicate (sizeof * elements) 0) s' := by
  rw [step, MessageFragment.allocateArray_eq hl.2] at hstep
  refine ⟨address, ⟨s.message.bytes.length⟩, ?_⟩
  rw [List.length_append, List.length_replicate, length_intBytes]
  exact (Except.ok.inj hstep).symm

/-- The bytes of a new fragment stay where they are, as long as they are not written to. -/
theorem Appended.remains {extra : List UInt8} {s₂ : Draft} (h : Appended s extra s')
    (hs : s.Laid) (hs' : s'.Laid) (hi : i + n ≤ extra.length)
    (hb : s'.Becomes (fun u op => u.Leaves (s'.start s.fragments.length + i) n op) s₂) :
    s₂.data s.fragments.length = .ok (s₂.message.address + s₂.start s.fragments.length) ∧
      slice s₂.message.bytes (s₂.start s.fragments.length + i) n = slice extra i n := by
  obtain ⟨address, f, heq⟩ := h
  have hlt : s.fragments.length < s'.fragments.length := by simp [heq]
  have hstart : s'.start s.fragments.length = s.message.bytes.length := by
    rw [hs.total, heq, start, start, List.take_append_of_le_length (Nat.le_refl _)]
  have hbytes : s'.message.bytes = s.message.bytes ++ extra := by rw [heq]; rfl
  obtain ⟨hs₂, hext, hslice⟩ := hb.keeps (i := s'.start s.fragments.length + i) (n := n) hs'
  refine ⟨hs₂.data (hext.lt hlt), ?_⟩
  rw [hext.start hlt.le, hslice (fun _ _ hu => hu), hstart, hbytes]
  · exact slice_append_right
  · rw [hstart, hbytes, List.length_append]
    omega

end

/-! ### Pointers survive -/

/-- What holds of every message under construction, however its fragments, writes and pointers
    follow each other and wherever its buffer is. -/
structure PointersSurvive (type : MessageType) (address : ℕ) : Prop where
  /-- No assertion fails, neither that a pointer lies before what it is set to. -/
  proceeds : ∀ s op, Drafted type address s → s.Legal op → ∃ s', s.step op = .ok s'
  /-- The fragments lie one after the other, from the header to the end. -/
  laid : ∀ s, Drafted type address s → s.start 0 = MessageHeader.sizeof ∧
    s.start s.fragments.length = s.message.bytes.length ∧ ∀ k, k < s.fragments.length →
      s.data k = .ok (s.message.address + s.start k) ∧ s.start (k + 1) = s.start k + s.extent k
  /-- No two of them overlap. -/
  disjoint : ∀ s j k, Drafted type address s → j < k → k < s.fragments.length →
    Apart (s.start j) (s.extent j) (s.start k) (s.extent k)
  /-- Allocated fragments stay, and keep what is not overwritten. -/
  kept : ∀ s s' k i n, Drafted type address s → k < s.fragments.length → i + n ≤ s.extent k →
    s.Becomes (fun u op => u.Leaves (s.start k + i) n op) s' → s'.fragments[k]? = s.fragments[k]? ∧
      ∃ a a', s.data k = .ok a ∧ s'.data k = .ok a' ∧
        s'.message.load (a' + i) n = s.message.load (a + i) n
  /-- A pointer that was set leads to the same fragment for ever. -/
  survives : ∀ s s₁ s₂ place k, Drafted type address s → s.Legal (.set place k) →
    s.step (.set place k) = .ok s₁ →
    s₁.Becomes (fun u op => u.Leaves (s.index place) sizeofPointer op) s₂ →
    ∃ this ptr, s₂.locate place = .ok this ∧ s₂.data k = .ok ptr ∧
      s₂.message.getPointer this = some ptr
  /-- An array has its number of elements for ever. -/
  elements : ∀ s s₁ s₂ sizeof n a, Drafted type address s → s.Legal (.allocateArray sizeof n a) →
    s.step (.allocateArray sizeof n a) = .ok s₁ →
    s₁.Becomes (fun u op => u.Leaves (s₁.start s.fragments.length) sizeofArrayHeader op) s₂ →
    ∃ ptr, s₂.data s.fragments.length = .ok ptr ∧ s₂.message.numElements ptr = n
  /-- A pointer in the header that was never set is null. -/
  null_header : ∀ s, (new type address).Becomes
      (fun u op => u.Leaves MessageHeader.endpointsInMessage sizeofPointer op) s →
    ∃ this, s.locate .header = .ok this ∧ s.message.getPointer this = none
  /-- So is one in a fragment. -/
  null_member : ∀ s s₁ s₂ sizeof offset a, Drafted type address s → s.Legal (.allocate sizeof a) →
    s.step (.allocate sizeof a) = .ok s₁ → offset + sizeofPointer ≤ sizeof →
    s₁.Becomes
      (fun u op => u.Leaves (s₁.start s.fragments.length + offset) sizeofPointer op) s₂ →
    ∃ this, s₂.locate (.member s.fragments.length offset) = .ok this ∧
      s₂.message.getPointer this = none
  /-- So is one in an element of an array. -/
  null_element : ∀ s s₁ s₂ sizeof n offset a, Drafted type address s →
    s.Legal (.allocateArray sizeof n a) → s.step (.allocateArray sizeof n a) = .ok s₁ →
    offset + sizeofPointer ≤ sizeof * n →
    s₁.Becomes (fun u op => u.Leaves
      (s₁.start s.fragments.length + sizeofArrayHeader + offset) sizeofPointer op) s₂ →
    ∃ this, s₂.locate (.member s.fragments.length (sizeofArrayHeader + offset)) = .ok this ∧
      s₂.message.getPointer this = none

section
variable {type : MessageType} {address : ℕ} {s s' s₁ s₂ : Draft} {op : Op} {k i n : ℕ}

theorem Laid.of_step (hs : s.Laid) (hl : s.Legal op) (hstep : s.step op = .ok s') : Effect s op s' := by
  obtain ⟨u, hu, heff⟩ := hs.effect hl
  rw [hu, Except.ok.injEq] at hstep
  exact hstep ▸ heff

/-- Relative pointers survive every later change of the buffer. -/
theorem pointers_survive (type : MessageType) (address : ℕ) : PointersSurvive type address where
  proceeds s op hs hl := by
    obtain ⟨s', hstep, -⟩ := hs.laid.effect hl
    exact ⟨s', hstep⟩
  laid s hs := ⟨rfl, hs.laid.total.symm, fun k hk => ⟨hs.laid.data hk, start_succ hk⟩⟩
  disjoint s j k hs hjk hk := .inl (end_le_start (hjk.trans hk) hjk)
  kept s s' k i n hs hk hi h := by
    obtain ⟨hs', hext, hslice⟩ := h.keeps (i := s.start k + i) (n := n) hs.laid
    have hend := hs.laid.end_le hk
    refine ⟨hext.getElem? hk, _, _, hs.laid.data hk, hs'.data (hext.lt hk), ?_⟩
    rw [Nat.add_assoc, Nat.add_assoc, Message.load_add, Message.load_add, hext.start hk.le]
    exact hslice (fun _ _ hu => hu) (by omega)
  survives s s₁ s₂ place k hs hl hstep h := by
    have heff := hs.laid.of_step hl hstep
    obtain ⟨hs₂, hext, hslice⟩ := h.keeps (i := s.index place) (n := sizeofPointer)
      (heff.laid hs.laid)
    have hl₁ := heff.extends.legal hl
    have hl₂ := hext.legal hl₁
    refine ⟨_, _, hs₂.locate hl₂, hs₂.data (index_lt hl₂).2, hs₂.getPointer hl₂ ?_⟩
    have hlt := index_lt hl₁
    have hend := (heff.laid hs.laid).start_le hlt.2.le
    rw [hext.index hl₁, hext.start hlt.2.le, heff.extends.index hl,
      heff.extends.start (index_lt hl).2.le, ← slice_set hs.laid hl hstep]
    rw [heff.extends.index hl] at hlt
    exact hslice (fun _ _ hu => hu) (by omega)
  elements s s₁ s₂ sizeof n a hs hl hstep h := by
    have hb := hl.2
    have hn := Nat.le_mul_of_pos_left n hl.1
    have hint : IsInt n := ⟨by omega, by omega⟩
    obtain ⟨hdata, hslice⟩ := (appended_allocateArray hl hstep).remains (i := 0)
      (n := sizeofArrayHeader) hs.laid ((hs.laid.of_step hl hstep).laid hs.laid)
      (by simp [sizeofArrayHeader, sizeofInt]) h
    have hlen := length_intBytes n
    refine ⟨_, hdata, ?_⟩
    rw [Nat.add_zero, sizeofArrayHeader, sizeofInt, ← hlen, slice_append (by omega), slice_all,
      hlen] at hslice
    rw [Message.numElements, Message.load_add, sizeofInt, hslice, asInt_intBytes hint]
  null_header s h := by
    obtain ⟨hs, -, hslice⟩ := h.keeps (i := MessageHeader.endpointsInMessage)
      (n := sizeofPointer) (laid_new type address)
    refine ⟨s.message.address + MessageHeader.endpointsInMessage, ?_, getPointer_zero ?_⟩
    · simp [locate, Message.get, check, bind, Except.bind, pure, Except.pure]
    · rw [hslice (fun _ _ hu => hu), slice_new]
      rw [new, Message.length_new]
      decide
  null_member s s₁ s₂ sizeof offset a hs hl hstep hoff h := by
    obtain ⟨hdata, hslice⟩ := (appended_allocate hl hstep).remains hs.laid
      ((hs.laid.of_step hl hstep).laid hs.laid) (by rw [List.length_replicate]; exact hoff) h
    refine ⟨_, by rw [locate, hdata]; rfl, ?_⟩
    rw [Nat.add_assoc, getPointer_zero]
    rw [hslice, slice_replicate 0 hoff]
  null_element s s₁ s₂ sizeof n offset a hs hl hstep hoff h := by
    have hlen := length_intBytes n
    rw [Nat.add_assoc] at h
    obtain ⟨hdata, hslice⟩ := (appended_allocateArray hl hstep).remains hs.laid
      ((hs.laid.of_step hl hstep).laid hs.laid)
      (by rw [List.length_append, List.length_replicate, hlen, sizeofArrayHeader, sizeofInt]; omega) h
    refine ⟨_, by rw [locate, hdata]; rfl, ?_⟩
    rw [Nat.add_assoc, getPointer_zero]
    rw [hslice, sizeofArrayHeader, sizeofInt, ← hlen, slice_append_right, slice_replicate 0 hoff]

end

end Draft
end Mage.Wire
