import Mage.Wire.Generated

/-! What a generated proxy method puts into its buffer. While it writes its arguments the buffer only
    grows behind the parameters, so that each argument stays as it was written. -/

namespace Mage.Wire
open Lib

/-! ### Arguments in a buffer -/

/-- The argument `v` is in the buffer, its member of the parameters at position `i`. Strings are between
    `base`, where the parameters end, and `stop`; of a pipe nothing is read. -/
def Stored (base stop : ℕ) (b : List UInt8) (i : ℕ) : Value → Prop
  | .scalar x => slice b i x.type.sizeof = x.bytes
  | .string x => ∃ q, base ≤ q ∧ q + (sizeofArrayHeader + x.length) ≤ stop ∧
      slice b i sizeofPointer = toBytes sizeofPointer (q - i) ∧
      slice b q sizeofArrayHeader = intBytes x.length ∧
      slice b (q + sizeofArrayHeader) x.length = x
  | .messagePipe _ => True

/-- What the argument takes up behind the parameters. -/
def Value.behind : Value → ℕ
  | .string x => sizeofArrayHeader + x.length
  | _ => 0

/-- Where the array of endpoints is in the buffer of a message with these arguments: last. -/
def endpointsAt (args : List Value) : ℕ :=
  MessageHeader.sizeof + Params.sizeof (args.map Value.type) + (args.map Value.behind).sum

/-- The size of that buffer. -/
def bufferSize (args : List Value) : ℕ :=
  endpointsAt args + (sizeofArrayHeader + sizeofEndpointDescriptor * (Value.pipes args).length)

section
variable {base stop stop' i lo hi n : ℕ} {b b' : List UInt8} {v : Value}

/-- An argument stays what it is as long as its bytes are not written over. -/
theorem Stored.grown (hs : Stored base stop b i v) (hb : Grown lo hi b b')
    (hi₁ : i + v.type.sizeof ≤ base) (hbase : base ≤ stop) (hstop : stop ≤ b.length)
    (hstop' : stop ≤ stop') (hlo : i + v.type.sizeof ≤ lo ∨ hi ≤ i) (hhi : hi ≤ base) :
    Stored base stop' b' i v := by
  cases v with
  | messagePipe x => trivial
  | scalar x =>
    have hsame := hb.same i x.type.sizeof (hi₁.trans (hbase.trans hstop)) hlo
    exact hsame.trans hs
  | string x =>
    obtain ⟨q, hq, hfit, hptr, hnum, hstr⟩ := hs
    refine ⟨q, hq, hfit.trans hstop', ?_, ?_, ?_⟩
    · exact (hb.same i sizeofPointer (hi₁.trans (hbase.trans hstop)) hlo).trans hptr
    · exact (hb.same q sizeofArrayHeader (by omega) (by omega)).trans hnum
    · exact (hb.same (q + sizeofArrayHeader) x.length (by omega) (by omega)).trans hstr

end

/-! ### Serialization -/

/-- Successive calls of `PopulateEndpointDescriptor`, from the `k`-th on, fill in these descriptors. -/
def Populated (core : ℕ → Core) (name : ℕ → Identifier) (carrier : MessagePipe) :
    ℕ → List MessagePipe → List EndpointDescriptor → Prop
  | _, [], ds => ds = []
  | k, x :: xs, ds => ∃ d rest, ds = d :: rest ∧
      populateEndpointDescriptor (core k) (name k) x carrier = .ok d ∧
      Populated core name carrier (k + 1) xs rest

section
variable {h : Host} {core : ℕ → Core} {name : ℕ → Identifier} {proxy : Proxy} {s : Serialization}
  {offset base : ℕ} {v : Value}

/-- What one argument does to a message: its member is written, and what it takes up behind the
    parameters is appended. -/
structure Serialized (base i : ℕ) (v : Value) (ds : List EndpointDescriptor)
    (s s' : Serialization) : Prop where
  grown : Grown i (i + v.type.sizeof) s.message.bytes s'.message.bytes
  length : s'.message.bytes.length = s.message.bytes.length + v.behind
  stored : Stored base s'.message.bytes.length s'.message.bytes i v
  pipes : s'.message.pipes = s.message.pipes
  endpoints : s'.endpointsToWrite = s.endpointsToWrite ++ ds.map Descriptor.bytes

theorem serialize_scalar {x : Scalar}
    (hfit : MessageHeader.sizeof + offset + x.type.sizeof ≤ s.message.bytes.length) :
    ∃ s', proxy.serialize h core name ⟨MessageHeader.sizeof⟩ s offset (.scalar x) = .ok s' ∧
      Serialized base (MessageHeader.sizeof + offset) (.scalar x) [] s s' := by
  have hbytes := s.message.store_add (MessageHeader.sizeof + offset) x.bytes
  have hx := x.length_bytes
  rw [← hx] at hfit
  refine ⟨⟨s.message.store (s.message.address + (MessageHeader.sizeof + offset)) x.bytes,
    s.endpointsToWrite⟩, ?_, ?_, ?_, ?_, rfl, (List.append_nil _).symm⟩
  · rw [Proxy.serialize, MessageFragment.data_natCast, ← Nat.add_assoc]
    rfl
  · rw [hbytes, Value.type, MagenType.sizeof, ← hx]
    exact .overwrite hfit
  · rw [hbytes, length_overwrite hfit]
    rfl
  · rw [hbytes, Stored, ← hx]
    exact slice_overwrite hfit

/-- An array of characters is allocated and filled. -/
theorem allocateArray_string {m : Message} {x : List UInt8} (address : ℕ)
    (hsize : m.bytes.length + (sizeofArrayHeader + x.length) < 2 ^ 31) :
    ∃ m', MessageFragment.allocateArray m 1 (asInt x.length) address = .ok (⟨m.bytes.length⟩, m') ∧
      m'.pipes = m.pipes ∧
      (m'.store (m'.address + (m.bytes.length + sizeofArrayHeader)) x).bytes =
        m.bytes ++ (intBytes x.length ++ x) := by
  have hheader : sizeofArrayHeader = 4 := rfl
  have hlen : (m.bytes ++ intBytes x.length).length = m.bytes.length + sizeofArrayHeader := by
    rw [List.length_append, length_intBytes]
    rfl
  rw [asInt_natCast (by omega), MessageFragment.allocateArray_eq (by omega), Nat.one_mul]
  refine ⟨_, rfl, rfl, ?_⟩
  rw [Message.store_add]
  change overwrite (m.bytes ++ (intBytes x.length ++ List.replicate x.length 0)) _ x = _
  rw [← List.append_assoc, ← hlen, overwrite_append (by rw [List.length_replicate]),
    List.append_assoc]

/-- Behind the parameters an array of the string's bytes is appended, and the member points to it. -/
theorem serialize_string {x : List UInt8} (hbase : base ≤ s.message.bytes.length)
    (hfit : MessageHeader.sizeof + offset + sizeofPointer ≤ base)
    (hsize : s.message.bytes.length + (sizeofArrayHeader + x.length) < 2 ^ 31) :
    ∃ s', proxy.serialize h core name ⟨MessageHeader.sizeof⟩ s offset (.string x) = .ok s' ∧
      Serialized base (MessageHeader.sizeof + offset) (.string x) [] s s' := by
  have hpointer : sizeofPointer = 8 := rfl
  have hheader : sizeofArrayHeader = 4 := rfl
  obtain ⟨m₁, hall, hpipes, hbytes⟩ := allocateArray_string
    (h.address (s.message.bytes.length + (sizeofArrayHeader + x.length))) hsize
  obtain ⟨m₂, hm₂⟩ : ∃ m₂, m₂ =
      m₁.store (m₁.address + (s.message.bytes.length + sizeofArrayHeader)) x := ⟨_, rfl⟩
  rw [← hm₂] at hbytes
  have hlen : m₂.bytes.length = s.message.bytes.length + (sizeofArrayHeader + x.length) := by
    rw [hbytes, List.length_append, List.length_append, length_intBytes, hheader]
  -- The pointer is written to the member.
  obtain ⟨q, hq⟩ : ∃ q, q = s.message.bytes.length := ⟨_, rfl⟩
  rw [← hq] at hbase hsize hlen
  have hset := m₂.setPointer_add (i := MessageHeader.sizeof + offset) (k := q) (by omega)
  obtain ⟨m₃, hm₃⟩ : ∃ m₃, m₃ = m₂.store (m₂.address + (MessageHeader.sizeof + offset))
      (toBytes sizeofPointer (q - (MessageHeader.sizeof + offset))) := ⟨_, rfl⟩
  have hover := m₂.store_add (MessageHeader.sizeof + offset)
    (toBytes sizeofPointer (q - (MessageHeader.sizeof + offset)))
  rw [← hm₃] at hset hover
  have hwritten := length_toBytes sizeofPointer (q - (MessageHeader.sizeof + offset))
  have hin : MessageHeader.sizeof + offset +
      (toBytes sizeofPointer (q - (MessageHeader.sizeof + offset))).length ≤ m₂.bytes.length := by
    omega
  have hgrown : Grown (MessageHeader.sizeof + offset) (MessageHeader.sizeof + offset + sizeofPointer)
      m₂.bytes m₃.bytes := by
    rw [hover, ← hwritten]
    exact .overwrite hin
  have hlen₃ : m₃.bytes.length = m₂.bytes.length := by rw [hover, length_overwrite hin]
  refine ⟨⟨m₃, s.endpointsToWrite⟩, ?_, ?_, ?_, ?_, ?_, (List.append_nil _).symm⟩
  · simp only [Proxy.serialize, hall, lift_buffer, ok_bind, MessageFragment.data_natCast,
      Nat.add_assoc, ← hm₂]
    rw [← hq, hset]
    rfl
  · refine Grown.trans ?_ hgrown
    rw [hbytes]
    exact .append _
  · rw [hlen₃, hlen, hq]
    rfl
  · refine ⟨q, hbase, (hlen₃.trans hlen).ge, ?_, ?_, ?_⟩
    · rw [hover, ← hwritten]
      exact slice_overwrite hin
    · rw [hgrown.same _ _ (by omega) (by omega), hbytes, hq, ← Nat.add_zero s.message.bytes.length,
        slice_append_right, hheader, ← length_intBytes x.length, slice_append (by omega), slice_all]
    · rw [hgrown.same _ _ (by omega) (by omega), hbytes, hq, slice_append_right, hheader,
        ← length_intBytes x.length, ← Nat.add_zero (intBytes x.length).length, slice_append_right,
        slice_all]
  · rw [hm₃, hm₂]
    exact hpipes

/-- The names of the endpoint are copied to the member, and the member to `endpoints_to_write`. -/
theorem serialize_messagePipe {x : MessagePipe} {d : EndpointDescriptor}
    (hd : populateEndpointDescriptor (core s.endpointsToWrite.length) (name s.endpointsToWrite.length)
      x proxy.localHandle = .ok d) (hsized : Descriptor.Sized d)
    (hfit : MessageHeader.sizeof + offset + sizeofEndpointDescriptor ≤ s.message.bytes.length) :
    ∃ s', proxy.serialize h core name ⟨MessageHeader.sizeof⟩ s offset (.messagePipe x) = .ok s' ∧
      Serialized base (MessageHeader.sizeof + offset) (.messagePipe x) [d] s s' := by
  have hbytes := s.message.populate_bytes hsized hfit
  have hlen := hsized.length_bytes
  rw [← hlen] at hfit
  have hload : (s.message.populate (s.message.address + (MessageHeader.sizeof + offset)) d).load
      (s.message.address + (MessageHeader.sizeof + offset)) sizeofEndpointDescriptor =
        Descriptor.bytes d := by
    have := Message.load_add (s.message.populate (s.message.address +
      (MessageHeader.sizeof + offset)) d) (MessageHeader.sizeof + offset) sizeofEndpointDescriptor
    rw [Message.populate_address] at this
    rw [this, hbytes, ← hlen, slice_overwrite hfit]
  refine ⟨⟨s.message.populate (s.message.address + (MessageHeader.sizeof + offset)) d,
    s.endpointsToWrite ++ [Descriptor.bytes d]⟩, ?_, ?_, ?_, trivial, rfl, rfl⟩
  · simp only [Proxy.serialize, hd, lift_buffer, lift_process, ok_bind,
      MessageFragment.data_natCast, Nat.add_assoc, hload]
    rfl
  · rw [hbytes, Value.type, MagenType.sizeof, ← hlen]
    exact .overwrite hfit
  · rw [hbytes, length_overwrite hfit]
    rfl

/-- Each kind of argument, with the descriptor of its pipe if it is one. -/
theorem serialize_spec {ds : List EndpointDescriptor}
    (hbase : MessageHeader.sizeof + offset + v.type.sizeof ≤ base)
    (hlen : base ≤ s.message.bytes.length) (hsize : s.message.bytes.length + v.behind < 2 ^ 31)
    (hds : Populated core name proxy.localHandle s.endpointsToWrite.length v.pipe?.toList ds)
    (hsized : ∀ d ∈ ds, Descriptor.Sized d) :
    ∃ s', proxy.serialize h core name ⟨MessageHeader.sizeof⟩ s offset v = .ok s' ∧
      Serialized base (MessageHeader.sizeof + offset) v ds s s' := by
  cases v with
  | scalar x =>
    obtain rfl : ds = [] := hds
    exact serialize_scalar (hbase.trans hlen)
  | string x =>
    obtain rfl : ds = [] := hds
    exact serialize_string hlen hbase hsize
  | messagePipe x =>
    obtain ⟨d, rest, rfl, hd, hrest⟩ := hds
    obtain rfl : rest = [] := hrest
    exact serialize_messagePipe hd (hsized d List.mem_cons_self) (hbase.trans hlen)

/-- The pipes of a list of arguments are described one after the other. -/
theorem Populated.cons {carrier : MessagePipe} {k : ℕ} {args : List Value}
    {ds : List EndpointDescriptor}
    (h : Populated core name carrier k (Value.pipes (v :: args)) ds) : ∃ ds₁ ds₂, ds = ds₁ ++ ds₂ ∧
      Populated core name carrier k v.pipe?.toList ds₁ ∧
      Populated core name carrier (k + ds₁.length) (Value.pipes args) ds₂ := by
  cases v with
  | messagePipe x =>
    obtain ⟨d, rest, rfl, hd, hrest⟩ := h
    exact ⟨[d], rest, rfl, ⟨d, [], rfl, hd, rfl⟩, hrest⟩
  | scalar x => exact ⟨[], ds, rfl, rfl, h⟩
  | string x => exact ⟨[], ds, rfl, rfl, h⟩

theorem Populated.made {carrier : MessagePipe} {k : ℕ} {pipes : List MessagePipe}
    {ds : List EndpointDescriptor} (h : Populated core name carrier k pipes ds) : ∀ d ∈ ds,
      ∃ i pipe, populateEndpointDescriptor (core i) (name i) pipe carrier = .ok d := by
  induction pipes generalizing k ds with
  | nil =>
    obtain rfl : ds = [] := h
    intro d hd
    cases hd
  | cons pipe pipes ih =>
    obtain ⟨d, rest, rfl, hd, hrest⟩ := h
    intro d' hd'
    rcases List.mem_cons.1 hd' with rfl | hd'
    · exact ⟨k, pipe, hd⟩
    · exact ih hrest d' hd'

/-- The loop over the arguments. -/
theorem serialize_all {size n : ℕ} {args : List Value} {ds : List EndpointDescriptor}
    (hend : Params.endOf n (args.map Value.type) ≤ size)
    (hlen : MessageHeader.sizeof + size ≤ s.message.bytes.length)
    (hsize : s.message.bytes.length + (args.map Value.behind).sum < 2 ^ 31)
    (hds : Populated core name proxy.localHandle s.endpointsToWrite.length (Value.pipes args) ds)
    (hsized : ∀ d ∈ ds, Descriptor.Sized d) :
    ∃ s', ((Params.offsets n (args.map Value.type)).zip args).foldlM
        (fun s x => proxy.serialize h core name ⟨MessageHeader.sizeof⟩ s x.1 x.2) s = .ok s' ∧
      Grown (MessageHeader.sizeof + n) (MessageHeader.sizeof + size) s.message.bytes
        s'.message.bytes ∧
      s'.message.bytes.length = s.message.bytes.length + (args.map Value.behind).sum ∧
      List.Forall₂ (fun o v => Stored (MessageHeader.sizeof + size) s'.message.bytes.length
        s'.message.bytes (MessageHeader.sizeof + o) v) (Params.offsets n (args.map Value.type)) args ∧
      s'.message.pipes = s.message.pipes ∧
      s'.endpointsToWrite = s.endpointsToWrite ++ ds.map Descriptor.bytes := by
  induction args generalizing n s ds with
  | nil =>
    obtain rfl : ds = [] := hds
    exact ⟨s, rfl, .refl _ _ _, rfl, .nil, rfl, (List.append_nil _).symm⟩
  | cons v args ih =>
    obtain ⟨ds₁, ds₂, rfl, hv, hargs⟩ := hds.cons
    rw [List.map_cons, Params.endOf] at hend
    rw [List.map_cons, List.sum_cons] at hsize
    have hn := le_alignUp (n := n) v.type.alignment_pos
    have hfield := Params.le_endOf (alignUp n v.type.alignment + v.type.sizeof) (args.map Value.type)
    have hbase : MessageHeader.sizeof + alignUp n v.type.alignment + v.type.sizeof ≤
        MessageHeader.sizeof + size := by omega
    obtain ⟨s₁, hstep, hs₁⟩ := serialize_spec (h := h) hbase hlen (by omega) hv
      fun d hd => hsized d (List.mem_append_left _ hd)
    have hcount : s₁.endpointsToWrite.length = s.endpointsToWrite.length + ds₁.length := by
      rw [hs₁.endpoints, List.length_append, List.length_map]
    obtain ⟨s', hfold, hgrown, hlen', hstored, hpipes, hends⟩ := ih (s := s₁) hend
      (hlen.trans hs₁.grown.length) (by rw [hs₁.length]; omega) (by rw [hcount]; exact hargs)
      fun d hd => hsized d (List.mem_append_right _ hd)
    refine ⟨s', ?_, ?_, ?_, .cons ?_ hstored, hpipes.trans hs₁.pipes, ?_⟩
    · rw [List.map_cons, Params.offsets, List.zip_cons_cons, List.foldlM_cons, hstep]
      exact hfold
    · exact (hs₁.grown.mono (by omega) (by omega)).trans (hgrown.mono (by omega) (Nat.le_refl _))
    · rw [hlen', hs₁.length, List.map_cons, List.sum_cons, Nat.add_assoc]
    · exact hs₁.stored.grown hgrown (by omega) (hlen.trans hs₁.grown.length) (Nat.le_refl _)
        hgrown.length (.inl (by omega))
        (Nat.le_refl _)
    · rw [hends, hs₁.endpoints, List.append_assoc, List.map_append]

theorem Populated.length {carrier : MessagePipe} {k : ℕ} {xs : List MessagePipe}
    {ds : List EndpointDescriptor} (h : Populated core name carrier k xs ds) :
    ds.length = xs.length := by
  induction xs generalizing k ds with
  | nil =>
    obtain rfl : ds = [] := h
    rfl
  | cons x xs ih =>
    obtain ⟨d, rest, rfl, -, hrest⟩ := h
    rw [List.length_cons, List.length_cons, ih hrest]

/-- The loop over `endpoints_to_write` fills what was allocated for it. -/
theorem writeEndpoints_spec {start i : ℕ} {m : Message} {before : List UInt8}
    {rest : List (List UInt8)} (hrest : ∀ d ∈ rest, d.length = sizeofEndpointDescriptor)
    (hm : m.bytes = before ++ List.replicate (sizeofEndpointDescriptor * rest.length) 0)
    (hbefore : before.length = start + (sizeofArrayHeader + sizeofEndpointDescriptor * i)) :
    ∃ m', Proxy.writeEndpoints ⟨start⟩ i rest m = .ok m' ∧ m'.bytes = before ++ rest.flatten ∧
      m'.pipes = m.pipes := by
  induction rest generalizing i m before with
  | nil => exact ⟨m, rfl, by simpa using hm, rfl⟩
  | cons d rest ih =>
    have hd := hrest d List.mem_cons_self
    have hbytes : (m.store (m.address + before.length) d).bytes =
        (before ++ d) ++ List.replicate (sizeofEndpointDescriptor * rest.length) 0 := by
      rw [Message.store_add, hm, overwrite_append_drop, List.drop_replicate, hd, List.length_cons,
        Nat.mul_succ, Nat.add_sub_cancel, List.append_assoc]
    obtain ⟨m', hm', hb, hp⟩ := ih (i := i + 1) (fun d hd => hrest d (List.mem_cons_of_mem _ hd))
      hbytes (by rw [List.length_append, hbefore, hd, Nat.mul_succ]; omega)
    refine ⟨m', ?_, by rw [hb, List.flatten_cons, List.append_assoc], hp⟩
    rw [hbefore] at hm'
    simp only [Proxy.writeEndpoints, MessageFragment.data_natCast, lift_buffer, ok_bind,
      Nat.add_assoc]
    exact hm'

end

/-! ### The message of a call -/

/-- The buffer of a message that calls a method with these arguments and descriptors. -/
structure Image (id : ℤ) (args : List Value) (ds : List EndpointDescriptor) (b : List UInt8) :
    Prop where
  length : b.length = bufferSize args
  type : slice b MessageHeader.type sizeofInt = intBytes MessageType.userMessage.value
  userMessageId : slice b MessageHeader.userMessageId sizeofInt = intBytes id
  arguments : List.Forall₂ (fun o v =>
      Stored (MessageHeader.sizeof + Params.sizeof (args.map Value.type)) (endpointsAt args) b
        (MessageHeader.sizeof + o) v) (Params.members (args.map Value.type)) args
  count : ds.length = (Value.pipes args).length
  pointer : slice b MessageHeader.endpointsInMessage sizeofPointer =
      toBytes sizeofPointer (endpointsAt args - MessageHeader.endpointsInMessage)
  numElements : slice b (endpointsAt args) sizeofArrayHeader = intBytes ds.length
  endpoints : slice b (endpointsAt args + sizeofArrayHeader) (sizeofEndpointDescriptor * ds.length) =
      (ds.map Descriptor.bytes).flatten

section
variable {h : Host} {core : ℕ → Core} {name : ℕ → Identifier} {proxy : Proxy} {id : ℤ}
  {args : List Value} {ds : List EndpointDescriptor} {b b' : List UInt8} {lo hi : ℕ}

theorem Image.fits (hb : Image id args ds b) :
    endpointsAt args + (sizeofArrayHeader + sizeofEndpointDescriptor * ds.length) = b.length := by
  rw [hb.length, bufferSize, hb.count]

/-- Other members of the header than those that are read here can be written to. -/
theorem Image.grown (hb : Image id args ds b) (hg : Grown lo hi b b') (hlen : b'.length = b.length)
    (hor : hi ≤ MessageHeader.type ∨
      MessageHeader.targetEndpoint ≤ lo ∧ hi ≤ MessageHeader.endpointsInMessage) :
    Image id args ds b' := by
  have hsizeof : MessageHeader.sizeof = 40 := rfl
  have htype : MessageHeader.type = 4 := rfl
  have hid : MessageHeader.userMessageId = 8 := rfl
  have htarget : MessageHeader.targetEndpoint = 12 := rfl
  have hends : MessageHeader.endpointsInMessage = 32 := rfl
  have hint : sizeofInt = 4 := rfl
  have hpointer : sizeofPointer = 8 := rfl
  have hlow : MessageHeader.sizeof + Params.sizeof (args.map Value.type) ≤ endpointsAt args :=
    Nat.le_add_right _ _
  have hfit := hb.fits
  refine ⟨hlen.trans hb.length, ?_, ?_, ?_, hb.count, ?_, ?_, ?_⟩
  · rw [hg.same _ _ (by omega) (by omega), hb.type]
  · rw [hg.same _ _ (by omega) (by omega), hb.userMessageId]
  · refine List.Forall₂.mp (fun o v hv hmem => ?_) hb.arguments (Params.offsets_le sizeofInt args)
    have hend := Params.endOf_le_sizeof (args.map Value.type)
    exact hv.grown hg (by omega) hlow (by omega) (Nat.le_refl _) (.inr (by omega)) (by omega)
  · rw [hg.same _ _ (by omega) (by omega), hb.pointer]
  · rw [hg.same _ _ (by omega) (by omega), hb.numElements]
  · rw [hg.same _ _ (by omega) (by omega), hb.endpoints]

/-- What a proxy method does after the arguments. -/
theorem finish_spec {m : Message} (id : ℤ) (address : ℕ)
    (hlow : MessageHeader.sizeof ≤ m.bytes.length) (hsized : ∀ d ∈ ds, Descriptor.Sized d)
    (hsize : m.bytes.length + (sizeofArrayHeader + sizeofEndpointDescriptor * ds.length) < 2 ^ 31) :
    ∃ m₁ m₂ m₃, MessageFragment.allocateArray
        (m.store (m.address + MessageHeader.userMessageId) (intBytes id)) sizeofEndpointDescriptor
          ds.length address = .ok (⟨m.bytes.length⟩, m₁) ∧
      Proxy.writeEndpoints ⟨m.bytes.length⟩ 0 (ds.map Descriptor.bytes) m₁ = .ok m₂ ∧
      m₂.setPointer (m₂.address + MessageHeader.endpointsInMessage)
        (m₂.address + m.bytes.length) = .ok m₃ ∧
      m₃.pipes = m.pipes ∧
      Grown MessageHeader.userMessageId MessageHeader.sizeof m.bytes m₃.bytes ∧
      m₃.bytes.length =
        m.bytes.length + (sizeofArrayHeader + sizeofEndpointDescriptor * ds.length) ∧
      slice m₃.bytes MessageHeader.userMessageId sizeofInt = intBytes id ∧
      slice m₃.bytes MessageHeader.endpointsInMessage sizeofPointer =
        toBytes sizeofPointer (m.bytes.length - MessageHeader.endpointsInMessage) ∧
      slice m₃.bytes m.bytes.length sizeofArrayHeader = intBytes ds.length ∧
      slice m₃.bytes (m.bytes.length + sizeofArrayHeader) (sizeofEndpointDescriptor * ds.length) =
        (ds.map Descriptor.bytes).flatten := by
  have hsizeof : MessageHeader.sizeof = 40 := rfl
  have hheader : sizeofArrayHeader = 4 := rfl
  have hint : sizeofInt = 4 := rfl
  have hpointer : sizeofPointer = 8 := rfl
  have hid : MessageHeader.userMessageId = 8 := rfl
  have hends : MessageHeader.endpointsInMessage = 32 := rfl
  have hdescriptor : sizeofEndpointDescriptor = 60 := rfl
  have hchunk : ∀ p ∈ ds.map Descriptor.bytes, p.length = sizeofEndpointDescriptor := by
    intro p hp
    obtain ⟨d, hd, rfl⟩ := List.mem_map.1 hp
    exact (hsized d hd).length_bytes
  -- The ID is written.
  obtain ⟨m₀, hm₀⟩ : ∃ m₀, m₀ = m.store (m.address + MessageHeader.userMessageId) (intBytes id) :=
    ⟨_, rfl⟩
  have hbytes₀ := m.store_add MessageHeader.userMessageId (intBytes id)
  rw [← hm₀] at hbytes₀ ⊢
  have hintlen := length_intBytes id
  have hin₀ : MessageHeader.userMessageId + (intBytes id).length ≤ m.bytes.length := by omega
  have hlen₀ : m₀.bytes.length = m.bytes.length := by rw [hbytes₀, length_overwrite hin₀]
  have hgrown₀ : Grown MessageHeader.userMessageId MessageHeader.targetEndpoint m.bytes m₀.bytes := by
    rw [hbytes₀]
    exact (Grown.overwrite hin₀).mono (Nat.le_refl _) (by rw [hintlen]; decide)
  -- The array is allocated and filled.
  have hfit : m₀.bytes.length + (4 + sizeofEndpointDescriptor * ds.length) < 2 ^ 31 := by
    rw [hlen₀]
    omega
  have hall := @MessageFragment.allocateArray_eq m₀ _ _ address hfit
  rw [hlen₀] at hall
  obtain ⟨m₁, hm₁⟩ : ∃ m₁ : Message, m₁ = { m₀ with payloadBuffer := ⟨address, m₀.bytes ++
      (intBytes ds.length ++ List.replicate (sizeofEndpointDescriptor * ds.length) 0)⟩ } := ⟨_, rfl⟩
  rw [← hm₁] at hall
  have hbytes₁ : m₁.bytes = (m₀.bytes ++ intBytes ds.length) ++
      List.replicate (sizeofEndpointDescriptor * (ds.map Descriptor.bytes).length) 0 := by
    rw [hm₁, List.length_map, List.append_assoc]
    rfl
  have hstart : (m₀.bytes ++ intBytes ds.length).length =
      m.bytes.length + (sizeofArrayHeader + sizeofEndpointDescriptor * 0) := by
    rw [List.length_append, length_intBytes, hlen₀]
    rfl
  obtain ⟨m₂, hwrite, hbytes₂, hpipes₂⟩ := writeEndpoints_spec hchunk hbytes₁ hstart
  have hflat : (ds.map Descriptor.bytes).flatten.length = sizeofEndpointDescriptor * ds.length := by
    rw [length_flatten_of_length hchunk, List.length_map]
  have hlen₂ : m₂.bytes.length =
      m.bytes.length + (sizeofArrayHeader + sizeofEndpointDescriptor * ds.length) := by
    rw [hbytes₂, List.length_append, List.length_append, length_intBytes, hlen₀, hflat, hheader,
      Nat.add_assoc]
  have hgrown₂ : Grown MessageHeader.userMessageId MessageHeader.targetEndpoint m.bytes m₂.bytes := by
    refine hgrown₀.trans ?_
    rw [hbytes₂, List.append_assoc]
    exact .append _
  -- The pointer is set.
  have hset := m₂.setPointer_add (i := MessageHeader.endpointsInMessage) (k := m.bytes.length)
    (by omega)
  obtain ⟨m₃, hm₃⟩ : ∃ m₃, m₃ = m₂.store (m₂.address + MessageHeader.endpointsInMessage)
      (toBytes sizeofPointer (m.bytes.length - MessageHeader.endpointsInMessage)) := ⟨_, rfl⟩
  have hover := m₂.store_add MessageHeader.endpointsInMessage
    (toBytes sizeofPointer (m.bytes.length - MessageHeader.endpointsInMessage))
  rw [← hm₃] at hset hover
  have hwritten := length_toBytes sizeofPointer (m.bytes.length - MessageHeader.endpointsInMessage)
  have hin : MessageHeader.endpointsInMessage + (toBytes sizeofPointer
      (m.bytes.length - MessageHeader.endpointsInMessage)).length ≤ m₂.bytes.length := by
    omega
  have hgrown₃ : Grown MessageHeader.endpointsInMessage MessageHeader.sizeof m₂.bytes m₃.bytes := by
    rw [hover]
    exact (Grown.overwrite hin).mono (Nat.le_refl _) (by rw [hwritten]; decide)
  have hlen₃ : m₃.bytes.length = m₂.bytes.length := by rw [hover, length_overwrite hin]
  refine ⟨_, m₂, m₃, hall, hwrite, hset, ?_, ?_, hlen₃.trans hlen₂, ?_, ?_, ?_, ?_⟩
  · rw [hm₃, Message.store_pipes, hpipes₂, hm₁, hm₀]
    rfl
  · exact (hgrown₂.mono (Nat.le_refl _) (by decide)).trans (hgrown₃.mono (by decide) (Nat.le_refl _))
  · rw [hgrown₃.same _ _ (by omega) (by omega), hbytes₂, slice_append, slice_append, hbytes₀, hint,
      ← hintlen, slice_overwrite hin₀]
    · omega
    · rw [List.length_append]
      omega
  · have hback := slice_overwrite hin
    rwa [hwritten, ← hover] at hback
  · rw [hgrown₃.same _ _ (by omega) (by omega), hbytes₂, List.append_assoc, ← hlen₀,
      ← Nat.add_zero m₀.bytes.length, slice_append_right, hheader, ← length_intBytes ds.length,
      slice_append (by omega), slice_all]
  · rw [hgrown₃.same _ _ (by omega) (by omega), hbytes₂, List.append_assoc, ← hlen₀,
      slice_append_right, hheader, ← length_intBytes ds.length,
      ← Nat.add_zero (intBytes ds.length).length, slice_append_right, ← hflat, slice_all]

/-- A proxy method builds its message. -/
theorem call_spec (h : Host) (id : ℤ) (hbound : proxy.bound = true) (hsize : bufferSize args < 2 ^ 31)
    (hds : Populated core name proxy.localHandle 0 (Value.pipes args) ds)
    (hsized : ∀ d ∈ ds, Descriptor.Sized d) :
    ∃ m, proxy.call h core name id (args.map Value.type) args = .ok m ∧ Finalized m ∧
      m.pipes = [] ∧ Image id args ds m.bytes := by
  have hsizeof : MessageHeader.sizeof = 40 := rfl
  have hheader : sizeofArrayHeader = 4 := rfl
  have htype : MessageHeader.type = 4 := rfl
  have hint : sizeofInt = 4 := rfl
  have hid : MessageHeader.userMessageId = 8 := rfl
  have hcount : ds.length = (Value.pipes args).length := hds.length
  have hN : ((args.map Value.type).filter MagenType.isHandleType).length = ds.length := by
    rw [hcount, Value.length_pipes]
  obtain ⟨size, hP⟩ : ∃ size, size = Params.sizeof (args.map Value.type) := ⟨_, rfl⟩
  have hat : endpointsAt args = MessageHeader.sizeof + size + (args.map Value.behind).sum := by
    rw [endpointsAt, ← hP]
  have htotal : bufferSize args =
      endpointsAt args + (sizeofArrayHeader + sizeofEndpointDescriptor * ds.length) := by
    rw [bufferSize, ← hcount]
  rw [htotal] at hsize
  -- The parameters are allocated.
  have hnew := Message.length_new .userMessage (h.address MessageHeader.sizeof)
  obtain ⟨m₁, hall, hbytes₁, hpipes₁⟩ : ∃ m₁, MessageFragment.allocate
      (Message.new .userMessage (h.address MessageHeader.sizeof)) size
        (h.address (MessageHeader.sizeof + size)) = (⟨MessageHeader.sizeof⟩, m₁) ∧
      m₁.bytes = (Message.new .userMessage (h.address MessageHeader.sizeof)).bytes ++
        List.replicate size 0 ∧ m₁.pipes = [] := by
    rw [MessageFragment.allocate_eq (by omega), hnew]
    exact ⟨_, rfl, rfl, rfl⟩
  have hlen₁ : m₁.bytes.length = MessageHeader.sizeof + size := by
    rw [hbytes₁, List.length_append, hnew, List.length_replicate]
  have htype₁ : slice m₁.bytes MessageHeader.type sizeofInt =
      intBytes MessageType.userMessage.value := by
    rw [hbytes₁, slice_append (by omega), Message.bytes_new]
    exact slice_overwrite (by rw [length_intBytes, List.length_replicate]; decide)
  -- The arguments are written, and then the endpoints.
  obtain ⟨s, hfold, hgrown, hlen, hstored, hpipes, hends⟩ := serialize_all (h := h)
    (s := ⟨m₁, []⟩) (n := sizeofInt) (by rw [hP]; exact Params.endOf_le_sizeof _)
    hlen₁.ge (by simp only [hlen₁]; omega) hds hsized
  simp only [List.nil_append, hlen₁] at hends hlen hgrown
  obtain ⟨m₂, m₃, m₄, hall₂, hwrite, hset, hpipes₄, hgrown₄, hlen₄, hid₄, hptr, hnum, harray⟩ :=
    finish_spec (m := s.message) id (h.address ((s.message.store
      (s.message.address + MessageHeader.userMessageId) (intBytes id)).bytes.length +
        (sizeofArrayHeader + sizeofEndpointDescriptor * ds.length))) (by omega) hsized (by omega)
  have hend' : s.message.bytes.length = endpointsAt args := by rw [hlen, hat]
  rw [hend'] at hptr hnum harray
  have hlength : m₄.bytes.length = bufferSize args := by rw [hlen₄, hend', htotal]
  have himage : Image id args ds m₄.bytes := by
    refine ⟨hlength, ?_, hid₄, ?_, hcount, hptr, hnum, harray⟩
    · rw [hgrown₄.same _ _ (by omega) (by omega), hgrown.same _ _ (by omega) (by omega), htype₁]
    · refine List.Forall₂.mp (fun o v hv hmem => ?_) hstored (Params.offsets_le sizeofInt args)
      have hend := Params.endOf_le_sizeof (args.map Value.type)
      rw [← hP] at hend ⊢
      exact hv.grown hgrown₄ (by omega) (by omega) (by omega) hend'.le (.inr (by omega)) (by omega)
  have hzero : MessageHeader.size = 0 := rfl
  have hsize₄ : MessageHeader.size + (intBytes (asInt m₄.bytes.length)).length ≤ m₄.bytes.length := by
    rw [length_intBytes]
    omega
  refine ⟨m₄.finalizeSize, ?_, finalized_of_length (by omega) (by omega), ?_, ?_⟩
  · have hcheck : check (proxy.bound = true) (Failure.buffer .bound) = .ok () := check_eq_ok.2 hbound
    have hnumber : check (ds.length = (ds.map Descriptor.bytes).length)
        (Failure.buffer .numberOfEndpoints) = .ok () := check_eq_ok.2 (by rw [List.length_map])
    simp only [Proxy.call, Params.members, ← hP, hcheck, ok_bind, hall, hfold, Message.get_zero,
      lift_buffer, hN, hends, hnumber, hall₂, hwrite, MessageFragment.data_natCast, hset]
    rfl
  · exact hpipes₄.trans (hpipes.trans hpipes₁)
  · have hfinal : Grown MessageHeader.size (MessageHeader.size +
        (intBytes (asInt m₄.bytes.length)).length) m₄.bytes m₄.finalizeSize.bytes := by
      rw [Message.bytes_finalizeSize]
      exact .overwrite hsize₄
    refine himage.grown hfinal ?_ (.inl ?_)
    · rw [Message.bytes_finalizeSize, length_overwrite hsize₄]
    · rw [length_intBytes]
      decide

end
end Mage.Wire
