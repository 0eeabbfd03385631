import Mage.Safety.Forwarding
import Mage.Wire.Exchange
import Mage.Wire.RoundTrip

/-! What nodes do to user messages, on their bytes. A buffer represents a message of the network model,
    and each function that writes to the buffer or moves it does to the bytes what the model does to the
    message; so a call that was serialized is read by the stub after any number of them. -/

namespace Mage.Wire
open Lib

/-! ### The functions -/

namespace Message

/-- The name in `MessageHeader::target_endpoint`. -/
def targetEndpoint (m : Message) : Identifier :=
  m.load (m.address + MessageHeader.targetEndpoint) kIdentifierSize

/-- `PrepareToForwardUserMessage` on the descriptor at `a`: one name is copied over the other, and the
    new one to where it was. -/
def inchworm (m : Message) (a : ℕ) (newCrossNodeEndpointName : Identifier) : Message :=
  (m.copyName (a + Descriptor.endpointName)
    (m.load (a + Descriptor.crossNodeEndpointName) kIdentifierSize)).copyName
      (a + Descriptor.crossNodeEndpointName) newCrossNodeEndpointName

/-- `PrepareToForwardUserMessage`, on the names that it draws. -/
def prepareToForward (m : Message) (names : List Identifier) : Message :=
  (m.getEndpointDescriptors.zip names).foldl (fun m x => m.inchworm x.1 x.2) m

/-- What is between the header and the array of endpoints. -/
def body (m : Message) : List UInt8 :=
  match m.getPointer (m.address + MessageHeader.endpointsInMessage) with
  | none => m.bytes.drop MessageHeader.sizeof
  | some array => m.load (m.address + MessageHeader.sizeof)
      (array - (m.address + MessageHeader.sizeof))

/-- The message that a node sees in the buffer. -/
def view (m : Message) : Mage.Message where
  userMessageId := m.userMessageId
  targetEndpoint := m.targetEndpoint
  endpointsInMessage := m.getEndpointDescriptors.map m.descriptorAt
  body := m.body
  pipes := m.pipes

end Message

/-! ### Messages in buffers -/

/-- Where the array of endpoints of the message is. -/
def endsAt (M : Mage.Message) : ℕ := MessageHeader.sizeof + M.body.length

/-- `b` is the buffer of `M`. Its header is padded with anything. -/
structure Encodes (M : Mage.Message) (b : List UInt8) : Prop where
  isInt : IsInt M.userMessageId
  named : M.targetEndpoint.length = kIdentifierSize
  sized : ∀ d ∈ M.endpointsInMessage, Descriptor.Sized d
  bounded : b.length < 2 ^ 31
  length : b.length =
    endsAt M + (sizeofArrayHeader + sizeofEndpointDescriptor * M.endpointsInMessage.length)
  size : slice b MessageHeader.size sizeofInt = intBytes b.length
  type : slice b MessageHeader.type sizeofInt = intBytes MessageType.userMessage.value
  userMessageId : slice b MessageHeader.userMessageId sizeofInt = intBytes M.userMessageId
  targetEndpoint : slice b MessageHeader.targetEndpoint kIdentifierSize = M.targetEndpoint
  pointer : slice b MessageHeader.endpointsInMessage sizeofPointer =
    toBytes sizeofPointer (endsAt M - MessageHeader.endpointsInMessage)
  body : slice b MessageHeader.sizeof M.body.length = M.body
  numElements : slice b (endsAt M) sizeofArrayHeader = intBytes M.endpointsInMessage.length
  endpoints : slice b (endsAt M + sizeofArrayHeader)
    (sizeofEndpointDescriptor * M.endpointsInMessage.length) =
      (M.endpointsInMessage.map Descriptor.bytes).flatten

/-- `m` is `M` in memory. -/
structure Represents (m : Message) (M : Mage.Message) : Prop where
  encodes : Encodes M m.bytes
  pipes : m.pipes = M.pipes

section
variable {m : Message} {M : Mage.Message} {b : List UInt8}

theorem Encodes.low (hb : Encodes M b) : MessageHeader.sizeof + M.body.length + sizeofArrayHeader ≤
    b.length := by
  rw [hb.length, endsAt]
  omega

theorem Encodes.getPointer (hb : Encodes M m.bytes) :
    m.getPointer (m.address + MessageHeader.endpointsInMessage) = some (m.address + endsAt M) := by
  have hlen := hb.length
  have hbounded := hb.bounded
  refine m.getPointer_add ?_ (by omega) hb.pointer
  exact Nat.lt_of_lt_of_le (by decide : _ < MessageHeader.sizeof) (Nat.le_add_right _ _)

/-- The message in a buffer is found there. -/
theorem Represents.view_eq (h : Represents m M) : m.view = M := by
  have hb := h.encodes
  have hlen := hb.length
  have hbounded := hb.bounded
  have hdescriptor : sizeofEndpointDescriptor = 60 := rfl
  rw [hdescriptor] at hlen
  have hid : m.userMessageId = M.userMessageId := by
    rw [Message.userMessageId, Message.load_add, hb.userMessageId, asInt_intBytes hb.isInt]
  have htarget : m.targetEndpoint = M.targetEndpoint := by
    rw [Message.targetEndpoint, Message.load_add, hb.targetEndpoint]
  have hends : m.getEndpointDescriptors.map m.descriptorAt = M.endpointsInMessage :=
    m.map_descriptorAt hb.sized (by omega) hb.getPointer hb.numElements hb.endpoints
  have hbody : m.body = M.body := by
    have hcount : m.address + endsAt M - (m.address + MessageHeader.sizeof) = M.body.length := by
      rw [endsAt]
      omega
    rw [Message.body, hb.getPointer]
    simp only [hcount]
    rw [Message.load_add, hb.body]
  rw [Message.view, hid, htarget, hends, hbody, h.pipes]

/-! ### What the functions do to the message -/

/-- A message has a new target, and nothing else has changed. -/
theorem Encodes.retarget {b' : List UInt8} {name : Identifier} (hb : Encodes M b)
    (hname : name.length = kIdentifierSize)
    (hg : Grown MessageHeader.targetEndpoint (MessageHeader.targetEndpoint + kIdentifierSize) b b')
    (hlen : b'.length = b.length)
    (hs : slice b' MessageHeader.targetEndpoint kIdentifierSize = name) :
    Encodes (M.retarget name) b' := by
  have hlow := hb.low
  have hfit := hb.length
  have hsizeof : MessageHeader.sizeof = 40 := rfl
  have hzero : MessageHeader.size = 0 := rfl
  have htype : MessageHeader.type = 4 := rfl
  have hid : MessageHeader.userMessageId = 8 := rfl
  have htarget : MessageHeader.targetEndpoint = 12 := rfl
  have hends : MessageHeader.endpointsInMessage = 32 := rfl
  have hint : sizeofInt = 4 := rfl
  have hpointer : sizeofPointer = 8 := rfl
  have hk : kIdentifierSize = 15 := rfl
  have hat : endsAt M = MessageHeader.sizeof + M.body.length := rfl
  refine ⟨hb.isInt, hname, hb.sized, hlen ▸ hb.bounded, hlen.trans hb.length, ?_, ?_, ?_, hs, ?_, ?_,
    ?_, ?_⟩
  · rw [hg.same _ _ (by omega) (by omega), hlen, hb.size]
  · exact (hg.same _ _ (by omega) (by omega)).trans hb.type
  · exact (hg.same _ _ (by omega) (by omega)).trans hb.userMessageId
  · exact (hg.same _ _ (by omega) (by omega)).trans hb.pointer
  · exact (hg.same _ M.body.length (by omega) (by omega)).trans hb.body
  · exact (hg.same (endsAt M) _ (by omega) (by omega)).trans hb.numElements
  · exact (hg.same (endsAt M + sizeofArrayHeader)
      (sizeofEndpointDescriptor * M.endpointsInMessage.length) (by omega) (by omega)).trans hb.endpoints

theorem Represents.retarget {name : Identifier} (h : Represents m M)
    (hname : name.length = kIdentifierSize) : Represents (m.retarget name) (M.retarget name) := by
  have hlow := h.encodes.low
  have hin : MessageHeader.targetEndpoint + name.length ≤ m.bytes.length := by
    rw [hname]
    exact (by decide : _ ≤ MessageHeader.sizeof).trans (by omega)
  have hbytes : (m.retarget name).bytes = overwrite m.bytes MessageHeader.targetEndpoint name :=
    Message.copyName_bytes hname
  refine ⟨h.encodes.retarget hname ?_ ?_ ?_, h.pipes⟩
  · rw [hbytes, ← hname]
    exact .overwrite hin
  · rw [hbytes, length_overwrite hin]
  · rw [hbytes, ← hname, slice_overwrite hin]

/-- Pipes are not in the buffer. -/
theorem Encodes.withPipes (hb : Encodes M b) (pipes : List MessagePipe) :
    Encodes { M with pipes := pipes } b :=
  ⟨hb.isInt, hb.named, hb.sized, hb.bounded, hb.length, hb.size, hb.type, hb.userMessageId,
    hb.targetEndpoint, hb.pointer, hb.body, hb.numElements, hb.endpoints⟩

theorem Represents.queuePipe (h : Represents m M) (pipe : MessagePipe) :
    Represents (m.queuePipe pipe) (M.queuePipe pipe) := by
  refine ⟨h.encodes.withPipes _, ?_⟩
  rw [Message.queuePipe, Mage.Message.queuePipe, h.pipes]

/-- One descriptor is shifted in place. -/
theorem inchworm_bytes {before after : List UInt8} {d : EndpointDescriptor} {name : Identifier}
    (hm : m.bytes = before ++ (Descriptor.bytes d ++ after)) (hd : Descriptor.Sized d)
    (hname : name.length = kIdentifierSize) :
    (m.inchworm (m.address + before.length) name).bytes =
      before ++ (Descriptor.bytes (d.inchworm name) ++ after) := by
  have hk : kIdentifierSize = 15 := rfl
  have hread : m.load (m.address + before.length + Descriptor.crossNodeEndpointName) kIdentifierSize =
      d.crossNodeEndpointName := by
    have hcross : Descriptor.crossNodeEndpointName = d.endpointName.length := hd.endpointName.symm
    rw [Nat.add_assoc, Message.load_add, hm, slice_append_right, hcross, Descriptor.bytes,
      List.append_assoc, ← Nat.add_zero d.endpointName.length, slice_append_right,
      ← hd.crossNodeEndpointName, List.append_assoc, slice_append (by omega), slice_all]
  have hfit : before.length + (d.crossNodeEndpointName.length + kIdentifierSize) ≤ m.bytes.length := by
    have hsize : sizeofEndpointDescriptor = 60 := rfl
    have hlen := hd.length_bytes
    have hcross := hd.crossNodeEndpointName
    rw [hm, List.length_append, List.length_append]
    omega
  have hzero : before.length + Descriptor.endpointName = before.length := rfl
  have hcopied : (m.copyName (m.address + (before.length + Descriptor.endpointName))
      d.crossNodeEndpointName).bytes = overwrite m.bytes before.length d.crossNodeEndpointName :=
    Message.copyName_bytes hd.crossNodeEndpointName
  have hover := Message.copyName_behind hcopied rfl hname hfit
  have hat : Descriptor.crossNodeEndpointName = d.crossNodeEndpointName.length :=
    hd.crossNodeEndpointName.symm
  rw [hzero] at hover
  rw [Message.inchworm, hread, Nat.add_assoc, Nat.add_assoc, hzero, hat, hover, hm,
    overwrite_append_drop]
  have hdrop : (Descriptor.bytes d ++ after).drop (d.crossNodeEndpointName ++ name).length =
      d.peerNodeName ++ (d.peerEndpointName ++ after) := by
    have hlen : (d.crossNodeEndpointName ++ name).length =
        (d.endpointName ++ d.crossNodeEndpointName).length := by
      rw [List.length_append, List.length_append, hname, hd.endpointName, hd.crossNodeEndpointName]
    have hsplit : Descriptor.bytes d ++ after = (d.endpointName ++ d.crossNodeEndpointName) ++
        (d.peerNodeName ++ (d.peerEndpointName ++ after)) := by
      simp only [Descriptor.bytes, List.append_assoc]
    rw [hlen, hsplit, List.drop_left' rfl]
  rw [hdrop]
  simp only [Descriptor.bytes, EndpointDescriptor.inchworm, List.append_assoc]

theorem Descriptor.Sized.inchworm {d : EndpointDescriptor} {name : Identifier}
    (hd : Descriptor.Sized d) (hname : name.length = kIdentifierSize) :
    Descriptor.Sized (d.inchworm name) :=
  ⟨hd.crossNodeEndpointName, hname, hd.peerNodeName, hd.peerEndpointName⟩

/-- The loop over the descriptors, which are one behind the other. -/
theorem foldl_inchworm {before : List UInt8} {ds : List EndpointDescriptor} {names : List Identifier}
    (hlen : names.length = ds.length) (hds : ∀ d ∈ ds, Descriptor.Sized d)
    (hnames : ∀ x ∈ names, x.length = kIdentifierSize)
    (hm : m.bytes = before ++ (ds.map Descriptor.bytes).flatten) :
    ((((List.range ds.length).map fun i => m.address + before.length +
        sizeofEndpointDescriptor * i).zip names).foldl (fun m x => m.inchworm x.1 x.2) m).bytes =
      before ++ ((ds.zipWith EndpointDescriptor.inchworm names).map Descriptor.bytes).flatten := by
  induction ds generalizing m before names with
  | nil => exact hm
  | cons d ds ih =>
    cases names with
    | nil => cases hlen
    | cons name names =>
      have hd := hds d List.mem_cons_self
      have hname := hnames name List.mem_cons_self
      have hbytes : (m.inchworm (m.address + before.length) name).bytes =
          (before ++ Descriptor.bytes (d.inchworm name)) ++ (ds.map Descriptor.bytes).flatten := by
        rw [List.append_assoc]
        exact inchworm_bytes hm hd hname
      have hlater := ih (Nat.succ.inj hlen) (fun d hd => hds d (List.mem_cons_of_mem _ hd))
        (fun x hx => hnames x (List.mem_cons_of_mem _ hx)) hbytes
      have haddress : ∀ i, m.address + before.length + sizeofEndpointDescriptor * (i + 1) =
          m.address + (before ++ Descriptor.bytes (d.inchworm name)).length +
            sizeofEndpointDescriptor * i := by
        intro i
        rw [List.length_append, (hd.inchworm hname).length_bytes, Nat.mul_succ]
        omega
      rw [List.length_cons, List.range_succ_eq_map, List.map_cons, List.zip_cons_cons,
        List.foldl_cons, List.map_map, Nat.mul_zero, Nat.add_zero]
      simp only [Function.comp_def, Nat.succ_eq_add_one, haddress]
      rw [List.zipWith_cons_cons, List.map_cons, List.flatten_cons, ← List.append_assoc]
      exact hlater

/-- The array of endpoints is what comes last. -/
theorem Encodes.split (hb : Encodes M b) : b = b.take (endsAt M + sizeofArrayHeader) ++
    (M.endpointsInMessage.map Descriptor.bytes).flatten := by
  have hlen := hb.length
  have hends := hb.endpoints
  rw [slice, List.take_of_length_le (by rw [List.length_drop]; omega)] at hends
  rw [← hends, List.take_append_drop]

/-- Other descriptors, as many as before, and nothing else has changed. -/
theorem Encodes.describe {b' : List UInt8} {ds : List EndpointDescriptor} (hb : Encodes M b)
    (hcount : ds.length = M.endpointsInMessage.length) (hds : ∀ d ∈ ds, Descriptor.Sized d)
    (hb' : b' = b.take (endsAt M + sizeofArrayHeader) ++ (ds.map Descriptor.bytes).flatten) :
    Encodes { M with endpointsInMessage := ds } b' := by
  have hlow := hb.low
  have hfit := hb.length
  have hsizeof : MessageHeader.sizeof = 40 := rfl
  have hat : endsAt M = MessageHeader.sizeof + M.body.length := rfl
  have htake : (b.take (endsAt M + sizeofArrayHeader)).length = endsAt M + sizeofArrayHeader :=
    List.length_take_of_le (by omega)
  have hflat : (ds.map Descriptor.bytes).flatten.length = sizeofEndpointDescriptor * ds.length := by
    rw [length_flatten_of_length fun p hp => ?_, List.length_map]
    obtain ⟨d, hd, rfl⟩ := List.mem_map.1 hp
    exact (hds d hd).length_bytes
  have hlen : b'.length = b.length := by rw [hb', List.length_append, htake, hflat, hfit, hcount]; omega
  have hsame : ∀ k n, k + n ≤ endsAt M + sizeofArrayHeader → slice b' k n = slice b k n := by
    intro k n hk
    rw [hb', slice_append (by omega), slice_take hk (by omega)]
  have hheader : ∀ k n, k + n ≤ MessageHeader.sizeof → slice b' k n = slice b k n :=
    fun k n hk => hsame k n (by omega)
  refine ⟨hb.isInt, hb.named, hds, hlen ▸ hb.bounded, ?_, ?_, ?_, ?_, ?_, ?_, ?_, ?_, ?_⟩
  · rw [hlen, hfit, ← hcount]
    rfl
  · rw [hheader _ _ (by decide), hlen, hb.size]
  · exact (hheader _ _ (by decide)).trans hb.type
  · exact (hheader _ _ (by decide)).trans hb.userMessageId
  · exact (hheader _ _ (by decide)).trans hb.targetEndpoint
  · exact (hheader _ _ (by decide)).trans hb.pointer
  · exact (hsame _ M.body.length (by omega)).trans hb.body
  · refine (hsame (endsAt M) _ (Nat.le_refl _)).trans (hb.numElements.trans ?_)
    rw [← hcount]
  · change slice b' (endsAt M + sizeofArrayHeader) (sizeofEndpointDescriptor * ds.length) = _
    have hbehind := slice_append_right (l := b.take (endsAt M + sizeofArrayHeader))
      (r := (ds.map Descriptor.bytes).flatten) (i := 0) (n := sizeofEndpointDescriptor * ds.length)
    rw [htake, Nat.add_zero, ← hb', ← hflat, slice_all] at hbehind
    rwa [← hflat]

/-- The message that `PrepareToForwardUserMessage` makes of `M`, with the names it draws. -/
def forwarded (M : Mage.Message) (names : List Identifier) : Mage.Message :=
  { M with endpointsInMessage := M.endpointsInMessage.zipWith EndpointDescriptor.inchworm names }

theorem foldl_inchworm_pipes (l : List (ℕ × Identifier)) (m : Message) :
    (l.foldl (fun m x => m.inchworm x.1 x.2) m).pipes = m.pipes := by
  induction l generalizing m with
  | nil => rfl
  | cons x l ih =>
    rw [List.foldl_cons, ih]
    rfl

theorem Represents.forward {names : List Identifier} (h : Represents m M)
    (hlen : names.length = M.endpointsInMessage.length)
    (hnames : ∀ x ∈ names, x.length = kIdentifierSize) :
    Represents (m.prepareToForward names) (forwarded M names) := by
  have hb := h.encodes
  have hfit := hb.length
  have hbounded := hb.bounded
  have hdescriptor : sizeofEndpointDescriptor = 60 := rfl
  have htake : (m.bytes.take (endsAt M + sizeofArrayHeader)).length = endsAt M + sizeofArrayHeader :=
    List.length_take_of_le (by omega)
  have hnum : (m.numElements (m.address + endsAt M)).toNat = M.endpointsInMessage.length := by
    have hn : slice m.bytes (endsAt M) sizeofInt = intBytes M.endpointsInMessage.length :=
      hb.numElements
    rw [hdescriptor] at hfit
    rw [Message.numElements, Message.load_add, hn, asInt_intBytes ⟨by omega, by omega⟩,
      Int.toNat_natCast]
  have haddresses : m.getEndpointDescriptors = (List.range M.endpointsInMessage.length).map fun i =>
      m.address + (m.bytes.take (endsAt M + sizeofArrayHeader)).length +
        sizeofEndpointDescriptor * i := by
    rw [Message.getEndpointDescriptors, hb.getPointer]
    simp only [hnum, htake, Nat.add_assoc]
  refine ⟨hb.describe ?_ ?_ ?_, ?_⟩
  · rw [List.length_zipWith, hlen, Nat.min_self]
  · intro d hd
    obtain ⟨k, hk, rfl⟩ := List.mem_iff_getElem.1 hd
    rw [List.getElem_zipWith]
    exact (hb.sized _ (List.getElem_mem _)).inchworm (hnames _ (List.getElem_mem _))
  · rw [Message.prepareToForward, haddresses]
    exact foldl_inchworm hlen hb.sized hnames hb.split
  · rw [Message.prepareToForward, foldl_inchworm_pipes, h.pipes]
    rfl

theorem Represents.finalized (h : Represents m M) : Finalized m := by
  have hlow := h.encodes.low
  refine ⟨by omega, h.encodes.bounded, ?_⟩
  have hbounded := h.encodes.bounded
  rw [Message.size, Message.load_add, h.encodes.size, asInt_intBytes ⟨by omega, by omega⟩]

/-- Written to an empty socket and read at its other end. -/
def transmit (sender receiver : Host) (m : Message) : Except Check Message := do
  let stream ← Channel.sendMessage sender m []
  let (m, _) ← Channel.onCanReadFromSocket receiver stream
  return m

/-- A channel that does not abort brings the buffer. -/
theorem Represents.transmit {sender receiver : Host} {m' : Message} (h : Represents m M)
    (ht : transmit sender receiver m = .ok m') : Represents m' M.buffer := by
  simp only [Wire.transmit, bind_eq_ok, pure_eq_ok] at ht
  obtain ⟨stream, hs, ⟨m₁, rest⟩, hr, rfl⟩ := ht
  obtain ⟨hstream, hfin, hpipes⟩ := Channel.onCanReadFromSocket_sound hr
  have hsent := Channel.sendMessage_sound h.finalized hs
  rw [hsent, List.nil_append, ← List.append_nil m.bytes] at hstream
  have hbytes := (h.finalized.prefix_unique hfin hstream).1
  exact ⟨hbytes ▸ h.encodes.withPipes [], hpipes⟩

end

/-! ### Calls in messages -/

/-- The parameters with these arguments in them, and the strings behind. -/
structure Holds (args : List Value) (body : List UInt8) : Prop where
  length : body.length = Params.sizeof (args.map Value.type) + (args.map Value.behind).sum
  arguments : List.Forall₂ (fun o v =>
    Stored (Params.sizeof (args.map Value.type)) body.length body o v)
      (Params.members (args.map Value.type)) args

section
variable {m m' : Message} {M : Mage.Message} {b : List UInt8} {v : Value} {base stop i k : ℕ}
  {args : List Value} {ds : List EndpointDescriptor} {id : ℤ}

theorem Stored.inner (hs : Stored (k + base) (k + stop) b (k + i) v)
    (hi : i + v.type.sizeof ≤ base) (hbase : base ≤ stop) :
    Stored base stop (slice b k stop) i v := by
  cases v with
  | messagePipe x => trivial
  | scalar x => exact (slice_slice (hi.trans hbase)).trans hs
  | string x =>
    obtain ⟨q, hq, hfit, hptr, hnum, hstr⟩ := hs
    obtain ⟨j, rfl⟩ := Nat.exists_eq_add_of_le ((Nat.le_add_right k base).trans hq)
    refine ⟨j, by omega, by omega, ?_, ?_, ?_⟩
    · refine (slice_slice (hi.trans hbase)).trans (hptr.trans (congrArg _ ?_))
      omega
    · exact (slice_slice (by omega)).trans hnum
    · rw [slice_slice (by omega), ← Nat.add_assoc, hstr]

theorem Stored.outer {body : List UInt8} (hs : Stored base body.length body i v)
    (hb : slice b k body.length = body) (hi : i + v.type.sizeof ≤ base)
    (hbase : base ≤ body.length) : Stored (k + base) (k + body.length) b (k + i) v := by
  have hread : ∀ j n, j + n ≤ body.length → slice b (k + j) n = slice body j n := by
    intro j n hj
    have hpart := slice_slice (l := b) (i := k) hj
    rw [hb] at hpart
    exact hpart.symm
  cases v with
  | messagePipe x => trivial
  | scalar x => exact (hread _ _ (hi.trans hbase)).trans hs
  | string x =>
    obtain ⟨q, hq, hfit, hptr, hnum, hstr⟩ := hs
    refine ⟨k + q, by omega, by omega, ?_, ?_, ?_⟩
    · refine (hread _ _ (hi.trans hbase)).trans (hptr.trans (congrArg _ ?_))
      omega
    · exact (hread _ _ (by omega)).trans hnum
    · rw [Nat.add_assoc, hread _ _ (by omega), hstr]

/-- The message of a call, as nodes see it. -/
theorem Image.represents (hb : Image id args ds m.bytes) (hfin : Finalized m) (hid : IsInt id)
    (hds : ∀ d ∈ ds, Descriptor.Sized d) : ∃ M, Represents m M ∧ M.userMessageId = id ∧
      M.endpointsInMessage = ds ∧ M.pipes = m.pipes ∧ Holds args M.body := by
  have hsizeof : MessageHeader.sizeof = 40 := rfl
  have htarget : MessageHeader.targetEndpoint = 12 := rfl
  have hk : kIdentifierSize = 15 := rfl
  have hfit := hb.fits
  obtain ⟨n, hn⟩ : ∃ n, n = Params.sizeof (args.map Value.type) + (args.map Value.behind).sum :=
    ⟨_, rfl⟩
  have hat : endpointsAt args = MessageHeader.sizeof + n := by rw [endpointsAt, hn, Nat.add_assoc]
  have hbody : (slice m.bytes MessageHeader.sizeof n).length = n := length_slice (by omega)
  have hends : endsAt ⟨id, slice m.bytes MessageHeader.targetEndpoint kIdentifierSize, ds,
      slice m.bytes MessageHeader.sizeof n, m.pipes⟩ = endpointsAt args := by
    rw [endsAt, hbody, hat]
  refine ⟨⟨id, slice m.bytes MessageHeader.targetEndpoint kIdentifierSize, ds,
    slice m.bytes MessageHeader.sizeof n, m.pipes⟩, ⟨⟨hid, length_slice (by omega), hds, hfin.bounded,
      ?_, ?_, hb.type, hb.userMessageId, rfl, ?_, ?_, ?_, ?_⟩, rfl⟩, rfl, rfl, rfl, ⟨?_, ?_⟩⟩
  · rw [hends, hfit]
  · have hsize := hfin.size
    have hbounded := hfin.bounded
    rw [Message.size, Message.load_add] at hsize
    have hlen : (slice m.bytes MessageHeader.size sizeofInt).length = 4 :=
      length_slice ((by decide : _ ≤ MessageHeader.sizeof).trans hfin.header)
    rw [← hsize, intBytes_asInt hlen]
  · rw [hends]
    exact hb.pointer
  · rw [hbody]
  · rw [hends]
    exact hb.numElements
  · rw [hends]
    exact hb.endpoints
  · rw [hbody, hn]
  · rw [hbody]
    refine List.Forall₂.mp (fun o v hv hmem => ?_) hb.arguments (Params.offsets_le sizeofInt args)
    have hend := Params.endOf_le_sizeof (args.map Value.type)
    rw [hat] at hv
    exact hv.inner (by omega) (by omega)

/-- A buffer in which a call is held is one that a stub reads. -/
theorem Encodes.image (hb : Encodes M b) (hh : Holds args M.body)
    (hcount : M.endpointsInMessage.length = (Value.pipes args).length) :
    Image M.userMessageId args M.endpointsInMessage b := by
  have hat : endsAt M = endpointsAt args := by rw [endsAt, hh.length, endpointsAt, Nat.add_assoc]
  refine ⟨?_, hb.type, hb.userMessageId, ?_, hcount, hat ▸ hb.pointer, hat ▸ hb.numElements,
    hat ▸ hb.endpoints⟩
  · rw [hb.length, hat, bufferSize, hcount]
  · refine List.Forall₂.mp (fun o v hv hmem => ?_) hh.arguments (Params.offsets_le sizeofInt args)
    have hend := Params.endOf_le_sizeof (args.map Value.type)
    have hlen := hh.length
    rw [← hat]
    exact hv.outer hb.body (by omega) (by omega)

end
/-! ### Any number of operations -/

/-- What happens to a user message between the proxy and the stub. -/
inductive Operation where
  | retarget (name : Identifier)
  | queuePipe (pipe : MessagePipe)
  | prepareToForward (names : List Identifier)
  | transmit (sender receiver : Host)

namespace Operation

/-- The operation on the bytes. -/
def perform (m : Message) : Operation → Except Check Message
  | retarget name => return m.retarget name
  | queuePipe pipe => return m.queuePipe pipe
  | prepareToForward names => return m.prepareToForward names
  | transmit sender receiver => Wire.transmit sender receiver m

/-- The operation on the message. -/
def apply (M : Mage.Message) : Operation → Mage.Message
  | retarget name => M.retarget name
  | queuePipe pipe => M.queuePipe pipe
  | prepareToForward names => forwarded M names
  | transmit _ _ => M.buffer

/-- Names have the size of an identifier, and there is one for each of `n` descriptors. -/
def Fits (n : ℕ) : Operation → Prop
  | retarget name => name.length = kIdentifierSize
  | prepareToForward names => names.length = n ∧ ∀ x ∈ names, x.length = kIdentifierSize
  | _ => True

/-- The kernel takes and gives all that it is asked to. -/
def Complete : Operation → Prop
  | transmit sender receiver => (∀ n, sender.accepts n = n) ∧ ∀ n, receiver.returns n = n
  | _ => True

variable {m m' : Message} {M : Mage.Message} {op : Operation} {ops : List Operation} {n : ℕ}

theorem represents (h : Represents m M) (hop : op.Fits M.endpointsInMessage.length)
    (hp : op.perform m = .ok m') : Represents m' (op.apply M) := by
  cases op with
  | retarget name =>
    obtain rfl := pure_eq_ok.1 hp
    exact h.retarget hop
  | queuePipe pipe =>
    obtain rfl := pure_eq_ok.1 hp
    exact h.queuePipe pipe
  | prepareToForward names =>
    obtain rfl := pure_eq_ok.1 hp
    exact h.forward hop.1 hop.2
  | transmit sender receiver => exact h.transmit hp

theorem complete (h : Represents m M) (hop : op.Complete) : ∃ m', op.perform m = .ok m' := by
  cases op with
  | transmit sender receiver =>
    have hsent : Channel.sendMessage sender m [] = .ok ([] ++ m.bytes) :=
      Channel.sendMessage_eq hop.1 h.finalized
    have hread : Channel.onCanReadFromSocket receiver (m.bytes ++ []) = .ok _ :=
      Channel.onCanReadFromSocket_eq hop.2 h.finalized
    rw [List.append_nil] at hread
    refine ⟨⟨⟨receiver.address m.bytes.length, m.bytes⟩, []⟩, ?_⟩
    rw [perform, Wire.transmit, hsent, ok_bind, List.nil_append, hread]
    rfl
  | _ => exact ⟨_, rfl⟩

theorem payload_apply (M : Mage.Message) (op : Operation) : (op.apply M).payload = M.payload := by
  cases op <;> rfl

theorem length_apply (hop : op.Fits M.endpointsInMessage.length) :
    (op.apply M).endpointsInMessage.length = M.endpointsInMessage.length := by
  cases op with
  | prepareToForward names =>
    rw [apply, forwarded, List.length_zipWith, hop.1, Nat.min_self]
  | _ => rfl

/-- After each operation the bytes are those of the message that the model has then. -/
theorem foldlM_represents (h : Represents m M)
    (hops : ∀ op ∈ ops, op.Fits M.endpointsInMessage.length)
    (hp : ops.foldlM perform m = .ok m') : Represents m' (ops.foldl apply M) ∧
      (ops.foldl apply M).payload = M.payload ∧
      (ops.foldl apply M).endpointsInMessage.length = M.endpointsInMessage.length := by
  induction ops generalizing m M with
  | nil =>
    obtain rfl := pure_eq_ok.1 hp
    exact ⟨h, rfl, rfl⟩
  | cons op ops ih =>
    rw [List.foldlM_cons, bind_eq_ok] at hp
    obtain ⟨m₁, hm₁, hp⟩ := hp
    have hop := hops op List.mem_cons_self
    obtain ⟨hr, hpayload, hlen⟩ := ih (represents h hop hm₁)
      (fun o ho => length_apply hop ▸ hops o (List.mem_cons_of_mem _ ho)) hp
    exact ⟨hr, hpayload.trans (payload_apply M op), hlen.trans (length_apply hop)⟩

theorem foldlM_complete (h : Represents m M)
    (hops : ∀ op ∈ ops, op.Fits M.endpointsInMessage.length ∧ op.Complete) :
    ∃ m', ops.foldlM perform m = .ok m' := by
  induction ops generalizing m M with
  | nil => exact ⟨m, rfl⟩
  | cons op ops ih =>
    obtain ⟨hop, hcomplete⟩ := hops op List.mem_cons_self
    obtain ⟨m₁, hm₁⟩ := complete h hcomplete
    obtain ⟨m', hm'⟩ := ih (represents h hop hm₁)
      fun o ho => length_apply hop ▸ hops o (List.mem_cons_of_mem _ ho)
    exact ⟨m', by rw [List.foldlM_cons, hm₁, ok_bind, hm']⟩

end Operation

/-- A call of a proxy method none of whose names is hidden is a message of the model, and stays the message
    that the model makes of it whatever is done to its bytes. No operation changes what a stub reads
    from it, but for the pipes; and only a channel can stop it. -/
theorem call_survives (h : Host) (core : ℕ → Core) (name : ℕ → Identifier) (hash : Magen.Text → ℤ)
    (I : Interface) (hI : I.Unhidden) (hids : (I.methods.map (I.methodID hash)).Nodup)
    {method : Method} (hmem : method ∈ I.methods) {args : List Value}
    (htypes : args.map Value.type = method.types) (hsize : bufferSize args < 2 ^ 31) {proxy : Proxy}
    (hbound : proxy.bound = true) {ds : List EndpointDescriptor}
    (hds : Populated core name proxy.localHandle 0 (Value.pipes args) ds)
    (hsized : ∀ d ∈ ds, Descriptor.Sized d) :
    ∃ m, proxy.method h core name hash I method args = .ok (proxy.localHandle, m) ∧
      m.view.userMessageId = I.methodID hash method ∧ m.view.endpointsInMessage = ds ∧
      ∀ ops : List Operation, (∀ op ∈ ops, op.Fits ds.length) →
        ((∀ op ∈ ops, op.Complete) → ∃ m', ops.foldlM Operation.perform m = .ok m') ∧
        ∀ m', ops.foldlM Operation.perform m = .ok m' →
          m'.view = ops.foldl Operation.apply m.view ∧
          (m'.pipes.length = ds.length → ReceiverStub.onReceivedMessage hash I m' =
            .ok (⟨method, Value.withPipes args m'.pipes⟩, { m' with pipes := [] })) := by
  obtain ⟨m, hcall, hfin, -, hb⟩ := call_spec h (I.methodID hash method) hbound hsize hds hsized
  obtain ⟨M, hM, hid, rfl, -, hholds⟩ := hb.represents hfin (I.isInt_methodID hash method) hsized
  have hmethod : proxy.method h core name hash I method args = .ok (proxy.localHandle, m) := by
    rw [(Proxy.agrees_of_unhidden hI hmem).method_eq hbound, ← htypes, hcall]
    rfl
  refine ⟨m, hmethod, by rw [hM.view_eq, hid], by rw [hM.view_eq], fun ops hops => ⟨fun hc => ?_, ?_⟩⟩
  · exact Operation.foldlM_complete hM fun op hop => ⟨hops op hop, hc op hop⟩
  · intro m' hm'
    obtain ⟨hr, hpayload, hlen⟩ := Operation.foldlM_represents hM hops hm'
    refine ⟨by rw [hr.view_eq, hM.view_eq], fun hpipes => ?_⟩
    obtain ⟨M', hM'⟩ : ∃ M', M' = ops.foldl Operation.apply M := ⟨_, rfl⟩
    rw [← hM'] at hr hpayload hlen
    have hid' : M'.userMessageId = I.methodID hash method :=
      (congrArg Payload.userMessageId hpayload).trans hid
    have hbody : M'.body = M.body := congrArg Payload.body hpayload
    have himage := hr.encodes.image (hbody ▸ hholds) (hlen.trans hb.count)
    rw [hid'] at himage
    exact onReceivedMessage_image hids hmem htypes himage hr.encodes.bounded (hpipes.trans hb.count)

/-- A message with one pipe is forwarded by one node and arrives at another. -/
theorem call_survives_give : ∃ m m' : Message,
    [.retarget (Mage.Sample.word 91), .transmit ⟨fun _ => 8, id, id⟩ ⟨fun _ => 9, id, id⟩,
      .queuePipe 7, .prepareToForward [Mage.Sample.word 92], .retarget (Mage.Sample.word 93),
      .transmit ⟨fun _ => 8, id, id⟩ ⟨fun _ => 9, id, id⟩, .queuePipe 4].foldlM
        Operation.perform m = .ok m' ∧
      ReceiverStub.onReceivedMessage (fun _ => 7) Sample.gifts m' = .ok (⟨Sample.give,
        Value.withPipes [.scalar (.int 5), .string [65, 0, 66], .messagePipe 3] m'.pipes⟩,
          { m' with pipes := [] }) := by
  obtain ⟨s, d, hs, hds⟩ := Sample.populated
  obtain ⟨m, -, -, hends, hops⟩ := call_survives ⟨fun _ => 8, id, id⟩
    (fun _ => (s.process Mage.Sample.inviter).toCore) (fun _ => Mage.Sample.word 90) (fun _ => 7)
    Sample.gifts (by decide) (by decide)
    (show Sample.give ∈ Sample.gifts.methods from List.mem_cons_self)
    (show [.scalar (.int 5), .string [65, 0, 66], .messagePipe 3].map Value.type =
      Sample.give.types from rfl) (by decide) (show (⟨true, 1⟩ : Proxy).bound = true from rfl) hds
    (fun d' hd' => by
      obtain ⟨_, _, hd⟩ := hds.made d' hd'
      exact Reachable.populate_sized hs (by decide) hd)
  obtain ⟨hcomplete, hall⟩ := hops
    [.retarget (Mage.Sample.word 91), .transmit ⟨fun _ => 8, id, id⟩ ⟨fun _ => 9, id, id⟩,
      .queuePipe 7, .prepareToForward [Mage.Sample.word 92], .retarget (Mage.Sample.word 93),
      .transmit ⟨fun _ => 8, id, id⟩ ⟨fun _ => 9, id, id⟩, .queuePipe 4]
    (by simp [Operation.Fits, Mage.Sample.word, kIdentifierSize])
  obtain ⟨m', hm'⟩ := hcomplete (by simp [Operation.Complete])
  obtain ⟨hview, hstub⟩ := hall m' hm'
  refine ⟨m, m', hm', hstub ?_⟩
  have hpipes : m'.view.pipes = [4] := by rw [hview]; rfl
  exact congrArg List.length hpipes

end Mage.Wire
