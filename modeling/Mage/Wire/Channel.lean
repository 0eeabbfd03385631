import Mage.Wire.Pointers

/-! The byte stream of a channel decodes to exactly the messages written to it (`mage/core/channel.cc`).
    A message is read in two parts, and only the `size` in its header says where it ends. -/

namespace Mage.Wire
open Lib

/-- What the allocator and the kernel answer: where a buffer of so many bytes is, and of how many bytes
    a `write` or a `recvmsg` is. -/
structure Host where
  address : ℕ → ℕ
  accepts : ℕ → ℕ
  returns : ℕ → ℕ

/-- The bytes written to a socket and not read yet. -/
abbrev Stream := List UInt8

/-- The largest `std::vector<char>`. -/
def maxSize : ℕ := 2 ^ 63 - 1

namespace SendInvitationParams

def inviterName : ℕ := 0
def temporaryRemoteNodeName : ℕ := 15
def intendedEndpointPeerName : ℕ := 30
def sizeof : ℕ := 3 * kIdentifierSize

end SendInvitationParams

namespace SendAcceptInvitationParams

def temporaryRemoteNodeName : ℕ := 0
def actualNodeName : ℕ := 15
def acceptInvitationEndpointName : ℕ := 30
def sizeof : ℕ := 3 * kIdentifierSize

end SendAcceptInvitationParams

section
variable (h : Host)

def write (stream : Stream) (buffer : List UInt8) : ℕ × Stream :=
  let accepted := buffer.take (h.accepts buffer.length)
  (accepted.length, stream ++ accepted)

/-- A `recvmsg` into a buffer of `size` zeros. One that finds nothing fails in the kernel and gets 0 bytes
    here, and the `CHECK_EQ` after it stops both, unless `size` is 0: the second call for a message
    without a body, which no method and no invitation has. -/
def recvmsg (stream : Stream) (size : ℕ) : ℕ × List UInt8 × Stream :=
  let received := stream.take (min (h.returns size) size)
  (received.length, overwrite (List.replicate size 0) 0 received, stream.drop received.length)

namespace Channel

def sendMessage (message : Message) (stream : Stream) : Except Check Stream := do
  check (message.size = asInt message.bytes.length) .messageSize
  let (rv, stream) := write h stream message.bytes
  check (asInt rv = message.size) .shortWrite
  return stream

/-- The `memcpy` of all of `name` to the member at `offset`. -/
def serialize (message : Message) (params : MessageFragment) (offset : ℕ) (name : Identifier) :
    Except Check Message := do
  let data ← params.data message
  return message.store (data + offset) name

/-- A control message: its parameters are names, each at the offset of its member. -/
def control (type : MessageType) (sizeof : ℕ) (members : List (ℕ × Identifier)) :
    Except Check Message := do
  let m := Message.new type (h.address MessageHeader.sizeof)
  let (params, m) := MessageFragment.allocate m sizeof (h.address (MessageHeader.sizeof + sizeof))
  let m ← members.foldlM (fun m x => serialize m params x.1 x.2) m
  return m.finalizeSize

/-- The message of `SendInvitation`. -/
def invitation (inviterName temporaryRemoteNodeName intendedEndpointPeerName : Identifier) :
    Except Check Message :=
  control h .sendInvitation SendInvitationParams.sizeof
    [(SendInvitationParams.inviterName, inviterName),
      (SendInvitationParams.temporaryRemoteNodeName, temporaryRemoteNodeName),
      (SendInvitationParams.intendedEndpointPeerName, intendedEndpointPeerName)]

def sendInvitation (inviterName temporaryRemoteNodeName intendedEndpointPeerName : Identifier)
    (stream : Stream) : Except Check Stream := do
  let message ← invitation h inviterName temporaryRemoteNodeName intendedEndpointPeerName
  sendMessage h message stream

/-- The message of `SendAcceptInvitation`. -/
def acceptInvitation
    (temporaryRemoteNodeName actualNodeName acceptInvitationEndpointName : Identifier) :
    Except Check Message :=
  control h .acceptInvitation SendAcceptInvitationParams.sizeof
    [(SendAcceptInvitationParams.temporaryRemoteNodeName, temporaryRemoteNodeName),
      (SendAcceptInvitationParams.actualNodeName, actualNodeName),
      (SendAcceptInvitationParams.acceptInvitationEndpointName, acceptInvitationEndpointName)]

def sendAcceptInvitation
    (temporaryRemoteNodeName actualNodeName acceptInvitationEndpointName : Identifier)
    (stream : Stream) : Except Check Stream := do
  let message ← acceptInvitation h temporaryRemoteNodeName actualNodeName
    acceptInvitationEndpointName
  sendMessage h message stream

/-- The message that is handed to the delegate, and what is left in the socket. The buffer of the
    message's constructor is replaced by the one that was read. -/
def onCanReadFromSocket (stream : Stream) : Except Check (Message × Stream) := do
  let (rv, buffer, stream) := recvmsg h stream MessageHeader.sizeof
  check (rv = MessageHeader.sizeof) .shortHeader
  let totalMessageSize := (intAt buffer MessageHeader.size % 2 ^ 64).toNat
  check (totalMessageSize ≤ maxSize) .lengthError
  let full := (Buffer.mk 0 buffer).resize totalMessageSize (h.address totalMessageSize)
  let size := intAt full.bytes MessageHeader.size
  check (size = asInt full.bytes.length) .messageSize
  let bodySize := ((size - MessageHeader.sizeof) % 2 ^ 64).toNat
  check (bodySize ≤ maxSize) .lengthError
  let (rv, buffer, stream) := recvmsg h stream bodySize
  check (rv = bodySize) .shortBody
  return (⟨⟨full.address, overwrite full.bytes MessageHeader.sizeof buffer⟩, []⟩, stream)

end Channel
end

/-! ### What the node reads in a message -/

/-- What a received message is to the node. -/
inductive Received where
  | invitation (inviterName temporaryRemoteNodeName intendedEndpointPeerName : Identifier)
  | acceptInvitation
      (temporaryRemoteNodeName actualNodeName acceptInvitationEndpointName : Identifier)
  | userMessage (message : Message)
  deriving DecidableEq

namespace Node

/-- A `std::string` of the bytes of the member at `offset`. -/
def deserialize (message : Message) (params offset : ℕ) : Identifier :=
  message.load (params + offset) kIdentifierSize

/-- The names that `OnReceivedInvitation` finds. -/
def onReceivedInvitation (message : Message) : Except Check Received := do
  let params ← message.get MessageHeader.sizeof
  return .invitation (deserialize message params SendInvitationParams.inviterName)
    (deserialize message params SendInvitationParams.temporaryRemoteNodeName)
    (deserialize message params SendInvitationParams.intendedEndpointPeerName)

/-- The names that `OnReceivedAcceptInvitation` finds. -/
def onReceivedAcceptInvitation (message : Message) : Except Check Received := do
  let params ← message.get MessageHeader.sizeof
  return .acceptInvitation
    (deserialize message params SendAcceptInvitationParams.temporaryRemoteNodeName)
    (deserialize message params SendAcceptInvitationParams.actualNodeName)
    (deserialize message params SendAcceptInvitationParams.acceptInvitationEndpointName)

def onReceivedMessage (message : Message) : Except Check Received :=
  let type := message.type
  if type = MessageType.sendInvitation.value then onReceivedInvitation message
  else if type = MessageType.acceptInvitation.value then onReceivedAcceptInvitation message
  else if type = MessageType.userMessage.value then return .userMessage message
  else throw .notReached

end Node

/-! ### Finalized messages -/

/-- `SendMessage` accepts the message. Every message has a header. -/
structure Finalized (m : Message) : Prop where
  header : MessageHeader.sizeof ≤ m.bytes.length
  bounded : m.bytes.length < 2 ^ 31
  size : m.size = m.bytes.length

section
variable {m : Message} {i n : ℕ}

theorem finalized_of_length (hlow : MessageHeader.sizeof ≤ m.bytes.length)
    (hhigh : m.bytes.length < 2 ^ 31) : Finalized m.finalizeSize := by
  have hsizeof : MessageHeader.sizeof = 40 := rfl
  have hsize : MessageHeader.size = 0 := rfl
  have hfit : MessageHeader.size + 4 ≤ m.bytes.length := by omega
  have hlen : m.finalizeSize.bytes.length = m.bytes.length := by
    rw [Message.bytes_finalizeSize, length_overwrite]
    rw [length_intBytes]
    exact hfit
  refine ⟨hlen ▸ hlow, hlen ▸ hhigh, ?_⟩
  rw [Message.size_eq, hlen, Message.bytes_finalizeSize, asInt_natCast hhigh,
    intAt_overwrite hfit ⟨by omega, by omega⟩]

/-- However a message has been put together, it is finalized by `FinalizeSize`. -/
theorem Draft.Drafted.finalized {type : MessageType} {address : ℕ} {s : Draft}
    (hs : Drafted type address s) : Finalized s.message.finalizeSize := by
  refine finalized_of_length ?_ hs.laid.bounded
  exact hs.laid.start_le (Nat.zero_le _)

/-- `FinalizeSize` changes only the size. -/
theorem slice_finalizeSize (hlow : MessageHeader.sizeof ≤ m.bytes.length) (hi : 4 ≤ i) :
    slice m.finalizeSize.bytes i n = slice m.bytes i n := by
  have hsizeof : MessageHeader.sizeof = 40 := rfl
  have hsize : MessageHeader.size = 0 := rfl
  rw [Message.bytes_finalizeSize, slice_overwrite_apart]
  · rw [length_intBytes]
    omega
  · rw [length_intBytes]
    exact .inl (by omega)

/-- The names are copied one after the other, and none is copied over another. -/
theorem Channel.foldlM_serialize {k : ℕ} (members : List (ℕ × Identifier))
    (hk : m.bytes.length = MessageHeader.sizeof + k)
    (hfit : ∀ x ∈ members, x.1 + x.2.length ≤ k) : ∃ m',
    members.foldlM (fun m x => serialize m ⟨MessageHeader.sizeof⟩ x.1 x.2) m = .ok m' ∧
      m'.bytes.length = m.bytes.length ∧
      (∀ i n, (∀ x ∈ members, Apart (MessageHeader.sizeof + x.1) x.2.length i n) →
        slice m'.bytes i n = slice m.bytes i n) ∧
      (members.Pairwise (fun x y => Apart x.1 x.2.length y.1 y.2.length) →
        ∀ x ∈ members, slice m'.bytes (MessageHeader.sizeof + x.1) x.2.length = x.2) := by
  induction members generalizing m with
  | nil => exact ⟨m, rfl, rfl, fun _ _ _ => rfl, fun _ x hx => by cases hx⟩
  | cons x rest ih =>
    have hx := hfit x List.mem_cons_self
    have hin : MessageHeader.sizeof + x.1 + x.2.length ≤ m.bytes.length := by omega
    have hser : serialize m ⟨MessageHeader.sizeof⟩ x.1 x.2 =
        .ok (m.store (m.address + (MessageHeader.sizeof + x.1)) x.2) := by
      simp [serialize, MessageFragment.data, Message.get, check, bind, Except.bind, pure,
        Except.pure, Nat.add_assoc]
    have hlen : (m.store (m.address + (MessageHeader.sizeof + x.1)) x.2).bytes.length =
        m.bytes.length := by
      rw [Message.store_add, length_overwrite hin]
    obtain ⟨m', hm', hlen', hkeep, hread⟩ := ih (hlen.trans hk)
      fun y hy => hfit y (List.mem_cons_of_mem _ hy)
    refine ⟨m', ?_, hlen'.trans hlen, fun i n ha => ?_, fun hpair y hy => ?_⟩
    · rw [List.foldlM_cons, hser]
      exact hm'
    · rw [hkeep i n fun y hy => ha y (List.mem_cons_of_mem _ hy), Message.store_add,
        slice_overwrite_apart hin (ha x List.mem_cons_self)]
    · rw [List.pairwise_cons] at hpair
      rcases List.mem_cons.1 hy with rfl | hy
      · rw [hkeep, Message.store_add, slice_overwrite hin]
        intro z hz
        rcases hpair.1 z hz with hz | hz
        · exact .inr (by omega)
        · exact .inl (by omega)
      · exact hread hpair.2 y hy

/-- A control message is finalized, and holds the names where its parameters have them. -/
theorem Channel.control_spec (h : Host) (type : MessageType) {k : ℕ}
    (members : List (ℕ × Identifier)) (hk : MessageHeader.sizeof + k < 2 ^ 31)
    (hfit : ∀ x ∈ members, x.1 + x.2.length ≤ k)
    (hpair : members.Pairwise (fun x y => Apart x.1 x.2.length y.1 y.2.length)) :
    ∃ m, control h type k members = .ok m ∧ Finalized m ∧ m.type = type.value ∧
      ∀ x ∈ members, slice m.bytes (MessageHeader.sizeof + x.1) x.2.length = x.2 := by
  have hsizeof : MessageHeader.sizeof = 40 := rfl
  have htype : MessageHeader.type = 4 := rfl
  have hnew := Message.length_new type (h.address MessageHeader.sizeof)
  obtain ⟨m₁, hall, hm₁⟩ : ∃ m₁, MessageFragment.allocate
      (Message.new type (h.address MessageHeader.sizeof)) k (h.address (MessageHeader.sizeof + k)) =
        (⟨MessageHeader.sizeof⟩, m₁) ∧
      m₁.bytes = (Message.new type (h.address MessageHeader.sizeof)).bytes ++ List.replicate k 0 :=
    ⟨_, by rw [MessageFragment.allocate_eq (by omega), hnew], rfl⟩
  have hlen₁ : m₁.bytes.length = MessageHeader.sizeof + k := by
    rw [hm₁, List.length_append, hnew, List.length_replicate]
  obtain ⟨m, hm, hlen, hkeep, hread⟩ := foldlM_serialize members hlen₁ hfit
  have hlow : MessageHeader.sizeof ≤ m.bytes.length := by omega
  refine ⟨m.finalizeSize, ?_, finalized_of_length hlow (by omega), ?_, fun x hx => ?_⟩
  · simp only [control, hall, hm, bind, Except.bind]
    rfl
  · have hslice : slice m.bytes MessageHeader.type 4 = intBytes type.value := by
      rw [hkeep _ _ fun x _ => .inr (by omega), hm₁, slice_append (by omega), Message.bytes_new]
      exact slice_overwrite (by rw [length_intBytes, List.length_replicate]; decide)
    rw [Message.type_eq]
    refine intAt_of_slice ?_ (by cases type <;> decide)
    rw [slice_finalizeSize hlow (by decide), hslice]
  · rw [slice_finalizeSize hlow (by omega), hread hpair x hx]

end

/-! ### Reading what was written -/

section
variable {h : Host} {m : Message} {stream : Stream}

theorem write_all (hw : ∀ n, h.accepts n = n) (buffer : List UInt8) :
    write h stream buffer = (buffer.length, stream ++ buffer) := by
  rw [write, hw, List.take_length]

theorem recvmsg_all (hr : ∀ n, h.returns n = n) {buffer : List UInt8} {size : ℕ}
    (hsize : buffer.length = size) :
    recvmsg h (buffer ++ stream) size = (size, buffer, stream) := by
  have htake : (buffer ++ stream).take (min (h.returns size) size) = buffer := by
    rw [hr, Nat.min_self, List.take_left' hsize]
  rw [recvmsg, htake, List.drop_left' rfl, hsize]
  simp [overwrite, hsize]

theorem Channel.sendMessage_eq (hw : ∀ n, h.accepts n = n) (hm : Finalized m) :
    sendMessage h m stream = .ok (stream ++ m.bytes) := by
  have hsize : m.size = asInt m.bytes.length := by rw [hm.size, asInt_natCast hm.bounded]
  rw [sendMessage, write_all hw]
  simp only [bind_eq_ok, check_eq_ok, pure_eq_ok]
  exact ⟨(), hsize, (), hsize.symm, trivial⟩

/-- Of a stream that starts with a message, exactly the message is read. -/
theorem Channel.onCanReadFromSocket_eq (hr : ∀ n, h.returns n = n) (hm : Finalized m) :
    onCanReadFromSocket h (m.bytes ++ stream) =
      .ok (⟨⟨h.address m.bytes.length, m.bytes⟩, []⟩, stream) := by
  have hsizeof : MessageHeader.sizeof = 40 := rfl
  have hmax : maxSize = 2 ^ 63 - 1 := rfl
  have hheader := hm.header
  have hbounded := hm.bounded
  have hsize : intAt m.bytes MessageHeader.size = m.bytes.length := by
    rw [← Message.size_eq, hm.size]
  -- The header comes first, and tells how long the message is.
  have hlen : (m.bytes.take MessageHeader.sizeof).length = MessageHeader.sizeof :=
    List.length_take_of_le hheader
  have hhead : intAt (m.bytes.take MessageHeader.sizeof) MessageHeader.size = m.bytes.length := by
    rw [intAt, slice_take (by decide) hheader]
    exact hsize
  have htotal : ((m.bytes.length : ℤ) % 2 ^ 64).toNat = m.bytes.length := by omega
  have hfull : (Buffer.mk 0 (m.bytes.take MessageHeader.sizeof)).resize m.bytes.length
      (h.address m.bytes.length) = ⟨h.address m.bytes.length, m.bytes.take MessageHeader.sizeof ++
        List.replicate (m.bytes.length - MessageHeader.sizeof) 0⟩ := by
    rw [Buffer.resize, hlen, List.take_of_length_le (by rw [hlen]; exact hheader)]
  have hagain : intAt (m.bytes.take MessageHeader.sizeof ++
      List.replicate (m.bytes.length - MessageHeader.sizeof) 0) MessageHeader.size =
        m.bytes.length := by
    rw [intAt, slice_append (by rw [hlen]; decide)]
    exact hhead
  -- What follows the header is as long as the message without it.
  have hbody : (((m.bytes.length : ℤ) - MessageHeader.sizeof) % 2 ^ 64).toNat =
      m.bytes.length - MessageHeader.sizeof := by omega
  have hover : overwrite (m.bytes.take MessageHeader.sizeof ++
      List.replicate (m.bytes.length - MessageHeader.sizeof) 0) MessageHeader.sizeof
        (m.bytes.drop MessageHeader.sizeof) = m.bytes := by
    nth_rewrite 3 [← hlen]
    rw [overwrite_append (by rw [List.length_drop, List.length_replicate]),
      List.take_append_drop]
  nth_rewrite 1 [← List.take_append_drop MessageHeader.sizeof m.bytes]
  rw [onCanReadFromSocket, List.append_assoc, recvmsg_all hr hlen]
  simp only [bind_eq_ok, check_eq_ok, pure_eq_ok]
  rw [hhead, htotal, hfull]
  simp only [hagain, hbody]
  rw [recvmsg_all hr (List.length_drop), hover]
  refine ⟨(), trivial, (), by omega, (), ?_, (), by omega, (), rfl, rfl⟩
  rw [List.length_append, hlen, List.length_replicate, asInt_natCast (by omega)]
  omega

end

/-! ### Whole streams -/

/-- What is sent through a channel. -/
inductive Sending where
  | message (message : Message)
  | invitation (inviterName temporaryRemoteNodeName intendedEndpointPeerName : Identifier)
  | acceptInvitation
      (temporaryRemoteNodeName actualNodeName acceptInvitationEndpointName : Identifier)
  deriving DecidableEq

namespace Sending

/-- Messages are finalized, and names have the size of an identifier. -/
def WellFormed : Sending → Prop
  | .message m => Finalized m
  | .invitation x y z | .acceptInvitation x y z =>
    x.length = kIdentifierSize ∧ y.length = kIdentifierSize ∧ z.length = kIdentifierSize

def send (h : Host) (stream : Stream) : Sending → Except Check Stream
  | .message m => Channel.sendMessage h m stream
  | .invitation x y z => Channel.sendInvitation h x y z stream
  | .acceptInvitation x y z => Channel.sendAcceptInvitation h x y z stream

/-- The message that is sent. -/
def built (h : Host) : Sending → Except Check Message
  | .message m => return m
  | .invitation x y z => Channel.invitation h x y z
  | .acceptInvitation x y z => Channel.acceptInvitation h x y z

/-- The message that arrives is the one that was sent, byte for byte, and the node finds each name in
    the role in which it was given. -/
def Arrives (h : Host) (x : Sending) (m : Message) : Prop :=
  (∃ m', x.built h = .ok m' ∧ m.bytes = m'.bytes) ∧
    match x with
    | .message _ => True
    | .invitation x y z => Node.onReceivedMessage m = .ok (.invitation x y z)
    | .acceptInvitation x y z => Node.onReceivedMessage m = .ok (.acceptInvitation x y z)

end Sending

/-- The socket is read until nothing is left in it. -/
inductive Drains (h : Host) : Stream → List Message → Prop where
  | nil : Drains h [] []
  | cons {stream rest : Stream} {m : Message} {ms : List Message} (ready : stream ≠ [])
      (read : Channel.onCanReadFromSocket h stream = .ok (m, rest)) (later : Drains h rest ms) :
      Drains h stream (m :: ms)

section
variable {h : Host} {x : Sending} {stream : Stream}

theorem Node.deserialize_eq {m : Message} {offset : ℕ} {name : Identifier}
    (hname : name.length = kIdentifierSize)
    (hm : slice m.bytes (MessageHeader.sizeof + offset) name.length = name) :
    deserialize m (m.address + MessageHeader.sizeof) offset = name := by
  rw [deserialize, Nat.add_assoc, Message.load_add, ← hname, hm]

/-- The names in a control message are read back from wherever its bytes are. -/
theorem Channel.control_reads (type : MessageType) {x y z : Identifier}
    (hx : x.length = kIdentifierSize) (hy : y.length = kIdentifierSize)
    (hz : z.length = kIdentifierSize) :
    ∃ m, control h type (3 * kIdentifierSize) [(0, x), (15, y), (30, z)] = .ok m ∧ Finalized m ∧
      ∀ m', m'.bytes = m.bytes → m'.type = type.value ∧
        m'.get MessageHeader.sizeof = .ok (m'.address + MessageHeader.sizeof) ∧
        Node.deserialize m' (m'.address + MessageHeader.sizeof) 0 = x ∧
        Node.deserialize m' (m'.address + MessageHeader.sizeof) 15 = y ∧
        Node.deserialize m' (m'.address + MessageHeader.sizeof) 30 = z := by
  have hsize : kIdentifierSize = 15 := rfl
  obtain ⟨m, hm, hfin, htype, hread⟩ := control_spec h type (k := 3 * kIdentifierSize)
    [(0, x), (15, y), (30, z)] (by decide) (by simp; omega) (by simp [Apart]; omega)
  refine ⟨m, hm, hfin, fun m' hm' => ⟨?_, ?_, ?_, ?_, ?_⟩⟩
  · rw [Message.type_eq, hm', ← Message.type_eq, htype]
  · simp [Message.get, check, bind, Except.bind, pure, Except.pure]
  · exact Node.deserialize_eq hx (hm' ▸ hread (0, x) (by simp))
  · exact Node.deserialize_eq hy (hm' ▸ hread (15, y) (by simp))
  · exact Node.deserialize_eq hz (hm' ▸ hread (30, z) (by simp))

/-- Whatever is sent, one finalized message is written, which the node reads as what was sent. -/
theorem Sending.built_spec (hx : x.WellFormed) : ∃ m, x.built h = .ok m ∧ Finalized m ∧
    (∀ stream, x.send h stream = Channel.sendMessage h m stream) ∧
      ∀ m', m'.bytes = m.bytes → x.Arrives h m' := by
  cases x with
  | message m => exact ⟨m, rfl, hx, fun _ => rfl, fun m' hm' => ⟨⟨m, rfl, hm'⟩, trivial⟩⟩
  | invitation x y z =>
    obtain ⟨m, hm, hfin, hread⟩ := Channel.control_reads (h := h) .sendInvitation hx.1 hx.2.1 hx.2.2
    have hbuilt : Channel.invitation h x y z = .ok m := hm
    refine ⟨m, hbuilt, hfin, fun stream => ?_, fun m' hm' => ⟨⟨m, hbuilt, hm'⟩, ?_⟩⟩
    · rw [send, Channel.sendInvitation, hbuilt, ok_bind]
    · obtain ⟨htype, hget, h₁, h₂, h₃⟩ := hread m' hm'
      rw [Node.onReceivedMessage, htype, if_pos rfl, Node.onReceivedInvitation, hget, ok_bind]
      exact pure_eq_ok.2 (by rw [← h₁, ← h₂, ← h₃]; rfl)
  | acceptInvitation x y z =>
    obtain ⟨m, hm, hfin, hread⟩ := Channel.control_reads (h := h) .acceptInvitation
      hx.1 hx.2.1 hx.2.2
    have hbuilt : Channel.acceptInvitation h x y z = .ok m := hm
    refine ⟨m, hbuilt, hfin, fun stream => ?_, fun m' hm' => ⟨⟨m, hbuilt, hm'⟩, ?_⟩⟩
    · rw [send, Channel.sendAcceptInvitation, hbuilt, ok_bind]
    · obtain ⟨htype, hget, h₁, h₂, h₃⟩ := hread m' hm'
      rw [Node.onReceivedMessage, htype, if_neg (by decide), if_pos rfl,
        Node.onReceivedAcceptInvitation, hget, ok_bind]
      exact pure_eq_ok.2 (by rw [← h₁, ← h₂, ← h₃]; rfl)

/-- After whatever is in the socket already, the messages follow one another. -/
theorem Drains.of_sends (hw : ∀ n, h.accepts n = n) (hr : ∀ n, h.returns n = n)
    (sent : List Sending) (hs : ∀ x ∈ sent, x.WellFormed) (before : Stream) : ∃ stream ms,
      sent.foldlM (Sending.send h) before = .ok (before ++ stream) ∧ Drains h stream ms ∧
        List.Forall₂ (Sending.Arrives h) sent ms := by
  induction sent generalizing before with
  | nil => exact ⟨[], [], by rw [List.append_nil]; rfl, .nil, .nil⟩
  | cons x rest ih =>
    obtain ⟨m, -, hfin, hsend, harrives⟩ := Sending.built_spec (h := h) (hs x List.mem_cons_self)
    obtain ⟨stream, ms, hfold, hdrains, hall⟩ :=
      ih (fun y hy => hs y (List.mem_cons_of_mem _ hy)) (before ++ m.bytes)
    have hready : m.bytes ++ stream ≠ [] := by
      intro hnil
      have hheader := hfin.header
      rw [(List.append_eq_nil_iff.1 hnil).1] at hheader
      exact absurd hheader (by decide)
    refine ⟨m.bytes ++ stream, _ :: ms, ?_,
      .cons hready (Channel.onCanReadFromSocket_eq hr hfin) hdrains, .cons (harrives _ rfl) hall⟩
    rw [List.foldlM_cons, hsend, Channel.sendMessage_eq hw hfin, ← List.append_assoc]
    exact hfold

/-- No reading of the socket gives anything else. -/
theorem Drains.unique {ms ms' : List Message} (hd : Drains h stream ms) (hd' : Drains h stream ms') :
    ms = ms' := by
  induction hd generalizing ms' with
  | nil =>
    cases hd' with
    | nil => rfl
    | cons ready => exact absurd rfl ready
  | cons ready read _ ih =>
    cases hd' with
    | nil => exact absurd rfl ready
    | cons _ read' later' =>
      rw [read, Except.ok.injEq, Prod.mk.injEq] at read'
      obtain ⟨rfl, rfl⟩ := read'
      rw [ih later']

/-- A channel's byte stream decodes to exactly the messages written to it. -/
theorem channel_delivers (h : Host) (hw : ∀ n, h.accepts n = n) (hr : ∀ n, h.returns n = n)
    (sent : List Sending) (hs : ∀ x ∈ sent, x.WellFormed) :
    ∃ stream ms, sent.foldlM (Sending.send h) [] = .ok stream ∧ Drains h stream ms ∧
      List.Forall₂ (Sending.Arrives h) sent ms ∧ ∀ ms', Drains h stream ms' → ms' = ms := by
  obtain ⟨stream, ms, hfold, hdrains, hall⟩ := Drains.of_sends hw hr sent hs []
  exact ⟨stream, ms, hfold, hdrains, hall, fun ms' hd => hd.unique hdrains⟩

end

/-- Two invitations, one of them of a name of zero bytes, and a message with nothing in it. -/
theorem channel_delivers_three : ∃ stream ms,
    [Sending.invitation (List.replicate 15 1) (List.replicate 15 0) (List.replicate 15 2),
      .message (Message.new .userMessage 0).finalizeSize,
      .acceptInvitation (List.replicate 15 0) (List.replicate 15 3) (List.replicate 15 4)].foldlM
        (Sending.send ⟨fun _ => 8, id, id⟩) [] = .ok stream ∧
      Drains ⟨fun _ => 8, id, id⟩ stream ms ∧ ms.length = 3 := by
  obtain ⟨stream, ms, hfold, hdrains, hall, -⟩ := channel_delivers ⟨fun _ => 8, id, id⟩
    (fun _ => rfl) (fun _ => rfl)
    [.invitation (List.replicate 15 1) (List.replicate 15 0) (List.replicate 15 2),
      .message (Message.new .userMessage 0).finalizeSize,
      .acceptInvitation (List.replicate 15 0) (List.replicate 15 3) (List.replicate 15 4)]
    (by simpa [Sending.WellFormed, kIdentifierSize] using
      finalized_of_length (by decide) (by decide))
  exact ⟨stream, ms, hfold, hdrains, hall.length_eq.symm⟩

end Mage.Wire
