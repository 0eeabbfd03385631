import Mage.Wire.Channel

/-! What a channel does when the kernel takes or gives fewer bytes than it was asked for. Either end
    aborts then; no reader is ever handed bytes that are not a message that was sent. -/

namespace Mage.Wire
open Lib

section
variable {h : Host} {m m' : Message} {stream stream' rest : Stream}

theorem write_eq (h : Host) (stream : Stream) (buffer : List UInt8) :
    ∃ n ≤ buffer.length, write h stream buffer = (n, stream ++ buffer.take n) := by
  refine ⟨min (h.accepts buffer.length) buffer.length, Nat.min_le_right _ _, ?_⟩
  rw [write, List.length_take, ← List.take_eq_take_min]

/-- As many bytes as are asked for are received only if they are there. -/
theorem recvmsg_full {size : ℕ} {buffer : List UInt8}
    (hr : recvmsg h stream size = (size, buffer, rest)) :
    stream = buffer ++ rest ∧ buffer.length = size := by
  simp only [recvmsg, Prod.mk.injEq] at hr
  obtain ⟨hlen, rfl, rfl⟩ := hr
  have hsplit := List.take_append_drop (stream.take (min (h.returns size) size)).length stream
  nth_rewrite 1 [List.length_take, ← List.take_eq_take_min] at hsplit
  have hbuffer : overwrite (List.replicate size 0) 0 (stream.take (min (h.returns size) size)) =
      stream.take (min (h.returns size) size) := by
    simp [overwrite, hlen]
  rw [hbuffer]
  exact ⟨hsplit.symm, hlen⟩

/-- A message that is sent without an abort is in the socket as a whole. -/
theorem Channel.sendMessage_sound (hm : Finalized m)
    (hs : sendMessage h m stream = .ok stream') : stream' = stream ++ m.bytes := by
  obtain ⟨n, hn, hwrite⟩ := write_eq h stream m.bytes
  have hbounded := hm.bounded
  simp only [sendMessage, hwrite, bind_eq_ok, check_eq_ok, pure_eq_ok] at hs
  obtain ⟨_, -, _, hrv, rfl⟩ := hs
  rw [asInt_natCast (by omega), hm.size, Int.natCast_inj] at hrv
  rw [hrv, List.take_length]

/-- Whatever is in the socket, a message that is read is there, byte for byte, and is finalized. -/
theorem Channel.onCanReadFromSocket_sound
    (hs : onCanReadFromSocket h stream = .ok (m, rest)) :
    stream = m.bytes ++ rest ∧ Finalized m ∧ m.pipes = [] := by
  have hsizeof : MessageHeader.sizeof = 40 := rfl
  have hmax : maxSize = 2 ^ 63 - 1 := rfl
  obtain ⟨⟨rv, buffer, rest₁⟩, hread⟩ : ∃ x, x = recvmsg h stream MessageHeader.sizeof := ⟨_, rfl⟩
  simp only [onCanReadFromSocket, ← hread, bind_eq_ok, check_eq_ok, pure_eq_ok] at hs
  obtain ⟨_, rfl, _, htotal, _, hsize, _, hbody, hs⟩ := hs
  obtain ⟨rfl, hlen⟩ := recvmsg_full hread.symm
  -- The size is neither negative nor less than that of the header.
  obtain ⟨size, hsize₀⟩ : ∃ size, size = intAt buffer MessageHeader.size := ⟨_, rfl⟩
  have hint : IsInt size := hsize₀ ▸ isInt_asInt _
  rw [← hsize₀] at htotal hsize hbody hs
  obtain ⟨k, rfl⟩ : ∃ k : ℕ, size = k := Int.eq_ofNat_of_zero_le (by rw [IsInt] at hint; omega)
  obtain ⟨hlow, hhigh⟩ := hint
  have htoNat : ((k : ℤ) % 2 ^ 64).toNat = k := by omega
  have hfull : ((Buffer.mk 0 buffer).resize k (h.address k)).bytes.length = k := by
    simp only [Buffer.resize, List.length_append, List.length_take, List.length_replicate]
    omega
  rw [htoNat] at hsize hbody hs
  rw [hfull, asInt_natCast (by omega)] at hsize
  rw [hsize] at hbody hs
  have hk : MessageHeader.sizeof ≤ k := by omega
  have hbodySize : (((k : ℤ) - MessageHeader.sizeof) % 2 ^ 64).toNat = k - MessageHeader.sizeof := by
    omega
  rw [hbodySize] at hs
  -- The body is what follows.
  obtain ⟨⟨rv, body, rest₂⟩, hread₂⟩ : ∃ x, x = recvmsg h rest₁ (k - MessageHeader.sizeof) :=
    ⟨_, rfl⟩
  rw [← hread₂] at hs
  obtain ⟨_, rfl, hs⟩ := hs
  obtain ⟨rfl, hbodyLen⟩ := recvmsg_full hread₂.symm
  rw [Prod.mk.injEq] at hs
  obtain ⟨rfl, rfl⟩ := hs
  have hbytes : overwrite ((Buffer.mk 0 buffer).resize k (h.address k)).bytes MessageHeader.sizeof body =
      buffer ++ body := by
    rw [Buffer.resize, List.take_of_length_le (hlen.le.trans hk), ← hlen,
      overwrite_append (by rw [List.length_replicate, hbodyLen, hlen])]
  have hm : (Message.mk ⟨((Buffer.mk 0 buffer).resize k (h.address k)).address,
      overwrite ((Buffer.mk 0 buffer).resize k (h.address k)).bytes MessageHeader.sizeof body⟩ []).bytes =
      buffer ++ body := hbytes
  have hmlen : (buffer ++ body).length = k := by
    rw [List.length_append]
    omega
  refine ⟨by rw [hm, List.append_assoc], ⟨?_, ?_, ?_⟩, rfl⟩
  · rw [hm, hmlen]
    exact hk
  · rw [hm, hmlen]
    omega
  · rw [Message.size_eq, hm, hmlen, intAt, slice_append (by rw [hlen]; decide)]
    exact hsize₀.symm

/-- Where a message ends does not depend on what follows it. -/
theorem Finalized.prefix_unique (hm : Finalized m) (hm' : Finalized m')
    (h : m.bytes ++ stream = m'.bytes ++ stream') : m.bytes = m'.bytes ∧ stream = stream' := by
  have hsizeof : MessageHeader.sizeof = 40 := rfl
  have hheader := hm.header
  have hheader' := hm'.header
  have hsize : m.size = m'.size := by
    rw [Message.size_eq, Message.size_eq, intAt, intAt]
    rw [← slice_append (r := stream) (by rw [MessageHeader.size]; omega), h,
      slice_append (by rw [MessageHeader.size]; omega)]
  rw [hm.size, hm'.size, Int.natCast_inj] at hsize
  exact List.append_inj h hsize

end

/-! ### Sends and receipts in any order -/

/-- What was sent into a channel and received from it, and what is in the socket, when neither end has
    aborted. The allocator and the kernel answer anew for each message. -/
inductive Exchange : List Message → List Message → Stream → Prop where
  | start : Exchange [] [] []
  | send {sent received : List Message} {stream stream' : Stream} (run : Exchange sent received stream)
      (h : Host) (m : Message) (hm : Finalized m)
      (hs : Channel.sendMessage h m stream = .ok stream') :
      Exchange (sent ++ [m]) received stream'
  | receive {sent received : List Message} {stream rest : Stream} (run : Exchange sent received stream)
      (h : Host) (m : Message) (hr : Channel.onCanReadFromSocket h stream = .ok (m, rest)) :
      Exchange sent (received ++ [m]) rest

namespace Exchange
variable {sent received : List Message} {stream : Stream}

/-- The messages received are the first of those that were sent, and the rest is in the socket. -/
theorem split (h : Exchange sent received stream) : (∀ m ∈ sent, Finalized m) ∧
    ∃ before later, sent = before ++ later ∧
      received.map Message.bytes = before.map Message.bytes ∧ (∀ m ∈ received, Finalized m) ∧
      stream = (later.map Message.bytes).flatten := by
  induction h with
  | start =>
    refine ⟨fun m hm => ?_, [], [], rfl, rfl, fun m hm => ?_, rfl⟩
    · cases hm
    · cases hm
  | send _ h m hm hs ih =>
    obtain ⟨hsent, before, later, rfl, hrec, hfin, rfl⟩ := ih
    refine ⟨fun m' hm' => ?_, before, later ++ [m], List.append_assoc _ _ _, hrec, hfin, ?_⟩
    · rcases List.mem_append.1 hm' with hm' | hm'
      · exact hsent m' hm'
      · exact List.mem_singleton.1 hm' ▸ hm
    · rw [Channel.sendMessage_sound hm hs]
      simp
  | receive _ h m hr ih =>
    obtain ⟨hsent, before, later, rfl, hrec, hfin, rfl⟩ := ih
    obtain ⟨hstream, hm, -⟩ := Channel.onCanReadFromSocket_sound hr
    cases later with
    | nil =>
      have hlen := congrArg List.length hstream
      have hheader := hm.header
      have hsizeof : MessageHeader.sizeof = 40 := rfl
      simp only [List.map_nil, List.flatten_nil, List.length_nil, List.length_append] at hlen
      omega
    | cons m' later =>
      rw [List.map_cons, List.flatten_cons] at hstream
      have hm' := hsent m' (List.mem_append_right _ List.mem_cons_self)
      obtain ⟨hbytes, hrest⟩ := hm'.prefix_unique hm hstream
      refine ⟨hsent, before ++ [m'], later, by simp, by simp [hrec, hbytes], fun x hx => ?_, hrest.symm⟩
      rcases List.mem_append.1 hx with hx | hx
      · exact hfin x hx
      · exact List.mem_singleton.1 hx ▸ hm

/-- Messages are received as they were sent, byte for byte and in order, whatever the kernel takes and
    gives; all that was sent and not received is in the socket, and is received next by a kernel that
    gives what it is asked for. -/
theorem faithful (h : Exchange sent received stream) : ∃ before later, sent = before ++ later ∧
    received.map Message.bytes = before.map Message.bytes ∧ (∀ m ∈ received, Finalized m) ∧
    stream = (later.map Message.bytes).flatten ∧
    ∀ m rest, later = m :: rest → ∀ host : Host, (∀ n, host.returns n = n) →
      ∃ m' stream', Channel.onCanReadFromSocket host stream = .ok (m', stream') ∧
        m'.bytes = m.bytes ∧ stream' = (rest.map Message.bytes).flatten := by
  obtain ⟨hsent, before, later, hsplit, hrec, hfin, hstream⟩ := h.split
  refine ⟨before, later, hsplit, hrec, hfin, hstream, ?_⟩
  rintro m rest rfl host hr
  have hm : Finalized m := hsent m (hsplit ▸ List.mem_append_right _ List.mem_cons_self)
  rw [hstream, List.map_cons, List.flatten_cons]
  exact ⟨_, _, Channel.onCanReadFromSocket_eq hr hm, rfl, rfl⟩

end Exchange

/-- A message with a body of three bytes. -/
def Sample.note : Message :=
  ((MessageFragment.allocate (.new .userMessage 0) 3 0).2.store MessageHeader.sizeof
    [1, 2, 3]).finalizeSize

/-- Of two messages the first one is received, with its body. -/
theorem exchange_faithful_two : ∃ received stream,
    received.map Message.bytes = [Sample.note.bytes] ∧
    received.map (fun m => m.bytes.drop MessageHeader.sizeof) = [[1, 2, 3]] ∧
    Exchange [Sample.note, (Message.new .acceptInvitation 8).finalizeSize] received stream := by
  have hhost : ∀ n, (Host.mk (fun _ => 43) id id).returns n = n := fun _ => rfl
  have hfin₁ : Finalized Sample.note := finalized_of_length (by decide) (by decide)
  have hfin₂ : Finalized (Message.new .acceptInvitation 8).finalizeSize :=
    finalized_of_length (by decide) (by decide)
  have hrun := (Exchange.start.send ⟨fun _ => 43, id, id⟩ _ hfin₁
    (Channel.sendMessage_eq (fun _ => rfl) hfin₁)).send ⟨fun _ => 43, id, id⟩ _ hfin₂
      (Channel.sendMessage_eq (fun _ => rfl) hfin₂)
  obtain ⟨before, later, hsplit, hrec, -, -, hnext⟩ := hrun.faithful
  obtain rfl : before = [] := by simpa using hrec.symm
  obtain ⟨m', stream', hread, hbytes, -⟩ := hnext _ _ hsplit.symm _ hhost
  refine ⟨[m'], stream', by rw [List.map_singleton, hbytes], ?_, hrun.receive _ _ hread⟩
  rw [List.map_singleton, hbytes]
  decide

end Mage.Wire
