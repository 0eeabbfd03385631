import Mage.Wire.Encode

/-! The network with its sockets as streams of bytes. Messages are written to a stream and read from it
    as the bytes of the last modules; the kernel answers anew for each. All that its processes ever do
    the network of messages does too, and all that those do with messages that fit is done with bytes. -/

namespace Mage.Wire
open Lib

/-! ### Sockets of bytes -/

/-- What the node makes of a message. -/
def Received.channelMessage : Received → ChannelMessage
  | .invitation x y z => .sendInvitation x y z
  | .acceptInvitation x y z => .acceptInvitation x y z
  | .userMessage m => .userMessage m.view

/-- The bytes of a message are written after what is in the socket. Those of a user message are in
    whatever buffer the process has it in. -/
def Channel.Writes (h : Host) (stream stream' : Stream) : ChannelMessage → Prop
  | .sendInvitation x y z => sendInvitation h x y z stream = .ok stream'
  | .acceptInvitation x y z => sendAcceptInvitation h x y z stream = .ok stream'
  | .userMessage M => ∃ m, Encodes M m.bytes ∧ sendMessage h m stream = .ok stream'

/-- The processes, the bytes in each socket, and the names left to draw. -/
structure ByteNetwork where
  process : Identifier → Process
  stream : Identifier → Identifier → Stream
  supply : List Identifier

/-- The first step of a call, by a thread that is idle, or the next step of a thread. -/
def next (p : Process) (τ : ThreadId) (supply : List Identifier) : Option Call → Except Stop Outcome
  | some c => do
    check (p.thread τ).isIdle .blocked
    p.start τ supply c
  | none => p.run τ supply

namespace ByteNetwork

def initial (T : Topology) : ByteNetwork where
  process := Network.initialProcess
  stream _ _ := []
  supply := T.names

/-- A permitted step of a thread, with or without a write, or a receipt. -/
inductive Step (T : Topology) (b : ByteNetwork) : ByteNetwork → Prop where
  | quiet {n : Identifier} {τ : ThreadId} {c : Option Call} {o : Outcome} (hn : n ∈ T.nodes)
      (allowed : ∀ c', c = some c' → Allowed T n (b.process n) c')
      (move : next (b.process n) τ b.supply c = .ok o) (hw : o.written = none) :
      Step T b ⟨upd₁ b.process n o.process, b.stream, o.supply⟩
  | write {n : Identifier} {τ : ThreadId} {c : Option Call} {o : Outcome} {channel : Channel}
      {m : ChannelMessage} {stream : Stream} (hn : n ∈ T.nodes)
      (allowed : ∀ c', c = some c' → Allowed T n (b.process n) c')
      (move : next (b.process n) τ b.supply c = .ok o) (hw : o.written = some (channel, m))
      (host : Host) (hs : Channel.Writes host (b.stream n channel) stream m) :
      Step T b ⟨upd₁ b.process n o.process, upd b.stream n channel stream, o.supply⟩
  | read {n : Identifier} {channel : Channel} {m : Message} {stream : Stream} {r : Received}
      (hn : n ∈ T.nodes) (idle : (b.process n).thread .io = .idle)
      (watched : channel ∈ (b.process n).watchedSockets) (host : Host)
      (hr : Channel.onCanReadFromSocket host (b.stream channel n) = .ok (m, stream))
      (hm : Node.onReceivedMessage m = .ok r) :
      Step T b ⟨upd₁ b.process n
        ((b.process n).goto .io (Process.onReceivedMessage r.channelMessage)),
        upd b.stream channel n stream, b.supply⟩

/-- What any order of permitted steps leads to. -/
inductive Reachable (T : Topology) : ByteNetwork → Prop where
  | initial : Reachable T (initial T)
  | step {b b' : ByteNetwork} (run : Reachable T b) (move : Step T b b') : Reachable T b'

end ByteNetwork

/-! ### The bytes of messages -/

/-- Wherever the bytes of `m` are, they are `M` to a node. -/
structure Spells (M : ChannelMessage) (m : Message) : Prop where
  finalized : Finalized m
  read : ∀ m' : Message, m'.bytes = m.bytes → m'.pipes = [] →
    ∃ r, Node.onReceivedMessage m' = .ok r ∧ r.channelMessage = M

/-- What is in a socket, and what it means. -/
def Holding (Ms : List ChannelMessage) (stream : Stream) : Prop :=
  ∃ ms, List.Forall₂ Spells Ms ms ∧ stream = (ms.map Message.bytes).flatten

section
variable {h : Host} {stream stream' : Stream} {M : ChannelMessage} {Ms : List ChannelMessage}

theorem Encodes.spells {M : Mage.Message} {m : Message} (hm : Encodes M m.bytes)
    (hpipes : M.pipes = []) : Spells (.userMessage M) m := by
  have hrep : Represents { m with pipes := [] } M := ⟨hm, hpipes.symm⟩
  have hfin : Finalized m :=
    ⟨hrep.finalized.header, hrep.finalized.bounded, hrep.finalized.size⟩
  refine ⟨hfin, fun m' hbytes hpipes' => ⟨.userMessage m', ?_, ?_⟩⟩
  · have htype : m'.type = MessageType.userMessage.value := by
      rw [Message.type, Message.load_add, hbytes, hm.type, asInt_intBytes (by decide)]
    rw [Node.onReceivedMessage, htype, if_neg (by decide), if_neg (by decide), if_pos rfl]
    rfl
  · have hview : m'.view = M := Represents.view_eq ⟨hbytes ▸ hm, hpipes'.trans hpipes.symm⟩
    rw [Received.channelMessage, hview]

/-- Names of the size of an identifier, and no pipes. -/
def ChannelMessage.Named : ChannelMessage → Prop
  | .sendInvitation x y z | .acceptInvitation x y z =>
    x.length = kIdentifierSize ∧ y.length = kIdentifierSize ∧ z.length = kIdentifierSize
  | .userMessage M => M.pipes = []

/-- What is written is behind what was there. -/
theorem Holding.write (hh : Holding Ms stream) (hM : ChannelMessage.Named M)
    (hw : Channel.Writes h stream stream' M) : Holding (Ms ++ [M]) stream' := by
  obtain ⟨ms, hms, rfl⟩ := hh
  obtain ⟨m, hm, hstream⟩ : ∃ m, Spells M m ∧
      stream' = (ms.map Message.bytes).flatten ++ m.bytes := by
    cases M with
    | userMessage M =>
      obtain ⟨m, henc, hsend⟩ := hw
      have hm := henc.spells hM
      exact ⟨m, hm, Channel.sendMessage_sound hm.finalized hsend⟩
    | sendInvitation x y z =>
      obtain ⟨m, -, hfin, hsend, hread⟩ := Sending.built_spec (h := h) (x := .invitation x y z) hM
      refine ⟨m, ⟨hfin, fun m' hm' _ => ⟨_, (hread m' hm').2, rfl⟩⟩, ?_⟩
      exact Channel.sendMessage_sound hfin ((hsend _).symm.trans hw)
    | acceptInvitation x y z =>
      obtain ⟨m, -, hfin, hsend, hread⟩ :=
        Sending.built_spec (h := h) (x := .acceptInvitation x y z) hM
      refine ⟨m, ⟨hfin, fun m' hm' _ => ⟨_, (hread m' hm').2, rfl⟩⟩, ?_⟩
      exact Channel.sendMessage_sound hfin ((hsend _).symm.trans hw)
  exact ⟨ms ++ [m], List.rel_append hms (.cons hm .nil), by simp [hstream]⟩

/-- What is read is the first message. -/
theorem Holding.read {m : Message} {rest : Stream} {r : Received} (hh : Holding Ms stream)
    (hr : Channel.onCanReadFromSocket h stream = .ok (m, rest))
    (hm : Node.onReceivedMessage m = .ok r) :
    ∃ Ms', Ms = r.channelMessage :: Ms' ∧ Holding Ms' rest := by
  obtain ⟨ms, hms, rfl⟩ := hh
  obtain ⟨hstream, hfin, hpipes⟩ := Channel.onCanReadFromSocket_sound hr
  cases hms with
  | nil =>
    have hlen := congrArg List.length hstream
    have hheader := hfin.header
    have hsizeof : MessageHeader.sizeof = 40 := rfl
    simp only [List.map_nil, List.flatten_nil, List.length_nil, List.length_append] at hlen
    omega
  | @cons M m' Ms ms hM hms =>
    rw [List.map_cons, List.flatten_cons] at hstream
    obtain ⟨hbytes, hrest⟩ := hM.finalized.prefix_unique hfin hstream
    obtain ⟨r', hr', rfl⟩ := hM.read m hbytes.symm hpipes
    rw [hm, Except.ok.injEq] at hr'
    subst hr'
    exact ⟨Ms, rfl, ms, hms, hrest.symm⟩

end

/-! ### Every run of bytes is a run of messages -/

/-- The same processes, and in each socket the bytes of what is in the channel. -/
structure Agrees (b : ByteNetwork) (s : Network) : Prop where
  process : b.process = s.process
  supply : b.supply = s.supply
  stream : ∀ n t, Holding (s.wire n t) (b.stream n t)

section
variable {T : Topology} {s : Network} {b b' : ByteNetwork} {n : Identifier} {τ : ThreadId}
  {c : Option Call} {o : Outcome}

theorem next_step (hm : next (s.process n) τ s.supply c = .ok o) :
    s.step (.of n τ c) = .ok (s.apply n o) := by
  cases c with
  | none =>
    have hm : (s.process n).run τ s.supply = .ok o := hm
    simp only [Label.of, Network.step, hm, ok_bind]
    rfl
  | some c =>
    rw [next, bind_eq_ok] at hm
    obtain ⟨_, hi, hm⟩ := hm
    simp only [Label.of, Network.step, hi, hm, ok_bind]
    rfl

theorem next_permitted (hn : n ∈ T.nodes)
    (ha : ∀ c', c = some c' → Allowed T n (s.process n) c') : Permitted T s (.of n τ c) := by
  cases c with
  | none => exact hn
  | some c => exact ⟨hn, ha c rfl⟩

/-- The names in a message that is written to a channel have the size of an identifier. -/
theorem wire_named (hr : Mage.Reachable T s) {t : Identifier} {M : ChannelMessage}
    (hM : M ∈ s.wire n t) : ChannelMessage.Named M := by
  have hsound := hr.sound.handshake.wires n t M hM
  have hdrawn : ∀ x, x ∈ ChannelMessage.temps M → x.length = kIdentifierSize := fun x hx =>
    T.names_length _ (hr.sound.handshake.temps_drawn (.wire n t) x
      (List.mem_flatMap.2 ⟨M, hM, hx⟩)).1
  have hpeer : ∀ k x a, s.peerOf k x = some a → x.length = kIdentifierSize := by
    intro k x a hx
    refine T.names_length _ (hr.sound.ports.names.node ⟨k, x⟩ ?_).2
    rw [Network.peerOf, Option.map_eq_some_iff] at hx
    obtain ⟨e, he, -⟩ := hx
    simp [Network.port, he]
  cases M with
  | userMessage M => exact hr.sound.tidy.wires n t M hM
  | sendInvitation i k x =>
    obtain ⟨rfl, hinv, -, r, -, hx, -⟩ := hsound
    exact ⟨T.node_length _ (T.invites_nodes _ hinv).1, hdrawn k List.mem_cons_self, hpeer _ _ _ hx⟩
  | acceptInvitation k m e =>
    obtain ⟨rfl, hinv, x, -, he⟩ := hsound
    exact ⟨hdrawn k List.mem_cons_self, T.node_length _ (T.invites_nodes _ hinv).2, hpeer _ _ _ he⟩

/-- What one step of the bytes does, the network of messages does in one step. -/
theorem Agrees.step (h : Agrees b s) (hr : Mage.Reachable T s) (hs : ByteNetwork.Step T b b') :
    ∃ s' l, Permitted T s l ∧ s.step l = .ok s' ∧ Agrees b' s' := by
  obtain ⟨process, stream, supply⟩ := b
  obtain ⟨rfl, rfl, hstream⟩ := h
  cases hs with
  | @quiet n τ c o hn allowed move hw =>
    refine ⟨s.apply n o, .of n τ c, next_permitted hn allowed, next_step move, rfl, rfl, ?_⟩
    rw [Network.apply_wire_none s n hw]
    exact hstream
  | @write n τ c o channel m stream' hn allowed move hw host hwrite =>
    have hp := next_permitted (τ := τ) hn allowed
    have hmem : m ∈ (s.apply n o).wire n channel :=
      (Network.mem_apply_wire s n o).2 (.inr ⟨rfl, hw⟩)
    have hnamed := wire_named (.step hr ⟨hp, trivial⟩ (next_step move)) hmem
    refine ⟨s.apply n o, .of n τ c, hp, next_step move, rfl, rfl, fun a t => ?_⟩
    rw [Network.apply_wire_some s n hw, upd_apply]
    simp only [upd_apply]
    split_ifs with hat
    · exact (hstream n channel).write hnamed hwrite
    · exact hstream a t
  | @read n channel m rest r hn idle watched host hread hm =>
    obtain ⟨Ms, hMs, hrest⟩ := (hstream channel n).read hread hm
    refine ⟨s.consume n channel r.channelMessage Ms, .read n channel, hn, ?_, rfl, rfl,
      fun a t => ?_⟩
    · have hidle : check ((s.process n).thread .io).isIdle Stop.blocked = .ok () :=
        check_eq_ok.2 (by rw [idle]; rfl)
      have hwatched : check (channel ∈ (s.process n).watchedSockets) Stop.blocked = .ok () :=
        check_eq_ok.2 watched
      simp only [Network.step, hidle, hwatched, ok_bind, hMs]
      rfl
    · rw [Network.consume_wire, upd_apply]
      simp only [upd_apply]
      split_ifs with hat
      · exact hrest
      · exact hstream a t

/-! ### Every run of messages that fit is a run of bytes -/

/-- Every message that is in a channel after the step fits in a buffer. -/
def KeepsFitting (s : Network) (l : Label) : Prop :=
  ∀ s', s.step l = .ok s' → ∀ n t M, .userMessage M ∈ s'.wire n t → Fits M

/-- A kernel that takes and gives what it is asked to. -/
def willing : Host := ⟨fun _ => 0, id, id⟩

/-- Nodes write names of the size of an identifier only. -/
theorem wire_sized (hr : Mage.Reachable T s) {t : Identifier} {M : Mage.Message}
    (hM : .userMessage M ∈ s.wire n t) : M.targetEndpoint.length = kIdentifierSize ∧
      ∀ d ∈ M.endpointsInMessage, Descriptor.Sized d := by
  have hnames := hr.sound.ports.names
  have hlinks := hr.sound.ports.links
  have registered : ∀ {a p}, s.ports.peer a = some p → a.nodeName.length = kIdentifierSize ∧
      a.endpointName.length = kIdentifierSize := by
    intro a p ha
    have hport : s.ports.port a ≠ none := fun hnone => by simp [Ports.peer, hnone] at ha
    obtain ⟨hn, hx⟩ := hnames.node a hport
    exact ⟨T.node_length _ hn, T.names_length _ hx⟩
  refine ⟨?_, fun d hd => ?_⟩
  · have haim : s.ports.Aimed n ⟨t, M.targetEndpoint⟩ := by
      refine hr.addressed.wire n t (M.letter t) (List.mem_flatMap.2 ⟨.userMessage M, ?_, ?_⟩)
      · exact List.mem_append_right _ hM
      · exact List.mem_singleton_self _
    rcases haim with ⟨x, hx⟩ | ⟨x, p, hx⟩
    · obtain ⟨q, hq, -⟩ := hlinks.mate x _ (.port hx)
      exact (registered hq).2
    · obtain ⟨q, -, hq⟩ := hlinks.onward _ _ (.proxy hx)
      generalize ha : (⟨t, M.targetEndpoint⟩ : Address) = a at hq
      cases hq with
      | port hq => exact (ha ▸ registered hq).2
      | crossing hd =>
        obtain ⟨-, heq⟩ := Address.mk.inj ha
        exact heq ▸ T.names_length _ (hnames.drawn _ _ hd _ rfl).1
  · have htok : .crossing t d ∈ s.ports.tokens (.wire n t) := by
      refine List.mem_flatMap.2 ⟨.userMessage M, hM, ?_⟩
      simpa [ChannelMessage.tokens] using hd
    have haged := hlinks.aged _ _ htok d rfl
    obtain ⟨q, hq, -⟩ := hlinks.mate _ _ (.crossing htok)
    obtain ⟨hnode, hname⟩ := registered hq
    refine ⟨T.names_length _ ?_, T.names_length _ (hnames.drawn _ _ htok _ rfl).1, hnode, hname⟩
    exact List.idxOf_lt_length_iff.1 (haged.trans_le List.idxOf_le_length)

/-- Whatever is in a socket, what fits can be written behind it. -/
theorem exists_write (hr : Mage.Reachable T s) {t : Identifier} {M : ChannelMessage}
    (hM : M ∈ s.wire n t) (hf : ∀ m, M = .userMessage m → Fits m) (stream : Stream) :
    ∃ stream', Channel.Writes willing stream stream' M := by
  have hnamed := wire_named hr hM
  cases M with
  | userMessage m =>
    obtain ⟨hname, hsized⟩ := wire_sized hr hM
    have henc := encode_encodes (hf m rfl) hname hsized
    have hspells := Encodes.spells (m := ⟨⟨0, encode m⟩, []⟩) henc hnamed
    exact ⟨_, ⟨⟨0, encode m⟩, []⟩, henc, Channel.sendMessage_eq (fun _ => rfl) hspells.finalized⟩
  | sendInvitation x y z =>
    obtain ⟨m, -, hfin, hsend, -⟩ := Sending.built_spec (h := willing) (x := .invitation x y z) hnamed
    exact ⟨_, (hsend stream).trans (Channel.sendMessage_eq (fun _ => rfl) hfin)⟩
  | acceptInvitation x y z =>
    obtain ⟨m, -, hfin, hsend, -⟩ :=
      Sending.built_spec (h := willing) (x := .acceptInvitation x y z) hnamed
    exact ⟨_, (hsend stream).trans (Channel.sendMessage_eq (fun _ => rfl) hfin)⟩

/-- The first message in a socket can be read. -/
theorem Holding.exists_read {M : ChannelMessage} {Ms : List ChannelMessage} {stream : Stream}
    (hh : Holding (M :: Ms) stream) : ∃ m rest r,
      Channel.onCanReadFromSocket willing stream = .ok (m, rest) ∧ Node.onReceivedMessage m = .ok r ∧
      r.channelMessage = M ∧ Holding Ms rest := by
  obtain ⟨ms, hms, rfl⟩ := hh
  cases hms with
  | @cons M m Ms ms hM hms =>
    rw [List.map_cons, List.flatten_cons]
    obtain ⟨r, hr, hM'⟩ := hM.read ⟨⟨willing.address m.bytes.length, m.bytes⟩, []⟩ rfl rfl
    exact ⟨_, _, r, Channel.onCanReadFromSocket_eq (fun _ => rfl) hM.finalized, hr, hM', ms, hms, rfl⟩

theorem step_next {s' : Network} {l : Label} (hs : s.step l = .ok s') :
    (∃ n τ c o, l = .of n τ c ∧ next (s.process n) τ s.supply c = .ok o ∧ s' = s.apply n o) ∨
    ∃ n channel, l = .read n channel := by
  cases l with
  | call n τ c =>
    simp only [Network.step, bind_eq_ok, pure_eq_ok] at hs
    obtain ⟨_, hi, o, hm, rfl⟩ := hs
    refine .inl ⟨n, τ, some c, o, rfl, ?_, rfl⟩
    rw [next, hi, ok_bind, hm]
  | run n τ =>
    simp only [Network.step, bind_eq_ok, pure_eq_ok] at hs
    obtain ⟨o, hm, rfl⟩ := hs
    exact .inl ⟨n, τ, none, o, rfl, hm, rfl⟩
  | read n channel => exact .inr ⟨n, channel, rfl⟩

theorem permitted_next (hp : Permitted T s (.of n τ c)) :
    n ∈ T.nodes ∧ ∀ c', c = some c' → Allowed T n (s.process n) c' := by
  cases c with
  | none => exact ⟨hp, by simp⟩
  | some c =>
    refine ⟨hp.1, ?_⟩
    rintro c' ⟨⟩
    exact hp.2

/-- What one step of the messages does, the network of bytes does in one step. -/
theorem Agrees.answer (h : Agrees b s) (hr : Mage.Reachable T s) {s' : Network} {l : Label}
    (hp : Permitted T s l) (hs : s.step l = .ok s') (hf : KeepsFitting s l) :
    ∃ b', ByteNetwork.Step T b b' ∧ Agrees b' s' := by
  obtain ⟨process, stream, supply⟩ := b
  obtain ⟨rfl, rfl, hstream⟩ := h
  rcases step_next hs with ⟨n, τ, c, o, rfl, hm, rfl⟩ | ⟨n, channel, rfl⟩
  · obtain ⟨hn, hallowed⟩ := permitted_next hp
    cases hw : o.written with
    | none =>
      refine ⟨_, .quiet hn hallowed hm hw, rfl, rfl, ?_⟩
      rw [Network.apply_wire_none s n hw]
      exact hstream
    | some w =>
      obtain ⟨channel, M⟩ := w
      have hr' : Mage.Reachable T (s.apply n o) := .step hr ⟨hp, trivial⟩ hs
      have hmem : M ∈ (s.apply n o).wire n channel :=
        (Network.mem_apply_wire s n o).2 (.inr ⟨rfl, hw⟩)
      have hfits : ∀ m, M = .userMessage m → Fits m := by
        rintro m rfl
        exact hf _ hs n channel m hmem
      obtain ⟨stream', hwrite⟩ := exists_write hr' hmem hfits (stream n channel)
      refine ⟨_, .write hn hallowed hm hw willing hwrite, rfl, rfl, fun a t => ?_⟩
      rw [Network.apply_wire_some s n hw, upd_apply]
      simp only [upd_apply]
      split_ifs with hat
      · exact (hstream n channel).write (wire_named hr' hmem) hwrite
      · exact hstream a t
  · rcases Network.advance hp hs with ⟨k, τ, c, o, heq, -⟩ | ⟨k, ch, M, rest, heq, hc, rfl⟩
    · cases c <;> cases heq
    · cases heq
      obtain ⟨m, rest', r, hread, hm, rfl, hrest⟩ := (hc.head ▸ hstream channel n).exists_read
      refine ⟨_, .read hp hc.idle hc.watched willing hread hm, rfl, rfl, fun a t => ?_⟩
      rw [Network.consume_wire, upd_apply]
      simp only [upd_apply]
      split_ifs with hat
      · exact hrest
      · exact hstream a t

/-- Whatever the kernel takes and gives and wherever buffers are, the processes of the bytes go through
    states that the network of messages reaches, and the bytes in their sockets spell its messages. The
    network of messages reaches no other states, as long as its messages fit in buffers. -/
theorem bytes_refine_messages (T : Topology) :
    (∀ b, ByteNetwork.Reachable T b → ∃ s, Mage.Reachable T s ∧ Agrees b s) ∧
    ∀ s, ReachableBy T KeepsFitting s → ∃ b, ByteNetwork.Reachable T b ∧ Agrees b s := by
  refine ⟨fun b hb => ?_, fun s hs => ?_⟩
  · induction hb with
    | initial => exact ⟨.initial T, .init, rfl, rfl, fun _ _ => ⟨[], .nil, rfl⟩⟩
    | step _ move ih =>
      obtain ⟨s, hr, ha⟩ := ih
      obtain ⟨s', l, hp, hs, ha'⟩ := ha.step hr move
      exact ⟨s', .step hr ⟨hp, trivial⟩ hs, ha'⟩
  · induction hs with
    | init => exact ⟨.initial T, .initial, rfl, rfl, fun _ _ => ⟨[], .nil, rfl⟩⟩
    | @step s s' l hs hok hstep ih =>
      obtain ⟨b, hb, ha⟩ := ih
      obtain ⟨b', hb', ha'⟩ := ha.answer (ReachableBy.reachable hs) hok.1 hstep hok.2
      exact ⟨b', .step hb hb', ha'⟩

end
end Mage.Wire
