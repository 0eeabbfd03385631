import Mage.Model.Network

/-! What a process can do in one step, once and for all: `Move` lists the outcomes of every call and
    of every thread step together with the conditions under which they happen, and `run_move` and
    `start_move` say that the functions of the model have no others. Invariants are proved by cases
    on `Move`. -/

namespace Mage
open Lib

namespace Core

/-- The core after a fresh handle and a fresh endpoint `x` were registered together. -/
def enroll (c : Core) (x : Identifier) (peer : Address) : Core :=
  { c with
    handleTable := insertHandle c.nextAvailableHandle x c.handleTable
    nextAvailableHandle := c.nextAvailableHandle + 1
    localEndpoints := c.localEndpoints.set x (.new x peer) }

section
variable (c : Core) (x : Identifier) (a : Address)

@[simp] theorem enroll_localEndpoints :
    (c.enroll x a).localEndpoints = c.localEndpoints.set x (.new x a) := rfl
@[simp] theorem enroll_name : (c.enroll x a).name = c.name := rfl
@[simp] theorem enroll_hasAcceptedInvitation :
    (c.enroll x a).hasAcceptedInvitation = c.hasAcceptedInvitation := rfl
@[simp] theorem enroll_nodeChannelMap : (c.enroll x a).nodeChannelMap = c.nodeChannelMap := rfl
@[simp] theorem enroll_pendingInvitations :
    (c.enroll x a).pendingInvitations = c.pendingInvitations := rfl
@[simp] theorem enroll_handleTable :
    (c.enroll x a).handleTable = insertHandle c.nextAvailableHandle x c.handleTable := rfl
@[simp] theorem enroll_nextAvailableHandle :
    (c.enroll x a).nextAvailableHandle = c.nextAvailableHandle + 1 := rfl
@[simp] theorem enroll_remoteHasAcceptedInvitationCallback :
    (c.enroll x a).remoteHasAcceptedInvitationCallback = c.remoteHasAcceptedInvitationCallback := rfl

end

theorem endpoint_eq_ok {c : Core} {x : Identifier} {k : Check} {e : Endpoint} :
    c.endpoint x k = .ok e ↔ c.localEndpoints.find x = some e := by
  simp [endpoint]

theorem registerLocalHandleAndEndpoint_eq {c c' : Core} {h : MessagePipe} {e : Endpoint}
    (hr : c.registerLocalHandleAndEndpoint h e = .ok c') :
    c.findHandle h = none ∧ c.localEndpoints.find e.name = none ∧
    c' = { c with
      handleTable := insertHandle h e.name c.handleTable
      localEndpoints := c.localEndpoints.set e.name e } := by
  simp only [registerLocalHandleAndEndpoint, registerEndpoint, bind_eq_ok, check_eq_ok,
    pure_eq_ok] at hr
  obtain ⟨_, hh, _, he, rfl⟩ := hr
  exact ⟨hh, he, by rw [Table.insert_of_absent he]⟩

/-- Creating a pipe enrolls two endpoints, each the other's peer. -/
theorem createMessagePipesAndGetEndpoints_eq {c c' : Core} {x y : Identifier} {h₁ h₂ : MessagePipe}
    (hc : c.createMessagePipesAndGetEndpoints x y = .ok (h₁, h₂, c')) :
    c.localEndpoints.find x = none ∧ c.localEndpoints.find y = none ∧ x ≠ y ∧
    c.findHandle c.nextAvailableHandle = none ∧
    (c.enroll x ⟨c.name, y⟩).findHandle (c.nextAvailableHandle + 1) = none ∧
    h₁ = c.nextAvailableHandle ∧ h₂ = c.nextAvailableHandle + 1 ∧
    c' = (c.enroll x ⟨c.name, y⟩).enroll y ⟨c.name, x⟩ := by
  simp only [createMessagePipesAndGetEndpoints, initializeAndEntangleEndpoints, getNextMessagePipe,
    bind_eq_ok, check_eq_ok, pure_eq_ok, Prod.mk.injEq] at hc
  obtain ⟨_, h1, _, h2, _, -, _, -, rfl, rfl, rfl⟩ := hc
  obtain ⟨hh1, hx, rfl⟩ := registerLocalHandleAndEndpoint_eq h1
  obtain ⟨hh2, hy, rfl⟩ := registerLocalHandleAndEndpoint_eq h2
  simp only [Endpoint.new, Table.find_set] at hx hy hh2
  have hyx : y ≠ x := by
    rintro rfl
    simp at hy
  rw [if_neg hyx] at hy
  exact ⟨hx, hy, hyx.symm, hh1, hh2, rfl, rfl, rfl⟩

theorem recoverNewMessagePipeFromEndpointDescriptor_eq {c c' : Core} {d : EndpointDescriptor}
    {h : MessagePipe} (hr : c.recoverNewMessagePipeFromEndpointDescriptor d = .ok (h, c')) :
    c.localEndpoints.find d.crossNodeEndpointName = none ∧
    c.findHandle c.nextAvailableHandle = none ∧ h = c.nextAvailableHandle ∧
    c' = c.enroll d.crossNodeEndpointName d.peerAddress := by
  simp only [recoverNewMessagePipeFromEndpointDescriptor, getNextMessagePipe, bind_eq_ok,
    pure_eq_ok, Prod.mk.injEq] at hr
  obtain ⟨_, h1, rfl, rfl⟩ := hr
  obtain ⟨hh, he, rfl⟩ := registerLocalHandleAndEndpoint_eq h1
  exact ⟨he, hh, rfl, rfl⟩

theorem populateEndpointDescriptor_eq {c : Core} {x carrier name : Identifier}
    {d : EndpointDescriptor} (h : c.populateEndpointDescriptor x carrier name = .ok d) :
    ∃ e, c.localEndpoints.find x = some e ∧
      d = ⟨e.name, name, e.peerAddress.nodeName, e.peerAddress.endpointName⟩ := by
  simp only [populateEndpointDescriptor, bind_eq_ok, check_eq_ok, endpoint_eq_ok, pure_eq_ok] at h
  obtain ⟨_, -, _, -, e, he, rfl⟩ := h
  exact ⟨e, he, rfl⟩

/-- Queueing the pipes of the descriptors `ds` on `m` changes nothing else of `m`. -/
theorem queueExistingPipes_eq {c : Core} {ds : List EndpointDescriptor} {m m' : Message}
    (h : c.queueExistingPipes m ds = .ok m') :
    ∃ pipes, m' = { m with pipes := m.pipes ++ pipes } ∧
      List.Forall₂ (fun h d => c.recoverExistingMessagePipeFromEndpointDescriptor d = .ok h)
        pipes ds := by
  induction ds generalizing m with
  | nil =>
    simp only [queueExistingPipes, pure_eq_ok] at h
    exact ⟨[], by simp [h], .nil⟩
  | cons d ds ih =>
    simp only [queueExistingPipes, bind_eq_ok] at h
    obtain ⟨pipe, hp, h⟩ := h
    obtain ⟨pipes, rfl, hall⟩ := ih h
    exact ⟨pipe :: pipes, by simp [Message.queuePipe], .cons hp hall⟩

end Core

namespace Process

/-- A process whose core enrolled one more endpoint. -/
def enroll (p : Process) (x : Identifier) (peer : Address) : Process :=
  { p with toCore := p.toCore.enroll x peer }

section
variable (p : Process) (x : Identifier) (a : Address)

@[simp] theorem enroll_toCore : (p.enroll x a).toCore = p.toCore.enroll x a := rfl
@[simp] theorem enroll_thread : (p.enroll x a).thread = p.thread := rfl
@[simp] theorem enroll_lock : (p.enroll x a).lock = p.lock := rfl
@[simp] theorem enroll_watchedSockets : (p.enroll x a).watchedSockets = p.watchedSockets := rfl
@[simp] theorem enroll_held : (p.enroll x a).held = p.held := rfl
@[simp] theorem enroll_arrivals : (p.enroll x a).arrivals = p.arrivals := rfl
@[simp] theorem enroll_invitations : (p.enroll x a).invitations = p.invitations := rfl
@[simp] theorem enroll_reservations : (p.enroll x a).reservations = p.reservations := rfl

end

theorem acquire_eq {p p' : Process} {τ : ThreadId} {x : Identifier} :
    p.acquire τ x = .ok p' ↔ p.lock x = none ∧ p' = p.setLock x (some τ) := by
  simp only [acquire, bind_eq_ok, check_eq_ok, pure_eq_ok]
  constructor
  · rintro ⟨-, h, rfl⟩
    exact ⟨h, rfl⟩
  · rintro ⟨h, rfl⟩
    exact ⟨(), h, rfl⟩

theorem channelTo_eq {p : Process} {n : Identifier} {c : Channel} :
    p.channelTo n = .ok c ↔ p.nodeChannelMap.find n = some c := by
  simp [channelTo]

/-- The steps of thread `τ` of process `p`, with `supply` left to draw from: those of a thread under
    way (`none`) and the first steps of calls (`some c`). -/
inductive Move (p : Process) (τ : ThreadId) (supply : List Identifier) :
    Option Call → Outcome → Prop where
  -- calls
  | createMessagePipes {x y : Identifier} {rest : List Identifier}
      (hs : supply = x :: y :: rest) (hx : p.localEndpoints.find x = none)
      (hy : p.localEndpoints.find y = none) (hxy : x ≠ y)
      (hf₁ : p.findHandle p.nextAvailableHandle = none)
      (hf₂ : (p.toCore.enroll x ⟨p.name, y⟩).findHandle (p.nextAvailableHandle + 1) = none) :
      Move p τ supply (some .createMessagePipes)
        ⟨{ (p.enroll x ⟨p.name, y⟩).enroll y ⟨p.name, x⟩ with held := p.held ++ [x, y] }, rest,
          none, none⟩
  | sendMessage {h : MessagePipe} {id : ℤ} {body : List UInt8} {pipes : List MessagePipe}
      {x : Identifier} {xs : List Identifier}
      (hx : p.findHandle h = some x) (hxs : pipes.mapM p.findHandle = some xs) :
      Move p τ supply (some (.sendMessage h id body pipes))
        ⟨{ p with held := p.held.filter (· ∉ xs) }.goto τ
          (.populating x ⟨id, [], [], body, []⟩ xs), supply, none, none⟩
  | bindReceiver {h : MessagePipe} {delegate taskRunner : ℕ} {x : Identifier} {e : Endpoint}
      (hx : p.findHandle h = some x) (he : p.localEndpoints.find x = some e)
      (hl : p.lock x = none) (hq : e.state = .kUnboundAndQueueing) (hd : e.delegate = none) :
      Move p τ supply (some (.bindReceiverDelegateToEndpoint h delegate taskRunner))
        ⟨({ p.setLock x (some τ) with
            held := p.held ++ e.incomingMessageQueue.flatMap p.endpointsOf }.setEndpoint x
          { e with
            state := .kBound, delegate := some delegate, delegateTaskRunner := some taskRunner,
            incomingMessageQueue := [], posted := e.posted ++ e.incomingMessageQueue }).release x,
          supply, none, none⟩
  | sendInvitation {fd : Channel} {callback : Option Callback} :
      Move p τ supply (some (.sendInvitationAndGetMessagePipe fd callback))
        ⟨{ p with
            remoteHasAcceptedInvitationCallback := callback
            invitations := p.invitations ++ [InvitationEvent.sent fd callback] }.goto τ
          (.inviting fd), supply, none, none⟩
  | acceptInvitation {fd : Channel} {callback : Callback} (ha : p.hasAcceptedInvitation = false) :
      Move p τ supply (some (.acceptInvitation fd callback))
        ⟨{ p with
            finishedAcceptingInvitationCallback := some callback
            nodeChannelMap := p.nodeChannelMap.insert kInitialChannelName fd
            watchedSockets := fd :: p.watchedSockets
            hasAcceptedInvitation := true }, supply, none, none⟩
  -- `Node::SendMessage`
  | populated {x : Identifier} {m : Message} (ht : p.thread τ = .populating x m []) :
      Move p τ supply none
        ⟨p.goto τ (.checking x m m.endpointsInMessage), supply, none, none⟩
  | populate {x y name : Identifier} {m : Message} {ys rest : List Identifier} {e : Endpoint}
      (ht : p.thread τ = .populating x m (y :: ys)) (hs : supply = name :: rest)
      (he : p.localEndpoints.find y = some e) :
      Move p τ supply none
        ⟨p.goto τ (.populating x { m with endpointsInMessage := m.endpointsInMessage ++
            [⟨e.name, name, e.peerAddress.nodeName, e.peerAddress.endpointName⟩] } ys), rest,
          none, none⟩
  | checkSent {x : Identifier} {m : Message} {d : EndpointDescriptor}
      {ds : List EndpointDescriptor} {e : Endpoint} (ht : p.thread τ = .checking x m (d :: ds))
      (he : p.localEndpoints.find d.endpointName = some e) (hl : p.lock d.endpointName = none)
      (hb : e.state ≠ .kBound) :
      Move p τ supply none
        ⟨((p.setLock d.endpointName (some τ)).release d.endpointName).goto τ (.checking x m ds),
          supply, none, none⟩
  | routeRemote {x : Identifier} {m : Message} {e : Endpoint} {channel : Channel}
      (ht : p.thread τ = .checking x m []) (he : p.localEndpoints.find x = some e)
      (hp : p.localEndpoints.find e.peerAddress.endpointName = none)
      (hc : p.nodeChannelMap.find e.peerAddress.nodeName = some channel)
      (hlen : e.peerAddress.endpointName.length = kIdentifierSize) :
      Move p τ supply none
        ⟨p.goto τ (.unlocking ⟨e.peerAddress.nodeName, [m.retarget e.peerAddress.endpointName],
          .sendMessage⟩ []), supply, none, some (e.peerAddress, m.payload)⟩
  | routeLocal {x : Identifier} {m : Message} {e peer : Endpoint}
      (ht : p.thread τ = .checking x m []) (he : p.localEndpoints.find x = some e)
      (hp : p.localEndpoints.find e.peerAddress.endpointName = some peer)
      (hc : p.nodeChannelMap.find e.peerAddress.nodeName = none)
      (hlen : e.peerAddress.endpointName.length = kIdentifierSize) :
      Move p τ supply none
        ⟨p.goto τ (.delivering e.peerAddress.endpointName (m.retarget e.peerAddress.endpointName)),
          supply, none, some (e.peerAddress, m.payload)⟩
  | deliverToProxy {x : Identifier} {m : Message} {e : Endpoint}
      (ht : p.thread τ = .delivering x m) (he : p.localEndpoints.find x = some e)
      (hl : p.lock x = none) (hq : e.state = .kUnboundAndProxying) :
      Move p τ supply none
        ⟨((p.setLock x (some τ)).recordArrival x e m).goto τ
          (.unlocking ⟨e.proxyTarget.nodeName, [m.retarget e.proxyTarget.endpointName],
            .sendMessageToProxy x⟩ []), supply, none, none⟩
  | deliver {x : Identifier} {m : Message} {e e' : Endpoint} {pipes : List MessagePipe}
      (ht : p.thread τ = .delivering x m) (he : p.localEndpoints.find x = some e)
      (hl : p.lock x = none)
      (hr : List.Forall₂
        (fun h d => p.recoverExistingMessagePipeFromEndpointDescriptor d = .ok h)
        pipes m.endpointsInMessage)
      (ha : e.acceptMessage { m with pipes := m.pipes ++ pipes } = .ok e') :
      Move p τ supply none
        ⟨((((p.setLock x (some τ)).recordArrival x e { m with pipes := m.pipes ++ pipes }).setEndpoint
          x e').release x).goto τ .idle, supply, none, none⟩
  -- `SendMessagesAndRecursiveDependents`
  | take {b : Batch} {m : Message} {done ds : List EndpointDescriptor} {d : EndpointDescriptor}
      {e : Endpoint} (ht : p.thread τ = .sending b m done (d :: ds))
      (he : p.localEndpoints.find d.endpointName = some e) (hl : p.lock d.endpointName = none)
      (hd : e.delegate = none) (hq : e.state = .kUnboundAndQueueing) :
      Move p τ supply none
        ⟨((p.setLock d.endpointName (some τ)).setEndpoint d.endpointName
          { e with
            incomingMessageQueue := [], state := .kUnboundAndProxying,
            proxyTarget := ⟨b.targetNodeName, d.crossNodeEndpointName⟩ }).goto τ
          (.sending { b with messagesToSend := b.messagesToSend ++
            e.incomingMessageQueue.map (·.retarget d.crossNodeEndpointName) } m (done ++ [d]) ds),
          supply, none, none⟩
  | write {b : Batch} {m : Message} {done : List EndpointDescriptor} {channel : Channel}
      (ht : p.thread τ = .sending b m done [])
      (hc : p.nodeChannelMap.find b.targetNodeName = some channel) :
      Move p τ supply none
        ⟨p.goto τ (.unlocking b (done.map (·.endpointName))), supply,
          some (channel, .userMessage m.buffer), none⟩
  | unlock {b : Batch} {x : Identifier} {xs : List Identifier}
      (ht : p.thread τ = .unlocking b (x :: xs)) :
      Move p τ supply none ⟨(p.release x).goto τ (.unlocking b xs), supply, none, none⟩
  | next {b : Batch} {m : Message} {ms : List Message} (ht : p.thread τ = .unlocking b [])
      (hm : b.messagesToSend = m :: ms) :
      Move p τ supply none
        ⟨p.goto τ (.sending { b with messagesToSend := ms } m [] m.endpointsInMessage), supply,
          none, none⟩
  | sent {b : Batch} (ht : p.thread τ = .unlocking b []) (hm : b.messagesToSend = [])
      (hb : b.caller = .sendMessage) :
      Move p τ supply none ⟨p.goto τ .idle, supply, none, none⟩
  | sentToProxy {b : Batch} {x : Identifier} (ht : p.thread τ = .unlocking b [])
      (hm : b.messagesToSend = []) (hb : b.caller = .sendMessageToProxy x) :
      Move p τ supply none ⟨(p.release x).goto τ .idle, supply, none, none⟩
  | drained {b : Batch} {r : Identifier} {c : Channel} (ht : p.thread τ = .unlocking b [])
      (hm : b.messagesToSend = []) (hb : b.caller = .onReceivedAcceptInvitation r c) :
      Move p τ supply none ⟨(p.release r).goto τ (.acknowledged c), supply, none, none⟩
  -- `Node::OnReceivedUserMessage`
  | receive {m : Message} {e : Endpoint} (ht : p.thread τ = .receiving m)
      (he : p.localEndpoints.find m.targetEndpoint = some e) (hl : p.lock m.targetEndpoint = none) :
      Move p τ supply none
        ⟨(p.setLock m.targetEndpoint (some τ)).goto τ
          (.recovering m.targetEndpoint m [] m.endpointsInMessage), supply, none, none⟩
  | recover {x : Identifier} {m : Message} {d : EndpointDescriptor}
      {done ds : List EndpointDescriptor} (ht : p.thread τ = .recovering x m done (d :: ds))
      (hd : p.localEndpoints.find d.crossNodeEndpointName = none)
      (hf : p.findHandle p.nextAvailableHandle = none) :
      Move p τ supply none
        ⟨(p.enroll d.crossNodeEndpointName d.peerAddress).goto τ
          (.recovering x (m.queuePipe p.nextAvailableHandle) (done ++ [d]) ds), supply, none, none⟩
  | relay {x : Identifier} {m : Message} {done : List EndpointDescriptor} {e : Endpoint}
      (ht : p.thread τ = .recovering x m done [])
      (he : p.localEndpoints.find x = some e) (hq : e.state = .kUnboundAndProxying)
      (hn : e.proxyTarget.nodeName ≠ p.name) :
      Move p τ supply none
        ⟨(p.recordArrival x e m).goto τ (.forwarding x e.proxyTarget.nodeName
          (m.retarget e.proxyTarget.endpointName) [] m.endpointsInMessage), supply, none, none⟩
  | dispatch {x : Identifier} {m : Message} {done : List EndpointDescriptor} {e e' : Endpoint}
      (ht : p.thread τ = .recovering x m done []) (he : p.localEndpoints.find x = some e)
      (ha : e.acceptMessage m = .ok e') :
      Move p τ supply none
        ⟨((p.recordArrival x e m).setEndpoint x e').goto τ (.releasing x), supply, none, none⟩
  | forward {x n name : Identifier} {m : Message} {done ds : List EndpointDescriptor}
      {d : EndpointDescriptor} {rest : List Identifier} {e : Endpoint}
      (ht : p.thread τ = .forwarding x n m done (d :: ds)) (hs : supply = name :: rest)
      (he : p.localEndpoints.find d.crossNodeEndpointName = some e)
      (hq : e.state = .kUnboundAndQueueing) :
      Move p τ supply none
        ⟨(p.setEndpoint d.crossNodeEndpointName
          { e with state := .kUnboundAndProxying, proxyTarget := ⟨n, name⟩ }).goto τ
          (.forwarding x n m (done ++ [{ d with
            endpointName := d.crossNodeEndpointName, crossNodeEndpointName := name }]) ds), rest,
          none, none⟩
  | writeForwarded {x n : Identifier} {m : Message} {done : List EndpointDescriptor}
      {channel : Channel} (ht : p.thread τ = .forwarding x n m done [])
      (hc : p.nodeChannelMap.find n = some channel) :
      Move p τ supply none
        ⟨p.goto τ (.releasing x), supply,
          some (channel, .userMessage { m with endpointsInMessage := done }.buffer), none⟩
  | releaseTarget {x : Identifier} (ht : p.thread τ = .releasing x) :
      Move p τ supply none ⟨(p.release x).goto τ .idle, supply, none, none⟩
  -- `Node::OnReceivedInvitation`
  | rekeyInitial {i t x : Identifier} {channel : Channel} (ht : p.thread τ = .invited i t x)
      (hc : p.nodeChannelMap.find kInitialChannelName = some channel) :
      Move p τ supply none
        ⟨{ p with nodeChannelMap :=
            (p.nodeChannelMap.erase kInitialChannelName).insert i channel }.goto τ
          (.accepting i t x), supply, none, none⟩
  | accept {i t x name : Identifier} {rest : List Identifier}
      (ht : p.thread τ = .accepting i t x) (hs : supply = name :: rest) :
      Move p τ supply none
        ⟨{ p with localEndpoints := p.localEndpoints.insert name (.new name ⟨i, x⟩) }.goto τ
          (.replying i t name), rest, none, none⟩
  | reply {i t x : Identifier} {channel : Channel} (ht : p.thread τ = .replying i t x)
      (hc : p.nodeChannelMap.find i = some channel) :
      Move p τ supply none
        ⟨p.goto τ (.accepted x), supply, some (channel, .acceptInvitation t p.name x), none⟩
  | accepted {x : Identifier} (ht : p.thread τ = .accepted x)
      (hc : p.finishedAcceptingInvitationCallback.isSome) :
      Move p τ supply none
        ⟨{ p with
            handleTable := Core.insertHandle p.nextAvailableHandle x p.handleTable
            nextAvailableHandle := p.nextAvailableHandle + 1
            held := if (p.findHandle p.nextAvailableHandle).isNone then p.held ++ [x]
              else p.held }.goto τ .idle, supply, none, none⟩
  -- `Node::OnReceivedAcceptInvitation`
  | acknowledge {t n x r : Identifier} (ht : p.thread τ = .acknowledging t n x)
      (hr : p.pendingInvitations.find t = some r) :
      Move p τ supply none
        ⟨{ p with pendingInvitations := p.pendingInvitations.erase t }.goto τ
          (.reserving r t n x), supply, none, none⟩
  | reserve {t n x r : Identifier} {e : Endpoint} (ht : p.thread τ = .reserving r t n x)
      (he : p.localEndpoints.find r = some e) (hl : p.lock r = none)
      (hq : e.state = .kUnboundAndQueueing) :
      Move p τ supply none
        ⟨((p.setLock r (some τ)).setEndpoint r
          { e with state := .kUnboundAndProxying, proxyTarget := ⟨n, x⟩ }).goto τ
          (.rekeying r t n), supply, none, none⟩
  | rekey {r t n : Identifier} {channel : Channel} (ht : p.thread τ = .rekeying r t n)
      (hc : p.nodeChannelMap.find t = some channel) :
      Move p τ supply none
        ⟨{ p with nodeChannelMap := (p.nodeChannelMap.erase t).insert n channel }.goto τ
          (.draining r channel), supply, none, none⟩
  | drain {r : Identifier} {channel : Channel} {e : Endpoint}
      (ht : p.thread τ = .draining r channel) (he : p.localEndpoints.find r = some e)
      (hd : e.delegate = none) :
      Move p τ supply none
        ⟨(p.setEndpoint r { e with incomingMessageQueue := [] }).goto τ
          (.unlocking ⟨e.proxyTarget.nodeName,
            e.incomingMessageQueue.map (·.retarget e.proxyTarget.endpointName),
            .onReceivedAcceptInvitation r channel⟩ []), supply, none, none⟩
  | acknowledged {channel : Channel} (ht : p.thread τ = .acknowledged channel) :
      Move p τ supply none
        ⟨{ p with
            remoteHasAcceptedInvitationCallback := none
            invitations := p.invitations ++
              [InvitationEvent.accepted channel p.remoteHasAcceptedInvitationCallback] }.goto τ
          .idle, supply, none, none⟩
  -- `Node::SendInvitationAndGetMessagePipe`
  | invite {channel : Channel} {x y : Identifier} {rest : List Identifier}
      (ht : p.thread τ = .inviting channel) (hs : supply = x :: y :: rest)
      (hx : p.localEndpoints.find x = none) (hy : p.localEndpoints.find y = none) (hxy : x ≠ y)
      (hf₁ : p.findHandle p.nextAvailableHandle = none)
      (hf₂ : (p.toCore.enroll x ⟨p.name, y⟩).findHandle (p.nextAvailableHandle + 1) = none) :
      Move p τ supply none
        ⟨((p.enroll x ⟨p.name, y⟩).enroll y ⟨p.name, x⟩).goto τ (.creatingChannel channel x y),
          rest, none, none⟩
  | createChannel {channel : Channel} {l r t : Identifier} {rest : List Identifier}
      (ht : p.thread τ = .creatingChannel channel l r) (hs : supply = t :: rest) :
      Move p τ supply none
        ⟨{ p with
            nodeChannelMap := p.nodeChannelMap.insert t channel
            reservations := p.reservations ++ [Reservation.mk channel t r] }.goto τ
          (.insertingPending l r t), rest, none, none⟩
  | insertPending {l r t : Identifier} (ht : p.thread τ = .insertingPending l r t) :
      Move p τ supply none
        ⟨{ p with pendingInvitations := p.pendingInvitations.insert t r }.goto τ
          (.startingChannel l r t), supply, none, none⟩
  | startChannel {l r t : Identifier} {channel : Channel} {e : Endpoint}
      (ht : p.thread τ = .startingChannel l r t) (hc : p.nodeChannelMap.find t = some channel)
      (he : p.localEndpoints.find r = some e) :
      Move p τ supply none
        ⟨{ p with
            watchedSockets := channel :: p.watchedSockets
            held := p.held ++ [l] }.goto τ .idle, supply,
          some (channel, .sendInvitation p.name t e.peerAddress.endpointName), none⟩

variable {p : Process} {τ : ThreadId} {supply : List Identifier} {o : Outcome}

/-- An idle thread makes no step of its own. -/
theorem Move.not_idle (h : p.Move τ supply none o) : p.thread τ ≠ .idle := by
  cases h <;> simp_all

theorem randomIdentifier_eq {x : Identifier} {rest : List Identifier} :
    randomIdentifier supply = .ok (x, rest) ↔ supply = x :: rest := by
  cases supply <;> simp [randomIdentifier]

theorem populate_move {x : Identifier} {m : Message} {ys : List Identifier}
    (ht : p.thread τ = .populating x m ys) (h : p.populate τ supply x m ys = .ok o) :
    Move p τ supply none o := by
  cases ys with
  | nil =>
    simp only [populate, pure_eq_ok] at h
    exact h ▸ .populated ht
  | cons y ys =>
    simp only [populate, bind_eq_ok, Prod.exists, randomIdentifier_eq, pure_eq_ok] at h
    obtain ⟨name, rest, hs, d, hd, rfl⟩ := h
    obtain ⟨e, he, rfl⟩ := Core.populateEndpointDescriptor_eq hd
    exact .populate ht hs he

theorem checkOrRoute_move {x : Identifier} {m : Message} {ds : List EndpointDescriptor}
    (ht : p.thread τ = .checking x m ds) (h : p.checkOrRoute τ supply x m ds = .ok o) :
    Move p τ supply none o := by
  cases ds with
  | cons d ds =>
    simp only [checkOrRoute, bind_eq_ok, Core.endpoint_eq_ok, acquire_eq, check_eq_ok,
      pure_eq_ok] at h
    obtain ⟨e, he, _, ⟨hl, rfl⟩, _, hb, rfl⟩ := h
    exact .checkSent ht he hl hb
  | nil =>
    simp only [checkOrRoute, bind_eq_ok, Core.endpoint_eq_ok, check_eq_ok] at h
    obtain ⟨e, he, _, hr, _, hlen, h⟩ := h
    cases hp : p.localEndpoints.find e.peerAddress.endpointName with
    | none =>
      cases hc : p.nodeChannelMap.find e.peerAddress.nodeName with
      | none => simp [hp, hc] at hr
      | some channel =>
        simp only [hp, Option.isNone_none, if_true, pure_eq_ok] at h
        exact h ▸ .routeRemote ht he hp hc hlen
    | some peer =>
      cases hc : p.nodeChannelMap.find e.peerAddress.nodeName with
      | some channel => simp [hp, hc] at hr
      | none =>
        simp only [hp, Option.isNone_some, Bool.false_eq_true, if_false, pure_eq_ok] at h
        exact h ▸ .routeLocal ht he hp hc hlen

theorem deliver_move {x : Identifier} {m : Message} (ht : p.thread τ = .delivering x m)
    (h : p.deliver τ supply x m = .ok o) : Move p τ supply none o := by
  simp only [deliver, bind_eq_ok, Core.endpoint_eq_ok, acquire_eq] at h
  obtain ⟨e, he, _, ⟨hl, rfl⟩, h⟩ := h
  by_cases hq : e.state = .kUnboundAndProxying
  · simp only [hq, pure_eq_ok] at h
    exact h ▸ .deliverToProxy ht he hl hq
  · have h : ∃ m' e', (p.setLock x (some τ)).acceptMessageOnDelegateThread e m = .ok (m', e') ∧
        ⟨((((p.setLock x (some τ)).recordArrival x e m').setEndpoint x e').release x).goto τ .idle,
          supply, none, none⟩ = o := by
      cases hs : e.state <;> simp_all
    obtain ⟨m', e', hm, rfl⟩ := h
    simp only [Core.acceptMessageOnDelegateThread, bind_eq_ok, pure_eq_ok, Prod.mk.injEq] at hm
    obtain ⟨_, -, _, hq, _, ha, rfl, rfl⟩ := hm
    obtain ⟨pipes, rfl, hr⟩ := Core.queueExistingPipes_eq hq
    exact .deliver ht he hl hr ha

theorem sendNext_move {b : Batch} {m : Message} {done ds : List EndpointDescriptor}
    (ht : p.thread τ = .sending b m done ds) (h : p.sendNext τ supply b m done ds = .ok o) :
    Move p τ supply none o := by
  cases ds with
  | cons d ds =>
    simp only [sendNext, bind_eq_ok, Core.endpoint_eq_ok, acquire_eq, Prod.exists, pure_eq_ok] at h
    obtain ⟨e, he, _, ⟨hl, rfl⟩, ms, e₁, h₁, e₂, h₂, rfl⟩ := h
    obtain ⟨hd, rfl, rfl⟩ := Endpoint.takeQueuedMessages_eq h₁
    obtain ⟨hq, rfl⟩ := Endpoint.setProxying_eq h₂
    exact .take ht he hl hd hq
  | nil =>
    simp only [sendNext, bind_eq_ok, channelTo_eq, pure_eq_ok] at h
    obtain ⟨channel, hc, rfl⟩ := h
    exact .write ht hc

theorem unlockNext_move {b : Batch} {xs : List Identifier}
    (ht : p.thread τ = .unlocking b xs) (h : p.unlockNext τ supply b xs = .ok o) :
    Move p τ supply none o := by
  cases xs with
  | cons x xs =>
    simp only [unlockNext, pure_eq_ok] at h
    exact h ▸ .unlock ht
  | nil =>
    cases hm : b.messagesToSend with
    | cons m ms =>
      simp only [unlockNext, hm, pure_eq_ok] at h
      exact h ▸ .next ht hm
    | nil =>
      cases hb : b.caller <;> simp only [unlockNext, hm, hb, pure_eq_ok] at h
      · exact h ▸ .sent ht hm hb
      · exact h ▸ .sentToProxy ht hm hb
      · exact h ▸ .drained ht hm hb

theorem recoverNext_move {x : Identifier} {m : Message} {done ds : List EndpointDescriptor}
    (ht : p.thread τ = .recovering x m done ds) (h : p.recoverNext τ supply x m done ds = .ok o) :
    Move p τ supply none o := by
  cases ds with
  | cons d ds =>
    simp only [recoverNext, bind_eq_ok, Prod.exists, pure_eq_ok] at h
    obtain ⟨pipe, core, h, rfl⟩ := h
    obtain ⟨hd, hf, rfl, rfl⟩ := Core.recoverNewMessagePipeFromEndpointDescriptor_eq h
    exact .recover ht hd hf
  | nil =>
    simp only [recoverNext, bind_eq_ok, Core.endpoint_eq_ok] at h
    obtain ⟨e, he, h⟩ := h
    by_cases hq : e.state = .kUnboundAndProxying
    · simp only [hq, bind_eq_ok, check_eq_ok, pure_eq_ok] at h
      obtain ⟨_, hn, rfl⟩ := h
      exact .relay ht he hq hn
    · have h : ∃ e', e.acceptMessageOnIOThread m = .ok e' ∧
          ⟨((p.recordArrival x e m).setEndpoint x e').goto τ (.releasing x), supply, none, none⟩ =
            o := by
        cases hs : e.state <;> simp_all
      obtain ⟨e', hm, rfl⟩ := h
      simp only [Endpoint.acceptMessageOnIOThread, bind_eq_ok] at hm
      obtain ⟨_, -, ha⟩ := hm
      exact .dispatch ht he ha

theorem forwardNext_move {x n : Identifier} {m : Message} {done ds : List EndpointDescriptor}
    (ht : p.thread τ = .forwarding x n m done ds)
    (h : p.forwardNext τ supply x n m done ds = .ok o) : Move p τ supply none o := by
  cases ds with
  | cons d ds =>
    simp only [forwardNext, bind_eq_ok, Core.endpoint_eq_ok, Prod.exists, randomIdentifier_eq,
      pure_eq_ok] at h
    obtain ⟨e, he, name, rest, hs, e', h, rfl⟩ := h
    obtain ⟨hq, rfl⟩ := Endpoint.setProxying_eq h
    exact .forward ht hs he hq
  | nil =>
    simp only [forwardNext, bind_eq_ok, channelTo_eq, pure_eq_ok] at h
    obtain ⟨channel, hc, rfl⟩ := h
    exact .writeForwarded ht hc

theorem invitation_move (h : p.run τ supply = .ok o) :
    (∀ i t x, p.thread τ = .invited i t x → Move p τ supply none o) ∧
    (∀ i t x, p.thread τ = .accepting i t x → Move p τ supply none o) ∧
    (∀ i t x, p.thread τ = .replying i t x → Move p τ supply none o) ∧
    (∀ x, p.thread τ = .accepted x → Move p τ supply none o) := by
  refine ⟨fun i t x ht => ?_, fun i t x ht => ?_, fun i t x ht => ?_, fun x ht => ?_⟩
  · simp only [run, ht, rekeyInitial, bind_eq_ok, orFail_eq_ok, pure_eq_ok] at h
    obtain ⟨channel, hc, rfl⟩ := h
    exact .rekeyInitial ht hc
  · simp only [run, ht, accept, bind_eq_ok, Prod.exists, randomIdentifier_eq, pure_eq_ok] at h
    obtain ⟨name, rest, hs, rfl⟩ := h
    exact .accept ht hs
  · simp only [run, ht, reply, bind_eq_ok, channelTo_eq, pure_eq_ok] at h
    obtain ⟨channel, hc, rfl⟩ := h
    exact .reply ht hc
  · simp only [run, ht, onReceivedInvitation, Core.getNextMessagePipe, bind_eq_ok, pure_eq_ok] at h
    obtain ⟨_, hc, rfl⟩ := h
    exact .accepted ht (check_eq_ok.1 hc)

theorem acceptance_move (h : p.run τ supply = .ok o) :
    (∀ t n x, p.thread τ = .acknowledging t n x → Move p τ supply none o) ∧
    (∀ r t n x, p.thread τ = .reserving r t n x → Move p τ supply none o) ∧
    (∀ r t n, p.thread τ = .rekeying r t n → Move p τ supply none o) ∧
    (∀ r c, p.thread τ = .draining r c → Move p τ supply none o) := by
  refine ⟨fun t n x ht => ?_, fun r t n x ht => ?_, fun r t n ht => ?_, fun r c ht => ?_⟩
  · simp only [run, ht, acknowledge, bind_eq_ok, orFail_eq_ok, pure_eq_ok] at h
    obtain ⟨r, hr, rfl⟩ := h
    exact .acknowledge ht hr
  · simp only [run, ht, reserve, bind_eq_ok, Core.endpoint_eq_ok, acquire_eq, pure_eq_ok] at h
    obtain ⟨e, he, _, ⟨hl, rfl⟩, e', h, rfl⟩ := h
    obtain ⟨hq, rfl⟩ := Endpoint.setProxying_eq h
    exact .reserve ht he hl hq
  · simp only [run, ht, rekey, bind_eq_ok, orFail_eq_ok, pure_eq_ok] at h
    obtain ⟨channel, hc, rfl⟩ := h
    exact .rekey ht hc
  · simp only [run, ht, drain, bind_eq_ok, Core.endpoint_eq_ok, Prod.exists, pure_eq_ok] at h
    obtain ⟨e, he, ms, e', h, rfl⟩ := h
    obtain ⟨hd, rfl, rfl⟩ := Endpoint.takeQueuedMessages_eq h
    exact .drain ht he hd

theorem inviting_move (h : p.run τ supply = .ok o) :
    (∀ c, p.thread τ = .inviting c → Move p τ supply none o) ∧
    (∀ c l r, p.thread τ = .creatingChannel c l r → Move p τ supply none o) ∧
    (∀ l r t, p.thread τ = .startingChannel l r t → Move p τ supply none o) := by
  refine ⟨fun c ht => ?_, fun c l r ht => ?_, fun l r t ht => ?_⟩
  · simp only [run, ht, invite, bind_eq_ok, Prod.exists, randomIdentifier_eq, pure_eq_ok] at h
    obtain ⟨x, _, rfl, y, rest, rfl, _, _, core, h, rfl⟩ := h
    obtain ⟨hx, hy, hxy, hf₁, hf₂, -, -, rfl⟩ := Core.createMessagePipesAndGetEndpoints_eq h
    exact .invite ht rfl hx hy hxy hf₁ hf₂
  · simp only [run, ht, createChannel, bind_eq_ok, Prod.exists, randomIdentifier_eq,
      pure_eq_ok] at h
    obtain ⟨t, rest, hs, rfl⟩ := h
    exact .createChannel ht hs
  · simp only [run, ht, startChannel, bind_eq_ok, channelTo_eq, Core.endpoint_eq_ok,
      pure_eq_ok] at h
    obtain ⟨channel, hc, e, he, rfl⟩ := h
    exact .startChannel ht hc he

/-- A thread under way makes one of the listed moves. -/
theorem run_move (h : p.run τ supply = .ok o) : Move p τ supply none o := by
  obtain ⟨h₁, h₂, h₃, h₄⟩ := invitation_move h
  obtain ⟨h₅, h₆, h₇, h₈⟩ := acceptance_move h
  obtain ⟨h₉, h₁₀, h₁₁⟩ := inviting_move h
  cases ht : p.thread τ with
  | idle => simp [run, ht] at h
  | populating => exact populate_move ht (by simpa [run, ht] using h)
  | checking => exact checkOrRoute_move ht (by simpa [run, ht] using h)
  | delivering => exact deliver_move ht (by simpa [run, ht] using h)
  | sending => exact sendNext_move ht (by simpa [run, ht] using h)
  | unlocking => exact unlockNext_move ht (by simpa [run, ht] using h)
  | receiving m =>
    simp only [run, ht, receive, bind_eq_ok, Core.endpoint_eq_ok, acquire_eq, pure_eq_ok] at h
    obtain ⟨e, he, _, ⟨hl, rfl⟩, rfl⟩ := h
    exact .receive ht he hl
  | recovering => exact recoverNext_move ht (by simpa [run, ht] using h)
  | forwarding => exact forwardNext_move ht (by simpa [run, ht] using h)
  | releasing x =>
    simp only [run, ht, pure_eq_ok] at h
    exact h ▸ .releaseTarget ht
  | invited => exact h₁ _ _ _ ht
  | accepting => exact h₂ _ _ _ ht
  | replying => exact h₃ _ _ _ ht
  | accepted => exact h₄ _ ht
  | acknowledging => exact h₅ _ _ _ ht
  | reserving => exact h₆ _ _ _ _ ht
  | rekeying => exact h₇ _ _ _ ht
  | draining => exact h₈ _ _ ht
  | acknowledged c =>
    simp only [run, ht, onReceivedAcceptInvitation, pure_eq_ok] at h
    exact h ▸ .acknowledged ht
  | inviting => exact h₉ _ ht
  | creatingChannel => exact h₁₀ _ _ _ ht
  | insertingPending l r t =>
    simp only [run, ht, insertPending, pure_eq_ok] at h
    exact h ▸ .insertPending ht
  | startingChannel => exact h₁₁ _ _ _ ht

/-- So does the first step of a call. -/
theorem start_move {c : Call} (h : p.start τ supply c = .ok o) : Move p τ supply (some c) o := by
  cases c with
  | createMessagePipes =>
    simp only [start, createMessagePipes, bind_eq_ok, Prod.exists, randomIdentifier_eq, check_eq_ok,
      pure_eq_ok] at h
    obtain ⟨x, _, rfl, y, rest, rfl, _, _, core, h, _, -, _, -, rfl⟩ := h
    obtain ⟨hx, hy, hxy, hf₁, hf₂, -, -, rfl⟩ := Core.createMessagePipesAndGetEndpoints_eq h
    exact .createMessagePipes rfl hx hy hxy hf₁ hf₂
  | sendMessage =>
    simp only [start, sendMessage, bind_eq_ok, orFail_eq_ok, pure_eq_ok] at h
    obtain ⟨x, hx, xs, hxs, rfl⟩ := h
    exact .sendMessage hx hxs
  | bindReceiverDelegateToEndpoint =>
    simp only [start, bindReceiverDelegateToEndpoint, bind_eq_ok, orFail_eq_ok,
      Core.endpoint_eq_ok, acquire_eq, pure_eq_ok] at h
    obtain ⟨x, hx, e, he, _, ⟨hl, rfl⟩, e', h, rfl⟩ := h
    obtain ⟨hq, hd, rfl⟩ := Endpoint.registerDelegate_eq h
    exact .bindReceiver hx he hl hq hd
  | sendInvitationAndGetMessagePipe =>
    simp only [start, sendInvitationAndGetMessagePipe, pure_eq_ok] at h
    exact h ▸ .sendInvitation
  | acceptInvitation =>
    simp only [start, acceptInvitation, bind_eq_ok, check_eq_ok, pure_eq_ok] at h
    obtain ⟨_, ha, rfl⟩ := h
    exact .acceptInvitation ha

end Process

namespace Network

/-- A step of the network is a move of one thread or the receipt of one message. -/
theorem step_cases {s s' : Network} {l : Label} (h : s.step l = .ok s') :
    (∃ n τ c o, l = .call n τ c ∧ (s.process n).thread τ = .idle ∧
      (s.process n).Move τ s.supply (some c) o ∧ s' = s.apply n o) ∨
    (∃ n channel m rest, l = .read n channel ∧ (s.process n).thread .io = .idle ∧
      channel ∈ (s.process n).watchedSockets ∧ s.wire channel n = m :: rest ∧
      s' = { s with
        process := upd₁ s.process n ((s.process n).goto .io (Process.onReceivedMessage m))
        wire := upd s.wire channel n rest
        received := upd s.received channel n (s.received channel n ++ [m]) }) ∨
    (∃ n τ o, l = .run n τ ∧ (s.process n).Move τ s.supply none o ∧ s' = s.apply n o) := by
  cases l with
  | call n τ c =>
    simp only [step, bind_eq_ok, check_eq_ok, Thread.isIdle_iff, pure_eq_ok] at h
    obtain ⟨_, hi, o, ho, rfl⟩ := h
    exact .inl ⟨n, τ, c, o, rfl, hi, Process.start_move ho, rfl⟩
  | read n channel =>
    simp only [step, bind_eq_ok, check_eq_ok, Thread.isIdle_iff] at h
    obtain ⟨_, hi, _, hw, h⟩ := h
    cases hm : s.wire channel n with
    | nil => simp [hm] at h
    | cons m rest =>
      simp only [hm, pure_eq_ok] at h
      exact .inr (.inl ⟨n, channel, m, rest, rfl, hi, hw, hm, h.symm⟩)
  | run n τ =>
    simp only [step, bind_eq_ok, pure_eq_ok] at h
    obtain ⟨o, ho, rfl⟩ := h
    exact .inr (.inr ⟨n, τ, o, rfl, Process.run_move ho, rfl⟩)

end Network
end Mage
