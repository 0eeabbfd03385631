import Mage.Model.Core

/-! One process: its tables, its threads, and the locks of its endpoints. A thread is the point a
    function of the source has reached together with that function's local variables; one step takes
    it from one locked section, channel write or unlocked table access to the next
    (`mage/core/node.cc`). -/

namespace Mage
open Lib

/-- A process has one thread that reads its sockets and any number of others. -/
inductive ThreadId where
  | io | user (k : ℕ)
  deriving DecidableEq

/-- Who called `SendMessagesAndRecursiveDependents`, and which endpoint's lock it holds meanwhile. -/
inductive Caller where
  | sendMessage
  | sendMessageToProxy (peer : Identifier)
  | onReceivedAcceptInvitation (reserved : Identifier) (channel : Channel)
  deriving DecidableEq

/-- The parameters of `SendMessagesAndRecursiveDependents`. -/
structure Batch where
  targetNodeName : Identifier
  messagesToSend : List Message
  caller : Caller
  deriving DecidableEq

inductive Thread where
  | idle
  /-- The generated proxy method: the endpoints of `rest` still need their descriptors. -/
  | populating (localEndpoint : Identifier) (m : Message) (rest : List Identifier)
  /-- `Node::SendMessage`, in the loop over the descriptors and before the routing decision. -/
  | checking (localEndpoint : Identifier) (m : Message) (rest : List EndpointDescriptor)
  /-- `Node::SendMessage`, at `local_peer_endpoint->Lock()`. -/
  | delivering (peer : Identifier) (m : Message)
  /-- `SendMessagesAndRecursiveDependents`, in the loop over the descriptors of `m`, the front of the
      queue: the endpoints of `done` are locked and proxying, those of `rest` are still to come. -/
  | sending (b : Batch) (m : Message) (done rest : List EndpointDescriptor)
  /-- `SendMessagesAndRecursiveDependents`, after a write (or before the first one): the endpoints of
      `locked` are still locked. -/
  | unlocking (b : Batch) (locked : List Identifier)
  /-- `Node::OnReceivedUserMessage`, up to `endpoint->Lock()`. -/
  | receiving (m : Message)
  /-- `Node::OnReceivedUserMessage`, in the loop that recovers the descriptors: the endpoints of `done`
      are registered. -/
  | recovering (target : Identifier) (m : Message) (done rest : List EndpointDescriptor)
  /-- `PrepareToForwardUserMessage`, and the write that follows it. -/
  | forwarding (target proxyTargetNodeName : Identifier) (m : Message)
      (done rest : List EndpointDescriptor)
  /-- `Node::OnReceivedUserMessage`, at `endpoint->Unlock()`. -/
  | releasing (target : Identifier)
  /-- `Node::OnReceivedInvitation`, at its start, at the creation of the endpoint, at the write of
      the acceptance, and at `Core::OnReceivedInvitation`. -/
  | invited (inviterName temporaryRemoteNodeName intendedEndpointPeerName : Identifier)
  | accepting (inviterName temporaryRemoteNodeName intendedEndpointPeerName : Identifier)
  | replying (inviterName temporaryRemoteNodeName localEndpoint : Identifier)
  | accepted (localEndpoint : Identifier)
  /-- `Node::OnReceivedAcceptInvitation`, at its start, at `remote_endpoint->Lock()`, at the rekeying
      of the channel, and at `TakeQueuedMessages`. -/
  | acknowledging (temporaryRemoteNodeName actualNodeName acceptInvitationEndpointName : Identifier)
  | reserving (remoteEndpoint temporaryRemoteNodeName actualNodeName
      acceptInvitationEndpointName : Identifier)
  | rekeying (remoteEndpoint temporaryRemoteNodeName actualNodeName : Identifier)
  | draining (remoteEndpoint : Identifier) (channel : Channel)
  /-- `Core::OnReceivedAcceptInvitation`. -/
  | acknowledged (channel : Channel)
  /-- `Node::SendInvitationAndGetMessagePipe`, at its start, at the creation of the channel, at the
      insertion of the pending invitation, and at `Channel::Start`. -/
  | inviting (channel : Channel)
  | creatingChannel (channel : Channel) (localEndpoint remoteEndpoint : Identifier)
  | insertingPending (localEndpoint remoteEndpoint temporaryRemoteNodeName : Identifier)
  | startingChannel (localEndpoint remoteEndpoint temporaryRemoteNodeName : Identifier)

def Thread.isIdle : Thread → Bool
  | .idle => true
  | _ => false

@[simp] theorem Thread.isIdle_iff {t : Thread} : t.isIdle = true ↔ t = .idle := by
  cases t <;> simp [isIdle]

/-- The functions of `Node` that a thread can be in the middle of. -/
inductive Routine where
  | sendMessage
  | sendMessagesAndRecursiveDependents
  | onReceivedUserMessage
  | onReceivedInvitation
  | onReceivedAcceptInvitation
  | sendInvitationAndGetMessagePipe

def Thread.routine : Thread → Option Routine
  | .idle => none
  | .populating _ _ _ | .checking _ _ _ | .delivering _ _ => some .sendMessage
  | .sending _ _ _ _ | .unlocking _ _ => some .sendMessagesAndRecursiveDependents
  | .receiving _ | .recovering _ _ _ _ | .forwarding _ _ _ _ _ | .releasing _ =>
    some .onReceivedUserMessage
  | .invited _ _ _ | .accepting _ _ _ | .replying _ _ _ | .accepted _ => some .onReceivedInvitation
  | .acknowledging _ _ _ | .reserving _ _ _ _ | .rekeying _ _ _ | .draining _ _ | .acknowledged _ =>
    some .onReceivedAcceptInvitation
  | .inviting _ | .creatingChannel _ _ _ | .insertingPending _ _ _ | .startingChannel _ _ _ =>
    some .sendInvitationAndGetMessagePipe

theorem Thread.routine_eq_none {t : Thread} : t.routine = none ↔ t = .idle := by
  cases t <;> simp [routine]

/-- What is observed of the invitations of one process. -/
inductive InvitationEvent where
  /-- `SendInvitationAndGetMessagePipe(channel, callback)` is called. -/
  | sent (channel : Channel) (callback : Option Callback)
  /-- The acceptance of the invitation sent on `channel` makes `Core` post `posted`. -/
  | accepted (channel : Channel) (posted : Option Callback)
  deriving DecidableEq

/-- A channel created for an invitation, with the temporary name of the node at its other end and the
    endpoint reserved for it. -/
structure Reservation where
  channel : Channel
  temporaryRemoteNodeName : Identifier
  remoteEndpoint : Identifier
  deriving DecidableEq

/-- A process. The last four fields are history: the endpoints that the embedder may still use, what
    arrived at each endpoint, what happened to its invitations, and what it reserved for them. -/
structure Process extends Core where
  thread : ThreadId → Thread
  lock : Identifier → Option ThreadId
  watchedSockets : List Channel
  held : List Identifier
  arrivals : Identifier → List Payload
  invitations : List InvitationEvent
  reservations : List Reservation

/-- The effect of one step of a process on itself and on its surroundings: the names left to draw, at
    most one message written to a channel, at most one message entering a pipe. -/
structure Outcome where
  process : Process
  supply : List Identifier
  written : Option (Channel × ChannelMessage) := none
  sent : Option (Address × Payload) := none

/-- `util::RandomIdentifier`. It never runs out of names, as the list may: a thread that finds it empty
    stops, and nothing is concluded from that. -/
def randomIdentifier : List Identifier → Except Stop (Identifier × List Identifier)
  | [] => throw .noName
  | x :: rest => return (x, rest)

namespace Process

def goto (p : Process) (τ : ThreadId) (t : Thread) : Process :=
  { p with thread := upd₁ p.thread τ t }

def setEndpoint (p : Process) (x : Identifier) (e : Endpoint) : Process :=
  { p with localEndpoints := p.localEndpoints.set x e }

def setLock (p : Process) (x : Identifier) (owner : Option ThreadId) : Process :=
  { p with lock := upd₁ p.lock x owner }

/-- `endpoint->Lock()`, for a thread that gets the lock. -/
def acquire (p : Process) (τ : ThreadId) (x : Identifier) : Except Stop Process := do
  check (p.lock x = none) .blocked
  return p.setLock x (some τ)

abbrev release (p : Process) (x : Identifier) : Process := p.setLock x none

/-- `node_channel_map_[nodeName]->`, which needs the entry to be there. -/
def channelTo (p : Process) (nodeName : Identifier) : Except Stop Channel :=
  orFail (p.nodeChannelMap.find nodeName) (.check .nullChannel)

/-- History: `m` arrives at `x`, and the embedder receives what it carries if `x` is bound. -/
def recordArrival (p : Process) (x : Identifier) (e : Endpoint) (m : Message) : Process :=
  { p with
    arrivals := upd₁ p.arrivals x (p.arrivals x ++ [m.payload])
    held := if e.state = .kBound then p.held ++ p.endpointsOf m else p.held }

/-! ### What each update leaves alone -/

section Fields
variable (p : Process) (τ : ThreadId) (t : Thread) (x : Identifier) (e : Endpoint) (m : Message)
  (o : Option ThreadId)

@[simp] theorem goto_thread : (p.goto τ t).thread = upd₁ p.thread τ t := rfl
@[simp] theorem setEndpoint_localEndpoints :
    (p.setEndpoint x e).localEndpoints = p.localEndpoints.set x e := rfl
@[simp] theorem setLock_lock : (p.setLock x o).lock = upd₁ p.lock x o := rfl
@[simp] theorem recordArrival_arrivals :
    (p.recordArrival x e m).arrivals = upd₁ p.arrivals x (p.arrivals x ++ [m.payload]) := rfl
@[simp] theorem recordArrival_held : (p.recordArrival x e m).held =
    if e.state = .kBound then p.held ++ p.endpointsOf m else p.held := rfl
@[simp] theorem goto_toCore : (p.goto τ t).toCore = p.toCore := rfl
@[simp] theorem goto_lock : (p.goto τ t).lock = p.lock := rfl
@[simp] theorem goto_watchedSockets : (p.goto τ t).watchedSockets = p.watchedSockets := rfl
@[simp] theorem goto_held : (p.goto τ t).held = p.held := rfl
@[simp] theorem goto_arrivals : (p.goto τ t).arrivals = p.arrivals := rfl
@[simp] theorem goto_invitations : (p.goto τ t).invitations = p.invitations := rfl
@[simp] theorem goto_reservations : (p.goto τ t).reservations = p.reservations := rfl
@[simp] theorem setEndpoint_name : (p.setEndpoint x e).name = p.name := rfl
@[simp] theorem setEndpoint_hasAcceptedInvitation :
    (p.setEndpoint x e).hasAcceptedInvitation = p.hasAcceptedInvitation := rfl
@[simp] theorem setEndpoint_nodeChannelMap :
    (p.setEndpoint x e).nodeChannelMap = p.nodeChannelMap := rfl
@[simp] theorem setEndpoint_pendingInvitations :
    (p.setEndpoint x e).pendingInvitations = p.pendingInvitations := rfl
@[simp] theorem setEndpoint_handleTable : (p.setEndpoint x e).handleTable = p.handleTable := rfl
@[simp] theorem setEndpoint_nextAvailableHandle :
    (p.setEndpoint x e).nextAvailableHandle = p.nextAvailableHandle := rfl
@[simp] theorem setEndpoint_remoteHasAcceptedInvitationCallback :
    (p.setEndpoint x e).remoteHasAcceptedInvitationCallback = p.remoteHasAcceptedInvitationCallback := rfl
@[simp] theorem setEndpoint_finishedAcceptingInvitationCallback :
    (p.setEndpoint x e).finishedAcceptingInvitationCallback = p.finishedAcceptingInvitationCallback := rfl
@[simp] theorem setEndpoint_thread : (p.setEndpoint x e).thread = p.thread := rfl
@[simp] theorem setEndpoint_lock : (p.setEndpoint x e).lock = p.lock := rfl
@[simp] theorem setEndpoint_watchedSockets :
    (p.setEndpoint x e).watchedSockets = p.watchedSockets := rfl
@[simp] theorem setEndpoint_held : (p.setEndpoint x e).held = p.held := rfl
@[simp] theorem setEndpoint_arrivals : (p.setEndpoint x e).arrivals = p.arrivals := rfl
@[simp] theorem setEndpoint_invitations : (p.setEndpoint x e).invitations = p.invitations := rfl
@[simp] theorem setEndpoint_reservations : (p.setEndpoint x e).reservations = p.reservations := rfl
@[simp] theorem setLock_toCore : (p.setLock x o).toCore = p.toCore := rfl
@[simp] theorem setLock_thread : (p.setLock x o).thread = p.thread := rfl
@[simp] theorem setLock_watchedSockets : (p.setLock x o).watchedSockets = p.watchedSockets := rfl
@[simp] theorem setLock_held : (p.setLock x o).held = p.held := rfl
@[simp] theorem setLock_arrivals : (p.setLock x o).arrivals = p.arrivals := rfl
@[simp] theorem setLock_invitations : (p.setLock x o).invitations = p.invitations := rfl
@[simp] theorem setLock_reservations : (p.setLock x o).reservations = p.reservations := rfl
@[simp] theorem recordArrival_toCore : (p.recordArrival x e m).toCore = p.toCore := rfl
@[simp] theorem recordArrival_thread : (p.recordArrival x e m).thread = p.thread := rfl
@[simp] theorem recordArrival_lock : (p.recordArrival x e m).lock = p.lock := rfl
@[simp] theorem recordArrival_watchedSockets :
    (p.recordArrival x e m).watchedSockets = p.watchedSockets := rfl
@[simp] theorem recordArrival_invitations :
    (p.recordArrival x e m).invitations = p.invitations := rfl
@[simp] theorem recordArrival_reservations :
    (p.recordArrival x e m).reservations = p.reservations := rfl

end Fields

/-! ### `Node::SendMessage` -/

def populate (p : Process) (τ : ThreadId) (supply : List Identifier) (localEndpoint : Identifier)
    (m : Message) : List Identifier → Except Stop Outcome
  | [] => return ⟨p.goto τ (.checking localEndpoint m m.endpointsInMessage), supply, none, none⟩
  | x :: rest => do
    let (name, supply) ← randomIdentifier supply
    let descriptor ← p.populateEndpointDescriptor x localEndpoint name
    let m := { m with endpointsInMessage := m.endpointsInMessage ++ [descriptor] }
    return ⟨p.goto τ (.populating localEndpoint m rest), supply, none, none⟩

def checkOrRoute (p : Process) (τ : ThreadId) (supply : List Identifier)
    (localEndpoint : Identifier) (m : Message) :
    List EndpointDescriptor → Except Stop Outcome
  | d :: rest => do
    let endpoint ← p.endpoint d.endpointName .sentEndpointNotFound
    let p ← p.acquire τ d.endpointName
    check (endpoint.state ≠ .kBound) (.check .sentEndpointBound)
    let p := p.release d.endpointName
    return ⟨p.goto τ (.checking localEndpoint m rest), supply, none, none⟩
  | [] => do
    let endpoint ← p.endpoint localEndpoint .handleNotFound
    let peer := endpoint.peerAddress
    let endpointIt := p.localEndpoints.find peer.endpointName
    let channelIt := p.nodeChannelMap.find peer.nodeName
    -- The peer endpoint can either be local or remote, but it can't be both.
    check (endpointIt.isNone ≠ channelIt.isNone) (.check .routing)
    check (peer.endpointName.length = kIdentifierSize) (.check .identifierSize)
    let m := m.retarget peer.endpointName
    if endpointIt.isNone then
      return ⟨p.goto τ (.unlocking ⟨peer.nodeName, [m], .sendMessage⟩ []), supply, none,
        some (peer, m.payload)⟩
    else
      return ⟨p.goto τ (.delivering peer.endpointName m), supply, none, some (peer, m.payload)⟩

def deliver (p : Process) (τ : ThreadId) (supply : List Identifier) (peer : Identifier)
    (m : Message) : Except Stop Outcome := do
  let endpoint ← p.endpoint peer .endpointNotRegistered
  let p ← p.acquire τ peer
  match endpoint.state with
  | .kUnboundAndProxying =>
    let p := p.recordArrival peer endpoint m
    let m := m.retarget endpoint.proxyTarget.endpointName
    let b : Batch := ⟨endpoint.proxyTarget.nodeName, [m], .sendMessageToProxy peer⟩
    return ⟨p.goto τ (.unlocking b []), supply, none, none⟩
  | .kBound | .kUnboundAndQueueing => do
    let (m, e) ← p.acceptMessageOnDelegateThread endpoint m
    let p := ((p.recordArrival peer endpoint m).setEndpoint peer e).release peer
    return ⟨p.goto τ .idle, supply, none, none⟩

/-! ### `SendMessagesAndRecursiveDependents` -/

def sendNext (p : Process) (τ : ThreadId) (supply : List Identifier) (b : Batch) (m : Message)
    (done : List EndpointDescriptor) : List EndpointDescriptor → Except Stop Outcome
  | d :: rest => do
    let endpoint ← p.endpoint d.endpointName .dependentNotFound
    let p ← p.acquire τ d.endpointName
    let (subMessages, endpoint) ← endpoint.takeQueuedMessages
    let b := { b with messagesToSend :=
      b.messagesToSend ++ subMessages.map (·.retarget d.crossNodeEndpointName) }
    let endpoint ← endpoint.setProxying b.targetNodeName d.crossNodeEndpointName
    let p := p.setEndpoint d.endpointName endpoint
    return ⟨p.goto τ (.sending b m (done ++ [d]) rest), supply, none, none⟩
  | [] => do
    let channel ← p.channelTo b.targetNodeName
    return ⟨p.goto τ (.unlocking b (done.map (·.endpointName))), supply,
      some (channel, .userMessage m.buffer), none⟩

def unlockNext (p : Process) (τ : ThreadId) (supply : List Identifier) (b : Batch) :
    List Identifier → Except Stop Outcome
  | x :: rest => return ⟨(p.release x).goto τ (.unlocking b rest), supply, none, none⟩
  | [] =>
    match b.messagesToSend with
    | m :: rest =>
      let b := { b with messagesToSend := rest }
      return ⟨p.goto τ (.sending b m [] m.endpointsInMessage), supply, none, none⟩
    | [] =>
      match b.caller with
      | .sendMessage => return ⟨p.goto τ .idle, supply, none, none⟩
      | .sendMessageToProxy peer => return ⟨(p.release peer).goto τ .idle, supply, none, none⟩
      | .onReceivedAcceptInvitation reserved channel =>
        return ⟨(p.release reserved).goto τ (.acknowledged channel), supply, none, none⟩

/-! ### `Node::OnReceivedUserMessage` -/

def receive (p : Process) (τ : ThreadId) (supply : List Identifier) (m : Message) :
    Except Stop Outcome := do
  let _ ← p.endpoint m.targetEndpoint .targetNotFound
  let p ← p.acquire τ m.targetEndpoint
  return ⟨p.goto τ (.recovering m.targetEndpoint m [] m.endpointsInMessage), supply, none, none⟩

def recoverNext (p : Process) (τ : ThreadId) (supply : List Identifier) (target : Identifier)
    (m : Message) (done : List EndpointDescriptor) : List EndpointDescriptor → Except Stop Outcome
  | d :: rest => do
    let (pipe, core) ← p.recoverNewMessagePipeFromEndpointDescriptor d
    let p := { p with toCore := core }
    return ⟨p.goto τ (.recovering target (m.queuePipe pipe) (done ++ [d]) rest), supply, none, none⟩
  | [] => do
    let endpoint ← p.endpoint target .targetNotFound
    match endpoint.state with
    | .kUnboundAndProxying =>
      let proxyTarget := endpoint.proxyTarget
      check (proxyTarget.nodeName ≠ p.name) (.check .proxyTargetIsSelf)
      let p := p.recordArrival target endpoint m
      let m := m.retarget proxyTarget.endpointName
      return ⟨p.goto τ (.forwarding target proxyTarget.nodeName m [] m.endpointsInMessage), supply,
        none, none⟩
    | .kBound | .kUnboundAndQueueing => do
      let e ← endpoint.acceptMessageOnIOThread m
      let p := (p.recordArrival target endpoint m).setEndpoint target e
      return ⟨p.goto τ (.releasing target), supply, none, none⟩

def forwardNext (p : Process) (τ : ThreadId) (supply : List Identifier)
    (target proxyTargetNodeName : Identifier) (m : Message) (done : List EndpointDescriptor) :
    List EndpointDescriptor → Except Stop Outcome
  | d :: rest => do
    let backingEndpoint ← p.endpoint d.crossNodeEndpointName .backingEndpointNotFound
    let (newCrossNodeEndpointName, supply) ← randomIdentifier supply
    let forwarded := { d with
      endpointName := d.crossNodeEndpointName
      crossNodeEndpointName := newCrossNodeEndpointName }
    let e ← backingEndpoint.setProxying proxyTargetNodeName newCrossNodeEndpointName
    let p := p.setEndpoint d.crossNodeEndpointName e
    return ⟨p.goto τ (.forwarding target proxyTargetNodeName m (done ++ [forwarded]) rest), supply,
      none, none⟩
  | [] => do
    let channel ← p.channelTo proxyTargetNodeName
    let m := { m with endpointsInMessage := done }
    return ⟨p.goto τ (.releasing target), supply, some (channel, .userMessage m.buffer), none⟩

/-! ### Invitations -/

def invite (p : Process) (τ : ThreadId) (supply : List Identifier) (channel : Channel) :
    Except Stop Outcome := do
  let (name₁, supply) ← randomIdentifier supply
  let (name₂, supply) ← randomIdentifier supply
  let (_, _, core) ← p.createMessagePipesAndGetEndpoints name₁ name₂
  let p := { p with toCore := core }
  return ⟨p.goto τ (.creatingChannel channel name₁ name₂), supply, none, none⟩

def createChannel (p : Process) (τ : ThreadId) (supply : List Identifier) (channel : Channel)
    (localEndpoint remoteEndpoint : Identifier) : Except Stop Outcome := do
  let (temporaryRemoteNodeName, supply) ← randomIdentifier supply
  let p := { p with
    nodeChannelMap := p.nodeChannelMap.insert temporaryRemoteNodeName channel
    reservations := p.reservations ++
      [Reservation.mk channel temporaryRemoteNodeName remoteEndpoint] }
  return ⟨p.goto τ (.insertingPending localEndpoint remoteEndpoint temporaryRemoteNodeName), supply,
    none, none⟩

def insertPending (p : Process) (τ : ThreadId) (supply : List Identifier)
    (localEndpoint remoteEndpoint temporaryRemoteNodeName : Identifier) : Except Stop Outcome :=
  let p := { p with
    pendingInvitations := p.pendingInvitations.insert temporaryRemoteNodeName remoteEndpoint }
  return ⟨p.goto τ (.startingChannel localEndpoint remoteEndpoint temporaryRemoteNodeName), supply,
    none, none⟩

/-- `Channel::Start`, `Channel::SendInvitation`, and the return of the handle to the embedder. -/
def startChannel (p : Process) (τ : ThreadId) (supply : List Identifier)
    (localEndpoint remoteEndpoint temporaryRemoteNodeName : Identifier) : Except Stop Outcome := do
  let channel ← p.channelTo temporaryRemoteNodeName
  let remote ← p.endpoint remoteEndpoint .endpointNotRegistered
  let p := { p with
    watchedSockets := channel :: p.watchedSockets
    held := p.held ++ [localEndpoint] }
  return ⟨p.goto τ .idle, supply,
    some (channel, .sendInvitation p.name temporaryRemoteNodeName remote.peerAddress.endpointName),
    none⟩

def rekeyInitial (p : Process) (τ : ThreadId) (supply : List Identifier)
    (inviterName temporaryRemoteNodeName intendedEndpointPeerName : Identifier) :
    Except Stop Outcome := do
  let channel ← orFail (p.nodeChannelMap.find kInitialChannelName) (.check .noInitialChannel)
  let p := { p with
    nodeChannelMap := (p.nodeChannelMap.erase kInitialChannelName).insert inviterName channel }
  return ⟨p.goto τ (.accepting inviterName temporaryRemoteNodeName intendedEndpointPeerName), supply,
    none, none⟩

def accept (p : Process) (τ : ThreadId) (supply : List Identifier)
    (inviterName temporaryRemoteNodeName intendedEndpointPeerName : Identifier) :
    Except Stop Outcome := do
  let (name, supply) ← randomIdentifier supply
  let localEndpoint := Endpoint.new name ⟨inviterName, intendedEndpointPeerName⟩
  let p := { p with localEndpoints := p.localEndpoints.insert name localEndpoint }
  return ⟨p.goto τ (.replying inviterName temporaryRemoteNodeName name), supply, none, none⟩

def reply (p : Process) (τ : ThreadId) (supply : List Identifier)
    (inviterName temporaryRemoteNodeName localEndpoint : Identifier) : Except Stop Outcome := do
  let channel ← p.channelTo inviterName
  return ⟨p.goto τ (.accepted localEndpoint), supply,
    some (channel, .acceptInvitation temporaryRemoteNodeName p.name localEndpoint), none⟩

/-- `Core::OnReceivedInvitation`. The embedder gets a usable handle only if the insertion took
    place. -/
def onReceivedInvitation (p : Process) (τ : ThreadId) (supply : List Identifier)
    (localEndpoint : Identifier) : Except Stop Outcome := do
  let (handle, core) := p.getNextMessagePipe
  let fresh := (p.findHandle handle).isNone
  let p := { p with
    toCore := { core with handleTable := Core.insertHandle handle localEndpoint core.handleTable }
    held := if fresh then p.held ++ [localEndpoint] else p.held }
  check (p.finishedAcceptingInvitationCallback.isSome) (.check .noFinishedAcceptingCallback)
  return ⟨p.goto τ .idle, supply, none, none⟩

def acknowledge (p : Process) (τ : ThreadId) (supply : List Identifier)
    (temporaryRemoteNodeName actualNodeName acceptInvitationEndpointName : Identifier) :
    Except Stop Outcome := do
  let remoteEndpoint ←
    orFail (p.pendingInvitations.find temporaryRemoteNodeName) (.check .noPendingInvitation)
  let p := { p with pendingInvitations := p.pendingInvitations.erase temporaryRemoteNodeName }
  return ⟨p.goto τ (.reserving remoteEndpoint temporaryRemoteNodeName actualNodeName
    acceptInvitationEndpointName), supply, none, none⟩

def reserve (p : Process) (τ : ThreadId) (supply : List Identifier)
    (remoteEndpoint temporaryRemoteNodeName actualNodeName
      acceptInvitationEndpointName : Identifier) : Except Stop Outcome := do
  let endpoint ← p.endpoint remoteEndpoint .reservedEndpointNotFound
  let p ← p.acquire τ remoteEndpoint
  let e ← endpoint.setProxying actualNodeName acceptInvitationEndpointName
  let p := p.setEndpoint remoteEndpoint e
  return ⟨p.goto τ (.rekeying remoteEndpoint temporaryRemoteNodeName actualNodeName), supply, none,
    none⟩

def rekey (p : Process) (τ : ThreadId) (supply : List Identifier)
    (remoteEndpoint temporaryRemoteNodeName actualNodeName : Identifier) : Except Stop Outcome := do
  let channel ←
    orFail (p.nodeChannelMap.find temporaryRemoteNodeName) (.check .noTemporaryChannel)
  let p := { p with nodeChannelMap :=
    (p.nodeChannelMap.erase temporaryRemoteNodeName).insert actualNodeName channel }
  return ⟨p.goto τ (.draining remoteEndpoint channel), supply, none, none⟩

def drain (p : Process) (τ : ThreadId) (supply : List Identifier) (remoteEndpoint : Identifier)
    (channel : Channel) : Except Stop Outcome := do
  let endpoint ← p.endpoint remoteEndpoint .reservedEndpointNotFound
  let (messagesToForward, e) ← endpoint.takeQueuedMessages
  let finalMessagesToForward := messagesToForward.map (·.retarget endpoint.proxyTarget.endpointName)
  let b : Batch := ⟨endpoint.proxyTarget.nodeName, finalMessagesToForward,
    .onReceivedAcceptInvitation remoteEndpoint channel⟩
  return ⟨(p.setEndpoint remoteEndpoint e).goto τ (.unlocking b []), supply, none, none⟩

/-- `Core::OnReceivedAcceptInvitation`: the closure is moved out of the member when it is posted. -/
def onReceivedAcceptInvitation (p : Process) (τ : ThreadId) (supply : List Identifier)
    (channel : Channel) : Except Stop Outcome :=
  let p := { p with
    remoteHasAcceptedInvitationCallback := none
    invitations := p.invitations ++
      [InvitationEvent.accepted channel p.remoteHasAcceptedInvitationCallback] }
  return ⟨p.goto τ .idle, supply, none, none⟩

/-- One step of thread `τ`. -/
def run (p : Process) (τ : ThreadId) (supply : List Identifier) : Except Stop Outcome :=
  match p.thread τ with
  | .idle => throw .idle
  | .populating x m rest => p.populate τ supply x m rest
  | .checking x m rest => p.checkOrRoute τ supply x m rest
  | .delivering peer m => p.deliver τ supply peer m
  | .sending b m done rest => p.sendNext τ supply b m done rest
  | .unlocking b locked => p.unlockNext τ supply b locked
  | .receiving m => p.receive τ supply m
  | .recovering x m done rest => p.recoverNext τ supply x m done rest
  | .forwarding x n m done rest => p.forwardNext τ supply x n m done rest
  | .releasing x => return ⟨(p.release x).goto τ .idle, supply, none, none⟩
  | .invited i t x => p.rekeyInitial τ supply i t x
  | .accepting i t x => p.accept τ supply i t x
  | .replying i t x => p.reply τ supply i t x
  | .accepted x => p.onReceivedInvitation τ supply x
  | .acknowledging t n x => p.acknowledge τ supply t n x
  | .reserving r t n x => p.reserve τ supply r t n x
  | .rekeying r t n => p.rekey τ supply r t n
  | .draining r c => p.drain τ supply r c
  | .acknowledged c => p.onReceivedAcceptInvitation τ supply c
  | .inviting c => p.invite τ supply c
  | .creatingChannel c l r => p.createChannel τ supply c l r
  | .insertingPending l r t => p.insertPending τ supply l r t
  | .startingChannel l r t => p.startChannel τ supply l r t

end Process
end Mage
