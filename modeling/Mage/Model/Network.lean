import Mage.Lib.Run
import Mage.Model.Process

/-! The network: processes joined by sockets, each a reliable first-in first-out channel in either
    direction. A step is a call by the embedder, the receipt of the message at the head of a channel,
    or one step of a thread under way. -/

namespace Mage
open Lib

/-- The processes, who invites whom over their common socket, and the results of `RandomIdentifier`
    in the order they are drawn. -/
structure Topology where
  nodes : List Identifier
  invites : List (Identifier × Identifier)
  names : List Identifier
  node_length : ∀ n ∈ nodes, n.length = kIdentifierSize
  invites_nodes : ∀ i ∈ invites, i.1 ∈ nodes ∧ i.2 ∈ nodes
  invites_irrefl : ∀ i ∈ invites, i.1 ≠ i.2
  invites_asymm : ∀ i ∈ invites, (i.2, i.1) ∉ invites
  names_nodup : names.Nodup
  names_length : ∀ x ∈ names, x.length = kIdentifierSize
  names_fresh : ∀ x ∈ names, x ∉ nodes

/-- The public functions. -/
inductive Call where
  | createMessagePipes
  | sendMessage (localHandle : MessagePipe) (userMessageId : ℤ) (body : List UInt8)
      (pipes : List MessagePipe)
  | bindReceiverDelegateToEndpoint (localHandle : MessagePipe) (delegate delegateTaskRunner : ℕ)
  | sendInvitationAndGetMessagePipe (fd : Channel) (callback : Option Callback)
  | acceptInvitation (fd : Channel) (finishedAcceptingInvitationCallback : Callback)
  deriving DecidableEq

namespace Process

def createMessagePipes (p : Process) (supply : List Identifier) : Except Stop Outcome := do
  let (name₁, supply) ← randomIdentifier supply
  let (name₂, supply) ← randomIdentifier supply
  let (handle₁, handle₂, core) ← p.createMessagePipesAndGetEndpoints name₁ name₂
  check (core.findHandle handle₁ ≠ none) (.check .handleNotFound)
  check (core.findHandle handle₂ ≠ none) (.check .handleNotFound)
  return ⟨{ p with toCore := core, held := p.held ++ [name₁, name₂] }, supply, none, none⟩

/-- The call of a generated proxy method bound to `localHandle`: the pipes it passes are no longer
    the embedder's to use. -/
def sendMessage (p : Process) (τ : ThreadId) (supply : List Identifier) (localHandle : MessagePipe)
    (userMessageId : ℤ) (body : List UInt8) (pipes : List MessagePipe) : Except Stop Outcome := do
  let localEndpoint ← orFail (p.findHandle localHandle) (.check .handleNotFound)
  let endpointsToSend ← orFail (pipes.mapM p.findHandle) (.check .handleNotFound)
  let p := { p with held := p.held.filter (· ∉ endpointsToSend) }
  let m : Message := ⟨userMessageId, [], [], body, []⟩
  return ⟨p.goto τ (.populating localEndpoint m endpointsToSend), supply, none, none⟩

def bindReceiverDelegateToEndpoint (p : Process) (τ : ThreadId) (supply : List Identifier)
    (localHandle : MessagePipe) (delegate delegateTaskRunner : ℕ) : Except Stop Outcome := do
  let x ← orFail (p.findHandle localHandle) (.check .handleNotFound)
  let endpoint ← p.endpoint x .handleNotFound
  let p ← p.acquire τ x
  let e ← endpoint.registerDelegate delegate delegateTaskRunner
  let p := { p with held := p.held ++ endpoint.incomingMessageQueue.flatMap p.endpointsOf }
  return ⟨(p.setEndpoint x e).release x, supply, none, none⟩

/-- `Core::SendInvitationAndGetMessagePipe`, up to the call of its `Node` namesake. -/
def sendInvitationAndGetMessagePipe (p : Process) (τ : ThreadId) (supply : List Identifier)
    (fd : Channel) (callback : Option Callback) : Except Stop Outcome :=
  let p := { p with
    remoteHasAcceptedInvitationCallback := callback
    invitations := p.invitations ++ [InvitationEvent.sent fd callback] }
  return ⟨p.goto τ (.inviting fd), supply, none, none⟩

def acceptInvitation (p : Process) (supply : List Identifier) (fd : Channel)
    (finishedAcceptingInvitationCallback : Callback) : Except Stop Outcome := do
  check (p.hasAcceptedInvitation = false) (.check .alreadyAccepted)
  let p := { p with
    finishedAcceptingInvitationCallback := some finishedAcceptingInvitationCallback
    nodeChannelMap := p.nodeChannelMap.insert kInitialChannelName fd
    watchedSockets := fd :: p.watchedSockets
    hasAcceptedInvitation := true }
  return ⟨p, supply, none, none⟩

/-- The first step of a call, by a thread that is idle. -/
def start (p : Process) (τ : ThreadId) (supply : List Identifier) : Call → Except Stop Outcome
  | .createMessagePipes => p.createMessagePipes supply
  | .sendMessage h i body pipes => p.sendMessage τ supply h i body pipes
  | .bindReceiverDelegateToEndpoint h d r => p.bindReceiverDelegateToEndpoint τ supply h d r
  | .sendInvitationAndGetMessagePipe fd callback =>
    p.sendInvitationAndGetMessagePipe τ supply fd callback
  | .acceptInvitation fd callback => p.acceptInvitation supply fd callback

/-- `Node::OnReceivedMessage`. -/
def onReceivedMessage : ChannelMessage → Thread
  | .sendInvitation i t x => .invited i t x
  | .acceptInvitation t n x => .acknowledging t n x
  | .userMessage m => .receiving m

end Process

/-- The processes, the messages in flight from one process to another, and the names left to draw.
    The last two fields are history: the messages read from each channel, and the payloads sent
    towards each address that is some endpoint's peer. -/
structure Network where
  process : Identifier → Process
  wire : Identifier → Identifier → List ChannelMessage
  supply : List Identifier
  received : Identifier → Identifier → List ChannelMessage
  sent : Address → List Payload

inductive Label where
  | call (n : Identifier) (τ : ThreadId) (c : Call)
  | read (n : Identifier) (channel : Channel)
  | run (n : Identifier) (τ : ThreadId)
  deriving DecidableEq

/-- The first step of a call, or the next step of a thread. -/
def Label.of (n : Identifier) (τ : ThreadId) : Option Call → Label
  | some c => .call n τ c
  | none => .run n τ

namespace Network

def initialProcess (n : Identifier) : Process where
  name := n
  hasAcceptedInvitation := false
  localEndpoints := .empty
  nodeChannelMap := .empty
  pendingInvitations := .empty
  handleTable := []
  nextAvailableHandle := 1
  remoteHasAcceptedInvitationCallback := none
  finishedAcceptingInvitationCallback := none
  thread _ := .idle
  lock _ := none
  watchedSockets := []
  held := []
  arrivals _ := []
  invitations := []
  reservations := []

def initial (T : Topology) : Network where
  process := initialProcess
  wire _ _ := []
  supply := T.names
  received _ _ := []
  sent _ := []

/-- The network after process `n` made a step with outcome `o`. -/
def apply (s : Network) (n : Identifier) (o : Outcome) : Network where
  process := upd₁ s.process n o.process
  wire :=
    match o.written with
    | some (channel, m) => upd s.wire n channel (s.wire n channel ++ [m])
    | none => s.wire
  supply := o.supply
  received := s.received
  sent :=
    match o.sent with
    | some (peer, payload) => upd₁ s.sent peer (s.sent peer ++ [payload])
    | none => s.sent

def step (s : Network) : Label → Except Stop Network
  | .call n τ c => do
    check ((s.process n).thread τ).isIdle .blocked
    let o ← (s.process n).start τ s.supply c
    return s.apply n o
  | .read n channel => do
    let p := s.process n
    check (p.thread .io).isIdle .blocked
    check (channel ∈ p.watchedSockets) .blocked
    match s.wire channel n with
    | [] => throw .blocked
    | m :: rest =>
      return { s with
        process := upd₁ s.process n (p.goto .io (Process.onReceivedMessage m))
        wire := upd s.wire channel n rest
        received := upd s.received channel n (s.received channel n ++ [m]) }
  | .run n τ => do
    let o ← (s.process n).run τ s.supply
    return s.apply n o

end Network

/-- What the embedder may call. Handles are used linearly: the handle of a call is one the embedder
    still has, and the pipes a message passes are distinct, still the embedder's, and unbound. Each
    socket serves one invitation. -/
def Allowed (T : Topology) (n : Identifier) (p : Process) : Call → Prop
  | .createMessagePipes => True
  | .sendMessage h _ _ pipes =>
    (p.findHandle h).any (· ∈ p.held) ∧
    (pipes.mapM p.findHandle).any fun xs =>
      xs.Nodup ∧ ∀ x ∈ xs, x ∈ p.held ∧ (p.localEndpoints.find x).any (·.state ≠ .kBound)
  | .bindReceiverDelegateToEndpoint h _ _ => (p.findHandle h).any (· ∈ p.held)
  | .sendInvitationAndGetMessagePipe fd _ =>
    (n, fd) ∈ T.invites ∧ ∀ e ∈ p.invitations, ∀ callback, e ≠ .sent fd callback
  | .acceptInvitation fd _ => (fd, n) ∈ T.invites

def Permitted (T : Topology) (s : Network) : Label → Prop
  | .call n _ c => n ∈ T.nodes ∧ Allowed T n (s.process n) c
  | .read n _ => n ∈ T.nodes
  | .run n _ => n ∈ T.nodes

/-- States reached by permitted steps, each of which also obeys the rule `ok`. -/
abbrev ReachableBy (T : Topology) (ok : Network → Label → Prop) : Network → Prop :=
  Reaches (fun s l s' => s.step l = .ok s') (fun s l => Permitted T s l ∧ ok s l)
    (Network.initial T)

/-- States reached by any interleaving of permitted steps. -/
abbrev Reachable (T : Topology) : Network → Prop := ReachableBy T fun _ _ => True

/-- No thread is in the middle of anything. -/
def Quiescent (s : Network) : Prop := ∀ n τ, (s.process n).thread τ = .idle

end Mage
