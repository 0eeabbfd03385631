import Mage.Lib.LockOrder
import Mage.Model.Network

/-! The mutexes, one operation at a time. A step of a process takes table locks, each for a moment, and
    endpoint locks, some of which it keeps. Here each of these operations is a step of its own, and
    threads interleave between them. What the step does to the process happens in one of them. -/

namespace Mage
open Lib

inductive TableLock where
  | handleTableLock | nextAvailableHandleLock | localEndpointsLock | nodeChannelMapLock
  | pendingInvitationsLock
  deriving DecidableEq

inductive Lock where
  | table (t : TableLock)
  | endpoint (x : Identifier)
  deriving DecidableEq

/-- The lock operations of one step, in order: table locks taken and given back at once, the lock
    under which the step takes effect, more table locks, and the lock that is given back. -/
structure Plan where
  before : List TableLock := []
  lock : Option Lock := none
  after : List TableLock := []
  unlock : Option Lock := none

inductive Op where
  | lock (l : Lock)
  | effect
  | unlock (l : Lock)
  deriving DecidableEq

/-- A table is read or changed under its lock. -/
def Op.guarded (t : TableLock) : List Op := [.lock (.table t), .unlock (.table t)]

namespace Plan

/-- The step takes effect under `l` alone. -/
def under (l : Lock) : Plan := { lock := some l, unlock := some l }

def opening (π : Plan) : List Op :=
  π.before.flatMap Op.guarded ++ (π.lock.toList.map .lock ++ [.effect])

def closing (π : Plan) : List Op := π.after.flatMap Op.guarded ++ π.unlock.toList.map .unlock

end Plan

/-- The lock operations of `Core::RegisterLocalHandleAndEndpoint`. -/
def registerLocalHandleAndEndpointLocks : List TableLock :=
  [.handleTableLock, .handleTableLock, .localEndpointsLock]

/-- Those of `Node::CreateMessagePipesAndGetEndpoints`, up to its last. -/
def createMessagePipesAndGetEndpointsLocks : List TableLock :=
  [.nextAvailableHandleLock, .nextAvailableHandleLock] ++ registerLocalHandleAndEndpointLocks ++
  registerLocalHandleAndEndpointLocks

namespace Process

/-- The plan of the next step of a thread. An endpoint is looked up before it is locked. -/
def plan (p : Process) : Thread → Except Stop Plan
  | .populating _ _ (_ :: _) => return { before := [.handleTableLock, .handleTableLock] }
  -- `Core::SendMessage` looks its handle up once more
  | .populating _ _ [] => return { before := [.handleTableLock] }
  | .checking _ _ (d :: _) => do
    let _ ← p.endpoint d.endpointName .sentEndpointNotFound
    return .under (.endpoint d.endpointName)
  | .delivering peer m => do
    let endpoint ← p.endpoint peer .endpointNotRegistered
    if endpoint.state = .kUnboundAndProxying then
      return { lock := some (.endpoint peer) }
    else
      -- `RecoverExistingMessagePipeFromEndpointDescriptor`, with the endpoint still locked
      return { lock := some (.endpoint peer), unlock := some (.endpoint peer),
               after := m.endpointsInMessage.map fun _ => .handleTableLock }
  | .sending _ _ _ (d :: _) => do
    let _ ← p.endpoint d.endpointName .dependentNotFound
    return { lock := some (.endpoint d.endpointName) }
  | .sending _ _ _ [] => return .under (.table .nodeChannelMapLock)
  | .unlocking _ (x :: _) => return { unlock := some (.endpoint x) }
  | .unlocking b [] =>
    match b.messagesToSend, b.caller with
    | [], .sendMessageToProxy peer => return { unlock := some (.endpoint peer) }
    | [], .onReceivedAcceptInvitation reserved _ => return { unlock := some (.endpoint reserved) }
    | _, _ => return {}
  | .receiving m => do
    let _ ← p.endpoint m.targetEndpoint .targetNotFound
    return { lock := some (.endpoint m.targetEndpoint) }
  | .recovering _ _ _ (_ :: _) =>
    return { before := [.nextAvailableHandleLock, .handleTableLock, .handleTableLock],
             lock := some (.table .localEndpointsLock),
             unlock := some (.table .localEndpointsLock) }
  | .forwarding _ _ _ _ [] => return .under (.table .nodeChannelMapLock)
  | .releasing x => return { unlock := some (.endpoint x) }
  | .accepted _ =>
    return { before := [.nextAvailableHandleLock], lock := some (.table .handleTableLock),
             unlock := some (.table .handleTableLock) }
  | .acknowledging _ _ _ => return .under (.table .pendingInvitationsLock)
  | .reserving r _ _ _ => do
    let _ ← p.endpoint r .reservedEndpointNotFound
    return { lock := some (.endpoint r) }
  | .rekeying _ _ _ => return .under (.table .nodeChannelMapLock)
  | .inviting _ =>
    return { before := createMessagePipesAndGetEndpointsLocks,
             lock := some (.table .localEndpointsLock),
             unlock := some (.table .localEndpointsLock) }
  | .creatingChannel _ _ _ => return .under (.table .nodeChannelMapLock)
  | .insertingPending _ _ _ => return .under (.table .pendingInvitationsLock)
  | _ => return {}

/-- The plan of the first step of a call. -/
def callPlan (p : Process) : Call → Except Stop Plan
  | .createMessagePipes =>
    return { before := createMessagePipesAndGetEndpointsLocks ++ [.localEndpointsLock],
             lock := some (.table .handleTableLock), unlock := some (.table .handleTableLock) }
  | .bindReceiverDelegateToEndpoint h _ _ => do
    let x ← orFail (p.findHandle h) (.check .handleNotFound)
    return { before := [.handleTableLock], lock := some (.endpoint x),
             unlock := some (.endpoint x) }
  | _ => return {}

def planOf (p : Process) (τ : ThreadId) : Option Call → Except Stop Plan
  | some c => p.callPlan c
  | none => p.plan (p.thread τ)

end Process

/-- A network with its mutexes: who holds each, which operations each thread has left in its step, and
    which call it is about to begin. -/
structure Locking where
  network : Network
  holder : Identifier → Lock → Option ThreadId
  todo : Identifier → ThreadId → List Op
  calling : Identifier → ThreadId → Option Call

namespace Locking

def initial (T : Topology) : Locking where
  network := .initial T
  holder _ _ := none
  todo _ _ := []
  calling _ _ := none

def plan (s : Locking) (n : Identifier) (τ : ThreadId) : Except Stop Plan :=
  (s.network.process n).planOf τ (s.calling n τ)

/-- The step of the network that thread `τ` is in. -/
def label (s : Locking) (n : Identifier) (τ : ThreadId) : Label := .of n τ (s.calling n τ)

def step (s : Locking) : Label → Except Stop Locking
  | .call n τ c => do
    check (((s.network.process n).thread τ).isIdle ∧ s.todo n τ = []) .blocked
    let π ← (s.network.process n).callPlan c
    return { s with
      todo := upd s.todo n τ π.opening
      calling := upd s.calling n τ (some c) }
  | .read n channel => do
    check (s.todo n .io = []) .blocked
    let network ← s.network.step (.read n channel)
    return { s with network }
  | .run n τ =>
    match s.todo n τ with
    | [] => do
      check (¬ ((s.network.process n).thread τ).isIdle) .idle
      let π ← s.plan n τ
      return { s with todo := upd s.todo n τ π.opening }
    | .lock l :: rest => do
      check (s.holder n l = none) .blocked
      return { s with
        holder := upd s.holder n l (some τ)
        todo := upd s.todo n τ rest }
    | .effect :: _ => do
      let π ← s.plan n τ
      let network ← s.network.step (s.label n τ)
      return { s with
        network
        todo := upd s.todo n τ π.closing
        calling := upd s.calling n τ none }
    | .unlock l :: rest =>
      return { s with
        holder := upd s.holder n l none
        todo := upd s.todo n τ rest }

/-- As for the network; what a call is given stays the embedder's until the call takes effect. -/
def Permitted (T : Topology) (s : Locking) : Label → Prop
  | .run n τ => Mage.Permitted T s.network (s.label n τ)
  | l => Mage.Permitted T s.network l

/-- States reached by any interleaving of lock operations. -/
abbrev Reachable (T : Topology) : Locking → Prop :=
  Reaches (fun s l s' => s.step l = .ok s') (Permitted T) (initial T)

/-- The next thing that thread `τ` does is to lock `l`. -/
def Wants (s : Locking) (n : Identifier) (τ : ThreadId) (l : Lock) : Prop :=
  ∃ rest, s.todo n τ = .lock l :: rest

/-- Thread `τ` of node `n` waits for a lock that thread `σ` holds. -/
abbrev Waits (s : Locking) (n : Identifier) : ThreadId → ThreadId → Prop :=
  WaitsFor (s.Wants n) fun σ l => s.holder n l = some σ

end Locking
end Mage
