import Mage.Lib.Table
import Mage.Model.Endpoint

/-! The tables of one process: `Node` (`mage/core/node.h`) and the `Core` that owns it
    (`mage/core/core.h`), with the functions that only read and write those tables. A shared pointer
    to an endpoint is the endpoint's name, since every endpoint lives in `localEndpoints` under its
    own name. -/

namespace Mage
open Lib

/-- One end of a socket, by the name of the process at the other end. -/
abbrev Channel := Identifier

/-- A `base::OnceClosure` given to `SendInvitationAndGetMessagePipe`. -/
abbrev Callback := ℕ

structure Node where
  name : Identifier
  hasAcceptedInvitation : Bool
  localEndpoints : Table Identifier Endpoint
  nodeChannelMap : Table Identifier Channel
  pendingInvitations : Table Identifier Identifier

/-- The handle table is a `std::map`: `handleTable` lists its entries in the order of the handles. -/
structure Core extends Node where
  handleTable : List (MessagePipe × Identifier)
  nextAvailableHandle : MessagePipe
  remoteHasAcceptedInvitationCallback : Option Callback
  finishedAcceptingInvitationCallback : Option Callback

namespace Core

/-- `handle_table_.find(h)`. -/
def findHandle (c : Core) (h : MessagePipe) : Option Identifier := c.handleTable.lookup h

/-- Put a new entry before the first greater handle. -/
def placeHandle (h : MessagePipe) (x : Identifier) :
    List (MessagePipe × Identifier) → List (MessagePipe × Identifier)
  | [] => [(h, x)]
  | (k, y) :: rest => if h < k then (h, x) :: (k, y) :: rest else (k, y) :: placeHandle h x rest

/-- `handle_table_.insert({h, x})`: an entry already there is kept. -/
def insertHandle (h : MessagePipe) (x : Identifier) (table : List (MessagePipe × Identifier)) :
    List (MessagePipe × Identifier) :=
  match table.lookup h with
  | some _ => table
  | none => placeHandle h x table

theorem lookup_cons_ite (k j : MessagePipe) (y : Identifier)
    (table : List (MessagePipe × Identifier)) :
    ((j, y) :: table).lookup k = if k = j then some y else table.lookup k := by
  by_cases h : k = j
  · subst h; simp
  · have : (k == j) = false := by simp [h]
    simp [List.lookup_cons, h, this]

theorem lookup_placeHandle {h : MessagePipe} {x : Identifier}
    {table : List (MessagePipe × Identifier)} (ha : table.lookup h = none) (k : MessagePipe) :
    (placeHandle h x table).lookup k = if k = h then some x else table.lookup k := by
  induction table with
  | nil => simp [placeHandle, lookup_cons_ite]
  | cons entry table ih =>
    obtain ⟨j, y⟩ := entry
    rw [lookup_cons_ite] at ha
    have hj : h ≠ j := by
      rintro rfl
      simp at ha
    rw [if_neg hj] at ha
    rw [placeHandle]
    by_cases h1 : h < j
    · rw [if_pos h1, lookup_cons_ite]
    · rw [if_neg h1, lookup_cons_ite, lookup_cons_ite, ih ha]
      by_cases h2 : k = h
      · simp [h2, hj]
      · simp [h2]

theorem lookup_insertHandle (h k : MessagePipe) (x : Identifier)
    (table : List (MessagePipe × Identifier)) :
    (insertHandle h x table).lookup k =
      if k = h then some ((table.lookup h).getD x) else table.lookup k := by
  cases ha : table.lookup h with
  | none => simp [insertHandle, ha, lookup_placeHandle ha]
  | some y => by_cases hk : k = h <;> simp [insertHandle, ha, hk]

/-- The endpoint an iterator or pointer refers to, once its lookup was checked. -/
def endpoint (c : Core) (x : Identifier) (missing : Check) : Except Stop Endpoint :=
  orFail (c.localEndpoints.find x) (.check missing)

def setEndpoint (c : Core) (x : Identifier) (e : Endpoint) : Core :=
  { c with localEndpoints := c.localEndpoints.set x e }

def getNextMessagePipe (c : Core) : MessagePipe × Core :=
  (c.nextAvailableHandle, { c with nextAvailableHandle := c.nextAvailableHandle + 1 })

/-- `Node::RegisterEndpoint`. -/
def registerEndpoint (c : Core) (e : Endpoint) : Except Stop Core := do
  check (c.localEndpoints.find e.name = none) (.check .endpointInUse)
  return { c with localEndpoints := c.localEndpoints.insert e.name e }

def registerLocalHandleAndEndpoint (c : Core) (h : MessagePipe) (e : Endpoint) :
    Except Stop Core := do
  check (c.findHandle h = none) (.check .handleInUse)
  registerEndpoint { c with handleTable := insertHandle h e.name c.handleTable } e

/-- `Node::InitializeAndEntangleEndpoints`, on the two names it draws. -/
def initializeAndEntangleEndpoints (c : Core) (name₁ name₂ : Identifier) : Endpoint × Endpoint :=
  (.new name₁ ⟨c.name, name₂⟩, .new name₂ ⟨c.name, name₁⟩)

/-- `Node::CreateMessagePipesAndGetEndpoints`, on the two names it draws. -/
def createMessagePipesAndGetEndpoints (c : Core) (name₁ name₂ : Identifier) :
    Except Stop (MessagePipe × MessagePipe × Core) := do
  let (endpoint₁, endpoint₂) := c.initializeAndEntangleEndpoints name₁ name₂
  let (handle₁, c) := c.getNextMessagePipe
  let (handle₂, c) := c.getNextMessagePipe
  let c ← c.registerLocalHandleAndEndpoint handle₁ endpoint₁
  let c ← c.registerLocalHandleAndEndpoint handle₂ endpoint₂
  check (c.localEndpoints.find name₁ ≠ none) (.check .endpointNotRegistered)
  check (c.localEndpoints.find name₂ ≠ none) (.check .endpointNotRegistered)
  return (handle₁, handle₂, c)

/-- `Core::PopulateEndpointDescriptor` for the endpoint `x`, on the name it draws. -/
def populateEndpointDescriptor (c : Core) (x carrier crossNodeEndpointName : Identifier) :
    Except Stop EndpointDescriptor := do
  let host ← c.endpoint carrier .handleNotFound
  check (host.state ≠ .kUnboundAndProxying) (.check .carrierProxying)
  let endpointBeingSent ← c.endpoint x .handleNotFound
  return ⟨endpointBeingSent.name, crossNodeEndpointName, endpointBeingSent.peerAddress.nodeName,
    endpointBeingSent.peerAddress.endpointName⟩

/-- The first handle, in the order of the table, of the endpoint that `d` names in this node. -/
def recoverExistingMessagePipeFromEndpointDescriptor (c : Core) (d : EndpointDescriptor) :
    Except Stop MessagePipe := do
  let entry ← orFail (c.handleTable.find? (·.2 = d.endpointName)) (.check .existingEndpointNotReached)
  return entry.1

/-- A new endpoint, named and peered by `d`, with a new handle. -/
def recoverNewMessagePipeFromEndpointDescriptor (c : Core) (d : EndpointDescriptor) :
    Except Stop (MessagePipe × Core) := do
  let (handle, c) := c.getNextMessagePipe
  let c ← c.registerLocalHandleAndEndpoint handle (.new d.crossNodeEndpointName d.peerAddress)
  return (handle, c)

/-- The loop of `Endpoint::AcceptMessageOnDelegateThread` over the descriptors of `m`. -/
def queueExistingPipes (c : Core) (m : Message) : List EndpointDescriptor → Except Stop Message
  | [] => return m
  | d :: rest => do
    let pipe ← c.recoverExistingMessagePipeFromEndpointDescriptor d
    c.queueExistingPipes (m.queuePipe pipe) rest

/-- `Endpoint::AcceptMessageOnDelegateThread` of the endpoint `e`. -/
def acceptMessageOnDelegateThread (c : Core) (e : Endpoint) (m : Message) :
    Except Stop (Message × Endpoint) := do
  check (e.state ≠ .kUnboundAndProxying) (.check .acceptWhileProxying)
  let m ← c.queueExistingPipes m m.endpointsInMessage
  let e ← e.acceptMessage m
  return (m, e)

/-- The endpoints that the embedder can use after `m` was posted to it. -/
def endpointsOf (c : Core) (m : Message) : List Identifier := m.pipes.filterMap c.findHandle

end Core
end Mage
