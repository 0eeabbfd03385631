import Mage.Lib.Checked
import Mage.Model.Message

/-! Endpoints (`mage/core/endpoint.cc`). Every `CHECK` of the source is a checked statement: a run
    either passes it or stops with its name. -/

namespace Mage
open Lib

/-- The assertions of the source, by what they assert when they fail. -/
inductive Check where
  -- `Endpoint`
  | acceptWhileProxying | delegateAssigned | delegateNotAssigned | delegateTaskRunnerAssigned
  | noDelegateTaskRunner | notBound | notQueueing
  -- `Core`
  | handleNotFound | handleInUse | carrierProxying | existingEndpointNotReached
  | noFinishedAcceptingCallback
  -- `Node`
  | endpointInUse | endpointNotRegistered | alreadyAccepted | sentEndpointNotFound
  | sentEndpointBound | routing | identifierSize | noInitialChannel | noPendingInvitation
  | reservedEndpointNotFound | noTemporaryChannel | dependentNotFound | nullChannel
  | targetNotFound | proxyTargetIsSelf | backingEndpointNotFound
  deriving DecidableEq

/-- Why a thread cannot take its next step: it has none, it waits for a lock, the generator of names
    is not asked, or an assertion aborts the process. -/
inductive Stop where
  | idle | blocked | noName | check (c : Check)
  deriving DecidableEq

inductive State where
  | kBound | kUnboundAndQueueing | kUnboundAndProxying
  deriving DecidableEq

/-- An endpoint. `posted` is the log of the tasks posted to the delegate's task runner. -/
structure Endpoint where
  name : Identifier
  peerAddress : Address
  state : State
  proxyTarget : Address
  incomingMessageQueue : List Message
  delegate : Option ℕ
  delegateTaskRunner : Option ℕ
  posted : List Message
  deriving DecidableEq

namespace Endpoint

/-- The constructor, with the assignment of `peer_address` that follows each of its uses. -/
def new (name : Identifier) (peerAddress : Address) : Endpoint where
  name := name
  peerAddress := peerAddress
  state := .kUnboundAndQueueing
  proxyTarget := ⟨[], []⟩
  incomingMessageQueue := []
  delegate := none
  delegateTaskRunner := none
  posted := []

def postMessageToDelegate (e : Endpoint) (m : Message) : Except Stop Endpoint := do
  check (e.state = .kBound) (.check .notBound)
  check (e.delegate.isSome) (.check .delegateNotAssigned)
  check (e.delegateTaskRunner.isSome) (.check .noDelegateTaskRunner)
  return { e with posted := e.posted ++ [m] }

def acceptMessage (e : Endpoint) (m : Message) : Except Stop Endpoint :=
  match e.state with
  | .kUnboundAndQueueing => do
    check (e.delegate.isNone) (.check .delegateAssigned)
    return { e with incomingMessageQueue := e.incomingMessageQueue ++ [m] }
  | .kBound => do
    check (e.delegate.isSome) (.check .delegateNotAssigned)
    e.postMessageToDelegate m
  | .kUnboundAndProxying => throw (.check .acceptWhileProxying)

def acceptMessageOnIOThread (e : Endpoint) (m : Message) : Except Stop Endpoint := do
  check (e.state ≠ .kUnboundAndProxying) (.check .acceptWhileProxying)
  e.acceptMessage m

/-- The queue, and the endpoint with the queue moved out of it. -/
def takeQueuedMessages (e : Endpoint) : Except Stop (List Message × Endpoint) := do
  check (e.delegate.isNone) (.check .delegateAssigned)
  return (e.incomingMessageQueue, { e with incomingMessageQueue := [] })

/-- The loop of `RegisterDelegate` that replays the queue, front first. -/
def replay (e : Endpoint) : List Message → Except Stop Endpoint
  | [] => return { e with incomingMessageQueue := [] }
  | m :: rest => do
    let e ← e.postMessageToDelegate m
    e.replay rest

def registerDelegate (e : Endpoint) (delegate delegateTaskRunner : ℕ) : Except Stop Endpoint := do
  check (e.state = .kUnboundAndQueueing) (.check .notQueueing)
  check (e.delegate.isNone) (.check .delegateAssigned)
  check (e.delegateTaskRunner.isNone) (.check .delegateTaskRunnerAssigned)
  let e := { e with
    state := .kBound
    delegate := some delegate
    delegateTaskRunner := some delegateTaskRunner }
  e.replay e.incomingMessageQueue

def setProxying (e : Endpoint) (inNodeName inEndpointName : Identifier) : Except Stop Endpoint := do
  check (e.state = .kUnboundAndQueueing) (.check .notQueueing)
  return { e with state := .kUnboundAndProxying, proxyTarget := ⟨inNodeName, inEndpointName⟩ }

theorem replay_eq {ms : List Message} {e e' : Endpoint} (h : e.replay ms = .ok e') :
    e' = { e with incomingMessageQueue := [], posted := e.posted ++ ms } := by
  induction ms generalizing e with
  | nil => simp_all [replay]
  | cons m ms ih =>
    simp only [replay, postMessageToDelegate, bind_eq_ok, pure_eq_ok] at h
    obtain ⟨_, ⟨_, -, _, -, _, -, rfl⟩, h⟩ := h
    simp [ih h]

theorem registerDelegate_eq {e e' : Endpoint} {d r : ℕ} (h : e.registerDelegate d r = .ok e') :
    e.state = .kUnboundAndQueueing ∧ e.delegate = none ∧
    e' = { e with
      state := .kBound, delegate := some d, delegateTaskRunner := some r,
      incomingMessageQueue := [], posted := e.posted ++ e.incomingMessageQueue } := by
  simp only [registerDelegate, bind_eq_ok, check_eq_ok, Option.isNone_iff_eq_none] at h
  obtain ⟨_, hs, _, hd, _, -, h⟩ := h
  exact ⟨hs, hd, replay_eq h⟩

theorem acceptMessage_eq {e e' : Endpoint} {m : Message} (h : e.acceptMessage m = .ok e') :
    (e.state = .kUnboundAndQueueing ∧ e.delegate = none ∧
      e' = { e with incomingMessageQueue := e.incomingMessageQueue ++ [m] }) ∨
    (e.state = .kBound ∧ e.delegate.isSome ∧ e' = { e with posted := e.posted ++ [m] }) := by
  rw [acceptMessage] at h
  cases hs : e.state <;> simp [hs, postMessageToDelegate] at h ⊢
  case kBound => exact ⟨h.1, h.2.2.symm⟩
  case kUnboundAndQueueing => exact ⟨h.1, h.2.symm⟩

theorem acceptMessage_unproxied {e e' : Endpoint} {m : Message} (h : e.acceptMessage m = .ok e') :
    e.state ≠ .kUnboundAndProxying := by
  rcases acceptMessage_eq h with ⟨hq, -⟩ | ⟨hb, -⟩
  · simp [hq]
  · simp [hb]

theorem acceptMessage_stays {e e' : Endpoint} {m : Message} (h : e.acceptMessage m = .ok e') :
    e'.state ≠ .kUnboundAndProxying := by
  rcases acceptMessage_eq h with ⟨hq, -, rfl⟩ | ⟨hb, -, rfl⟩
  · simp [hq]
  · simp [hb]

theorem takeQueuedMessages_eq {e e' : Endpoint} {ms : List Message}
    (h : e.takeQueuedMessages = .ok (ms, e')) :
    e.delegate = none ∧ ms = e.incomingMessageQueue ∧ e' = { e with incomingMessageQueue := [] } := by
  simp only [takeQueuedMessages, bind_eq_ok, check_eq_ok, Option.isNone_iff_eq_none, pure_eq_ok,
    Prod.mk.injEq] at h
  obtain ⟨_, hd, rfl, rfl⟩ := h
  exact ⟨hd, rfl, rfl⟩

theorem setProxying_eq {e e' : Endpoint} {n x : Identifier} (h : e.setProxying n x = .ok e') :
    e.state = .kUnboundAndQueueing ∧
    e' = { e with state := .kUnboundAndProxying, proxyTarget := ⟨n, x⟩ } := by
  simp only [setProxying, bind_eq_ok, check_eq_ok, pure_eq_ok] at h
  obtain ⟨_, hs, rfl⟩ := h
  exact ⟨hs, rfl⟩

end Endpoint
end Mage
