import Mage.Model.Moves

/-! What can go wrong in one step: `Fault` lists the assertions that a call or a thread step can fail,
    each with the condition under which it does, and `run_fault` and `start_fault` say that there are
    no others. That a process never aborts at some assertion is proved by cases on `Fault`. -/

namespace Mage
open Lib

namespace Endpoint
variable {e : Endpoint} {m : Message} {s : Stop}

theorem acceptMessage_fault (h : e.acceptMessage m = .error s) :
    (e.state = .kUnboundAndQueueing ∧ e.delegate ≠ none ∧ s = .check .delegateAssigned) ∨
    (e.state = .kBound ∧ e.delegate = none ∧ s = .check .delegateNotAssigned) ∨
    (e.state = .kBound ∧ e.delegateTaskRunner = none ∧ s = .check .noDelegateTaskRunner) ∨
    (e.state = .kUnboundAndProxying ∧ s = .check .acceptWhileProxying) := by
  rw [acceptMessage] at h
  cases hs : e.state <;>
    simp [hs, postMessageToDelegate, bind_eq_error, pure_ne_error, throw_eq_error,
      -bind_pure_comp] at h ⊢
  · rcases h with ⟨h1, h2⟩ | ⟨-, ⟨h1, h2⟩ | ⟨-, h1, h2⟩⟩ <;> simp_all
  · simp_all
  · simp_all

theorem acceptMessage_check {k : Check} (h : e.acceptMessage m = .error (.check k)) :
    k = .delegateAssigned ∨ k = .delegateNotAssigned ∨ k = .noDelegateTaskRunner ∨
      k = .acceptWhileProxying := by
  rcases acceptMessage_fault h with ⟨-, -, hk⟩ | ⟨-, -, hk⟩ | ⟨-, -, hk⟩ | ⟨-, hk⟩ <;> cases hk <;> simp

theorem takeQueuedMessages_fault (h : e.takeQueuedMessages = .error s) :
    e.delegate ≠ none ∧ s = .check .delegateAssigned := by
  simp [takeQueuedMessages, bind_eq_error, pure_ne_error, -bind_pure_comp] at h
  exact ⟨h.1, h.2.symm⟩

theorem setProxying_fault {n x : Identifier} (h : e.setProxying n x = .error s) :
    e.state ≠ .kUnboundAndQueueing ∧ s = .check .notQueueing := by
  simp [setProxying, bind_eq_error, pure_ne_error, -bind_pure_comp] at h
  exact ⟨h.1, h.2.symm⟩

/-- A bound endpoint with a delegate takes whatever is replayed to it. -/
theorem replay_ok {l : List Message} {e : Endpoint} (hs : e.state = .kBound)
    (hd : e.delegate.isSome) (hr : e.delegateTaskRunner.isSome) : ∃ e', e.replay l = .ok e' := by
  induction l generalizing e with
  | nil => exact ⟨_, rfl⟩
  | cons m l ih =>
    obtain ⟨e', h⟩ := ih (e := { e with posted := e.posted ++ [m] }) hs hd hr
    refine ⟨e', ?_⟩
    simpa [replay, postMessageToDelegate, hs, hd, hr] using h

theorem registerDelegate_fault {d r : ℕ} (h : e.registerDelegate d r = .error s) :
    (e.state ≠ .kUnboundAndQueueing ∧ s = .check .notQueueing) ∨
    (e.delegate ≠ none ∧ s = .check .delegateAssigned) ∨
    (e.delegateTaskRunner ≠ none ∧ s = .check .delegateTaskRunnerAssigned) := by
  rw [registerDelegate] at h
  rcases bind_eq_error.1 h with h | ⟨_, -, h⟩
  · obtain ⟨h1, rfl⟩ := check_eq_error.1 h
    exact .inl ⟨h1, rfl⟩
  · rcases bind_eq_error.1 h with h | ⟨_, -, h⟩
    · obtain ⟨h1, rfl⟩ := check_eq_error.1 h
      exact .inr (.inl ⟨by simpa using h1, rfl⟩)
    · rcases bind_eq_error.1 h with h | ⟨_, -, h⟩
      · obtain ⟨h1, rfl⟩ := check_eq_error.1 h
        exact .inr (.inr ⟨by simpa using h1, rfl⟩)
      · obtain ⟨e', he'⟩ := replay_ok (l := e.incomingMessageQueue) (e := { e with
          state := .kBound, delegate := some d, delegateTaskRunner := some r }) rfl rfl rfl
        rw [he'] at h
        cases h

end Endpoint

namespace Process

/-- The assertions that a step of thread `τ`, or the first step of a call, can fail. -/
inductive Fault (p : Process) (τ : ThreadId) (supply : List Identifier) :
    Option Call → Check → Prop where
  -- the first step of a call
  | callHandle {c : Call} : Fault p τ supply (some c) .handleNotFound
  | callCreate {x y : Identifier} {rest : List Identifier} {k : Check}
      (hs : supply = x :: y :: rest) (hk : k = .endpointInUse → p.localEndpoints.find x ≠ none ∨
        p.localEndpoints.find y ≠ none ∨ x = y)
      (hk' : k = .endpointInUse ∨ k = .handleInUse) :
      Fault p τ supply (some .createMessagePipes) k
  | callBind {h : MessagePipe} {d r : ℕ} {x : Identifier} {e : Endpoint}
      (hx : p.findHandle h = some x) (he : p.localEndpoints.find x = some e)
      (hq : e.state ≠ .kUnboundAndQueueing) :
      Fault p τ supply (some (.bindReceiverDelegateToEndpoint h d r)) .notQueueing
  | callBound {h : MessagePipe} {d r : ℕ} {x : Identifier} {e : Endpoint}
      (hx : p.findHandle h = some x) (he : p.localEndpoints.find x = some e)
      (hd : e.delegate ≠ none) :
      Fault p τ supply (some (.bindReceiverDelegateToEndpoint h d r)) .delegateAssigned
  | callRunner {h : MessagePipe} {d r : ℕ} {x : Identifier} {e : Endpoint}
      (hx : p.findHandle h = some x) (he : p.localEndpoints.find x = some e)
      (hd : e.delegateTaskRunner ≠ none) :
      Fault p τ supply (some (.bindReceiverDelegateToEndpoint h d r)) .delegateTaskRunnerAssigned
  | callAccept {fd : Channel} {callback : Callback} (ha : p.hasAcceptedInvitation = true) :
      Fault p τ supply (some (.acceptInvitation fd callback)) .alreadyAccepted
  -- `Node::SendMessage`
  | populateHandle {x y : Identifier} {m : Message} {ys : List Identifier}
      (ht : p.thread τ = .populating x m (y :: ys))
      (hf : p.localEndpoints.find x = none ∨ p.localEndpoints.find y = none) :
      Fault p τ supply none .handleNotFound
  | populateProxying {x y : Identifier} {m : Message} {ys : List Identifier} {e : Endpoint}
      (ht : p.thread τ = .populating x m (y :: ys)) (he : p.localEndpoints.find x = some e)
      (hq : e.state = .kUnboundAndProxying) : Fault p τ supply none .carrierProxying
  | sentMissing {x : Identifier} {m : Message} {d : EndpointDescriptor}
      {ds : List EndpointDescriptor} (ht : p.thread τ = .checking x m (d :: ds))
      (hf : p.localEndpoints.find d.endpointName = none) :
      Fault p τ supply none .sentEndpointNotFound
  | sentBound {x : Identifier} {m : Message} {d : EndpointDescriptor}
      {ds : List EndpointDescriptor} {e : Endpoint} (ht : p.thread τ = .checking x m (d :: ds))
      (he : p.localEndpoints.find d.endpointName = some e) (hb : e.state = .kBound) :
      Fault p τ supply none .sentEndpointBound
  | routeHandle {x : Identifier} {m : Message} (ht : p.thread τ = .checking x m [])
      (hf : p.localEndpoints.find x = none) : Fault p τ supply none .handleNotFound
  | route {x : Identifier} {m : Message} {e : Endpoint} (ht : p.thread τ = .checking x m [])
      (he : p.localEndpoints.find x = some e)
      (hr : (p.localEndpoints.find e.peerAddress.endpointName).isNone =
        (p.nodeChannelMap.find e.peerAddress.nodeName).isNone) : Fault p τ supply none .routing
  | routeSize {x : Identifier} {m : Message} {e : Endpoint} (ht : p.thread τ = .checking x m [])
      (he : p.localEndpoints.find x = some e)
      (hl : e.peerAddress.endpointName.length ≠ kIdentifierSize) :
      Fault p τ supply none .identifierSize
  | deliverMissing {x : Identifier} {m : Message} (ht : p.thread τ = .delivering x m)
      (hf : p.localEndpoints.find x = none) : Fault p τ supply none .endpointNotRegistered
  | deliverPipe {x : Identifier} {m : Message} {e : Endpoint} {d : EndpointDescriptor}
      (ht : p.thread τ = .delivering x m) (he : p.localEndpoints.find x = some e)
      (hd : d ∈ m.endpointsInMessage) (hf : ∀ h, (h, d.endpointName) ∉ p.handleTable) :
      Fault p τ supply none .existingEndpointNotReached
  | deliver {x : Identifier} {m m' : Message} {e : Endpoint} {k : Check}
      (ht : p.thread τ = .delivering x m) (he : p.localEndpoints.find x = some e)
      (hq : e.state ≠ .kUnboundAndProxying) (hk : e.acceptMessage m' = .error (.check k)) :
      Fault p τ supply none k
  -- `SendMessagesAndRecursiveDependents`
  | takeMissing {b : Batch} {m : Message} {done ds : List EndpointDescriptor}
      {d : EndpointDescriptor} (ht : p.thread τ = .sending b m done (d :: ds))
      (hf : p.localEndpoints.find d.endpointName = none) : Fault p τ supply none .dependentNotFound
  | takeDelegate {b : Batch} {m : Message} {done ds : List EndpointDescriptor}
      {d : EndpointDescriptor} {e : Endpoint} (ht : p.thread τ = .sending b m done (d :: ds))
      (he : p.localEndpoints.find d.endpointName = some e) (hd : e.delegate ≠ none) :
      Fault p τ supply none .delegateAssigned
  | takeState {b : Batch} {m : Message} {done ds : List EndpointDescriptor}
      {d : EndpointDescriptor} {e : Endpoint} (ht : p.thread τ = .sending b m done (d :: ds))
      (he : p.localEndpoints.find d.endpointName = some e) (hq : e.state ≠ .kUnboundAndQueueing) :
      Fault p τ supply none .notQueueing
  | write {b : Batch} {m : Message} {done : List EndpointDescriptor}
      (ht : p.thread τ = .sending b m done []) (hc : p.nodeChannelMap.find b.targetNodeName = none) :
      Fault p τ supply none .nullChannel
  -- `Node::OnReceivedUserMessage`
  | receive {m : Message} (ht : p.thread τ = .receiving m)
      (hf : p.localEndpoints.find m.targetEndpoint = none) : Fault p τ supply none .targetNotFound
  | recoverHandle {x : Identifier} {m : Message} {done ds : List EndpointDescriptor}
      {d : EndpointDescriptor} (ht : p.thread τ = .recovering x m done (d :: ds)) :
      Fault p τ supply none .handleInUse
  | recover {x : Identifier} {m : Message} {done ds : List EndpointDescriptor}
      {d : EndpointDescriptor} (ht : p.thread τ = .recovering x m done (d :: ds))
      (hf : p.localEndpoints.find d.crossNodeEndpointName ≠ none) :
      Fault p τ supply none .endpointInUse
  | dispatchMissing {x : Identifier} {m : Message} {done : List EndpointDescriptor}
      (ht : p.thread τ = .recovering x m done []) (hf : p.localEndpoints.find x = none) :
      Fault p τ supply none .targetNotFound
  | relay {x : Identifier} {m : Message} {done : List EndpointDescriptor} {e : Endpoint}
      (ht : p.thread τ = .recovering x m done []) (he : p.localEndpoints.find x = some e)
      (hq : e.state = .kUnboundAndProxying) (hn : e.proxyTarget.nodeName = p.name) :
      Fault p τ supply none .proxyTargetIsSelf
  | dispatch {x : Identifier} {m : Message} {done : List EndpointDescriptor} {e : Endpoint}
      {k : Check} (ht : p.thread τ = .recovering x m done []) (he : p.localEndpoints.find x = some e)
      (hq : e.state ≠ .kUnboundAndProxying) (hk : e.acceptMessage m = .error (.check k)) :
      Fault p τ supply none k
  | forwardMissing {x n : Identifier} {m : Message} {done ds : List EndpointDescriptor}
      {d : EndpointDescriptor} (ht : p.thread τ = .forwarding x n m done (d :: ds))
      (hf : p.localEndpoints.find d.crossNodeEndpointName = none) :
      Fault p τ supply none .backingEndpointNotFound
  | forward {x n : Identifier} {m : Message} {done ds : List EndpointDescriptor}
      {d : EndpointDescriptor} {e : Endpoint} (ht : p.thread τ = .forwarding x n m done (d :: ds))
      (he : p.localEndpoints.find d.crossNodeEndpointName = some e)
      (hq : e.state ≠ .kUnboundAndQueueing) : Fault p τ supply none .notQueueing
  | writeForwarded {x n : Identifier} {m : Message} {done : List EndpointDescriptor}
      (ht : p.thread τ = .forwarding x n m done []) (hc : p.nodeChannelMap.find n = none) :
      Fault p τ supply none .nullChannel
  -- invitations
  | rekeyInitial {i t x : Identifier} (ht : p.thread τ = .invited i t x)
      (hc : p.nodeChannelMap.find kInitialChannelName = none) :
      Fault p τ supply none .noInitialChannel
  | reply {i t x : Identifier} (ht : p.thread τ = .replying i t x)
      (hc : p.nodeChannelMap.find i = none) : Fault p τ supply none .nullChannel
  | accepted {x : Identifier} (ht : p.thread τ = .accepted x)
      (hc : p.finishedAcceptingInvitationCallback = none) :
      Fault p τ supply none .noFinishedAcceptingCallback
  | acknowledge {t n x : Identifier} (ht : p.thread τ = .acknowledging t n x)
      (hp : p.pendingInvitations.find t = none) : Fault p τ supply none .noPendingInvitation
  | reserveMissing {r t n x : Identifier} (ht : p.thread τ = .reserving r t n x)
      (hf : p.localEndpoints.find r = none) : Fault p τ supply none .reservedEndpointNotFound
  | reserve {r t n x : Identifier} {e : Endpoint} (ht : p.thread τ = .reserving r t n x)
      (he : p.localEndpoints.find r = some e) (hq : e.state ≠ .kUnboundAndQueueing) :
      Fault p τ supply none .notQueueing
  | rekey {r t n : Identifier} (ht : p.thread τ = .rekeying r t n)
      (hc : p.nodeChannelMap.find t = none) : Fault p τ supply none .noTemporaryChannel
  | drainMissing {r : Identifier} {channel : Channel} (ht : p.thread τ = .draining r channel)
      (hf : p.localEndpoints.find r = none) : Fault p τ supply none .reservedEndpointNotFound
  | drain {r : Identifier} {channel : Channel} {e : Endpoint}
      (ht : p.thread τ = .draining r channel) (he : p.localEndpoints.find r = some e)
      (hd : e.delegate ≠ none) : Fault p τ supply none .delegateAssigned
  | invite {channel : Channel} {x y : Identifier} {rest : List Identifier} {k : Check}
      (ht : p.thread τ = .inviting channel) (hs : supply = x :: y :: rest)
      (hk : k = .endpointInUse → p.localEndpoints.find x ≠ none ∨
        p.localEndpoints.find y ≠ none ∨ x = y)
      (hk' : k = .endpointInUse ∨ k = .handleInUse) : Fault p τ supply none k
  | startChannel {l r t : Identifier} (ht : p.thread τ = .startingChannel l r t)
      (hc : p.nodeChannelMap.find t = none) : Fault p τ supply none .nullChannel
  | startMissing {l r t : Identifier} (ht : p.thread τ = .startingChannel l r t)
      (hf : p.localEndpoints.find r = none) : Fault p τ supply none .endpointNotRegistered

variable {p : Process} {τ : ThreadId} {supply : List Identifier} {k : Check}

theorem acquire_ne_check {x : Identifier} : p.acquire τ x ≠ .error (.check k) := by
  intro h
  simp [acquire, -bind_pure_comp, bind_eq_error, pure_ne_error] at h

theorem endpoint_fault {c : Core} {x : Identifier} {j : Check} {s : Stop} :
    c.endpoint x j = .error s ↔ c.localEndpoints.find x = none ∧ .check j = s := by
  simp [Core.endpoint]

theorem randomIdentifier_ne_check : randomIdentifier supply ≠ .error (.check k) := by
  cases supply <;> simp [randomIdentifier, throw_eq_error, pure_ne_error]

theorem channelTo_fault {n : Identifier} {s : Stop} :
    p.channelTo n = .error s ↔ p.nodeChannelMap.find n = none ∧ .check .nullChannel = s := by
  simp [channelTo]

theorem populate_fault {x : Identifier} {m : Message} {ys : List Identifier}
    (ht : p.thread τ = .populating x m ys) (h : p.populate τ supply x m ys = .error (.check k)) :
    Fault p τ supply none k := by
  cases ys with
  | nil => exact absurd h pure_ne_error
  | cons y ys =>
    simp only [populate, Core.populateEndpointDescriptor, bind_eq_error, endpoint_fault,
      randomIdentifier_ne_check, pure_ne_error, check_eq_error, Core.endpoint_eq_ok, false_or,
      or_false, and_false, exists_false, Stop.check.injEq] at h
    obtain ⟨_, -, ⟨hf, rfl⟩ | ⟨e, he, ⟨hq, rfl⟩ | ⟨_, -, hf, rfl⟩⟩⟩ := h
    · exact .populateHandle ht (.inl hf)
    · exact .populateProxying ht he (by simpa using hq)
    · exact .populateHandle ht (.inr hf)

theorem checkOrRoute_fault {x : Identifier} {m : Message} {ds : List EndpointDescriptor}
    (ht : p.thread τ = .checking x m ds)
    (h : p.checkOrRoute τ supply x m ds = .error (.check k)) : Fault p τ supply none k := by
  cases ds with
  | cons d ds =>
    simp only [checkOrRoute, bind_eq_error, endpoint_fault, acquire_ne_check, pure_ne_error,
      check_eq_error, Core.endpoint_eq_ok, false_or, or_false, and_false, exists_false,
      Stop.check.injEq] at h
    obtain ⟨hf, rfl⟩ | ⟨e, he, _, -, hb, rfl⟩ := h
    · exact .sentMissing ht hf
    · exact .sentBound ht he (by simpa using hb)
  | nil =>
    simp only [checkOrRoute, bind_eq_error, endpoint_fault, check_eq_error, Core.endpoint_eq_ok,
      Stop.check.injEq] at h
    obtain ⟨hf, rfl⟩ | ⟨e, he, ⟨hr, rfl⟩ | ⟨_, -, ⟨hl, rfl⟩ | ⟨_, -, h⟩⟩⟩ := h
    · exact .routeHandle ht hf
    · exact .route ht he (by simpa using hr)
    · exact .routeSize ht he hl
    · split_ifs at h <;> exact absurd h pure_ne_error

theorem queueExistingPipes_fault {c : Core} {m : Message} {ds : List EndpointDescriptor} {s : Stop}
    (h : c.queueExistingPipes m ds = .error s) : s = .check .existingEndpointNotReached ∧
      ∃ d ∈ ds, ∀ j, (j, d.endpointName) ∉ c.handleTable := by
  induction ds generalizing m with
  | nil => exact absurd h pure_ne_error
  | cons d ds ih =>
    simp only [Core.queueExistingPipes, Core.recoverExistingMessagePipeFromEndpointDescriptor,
      bind_eq_error, orFail_eq_error, pure_ne_error, and_false, exists_false, or_false] at h
    obtain ⟨hf, rfl⟩ | ⟨_, -, h⟩ := h
    · refine ⟨rfl, d, List.mem_cons_self, fun j hj => ?_⟩
      simpa using List.find?_eq_none.1 hf _ hj
    · obtain ⟨rfl, d', hd', hall⟩ := ih h
      exact ⟨rfl, d', List.mem_cons_of_mem _ hd', hall⟩

theorem deliver_fault {x : Identifier} {m : Message} (ht : p.thread τ = .delivering x m)
    (h : p.deliver τ supply x m = .error (.check k)) : Fault p τ supply none k := by
  simp only [deliver, bind_eq_error, endpoint_fault, acquire_ne_check, Core.endpoint_eq_ok,
    acquire_eq, false_or, Stop.check.injEq] at h
  obtain ⟨hf, rfl⟩ | ⟨e, he, _, ⟨-, rfl⟩, h⟩ := h
  · exact .deliverMissing ht hf
  · by_cases hq : e.state = .kUnboundAndProxying
    · simp only [hq] at h
      exact absurd h pure_ne_error
    · have h : (p.setLock x (some τ)).acceptMessageOnDelegateThread e m = .error (.check k) := by
        cases hs : e.state <;> simp_all [bind_eq_error, pure_ne_error, -bind_pure_comp]
      simp only [Core.acceptMessageOnDelegateThread, bind_eq_error, check_eq_error,
        pure_ne_error, and_false, exists_false, or_false] at h
      obtain ⟨hn, -⟩ | ⟨_, -, h | ⟨m', -, h⟩⟩ := h
      · exact absurd hq hn
      · obtain ⟨hk, d, hd, hall⟩ := queueExistingPipes_fault h
        cases hk
        exact .deliverPipe ht he hd hall
      · exact .deliver ht he hq h

theorem sendNext_fault {b : Batch} {m : Message} {done ds : List EndpointDescriptor}
    (ht : p.thread τ = .sending b m done ds)
    (h : p.sendNext τ supply b m done ds = .error (.check k)) : Fault p τ supply none k := by
  cases ds with
  | cons d ds =>
    simp only [sendNext, bind_eq_error, endpoint_fault, acquire_ne_check, Core.endpoint_eq_ok,
      acquire_eq, false_or, pure_ne_error, and_false, exists_false, or_false, Stop.check.injEq,
      Prod.exists] at h
    obtain ⟨hf, rfl⟩ | ⟨e, he, _, -, h | ⟨ms, e₁, h₁, h⟩⟩ := h
    · exact .takeMissing ht hf
    · obtain ⟨hd, hk⟩ := Endpoint.takeQueuedMessages_fault h
      cases hk
      exact .takeDelegate ht he hd
    · obtain ⟨-, -, rfl⟩ := Endpoint.takeQueuedMessages_eq h₁
      obtain ⟨hq, hk⟩ := Endpoint.setProxying_fault h
      cases hk
      exact .takeState ht he hq
  | nil =>
    simp only [sendNext, bind_eq_error, channelTo_fault, pure_ne_error, and_false, exists_false,
      or_false, Stop.check.injEq] at h
    obtain ⟨hc, rfl⟩ := h
    exact .write ht hc

theorem unlockNext_ne_check {b : Batch} {xs : List Identifier} :
    p.unlockNext τ supply b xs ≠ .error (.check k) := by
  intro h
  cases xs with
  | cons x xs => exact absurd h pure_ne_error
  | nil =>
    rw [unlockNext] at h
    split at h
    · exact absurd h pure_ne_error
    · split at h <;> exact absurd h pure_ne_error

theorem register_fault {c : Core} {e : Endpoint} {j : MessagePipe} {s : Stop}
    (h : c.registerLocalHandleAndEndpoint j e = .error s) :
    s = .check .handleInUse ∨
    (s = .check .endpointInUse ∧ c.localEndpoints.find e.name ≠ none) := by
  simp only [Core.registerLocalHandleAndEndpoint, Core.registerEndpoint, bind_eq_error,
    check_eq_error, pure_ne_error, and_false, exists_false, or_false] at h
  obtain ⟨-, rfl⟩ | ⟨_, -, hf, rfl⟩ := h
  · exact .inl rfl
  · exact .inr ⟨rfl, hf⟩

theorem recoverNext_fault {x : Identifier} {m : Message} {done ds : List EndpointDescriptor}
    (ht : p.thread τ = .recovering x m done ds)
    (h : p.recoverNext τ supply x m done ds = .error (.check k)) : Fault p τ supply none k := by
  cases ds with
  | cons d ds =>
    simp only [recoverNext, Core.recoverNewMessagePipeFromEndpointDescriptor,
      Core.getNextMessagePipe, bind_eq_error, pure_ne_error, and_false, exists_false,
      or_false] at h
    rcases register_fault h with hk | ⟨hk, hf⟩
    · cases hk
      exact .recoverHandle ht
    · cases hk
      exact .recover ht hf
  | nil =>
    simp only [recoverNext, bind_eq_error, endpoint_fault, Core.endpoint_eq_ok,
      Stop.check.injEq] at h
    obtain ⟨hf, rfl⟩ | ⟨e, he, h⟩ := h
    · exact .dispatchMissing ht hf
    · by_cases hq : e.state = .kUnboundAndProxying
      · simp only [hq, bind_eq_error, check_eq_error, pure_ne_error, and_false, exists_false,
          or_false, Stop.check.injEq] at h
        obtain ⟨hn, rfl⟩ := h
        exact .relay ht he hq (by simpa using hn)
      · have h : e.acceptMessageOnIOThread m = .error (.check k) := by
          cases hs : e.state <;> simp_all [bind_eq_error, pure_ne_error, -bind_pure_comp]
        simp only [Endpoint.acceptMessageOnIOThread, bind_eq_error, check_eq_error] at h
        obtain ⟨hn, -⟩ | ⟨_, -, h⟩ := h
        · exact absurd hq hn
        · exact .dispatch ht he hq h

theorem forwardNext_fault {x n : Identifier} {m : Message} {done ds : List EndpointDescriptor}
    (ht : p.thread τ = .forwarding x n m done ds)
    (h : p.forwardNext τ supply x n m done ds = .error (.check k)) : Fault p τ supply none k := by
  cases ds with
  | cons d ds =>
    simp only [forwardNext, bind_eq_error, endpoint_fault, Core.endpoint_eq_ok,
      randomIdentifier_ne_check, false_or, pure_ne_error, and_false, exists_false, or_false,
      Stop.check.injEq, Prod.exists] at h
    obtain ⟨hf, rfl⟩ | ⟨e, he, _, _, -, h⟩ := h
    · exact .forwardMissing ht hf
    · obtain ⟨hq, hk⟩ := Endpoint.setProxying_fault h
      cases hk
      exact .forward ht he hq
  | nil =>
    simp only [forwardNext, bind_eq_error, channelTo_fault, pure_ne_error, and_false, exists_false,
      or_false, Stop.check.injEq] at h
    obtain ⟨hc, rfl⟩ := h
    exact .writeForwarded ht hc

/-- Creating a pipe fails when a handle or a name is taken. -/
theorem create_fault {c : Core} {x y : Identifier} {s : Stop}
    (h : c.createMessagePipesAndGetEndpoints x y = .error s) :
    s = .check .handleInUse ∨ (s = .check .endpointInUse ∧
      (c.localEndpoints.find x ≠ none ∨ c.localEndpoints.find y ≠ none ∨ x = y)) := by
  simp only [Core.createMessagePipesAndGetEndpoints, Core.initializeAndEntangleEndpoints,
    Core.getNextMessagePipe, bind_eq_error, pure_ne_error, and_false, exists_false, or_false,
    check_eq_error] at h
  obtain h | ⟨c₁, h₁, h | ⟨c₂, h₂, ⟨hf, -⟩ | ⟨_, -, hf, -⟩⟩⟩ := h
  · exact (register_fault h).imp_right fun hf => ⟨hf.1, .inl hf.2⟩
  · obtain ⟨-, -, rfl⟩ := Core.registerLocalHandleAndEndpoint_eq h₁
    refine (register_fault h).imp_right fun hf => ⟨hf.1, ?_⟩
    replace hf := hf.2
    by_cases hxy : x = y
    · exact .inr (.inr hxy)
    · exact .inr (.inl (by simpa [Endpoint.new, Ne.symm hxy] using hf))
  all_goals
    obtain ⟨-, -, rfl⟩ := Core.registerLocalHandleAndEndpoint_eq h₁
    obtain ⟨-, -, rfl⟩ := Core.registerLocalHandleAndEndpoint_eq h₂
    refine absurd (fun hn => ?_) hf
    simp only [Endpoint.new, Table.find_set] at hn
    split_ifs at hn

/-- A thread under way fails one of the listed assertions. -/
theorem run_fault (h : p.run τ supply = .error (.check k)) : Fault p τ supply none k := by
  cases ht : p.thread τ with
  | idle => simp [run, ht, throw_eq_error] at h
  | populating => exact populate_fault ht (by simpa [run, ht] using h)
  | checking => exact checkOrRoute_fault ht (by simpa [run, ht] using h)
  | delivering => exact deliver_fault ht (by simpa [run, ht] using h)
  | sending => exact sendNext_fault ht (by simpa [run, ht] using h)
  | unlocking => exact absurd (by simpa [run, ht] using h) unlockNext_ne_check
  | receiving m =>
    simp only [run, ht, receive, bind_eq_error, endpoint_fault, acquire_ne_check, pure_ne_error,
      and_false, exists_false, or_false, Stop.check.injEq] at h
    obtain ⟨hf, rfl⟩ := h
    exact .receive ht hf
  | recovering => exact recoverNext_fault ht (by simpa [run, ht] using h)
  | forwarding => exact forwardNext_fault ht (by simpa [run, ht] using h)
  | releasing x =>
    simp only [run, ht] at h
    exact absurd h pure_ne_error
  | invited =>
    simp only [run, ht, rekeyInitial, bind_eq_error, orFail_eq_error, pure_ne_error, and_false,
      exists_false, or_false, Stop.check.injEq] at h
    obtain ⟨hc, rfl⟩ := h
    exact .rekeyInitial ht hc
  | accepting =>
    simp only [run, ht, accept, bind_eq_error, randomIdentifier_ne_check, pure_ne_error, and_false,
      exists_false, or_false] at h
  | replying =>
    simp only [run, ht, reply, bind_eq_error, channelTo_fault, pure_ne_error, and_false,
      exists_false, or_false, Stop.check.injEq] at h
    obtain ⟨hc, rfl⟩ := h
    exact .reply ht hc
  | accepted x =>
    simp only [run, ht, onReceivedInvitation, Core.getNextMessagePipe, bind_eq_error,
      pure_ne_error, and_false, exists_false, or_false] at h
    obtain ⟨hc, hk⟩ := check_eq_error.1 h
    cases hk
    exact .accepted ht (by simpa using hc)
  | acknowledging =>
    simp only [run, ht, acknowledge, bind_eq_error, orFail_eq_error, pure_ne_error, and_false,
      exists_false, or_false, Stop.check.injEq] at h
    obtain ⟨hp, rfl⟩ := h
    exact .acknowledge ht hp
  | reserving =>
    simp only [run, ht, reserve, bind_eq_error, endpoint_fault, acquire_ne_check,
      Core.endpoint_eq_ok, pure_ne_error, false_or, and_false, exists_false, or_false,
      Stop.check.injEq] at h
    obtain ⟨hf, rfl⟩ | ⟨e, he, _, -, h⟩ := h
    · exact .reserveMissing ht hf
    · obtain ⟨hq, hk⟩ := Endpoint.setProxying_fault h
      cases hk
      exact .reserve ht he hq
  | rekeying =>
    simp only [run, ht, rekey, bind_eq_error, orFail_eq_error, pure_ne_error, and_false,
      exists_false, or_false, Stop.check.injEq] at h
    obtain ⟨hc, rfl⟩ := h
    exact .rekey ht hc
  | draining =>
    simp only [run, ht, drain, bind_eq_error, endpoint_fault, Core.endpoint_eq_ok, pure_ne_error,
      and_false, exists_false, or_false, Stop.check.injEq] at h
    obtain ⟨hf, rfl⟩ | ⟨e, he, h⟩ := h
    · exact .drainMissing ht hf
    · obtain ⟨hd, hk⟩ := Endpoint.takeQueuedMessages_fault h
      cases hk
      exact .drain ht he hd
  | acknowledged c =>
    simp only [run, ht, onReceivedAcceptInvitation] at h
    exact absurd h pure_ne_error
  | inviting =>
    simp only [run, ht, invite, bind_eq_error, randomIdentifier_ne_check, randomIdentifier_eq,
      pure_ne_error, false_or, and_false, exists_false, or_false, Prod.exists] at h
    obtain ⟨x, _, rfl, y, rest, rfl, h⟩ := h
    rcases create_fault h with hk | ⟨hk, hf⟩
    · cases hk
      exact .invite ht rfl (by simp) (.inr rfl)
    · cases hk
      exact .invite ht rfl (fun _ => hf) (.inl rfl)
  | creatingChannel =>
    simp only [run, ht, createChannel, bind_eq_error, randomIdentifier_ne_check, pure_ne_error,
      and_false, exists_false, or_false] at h
  | insertingPending l r t =>
    simp only [run, ht, insertPending] at h
    exact absurd h pure_ne_error
  | startingChannel =>
    simp only [run, ht, startChannel, bind_eq_error, channelTo_fault, endpoint_fault,
      pure_ne_error, and_false, exists_false, or_false, Stop.check.injEq] at h
    obtain ⟨hc, rfl⟩ | ⟨_, -, hf, rfl⟩ := h
    · exact .startChannel ht hc
    · exact .startMissing ht hf

/-- So does the first step of a call. -/
theorem start_fault {c : Call} (h : p.start τ supply c = .error (.check k)) :
    Fault p τ supply (some c) k := by
  cases c with
  | createMessagePipes =>
    simp only [start, createMessagePipes, bind_eq_error, randomIdentifier_ne_check,
      randomIdentifier_eq, check_eq_error, pure_ne_error, false_or, and_false, exists_false,
      or_false, Prod.exists, Stop.check.injEq] at h
    obtain ⟨x, _, rfl, y, rest, rfl, h | ⟨_, _, core, -, ⟨-, rfl⟩ | ⟨_, -, -, rfl⟩⟩⟩ := h
    · rcases create_fault h with hk | ⟨hk, hf⟩
      · cases hk
        exact .callCreate rfl (by simp) (.inr rfl)
      · cases hk
        exact .callCreate rfl (fun _ => hf) (.inl rfl)
    · exact .callHandle
    · exact .callHandle
  | sendMessage =>
    simp only [start, sendMessage, bind_eq_error, orFail_eq_error, pure_ne_error, and_false,
      exists_false, or_false, Stop.check.injEq] at h
    obtain ⟨-, rfl⟩ | ⟨_, -, -, rfl⟩ := h
    · exact .callHandle
    · exact .callHandle
  | bindReceiverDelegateToEndpoint j d r =>
    simp only [start, bindReceiverDelegateToEndpoint, bind_eq_error, orFail_eq_error,
      orFail_eq_ok, endpoint_fault, Core.endpoint_eq_ok, acquire_ne_check, pure_ne_error, false_or,
      and_false, exists_false, or_false, Stop.check.injEq] at h
    obtain ⟨-, rfl⟩ | ⟨x, hx, ⟨-, rfl⟩ | ⟨e, he, _, -, h⟩⟩ := h
    · exact .callHandle
    · exact .callHandle
    · rcases Endpoint.registerDelegate_fault h with ⟨hq, hk⟩ | ⟨hd, hk⟩ | ⟨hd, hk⟩
      · cases hk
        exact .callBind hx he hq
      · cases hk
        exact .callBound hx he hd
      · cases hk
        exact .callRunner hx he hd
  | sendInvitationAndGetMessagePipe =>
    simp only [start, sendInvitationAndGetMessagePipe] at h
    exact absurd h pure_ne_error
  | acceptInvitation =>
    simp only [start, acceptInvitation, bind_eq_error, check_eq_error, pure_ne_error, and_false,
      exists_false, or_false, Stop.check.injEq] at h
    obtain ⟨ha, rfl⟩ := h
    exact .callAccept (by simpa using ha)

end Process

/-- A step of the network that fails an assertion does so in one process. -/
theorem Network.step_fault {s : Network} {l : Label} {k : Check}
    (h : s.step l = .error (.check k)) :
    (∃ n τ c, l = .call n τ c ∧ (s.process n).Fault τ s.supply (some c) k) ∨
    (∃ n τ, l = .run n τ ∧ (s.process n).Fault τ s.supply none k) := by
  cases l with
  | call n τ c =>
    simp only [step, bind_eq_error, check_eq_error, pure_ne_error, and_false, exists_false,
      or_false, reduceCtorEq, false_or] at h
    obtain ⟨_, -, h⟩ := h
    exact .inl ⟨n, τ, c, rfl, Process.start_fault h⟩
  | read n channel =>
    simp only [step, bind_eq_error, check_eq_error, reduceCtorEq, and_false, false_or] at h
    obtain ⟨_, -, _, -, h⟩ := h
    split at h
    · simp [throw_eq_error] at h
    · exact absurd h pure_ne_error
  | run n τ =>
    simp only [step, bind_eq_error, pure_ne_error, and_false, exists_false, or_false] at h
    exact .inr ⟨n, τ, rfl, Process.run_fault h⟩

end Mage
