import Mage.Safety.Collision
import Mage.Safety.Dependents
import Mage.Safety.Handles
import Mage.Safety.Neighbours
import Mage.Safety.Queued

/-! Where a process can abort. Of all the assertions of the source six can fail in a run, in eight ways:
    the embedder accepts or binds twice, the handles run out (for a new pipe, for that of an invitation,
    for one that arrives), a pipe is sent away while another thread sends over it, an endpoint is moved
    with a message on it that brought others, or there is no channel to the peer's node. -/

namespace Mage
open Lib

/-- The next two handles are not both new. -/
def Core.Exhausted (c : Core) : Prop :=
  c.findHandle c.nextAvailableHandle ≠ none ∨ c.findHandle (c.nextAvailableHandle + 1) ≠ none

/-- The step fails the assertion, and how it comes to that. -/
inductive Network.Aborts (s : Network) : Label → Check → Prop where
  /-- An invitation is accepted by a node that has accepted one. -/
  | accept {n : Identifier} {τ : ThreadId} {fd : Channel} {callback : Callback}
      (hi : (s.process n).thread τ = .idle) (ha : (s.process n).hasAcceptedInvitation = true) :
      Aborts s (.call n τ (.acceptInvitation fd callback)) .alreadyAccepted
  /-- A receiver is bound to an endpoint that is bound. -/
  | bind {n : Identifier} {τ : ThreadId} {h : MessagePipe} {d r : ℕ} {x : Identifier} {e : Endpoint}
      (hi : (s.process n).thread τ = .idle) (hx : (s.process n).findHandle h = some x)
      (he : (s.process n).localEndpoints.find x = some e) (hl : (s.process n).lock x = none)
      (hb : e.state = .kBound) :
      Aborts s (.call n τ (.bindReceiverDelegateToEndpoint h d r)) .notQueueing
  /-- There are no handles left for a new pipe, -/
  | create {n : Identifier} {τ : ThreadId} (hi : (s.process n).thread τ = .idle)
      (hs : 2 ≤ s.supply.length) (hh : (s.process n).toCore.Exhausted) :
      Aborts s (.call n τ .createMessagePipes) .handleInUse
  /-- or for that of an invitation, -/
  | invite {n : Identifier} {τ : ThreadId} {channel : Channel}
      (ht : (s.process n).thread τ = .inviting channel) (hs : 2 ≤ s.supply.length)
      (hh : (s.process n).toCore.Exhausted) : Aborts s (.run n τ) .handleInUse
  /-- or for a pipe that arrives. -/
  | recover {n : Identifier} {τ : ThreadId} {x : Identifier} {m : Message}
      {done ds : List EndpointDescriptor} {d : EndpointDescriptor}
      (ht : (s.process n).thread τ = .recovering x m done (d :: ds))
      (hh : (s.process n).findHandle (s.process n).nextAvailableHandle ≠ none) :
      Aborts s (.run n τ) .handleInUse
  /-- The pipe that a message is sent over is a proxy by now. -/
  | carrier {n : Identifier} {τ : ThreadId} {x y : Identifier} {m : Message} {ys : List Identifier}
      {e : Endpoint} (ht : (s.process n).thread τ = .populating x m (y :: ys)) (hs : s.supply ≠ [])
      (he : (s.process n).localEndpoints.find x = some e) (hq : e.state = .kUnboundAndProxying) :
      Aborts s (.run n τ) .carrierProxying
  /-- A message is passed on with the descriptor of an endpoint that its node never had. -/
  | dependent {n : Identifier} {τ : ThreadId} {b : Batch} {m : Message}
      {done ds : List EndpointDescriptor} {d : EndpointDescriptor}
      (ht : (s.process n).thread τ = .sending b m done (d :: ds))
      (hf : (s.process n).localEndpoints.find d.endpointName = none) :
      Aborts s (.run n τ) .dependentNotFound
  /-- The peer is in another node, and there is no channel to it. -/
  | route {n : Identifier} {τ : ThreadId} {x : Identifier} {m : Message} {e : Endpoint}
      (ht : (s.process n).thread τ = .checking x m [])
      (he : (s.process n).localEndpoints.find x = some e) (hn : e.peerAddress.nodeName ≠ n)
      (hc : (s.process n).nodeChannelMap.find e.peerAddress.nodeName = none) :
      Aborts s (.run n τ) .routing

/-! ### Endpoints and their delegates -/

namespace Endpoint
variable {e : Endpoint} {m : Message}

/-- A receiver can be bound to whatever queues. -/
theorem Settled.binds (h : e.Settled) {d r : ℕ} {stop : Stop}
    (hr : e.registerDelegate d r = .error stop) :
    e.state ≠ .kUnboundAndQueueing ∧ stop = .check .notQueueing := by
  by_cases hq : e.state = .kUnboundAndQueueing
  · rcases registerDelegate_fault hr with ⟨hn, -⟩ | ⟨hd, -⟩ | ⟨hd, -⟩
    · exact absurd hq hn
    · have hb := h.delegate.1 (Option.isSome_iff_ne_none.2 hd)
      rw [hq] at hb
      cases hb
    · have hb := h.runner.1 (Option.isSome_iff_ne_none.2 hd)
      rw [hq] at hb
      cases hb
  · simp only [registerDelegate, bind_eq_error, check_eq_error, check_eq_ok] at hr
    rcases hr with ⟨-, rfl⟩ | ⟨_, hq', -⟩
    · exact ⟨hq, rfl⟩
    · exact absurd hq' hq

/-- Whatever is not a proxy takes its messages. -/
theorem Settled.takes (h : e.Settled) (hq : e.state ≠ .kUnboundAndProxying) {k : Check} :
    e.acceptMessage m ≠ .error (.check k) := by
  intro hm
  rcases acceptMessage_fault hm with ⟨hs, hd, -⟩ | ⟨hs, hd, -⟩ | ⟨hs, hd, -⟩ | ⟨hs, -⟩
  · have hb := h.delegate.1 (by simpa [Option.isSome_iff_ne_none] using hd)
    rw [hs] at hb
    cases hb
  · have hb := h.delegate.2 hs
    rw [hd] at hb
    cases hb
  · have hb := h.runner.2 hs
    rw [hd] at hb
    cases hb
  · exact hq hs

end Endpoint

/-! ### Handles -/

namespace Core
variable {c : Core} {e : Endpoint} {h : MessagePipe}

theorem registerLocalHandleAndEndpoint_inUse :
    c.registerLocalHandleAndEndpoint h e = .error (.check .handleInUse) ↔ c.findHandle h ≠ none := by
  simp [registerLocalHandleAndEndpoint, registerEndpoint, bind_eq_error, pure_ne_error,
    -bind_pure_comp]

theorem registerLocalHandleAndEndpoint_ok (hh : c.findHandle h = none)
    (he : c.localEndpoints.find e.name = none) :
    c.registerLocalHandleAndEndpoint h e = .ok { c with
      handleTable := insertHandle h e.name c.handleTable
      localEndpoints := c.localEndpoints.set e.name e } := by
  simp [registerLocalHandleAndEndpoint, registerEndpoint, check, hh, he, Table.insert_of_absent he,
    bind, Except.bind, pure, Except.pure]

/-- Another handle is as new after an endpoint is enrolled as it was. -/
theorem findHandle_enroll (x : Identifier) (a : Address) :
    (c.enroll x a).findHandle (c.nextAvailableHandle + 1) =
      c.findHandle (c.nextAvailableHandle + 1) := by
  have hne : c.nextAvailableHandle + 1 ≠ c.nextAvailableHandle := by
    intro heq
    have htoNat := congrArg UInt32.toNat heq
    rw [UInt32.toNat_add] at htoNat
    have hlt := c.nextAvailableHandle.toNat_lt
    simp only [UInt32.toNat_one] at htoNat
    omega
  rw [findHandle, enroll_handleTable, lookup_insertHandle, if_neg hne, findHandle]

/-- Creating a pipe fails for want of handles exactly if one of the next two is in use. -/
theorem create_inUse {x y : Identifier} (hx : c.localEndpoints.find x = none) :
    c.createMessagePipesAndGetEndpoints x y = .error (.check .handleInUse) ↔ c.Exhausted := by
  by_cases h1 : c.findHandle c.nextAvailableHandle = none
  · have hr := registerLocalHandleAndEndpoint_ok (e := .new x ⟨c.name, y⟩) (c := { c with
      nextAvailableHandle := c.nextAvailableHandle + 1 + 1 }) (h := c.nextAvailableHandle) h1 hx
    simp only [createMessagePipesAndGetEndpoints, initializeAndEntangleEndpoints,
      getNextMessagePipe, hr, ok_bind, bind_eq_error, registerLocalHandleAndEndpoint_inUse,
      check_eq_error, pure_ne_error, Stop.check.injEq, reduceCtorEq, and_false, exists_false, or_false]
    have h2 := c.findHandle_enroll x ⟨c.name, y⟩
    rw [Exhausted, h1, ← h2]
    simp only [ne_eq, not_true, false_or]
    rfl
  · have hr := (registerLocalHandleAndEndpoint_inUse (e := .new x ⟨c.name, y⟩) (c := { c with
      nextAvailableHandle := c.nextAvailableHandle + 1 + 1 }) (h := c.nextAvailableHandle)).2 h1
    simp only [createMessagePipesAndGetEndpoints, initializeAndEntangleEndpoints,
      getNextMessagePipe, hr]
    simp [Exhausted, h1, bind, Except.bind]

theorem recover_inUse {d : EndpointDescriptor} :
    c.recoverNewMessagePipeFromEndpointDescriptor d = .error (.check .handleInUse) ↔
      c.findHandle c.nextAvailableHandle ≠ none := by
  simp only [recoverNewMessagePipeFromEndpointDescriptor, getNextMessagePipe, bind_eq_error,
    registerLocalHandleAndEndpoint_inUse, pure_ne_error, and_false, exists_false, or_false]
  rfl

/-- The handles of a new pipe are found. -/
theorem create_found {c' : Core} {x y : Identifier} {h₁ h₂ : MessagePipe}
    (hc : c.createMessagePipesAndGetEndpoints x y = .ok (h₁, h₂, c')) :
    c'.findHandle h₁ ≠ none ∧ c'.findHandle h₂ ≠ none := by
  obtain ⟨-, -, -, -, -, rfl, rfl, rfl⟩ := createMessagePipesAndGetEndpoints_eq hc
  constructor
  · simp [findHandle, lookup_insertHandle]
  · simp [findHandle, lookup_insertHandle]

end Core

/-! ### What aborts -/

section
variable {T : Topology} {s : Network} {n : Identifier} {τ : ThreadId} {l : Label} {k : Check}

/-- The first step of a call by an idle thread fails as the call does. -/
theorem Network.step_call_error {c : Call} {e : Stop} (hi : (s.process n).thread τ = .idle)
    (h : (s.process n).start τ s.supply c = .error e) : s.step (.call n τ c) = .error e := by
  have hidle : check (((s.process n).thread τ).isIdle : Prop) Stop.blocked = .ok () :=
    check_eq_ok.2 (by rw [hi]; rfl)
  simp only [step, hidle, ok_bind, h]
  rfl

theorem Network.step_run_error {e : Stop} (h : (s.process n).run τ s.supply = .error e) :
    s.step (.run n τ) = .error e := by
  simp only [step, h]
  rfl

/-- Creating a pipe fails when the handles run out. -/
theorem Reachable.create_fails (hs : Reachable T s) (hsup : 2 ≤ s.supply.length)
    (hh : (s.process n).toCore.Exhausted) : ∃ x y rest, s.supply = x :: y :: rest ∧
      (s.process n).createMessagePipesAndGetEndpoints x y = .error (.check .handleInUse) := by
  cases hsupply : s.supply with
  | nil => simp [hsupply] at hsup
  | cons x supply =>
    cases supply with
    | nil => simp [hsupply] at hsup
    | cons y rest =>
      have hx := hs.sound.fresh x (by simp [hsupply]) n
      exact ⟨x, y, rest, rfl, (Core.create_inUse hx).2 hh⟩

theorem Reachable.fails (hs : Reachable T s) (h : s.Aborts l k) : s.step l = .error (.check k) := by
  cases h with
  | accept hi ha =>
    refine Network.step_call_error hi ?_
    simp [Process.start, Process.acceptInvitation, ha, check, bind, Except.bind]
  | bind hi hx he hl hb =>
    refine Network.step_call_error hi ?_
    simp [Process.start, Process.bindReceiverDelegateToEndpoint, hx, orFail, Core.endpoint, he,
      Process.acquire, hl, Endpoint.registerDelegate, hb, check, bind, Except.bind, pure, Except.pure]
  | create hi hsup hh =>
    obtain ⟨x, y, rest, hsupply, hc⟩ := hs.create_fails hsup hh
    refine Network.step_call_error hi ?_
    simp [Process.start, Process.createMessagePipes, hsupply, randomIdentifier, hc, bind,
      Except.bind, pure, Except.pure]
  | invite ht hsup hh =>
    obtain ⟨x, y, rest, hsupply, hc⟩ := hs.create_fails hsup hh
    refine Network.step_run_error ?_
    simp [Process.run, ht, Process.invite, hsupply, randomIdentifier, hc, bind, Except.bind, pure,
      Except.pure]
  | recover ht hh =>
    refine Network.step_run_error ?_
    simp [Process.run, ht, Process.recoverNext, Core.recover_inUse.2 hh, bind, Except.bind]
  | carrier ht hsup he hq =>
    obtain ⟨name, rest, hsupply⟩ := List.exists_cons_of_ne_nil hsup
    refine Network.step_run_error ?_
    simp [Process.run, ht, Process.populate, hsupply, randomIdentifier,
      Core.populateEndpointDescriptor, Core.endpoint, orFail, he, hq, check, bind, Except.bind, pure,
      Except.pure]
  | dependent ht hf =>
    refine Network.step_run_error ?_
    simp [Process.run, ht, Process.sendNext, Core.endpoint, orFail, hf, bind, Except.bind]
  | route ht he hn hc => exact (hs.routing_iff _).2 ⟨_, _, _, _, _, rfl, ht, he, hn, hc⟩

/-- A call that may be made fails in one of three ways. -/
theorem Reachable.call_aborts (hs : Reachable T s) {c : Call} (hp : Allowed T n (s.process n) c)
    (hl : s.step (.call n τ c) = .error (.check k)) : s.Aborts (.call n τ c) k := by
  have htidy := hs.sound.tidy.cores n
  have hfind : ∀ {h x}, (s.process n).findHandle h = some x →
      ∃ e, (s.process n).localEndpoints.find x = some e := fun hx =>
    Option.ne_none_iff_exists'.1 (htidy.values _ (Core.mem_of_lookup hx))
  simp only [Network.step, bind_eq_error, check_eq_error, reduceCtorEq, and_false, false_or,
    pure_ne_error, exists_false, or_false, check_eq_ok] at hl
  obtain ⟨_, hidle, hl⟩ := hl
  have hi : (s.process n).thread τ = .idle := by
    simpa using hidle
  cases c with
  | createMessagePipes =>
    simp only [Process.start, Process.createMessagePipes, bind_eq_error,
      Process.randomIdentifier_ne_check, Process.randomIdentifier_eq, check_eq_error, pure_ne_error,
      false_or, and_false, exists_false, or_false, Prod.exists, Stop.check.injEq] at hl
    obtain ⟨x, _, hsup, y, rest, rfl, hl | ⟨h₁, h₂, core, hc, ⟨hnot, -⟩ | ⟨_, -, hnot, -⟩⟩⟩ := hl
    · obtain ⟨hx, hy, hxy⟩ := hs.sound.drawn_two hsup n
      rcases Process.create_fault hl with hk | ⟨-, hf⟩
      · cases hk
        exact .create hi (by simp [hsup]) ((Core.create_inUse hx).1 hl)
      · simp [hx, hy, hxy] at hf
    · exact absurd (Core.create_found hc).1 hnot
    · exact absurd (Core.create_found hc).2 hnot
  | sendMessage h id body pipes =>
    obtain ⟨hheld, hpipes⟩ := hp
    simp only [Process.start, Process.sendMessage, bind_eq_error, orFail_eq_error, pure_ne_error,
      and_false, exists_false, or_false] at hl
    obtain ⟨hnone, -⟩ | ⟨_, -, hnone, -⟩ := hl
    · simp [hnone] at hheld
    · simp [hnone] at hpipes
  | bindReceiverDelegateToEndpoint h d r =>
    obtain ⟨x, hx, hheld⟩ := (Option.any_eq_true _ _).1 hp
    obtain ⟨e, he⟩ := hfind hx
    simp only [Process.start, Process.bindReceiverDelegateToEndpoint, hx, orFail, ok_bind,
      bind_eq_error, Process.endpoint_fault, Core.endpoint_eq_ok, he, Process.acquire_ne_check,
      Process.acquire_eq, pure_ne_error, false_or, and_false, exists_false, or_false, reduceCtorEq,
      false_and, Option.some.injEq] at hl
    obtain ⟨_, rfl, _, ⟨hlock, -⟩, hl⟩ := hl
    obtain ⟨hq, hk⟩ := (hs.settled n x e he).binds hl
    cases hk
    refine .bind hi hx he hlock ?_
    have hport : s.ports.port ⟨n, x⟩ = some e.port := by simp [Network.port, he]
    have hst := hs.sound.ports.rights.status (.held n) (.right x)
      (List.mem_map_of_mem (of_decide_eq_true hheld)) ⟨n, x⟩ e.port ⟨rfl, rfl⟩ hport
    cases hstate : e.state with
    | kBound => rfl
    | kUnboundAndQueueing => exact absurd hstate hq
    | kUnboundAndProxying => simp [Endpoint.port, Endpoint.status, hstate] at hst
  | sendInvitationAndGetMessagePipe fd callback =>
    simp only [Process.start, Process.sendInvitationAndGetMessagePipe] at hl
    exact absurd hl pure_ne_error
  | acceptInvitation fd callback =>
    simp only [Process.start, Process.acceptInvitation, bind_eq_error, check_eq_error,
      pure_ne_error, and_false, exists_false, or_false, Stop.check.injEq] at hl
    obtain ⟨ha, rfl⟩ := hl
    exact .accept hi (by simpa using ha)

/-! ### What a thread has in hand -/

theorem Reachable.hand_status (hs : Reachable T s) (tok : Token) {x : Identifier} {e : Endpoint}
    (htok : tok ∈ s.ports.tokens (.hand n τ)) (hx : tok.Mentions x)
    (he : (s.process n).localEndpoints.find x = some e) : e.state = .kUnboundAndQueueing := by
  have hport : s.ports.port ⟨n, x⟩ = some e.port := by simp [Network.port, he]
  rcases hs.sound.ports.rights.status _ tok htok ⟨n, x⟩ e.port ⟨rfl, hx⟩ hport with hq | ⟨-, hP⟩
  · cases hstate : e.state <;> simp_all [Endpoint.port, Endpoint.status]
  · cases hP

theorem Reachable.hand_recovered (hs : Reachable T s) {d : EndpointDescriptor}
    (htok : .recovered d ∈ s.ports.tokens (.hand n τ)) :
    ∃ e, (s.process n).localEndpoints.find d.crossNodeEndpointName = some e ∧
      e.state = .kUnboundAndQueueing := by
  obtain ⟨m, ⟨_, hm⟩, ⟨q, hq, -⟩, -⟩ := hs.sound.ports.names.ok _ _ htok
  cases hm
  obtain ⟨e, he, -⟩ := Network.port_eq_some.1 hq
  exact ⟨e, he, hs.hand_status _ htok rfl he⟩

/-- What a descriptor in hand is about can be moved. -/
theorem Reachable.hand_described (hs : Reachable T s) {d : EndpointDescriptor} {e : Endpoint}
    (htok : .described d ∈ s.ports.tokens (.hand n τ))
    (he : (s.process n).localEndpoints.find d.endpointName = some e) :
    e.state = .kUnboundAndQueueing :=
  hs.sound.described_queueing htok rfl (by simp) he

theorem Reachable.hand_right (hs : Reachable T s) {x : Identifier}
    (htok : .right x ∈ ((s.process n).thread τ).tokens n) :
    (s.process n).localEndpoints.find x ≠ none := by
  obtain ⟨m, hm, hport⟩ := hs.sound.ports.names.ok (.hand n τ) (.right x) htok
  rcases hm with hm | ⟨_, hm⟩ <;> cases hm
  exact Network.port_ne_none.1 hport

/-! ### What a thread under way fails -/

theorem Network.run_fault (hl : s.step (.run n τ) = .error (.check k)) :
    (s.process n).Fault τ s.supply none k := by
  rcases Network.step_fault hl with ⟨_, _, _, h, -⟩ | ⟨_, _, h, hf⟩ <;> cases h
  exact hf

theorem Reachable.run_aborts_of_sendMessage (hs : Reachable T s)
    (hr : ((s.process n).thread τ).routine = some .sendMessage)
    (hl : s.step (.run n τ) = .error (.check k)) : s.Aborts (.run n τ) k := by
  cases Network.run_fault hl with
  | populateHandle ht hf =>
    exfalso
    rcases hf with hf | hf
    · exact (hs.carriers n τ _ (by rw [ht]; rfl)).1 hf
    · exact hs.hand_right (τ := τ) (by rw [ht]; simp [Thread.tokens]) hf
  | populateProxying ht he hq =>
    refine .carrier ht (fun hsup => ?_) he hq
    simp [Network.step, Process.run, ht, Process.populate, hsup, randomIdentifier, bind, Except.bind,
      throw, throwThe, MonadExceptOf.throw] at hl
  | sentMissing => exact absurd hl (hs.pipes_reached n τ).2
  | sentBound ht he hb =>
    obtain ⟨pipes, hc⟩ := hs.carries n τ
    rw [ht] at hc
    have hd := hc.2 _ List.mem_cons_self
    have hq := hs.hand_described (τ := τ)
      (by simpa [Network.tokens, ht, Thread.tokens, Message.described] using hd) he
    rw [hq] at hb
    cases hb
  | routeHandle ht hf => exact absurd hf (hs.carriers n τ _ (by rw [ht]; rfl)).1
  | route =>
    obtain ⟨_, _, x, m, e, h, ht, he, hn, hc⟩ := (hs.routing_iff _).1 hl
    cases h
    exact .route ht he hn hc
  | routeSize ht he hlen =>
    have hnode := hs.sound.ports.names.node _ (Network.port_ne_none.2 (hs.sound.peer_registered he))
    exact absurd (T.names_length _ hnode.2) hlen
  | deliverMissing ht hf =>
    obtain ⟨y, hy⟩ := hs.untouched.delivering n τ _ _ ht
    obtain ⟨q, hq, -⟩ := hs.sound.ports.links.mate _ _ (.port hy)
    simp [Ports.peer, Network.port, hf] at hq
  | deliverPipe => exact absurd hl (hs.pipes_reached n τ).1
  | deliver ht he hq hk => exact absurd hk ((hs.settled n _ _ he).takes hq)
  | _ => simp_all [Thread.routine]

theorem Reachable.run_aborts_of_flush (hs : Reachable T s)
    (hr : ((s.process n).thread τ).routine = some .sendMessagesAndRecursiveDependents)
    (hl : s.step (.run n τ) = .error (.check k)) : s.Aborts (.run n τ) k := by
  cases Network.run_fault hl with
  | takeMissing ht hf => exact .dependent ht hf
  | takeDelegate ht he hd =>
    have hq := hs.hand_described (τ := τ) (by simp [Network.tokens, ht, Thread.tokens]) he
    exact absurd ((hs.settled n _ _ he).undelegated (by simp [hq])) hd
  | takeState ht he hq =>
    exact absurd (hs.hand_described (τ := τ) (by simp [Network.tokens, ht, Thread.tokens]) he) hq
  | write => exact absurd hl (hs.never_nullChannel _)
  | _ => simp_all [Thread.routine]

theorem Reachable.run_aborts_of_userMessage (hs : Reachable T s)
    (hr : ((s.process n).thread τ).routine = some .onReceivedUserMessage)
    (hl : s.step (.run n τ) = .error (.check k)) : s.Aborts (.run n τ) k := by
  cases Network.run_fault hl with
  | receive | dispatchMissing => exact absurd hl (hs.never_missing _)
  | recoverHandle ht =>
    simp only [Network.step, Process.run, ht, Process.recoverNext, bind_eq_error, pure_ne_error,
      and_false, exists_false, or_false] at hl
    exact .recover ht (Core.recover_inUse.1 hl)
  | recover ht hf => exact absurd hl (hs.sound.never_in_use _)
  | relay => exact absurd hl (hs.never_self _)
  | dispatch ht he hq hk => exact absurd hk ((hs.settled n _ _ he).takes hq)
  | @forwardMissing _ _ _ _ _ d ht hf =>
    obtain ⟨e, he, -⟩ := hs.hand_recovered (n := n) (τ := τ) (d := d)
      (by simp [Network.tokens, ht, Thread.tokens])
    rw [hf] at he
    cases he
  | @forward _ _ _ _ _ d _ ht he hq =>
    obtain ⟨e, he', hq'⟩ := hs.hand_recovered (n := n) (τ := τ) (d := d)
      (by simp [Network.tokens, ht, Thread.tokens])
    rw [he, Option.some.injEq] at he'
    subst he'
    exact absurd hq' hq
  | writeForwarded => exact absurd hl (hs.never_nullChannel _)
  | _ => simp_all [Thread.routine]

theorem Reachable.run_aborts_of_invitation (hs : Reachable T s)
    (hr : ((s.process n).thread τ).routine = some .onReceivedInvitation)
    (hl : s.step (.run n τ) = .error (.check k)) : s.Aborts (.run n τ) k := by
  have hchecks := hs.handshake_checks hl
  cases Network.run_fault hl with
  | rekeyInitial => exact absurd rfl hchecks.1
  | accepted => exact absurd rfl hchecks.2.2.2.1
  | reply => exact absurd hl (hs.never_nullChannel _)
  | _ => simp_all [Thread.routine]

theorem Reachable.run_aborts_of_acceptance (hs : Reachable T s)
    (hr : ((s.process n).thread τ).routine = some .onReceivedAcceptInvitation)
    (hl : s.step (.run n τ) = .error (.check k)) : s.Aborts (.run n τ) k := by
  have hchecks := hs.handshake_checks hl
  have htidy := hs.sound.tidy.threads n τ
  cases Network.run_fault hl with
  | acknowledge => exact absurd rfl hchecks.2.1
  | reserveMissing | drainMissing => exact absurd rfl hchecks.2.2.2.2
  | reserve ht he hq =>
    refine absurd ?_ hq
    exact hs.hand_status (τ := τ) (.reserved _) (by simp [Network.tokens, ht, Thread.tokens]) rfl he
  | rekey => exact absurd rfl hchecks.2.2.1
  | drain ht he hd =>
    rw [ht] at htidy
    obtain ⟨e', he', hq⟩ := htidy
    rw [he, Option.some.injEq] at he'
    subst he'
    exact absurd ((hs.settled n _ _ he).undelegated (by simp [hq])) hd
  | _ => simp_all [Thread.routine]

theorem Reachable.run_aborts_of_inviting (hs : Reachable T s)
    (hr : ((s.process n).thread τ).routine = some .sendInvitationAndGetMessagePipe)
    (hl : s.step (.run n τ) = .error (.check k)) : s.Aborts (.run n τ) k := by
  have hth := hs.sound.handshake.threads n τ
  cases Network.run_fault hl with
  | invite ht hsup _ hk =>
    rcases hk with rfl | rfl
    · exact absurd hl (hs.sound.never_in_use _)
    simp only [Network.step, Process.run, ht, Process.invite, hsup, bind_eq_error, pure_ne_error,
      Process.randomIdentifier_ne_check, Process.randomIdentifier_eq, false_or, and_false,
      exists_false, or_false, Prod.exists, List.cons.injEq] at hl
    obtain ⟨x, _, ⟨rfl, rfl⟩, y, _, ⟨rfl, rfl⟩, hl⟩ := hl
    have hx := (hs.sound.drawn_two hsup n).1
    exact .invite ht (by simp [hsup]) ((Core.create_inUse hx).1 hl)
  | startMissing ht hf =>
    rw [ht] at hth
    obtain ⟨-, -, -, hpeer⟩ := hth
    simp [Network.peerOf, hf] at hpeer
  | startChannel => exact absurd hl (hs.never_nullChannel _)
  | _ => simp_all [Thread.routine]

/-- A thread under way fails in one of five ways. -/
theorem Reachable.run_aborts (hs : Reachable T s)
    (hl : s.step (.run n τ) = .error (.check k)) : s.Aborts (.run n τ) k := by
  cases hr : ((s.process n).thread τ).routine with
  | none =>
    rw [Thread.routine_eq_none] at hr
    simp [Network.step, Process.run, hr, bind, Except.bind, throw, throwThe,
      MonadExceptOf.throw] at hl
  | some r =>
    cases r with
    | sendMessage => exact hs.run_aborts_of_sendMessage hr hl
    | sendMessagesAndRecursiveDependents => exact hs.run_aborts_of_flush hr hl
    | onReceivedUserMessage => exact hs.run_aborts_of_userMessage hr hl
    | onReceivedInvitation => exact hs.run_aborts_of_invitation hr hl
    | onReceivedAcceptInvitation => exact hs.run_aborts_of_acceptance hr hl
    | sendInvitationAndGetMessagePipe => exact hs.run_aborts_of_inviting hr hl

end

/-- In every reachable state of any network, a permitted step fails an assertion of the source exactly
    if one of eight things is the case: no other assertion of a call, of a receipt or of a thread under
    way can fail, however the steps are interleaved. -/
theorem aborts_iff {T : Topology} {s : Network} {l : Label} (hs : Reachable T s)
    (hp : Permitted T s l) (k : Check) : s.step l = .error (.check k) ↔ s.Aborts l k := by
  refine ⟨fun hl => ?_, hs.fails⟩
  cases l with
  | call n τ c => exact hs.call_aborts hp.2 hl
  | run n τ => exact hs.run_aborts hl
  | read n ch => rcases Network.step_fault hl with ⟨_, _, _, h, -⟩ | ⟨_, _, h, -⟩ <;> cases h

/-- A thread of the acceptor writes a message with the descriptor of an endpoint that the acceptor never
    had, because the pipe it moves had received the message unbound. -/
theorem passing_on_aborts : ∃ s, Reachable Sample.pair s ∧
    s.Aborts (.run Sample.acceptor (.user 0)) .dependentNotFound ∧
    ¬ s.Aborts (.run Sample.acceptor (.user 0)) .routing := by
  obtain ⟨s, hs, hstop⟩ := Network.exists_of_follow Sample.pair (fun _ _ => True) Sample.passingOn
    (fun s => s.stops (.run Sample.acceptor (.user 0)) = some (.check .dependentNotFound))
    (by decide +kernel)
  have hfail := Network.stops_eq_some.1 hstop
  have hp : Permitted Sample.pair s (.run Sample.acceptor (.user 0)) :=
    List.mem_cons_of_mem _ List.mem_cons_self
  refine ⟨s, hs, (aborts_iff hs hp _).1 hfail, fun hroute => ?_⟩
  have hroute := (aborts_iff hs hp _).2 hroute
  rw [hfail] at hroute
  cases hroute

end Mage
