import Mage.Flow.Work
import Mage.Safety.Aborts
import Mage.Safety.Alone
import Mage.Safety.Deadlock

/-! The network comes to rest, or goes on drawing names. A run without calls is bounded by the work at
    its start and the names that it draws, as each message goes along links only and no link leads back
    to a name drawn earlier; a run that forwards for ever draws names for ever. `RandomIdentifier` does
    not run out of names as the list of a topology does, so nothing here is concluded from its end. Where
    a run cannot go on while there are names, either there is nothing left to do, or a thread is about
    to fail an assertion. -/

namespace Mage
open Lib

/-! ### Why a thread cannot go on -/

/-- The thread waits, or an assertion fails. -/
def Stop.Lasting (e : Stop) : Prop := e ≠ .idle ∧ e ≠ .noName

@[simp] theorem Stop.lasting_check (k : Check) : (Stop.check k).Lasting := by
  simp [Stop.Lasting]

@[simp] theorem Stop.lasting_blocked : Stop.blocked.Lasting := by
  simp [Stop.Lasting]

theorem Endpoint.acceptMessage_lasting {e : Endpoint} {m : Message} :
    Raises Stop.Lasting (e.acceptMessage m) := by
  cases hq : e.state <;> simp [Endpoint.acceptMessage, Endpoint.postMessageToDelegate, hq]

namespace Core
variable {c : Core} {m : Message} {ds : List EndpointDescriptor} {h : MessagePipe} {e : Endpoint}

theorem queueExistingPipes_lasting : Raises Stop.Lasting (c.queueExistingPipes m ds) := by
  induction ds generalizing m with
  | nil => simp [queueExistingPipes]
  | cons d ds ih =>
    simp [queueExistingPipes, recoverExistingMessagePipeFromEndpointDescriptor, ih]

theorem registerLocalHandleAndEndpoint_lasting :
    Raises Stop.Lasting (c.registerLocalHandleAndEndpoint h e) := by
  simp [registerLocalHandleAndEndpoint, registerEndpoint]

end Core

namespace Process
variable {p : Process} {τ : ThreadId} {supply : List Identifier}

/-- While there are names to draw, a thread under way stops at an assertion or at a lock. -/
theorem run_lasting (hi : p.thread τ ≠ .idle) (hs : 2 ≤ supply.length) :
    Raises Stop.Lasting (p.run τ supply) := by
  obtain _ | ⟨x, _ | ⟨y, rest⟩⟩ := supply
  · simp at hs
  · simp at hs
  rw [run]
  cases ht : p.thread τ with
  | idle => exact absurd ht hi
  | populating x m ys =>
    cases ys <;> simp [populate, Core.populateEndpointDescriptor, Core.endpoint, randomIdentifier]
  | checking x m ds =>
    cases ds with
    | nil =>
      simp only [checkOrRoute, Core.endpoint, raises_bind, raises_orFail, raises_check,
        Stop.lasting_check, implies_true, true_and]
      intro e _ _ _ _ _
      split_ifs <;> exact raises_pure _
    | cons d ds => simp [checkOrRoute, Core.endpoint, acquire]
  | delivering x m =>
    simp only [deliver, Core.endpoint, acquire, raises_bind, raises_orFail, raises_check,
      raises_pure, Stop.lasting_check, Stop.lasting_blocked, implies_true, true_and]
    intro e _ _ _
    cases e.state <;>
      simp [Core.acceptMessageOnDelegateThread, Endpoint.acceptMessage_lasting,
        Core.queueExistingPipes_lasting]
  | sending b m done ds =>
    cases ds <;>
      simp [sendNext, Core.endpoint, channelTo, acquire, Endpoint.takeQueuedMessages,
        Endpoint.setProxying]
  | unlocking b xs =>
    cases xs with
    | nil =>
      simp only [unlockNext]
      split
      · exact raises_pure _
      · split <;> exact raises_pure _
    | cons x xs => exact raises_pure _
  | recovering x m done ds =>
    cases ds with
    | nil =>
      simp only [recoverNext, Core.endpoint, raises_bind, raises_orFail, Stop.lasting_check,
        implies_true, true_and]
      intro e _
      cases e.state <;> simp [Endpoint.acceptMessageOnIOThread, Endpoint.acceptMessage_lasting]
    | cons d ds =>
      simp [recoverNext, Core.recoverNewMessagePipeFromEndpointDescriptor,
        Core.registerLocalHandleAndEndpoint_lasting]
  | forwarding x n m done ds =>
    cases ds <;>
      simp [forwardNext, Core.endpoint, channelTo, Endpoint.setProxying, randomIdentifier]
  | inviting =>
    simp [invite, randomIdentifier, Core.createMessagePipesAndGetEndpoints,
      Core.registerLocalHandleAndEndpoint_lasting]
  | accepted => simp [onReceivedInvitation]
  | releasing | insertingPending | acknowledged =>
    simp [insertPending, onReceivedAcceptInvitation]
  | receiving | reserving | draining =>
    simp [receive, reserve, drain, Core.endpoint, acquire, Endpoint.setProxying,
      Endpoint.takeQueuedMessages]
  | _ =>
    simp [rekeyInitial, accept, reply, acknowledge, rekey, createChannel, startChannel, channelTo,
      Core.endpoint, randomIdentifier]

theorem endpoint_of_blocked {α : Type} {x : Identifier} {k : Check} {f : Endpoint → Except Stop α}
    (h : (p.endpoint x k >>= f) = .error .blocked) : ∃ e, p.endpoint x k = .ok e := by
  rcases bind_eq_error.1 h with h | ⟨e, he, -⟩
  · cases (endpoint_fault.1 h).2
  · exact ⟨e, he⟩

/-- The endpoint that a thread waits for was found. -/
theorem plan_of_blocked (h : p.run τ supply = .error .blocked) : ∃ π, p.planOf τ none = .ok π := by
  rw [run] at h
  rw [planOf]
  cases ht : p.thread τ with
  | checking x m ds =>
    cases ds with
    | nil => exact ⟨_, rfl⟩
    | cons d ds =>
      rw [ht] at h
      obtain ⟨e, he⟩ := endpoint_of_blocked h
      exact ⟨_, by rw [plan, he]; rfl⟩
  | delivering x m =>
    rw [ht] at h
    obtain ⟨e, he⟩ := endpoint_of_blocked h
    rw [plan, he, ok_bind]
    split_ifs <;> exact ⟨_, rfl⟩
  | sending b m done ds =>
    cases ds with
    | nil => exact ⟨_, rfl⟩
    | cons d ds =>
      rw [ht] at h
      obtain ⟨e, he⟩ := endpoint_of_blocked h
      exact ⟨_, by rw [plan, he]; rfl⟩
  | receiving | reserving =>
    rw [ht] at h
    obtain ⟨e, he⟩ := endpoint_of_blocked h
    exact ⟨_, by rw [plan, he]; rfl⟩
  | unlocking b xs =>
    cases xs with
    | nil =>
      simp only [plan]
      split <;> exact ⟨_, rfl⟩
    | cons => exact ⟨_, rfl⟩
  | populating _ _ ds | recovering _ _ _ ds | forwarding _ _ _ _ ds =>
    cases ds <;> exact ⟨_, rfl⟩
  | _ => exact ⟨_, rfl⟩

/-- A thread that waits holds no lock, or it is sending and waits for the endpoint that it is to send
    next. -/
theorem run_waits (h : p.run τ supply = .error .blocked) : ∃ x σ, p.lock x = some σ ∧
    ((p.thread τ).locks = [] ∨
      ∃ b m done d ds, p.thread τ = .sending b m done (d :: ds) ∧ x = d.endpointName) := by
  obtain ⟨π, hπ⟩ := plan_of_blocked h
  obtain ⟨x, hx, hlock⟩ := run_blocked h hπ
  obtain ⟨σ, hσ⟩ := Option.ne_none_iff_exists'.1 hlock
  exact ⟨x, σ, hσ, planOf_endpoint hπ hx (by simp)⟩

end Process

/-! ### How much a run can do -/

/-- Anything but a call. -/
def Label.NoCall : Label → Prop
  | .call _ _ _ => False
  | .read _ _ | .run _ _ => True

namespace Network

/-- The states that runs of `k` permitted steps without calls lead to. -/
abbrev RunsIn (T : Topology) (s : Network) : ℕ → Network → Prop :=
  ReachesIn (fun s l s' => s.step l = .ok s') (fun s l => Permitted T s l ∧ l.NoCall) s

/-- The names that were drawn. -/
def drawn (T : Topology) (s : Network) : List Identifier :=
  T.names.take (T.names.length - s.supply.length)

/-- What the threads `F` have left to do, and what is in the channels, as long as only the names `L` are
    drawn. -/
def work (T : Topology) (L : List Identifier) (F : Finset ThreadId) (s : Network) : ℕ :=
  ∑ n ∈ T.nodes.toFinset, (s.process n).work L F +
    ∑ e ∈ T.nodes.toFinset ×ˢ T.nodes.toFinset, ((s.wire e.1 e.2).map (·.work L)).sum

/-- Only threads in `F` are under way, and only those of nodes. -/
structure Within (T : Topology) (F : Finset ThreadId) (s : Network) : Prop where
  io : .io ∈ F
  busy : ∀ n τ, (s.process n).thread τ ≠ .idle → n ∈ T.nodes ∧ τ ∈ F

end Network

section
variable {T : Topology} {F : Finset ThreadId} {s : Network} {n : Identifier} {τ : ThreadId}
  {c : Option Call} {o : Outcome}

theorem Act.within (ha : Act T s n τ c o) (h : s.Within T F) (hτ : τ ∈ F) :
    (s.apply n o).Within T F := by
  refine ⟨h.io, fun k σ hσ => ?_⟩
  rcases ha.thread_apply k σ with ⟨rfl, rfl, -⟩ | hth
  · exact ⟨ha.node, hτ⟩
  · exact h.busy k σ (hth ▸ hσ)

theorem Receipt.within {channel : Channel} {m : ChannelMessage} {rest : List ChannelMessage}
    (hc : Receipt T s n channel m rest) (h : s.Within T F) :
    (s.consume n channel m rest).Within T F := by
  refine ⟨h.io, fun k σ hσ => ?_⟩
  rcases Receipt.thread_consume s n channel m rest k σ with ⟨rfl, rfl, -⟩ | hth
  · exact ⟨hc.node, h.io⟩
  · exact h.busy k σ (hth ▸ hσ)

/-- At any time finitely many threads are under way. -/
theorem Reachable.exists_within (hs : Reachable T s) : ∃ F, s.Within T F := by
  refine Reachable.induct (P := fun s => ∃ F, s.Within T F)
    ⟨{.io}, ⟨Finset.mem_singleton_self _, fun n τ h => absurd rfl h⟩⟩
    (fun s n τ c o hr hs ha => ?_) (fun s n ch m rest hr hs hc => ?_) hs
  · obtain ⟨F, hF⟩ := hs
    have hmore : s.Within T (insert τ F) :=
      ⟨Finset.mem_insert_of_mem hF.io,
        fun k σ hσ => (hF.busy k σ hσ).imp_right Finset.mem_insert_of_mem⟩
    exact ⟨insert τ F, ha.within hmore (Finset.mem_insert_self _ _)⟩
  · obtain ⟨F, hF⟩ := hs
    exact ⟨F, hc.within hF⟩

/-- Only nodes have threads under way. -/
theorem Reachable.busy_node (hs : Reachable T s) (hτ : (s.process n).thread τ ≠ .idle) :
    n ∈ T.nodes := by
  obtain ⟨F, hF⟩ := hs.exists_within
  exact (hF.busy n τ hτ).1

theorem Reachable.names_eq (hs : Reachable T s) : s.drawn T ++ s.supply = T.names := by
  obtain ⟨used, hused⟩ := hs.suffix
  have hlen := congrArg List.length hused
  rw [List.length_append] at hlen
  have hused' : T.names.length - s.supply.length = used.length := by omega
  rw [Network.drawn, hused', ← hused, List.take_left]

/-- More is drawn as a run goes on. -/
theorem Network.drawn_prefix {s' : Network} (h : s'.supply <:+ s.supply) :
    s.drawn T <+: s'.drawn T := by
  rw [Network.drawn, Network.drawn]
  have hlen := h.length_le
  exact List.take_prefix_take_left (by omega)

theorem Reachable.mem_drawn (hs : Reachable T s) {x : Identifier} {e : Endpoint}
    (he : (s.process n).localEndpoints.find x = some e) : x ∈ s.drawn T := by
  have hport : s.ports.port ⟨n, x⟩ ≠ none := by simp [Network.port, he]
  have hx := (hs.sound.ports.names.node ⟨n, x⟩ hport).2
  rw [← hs.names_eq, List.mem_append] at hx
  refine hx.resolve_right fun hx => ?_
  exact hport (hs.sound.ports.names.unused x hx n)

/-- The order in which names are drawn is that of any beginning of the list with the first of them. -/
theorem idxOf_lt_of_prefix {L N : List Identifier} {x t : Identifier} (hL : L <+: N) (hx : x ∈ L)
    (h : N.idxOf x < N.idxOf t) : L.idxOf x < L.idxOf t := by
  obtain ⟨rest, rfl⟩ := hL
  rw [List.idxOf_append_of_mem hx] at h
  by_cases ht : t ∈ L
  · rwa [List.idxOf_append_of_mem ht] at h
  · rw [List.idxOf_eq_length ht]
    exact List.idxOf_lt_length_of_mem hx

/-- A step of a thread leaves less to do. -/
theorem Act.work_lt (ha : Act T s n τ none o) (hr : Reachable T s) (hτ : τ ∈ F)
    {L : List Identifier} (hL : s.drawn T <+: L) (hLT : L <+: T.names) :
    (s.apply n o).work T L F < s.work T L F := by
  have hlt := ha.move.work_lt (L := L) (F := F) (hr.sound.tidy.threads n τ) hτ
    (fun x e he => hL.subset (hr.mem_drawn he)) (fun x e he hq => ?_) fun d e hd he => ?_
  · have hprocess := sum_change (f := fun k => (s.process k).work L F)
      (g := fun k => ((s.apply n o).process k).work L F) (List.mem_toFinset.2 ha.node)
      fun k _ hk => by rw [Network.apply_process, upd₁_apply, if_neg hk]
    have hsame : (s.apply n o).process n = o.process := by
      rw [Network.apply_process, upd₁_apply, if_pos rfl]
    rw [hsame] at hprocess
    cases hw : o.written with
    | none =>
      rw [hw, Option.elim_none] at hlt
      rw [Network.work, Network.work, Network.apply_wire_none s n hw]
      omega
    | some w =>
      rw [hw, Option.elim_some] at hlt
      have hwires := sum_change_le (F := T.nodes.toFinset ×ˢ T.nodes.toFinset)
        (f := fun e => ((s.wire e.1 e.2).map (·.work L)).sum)
        (g := fun e => (((s.apply n o).wire e.1 e.2).map (·.work L)).sum) (i := (n, w.1))
        fun e _ he => by
          rw [Network.apply_wire_some s n hw, upd_apply, if_neg fun h => he (Prod.ext h.1 h.2)]
      have hnew : (s.apply n o).wire n w.1 = s.wire n w.1 ++ [w.2] := by
        rw [Network.apply_wire_some s n hw, upd_apply, if_pos ⟨rfl, rfl⟩]
      simp only [hnew, List.map_append, List.map_cons, List.map_nil, List.sum_append, List.sum_cons,
        List.sum_nil] at hwires
      rw [Network.work, Network.work]
      omega
  · refine idxOf_lt_of_prefix hLT (hL.subset (hr.mem_drawn he)) ?_
    refine hr.sound.ports.links.rank ⟨n, x⟩ e.proxyTarget (.proxy (p := e.peerAddress) ?_)
    exact Network.port_eq_some.2 ⟨e, he, by simp [Endpoint.port, Endpoint.status, hq]⟩
  · refine idxOf_lt_of_prefix hLT (hL.subset (hr.mem_drawn he)) ?_
    exact hr.sound.ports.links.aged (.hand n τ) (.described d) hd d rfl

/-- So does a receipt. -/
theorem Receipt.work_lt {channel : Channel} {m : ChannelMessage} {rest : List ChannelMessage}
    (hc : Receipt T s n channel m rest) (hr : Reachable T s) (hio : .io ∈ F)
    (L : List Identifier) : (s.consume n channel m rest).work T L F < s.work T L F := by
  have hpair : (channel, n) ∈ T.nodes.toFinset ×ˢ T.nodes.toFinset := by
    have hl := hr.sound.handshake.watched n channel hc.watched
    simp [hc.node, hl.node]
  have hwires := sum_change (F := T.nodes.toFinset ×ˢ T.nodes.toFinset)
    (f := fun e => ((s.wire e.1 e.2).map (·.work L)).sum)
    (g := fun e => (((s.consume n channel m rest).wire e.1 e.2).map (·.work L)).sum)
    (i := (channel, n)) hpair fun e _ he => by
      rw [Network.consume_wire, upd_apply, if_neg fun h => he (Prod.ext h.1 h.2)]
  have hnew : (s.consume n channel m rest).wire channel n = rest := by
    rw [Network.consume_wire, upd_apply, if_pos ⟨rfl, rfl⟩]
  simp only [hnew, hc.head, List.map_cons, List.sum_cons] at hwires
  have hprocess := sum_change (f := fun k => (s.process k).work L F)
    (g := fun k => ((s.consume n channel m rest).process k).work L F) (List.mem_toFinset.2 hc.node)
    fun k _ hk => by rw [Network.consume_process, upd₁_apply, if_neg hk]
  have hthread := sum_change (f := fun τ => ((s.process n).thread τ).work L)
    (g := fun τ => (((s.consume n channel m rest).process n).thread τ).work L) hio fun τ _ hτ => by
      rw [Network.consume_process, upd₁_apply, if_pos rfl, Process.goto_thread, upd₁_apply, if_neg hτ]
  have hold : ((s.process n).thread .io).work L = 0 := by rw [hc.idle]; rfl
  have hless : (((s.consume n channel m rest).process n).thread .io).work L < m.work L := by
    rw [Network.consume_process, upd₁_apply, if_pos rfl, Process.goto_thread, upd₁_apply, if_pos rfl]
    cases m with
    | sendInvitation | acceptInvitation => exact Nat.lt_succ_self _
    | userMessage m =>
      simp only [Process.onReceivedMessage, Thread.work, ChannelMessage.work, Message.underway,
        Nat.add_one_mul]
      rw [hop]
      omega
  have hqueues : ∀ x, ((s.consume n channel m rest).process n).queued x = (s.process n).queued x := by
    intro x
    rw [Network.consume_process, upd₁_apply, if_pos rfl]
    rfl
  have hwork : ((s.consume n channel m rest).process n).work L F =
      (s.process n).work L F + (((s.consume n channel m rest).process n).thread .io).work L := by
    simp only [Process.work, hqueues]
    omega
  rw [Network.work, Network.work]
  omega

/-- A run without calls is no longer than there was work to do, given the names that it draws. -/
theorem Network.Within.length_le (hF : s.Within T F) (hs : Reachable T s) {k : ℕ} {s' : Network}
    (h : s.RunsIn T k s') : k ≤ s.work T (s'.drawn T) F := by
  have hrun := h.length_le (fun u => Reachable T u ∧ u.Within T F) (fun u => u.drawn T <+: s'.drawn T)
    (Network.work T (s'.drawn T) F) ⟨hs, hF⟩ ?_
  · have hle := hrun.2 List.prefix_rfl
    omega
  · rintro u l u' ⟨hu, hw⟩ ⟨hp, hl⟩ hstep
    have hu' : Reachable T u' := .step hu ⟨hp, trivial⟩ hstep
    have hLT : s'.drawn T <+: T.names := List.take_prefix _ _
    rcases Network.advance hp hstep with ⟨n, τ, c, o, rfl, ha, rfl⟩ | ⟨n, ch, m, rest, rfl, hc, rfl⟩
    · cases c with
      | some c => exact absurd hl id
      | none =>
        have hτ := (hw.busy n τ ha.move.not_idle).2
        refine ⟨⟨hu', ha.within hw hτ⟩, fun hq => ?_⟩
        have hq' := (Network.drawn_prefix ha.move.suffix).trans hq
        exact ⟨hq', ha.work_lt hu hτ hq' hLT⟩
    · exact ⟨⟨hu', hc.within hw⟩, fun hq => ⟨hq, hc.work_lt hu hw.io _⟩⟩

/-- From any reachable state on, whatever threads run and whatever channels are read, and in whatever
    order: a run in which no function is called has no more steps than there was work at its start, as
    far as the names go that it has drawn at its end. -/
theorem runs_bounded_by_names (hs : Reachable T s) : ∃ F, s.Within T F ∧
    ∀ k s', s.RunsIn T k s' → k ≤ s.work T (s'.drawn T) F := by
  obtain ⟨F, hF⟩ := hs.exists_within
  exact ⟨F, hF, fun k s' h => hF.length_le hs h⟩

/-- So it is in the middle of a call that sends one pipe over another. -/
theorem carrying_ends : ∃ s F, Reachable Sample.pair s ∧ ¬ Quiescent s ∧ s.Within Sample.pair F ∧
    ∀ k s', s.RunsIn Sample.pair k s' → k ≤ s.work Sample.pair (s'.drawn Sample.pair) F := by
  obtain ⟨s, hs, hbusy⟩ := Network.exists_of_follow Sample.pair (fun _ _ => True) Sample.carrying
    (fun s => ((s.process Sample.inviter).thread (.user 0)).isIdle = false) (by decide +kernel)
  obtain ⟨F, hF, hbound⟩ := runs_bounded_by_names hs
  refine ⟨s, F, hs, fun hq => ?_, hF, hbound⟩
  rw [hq] at hbusy
  cases hbusy

/-! ### Where it ends -/

/-- A thread that waits holds no lock, or only those of proxies and waits for one of another kind. -/
theorem Reachable.waits (hs : Reachable T s) (hb : s.step (.run n τ) = .error .blocked) :
    ∃ x σ, x ∈ ((s.process n).thread σ).locks ∧ (((s.process n).thread τ).locks = [] ∨
      ((s.process n).thread τ).sendsOn ∧ ¬ (s.process n).Proxying x) := by
  simp only [Network.step, bind_eq_error, pure_ne_error, and_false, exists_false, or_false] at hb
  obtain ⟨x, σ, hσ, hw⟩ := Process.run_waits hb
  refine ⟨x, σ, ((hs.exclusive n σ).2 x).2 hσ, hw.imp_right ?_⟩
  rintro ⟨b, m, done, d, ds, ht, rfl⟩
  refine ⟨by rw [ht]; rfl, ?_⟩
  rintro ⟨e, he, hq⟩
  have htok : Token.described d ∈ s.ports.tokens (.hand n τ) := by
    simp [Network.tokens, ht, Thread.tokens]
  rw [hs.sound.described_queueing htok rfl (by simp) he] at hq
  cases hq

/-- Where a thread is under way, there is one that does not wait. -/
theorem Reachable.exists_unblocked (hs : Reachable T s) (hτ : (s.process n).thread τ ≠ .idle) :
    ∃ σ, (s.process n).thread σ ≠ .idle ∧ s.step (.run n σ) ≠ .error .blocked := by
  by_contra! hall
  have busy : ∀ {x σ}, x ∈ ((s.process n).thread σ).locks → (s.process n).thread σ ≠ .idle := by
    intro x σ hx hi
    rw [hi] at hx
    cases hx
  obtain ⟨x, σ, hx, -⟩ := hs.waits (hall τ hτ)
  -- it has a lock and waits: all its locks are of proxies, and it wants another kind
  obtain ⟨y, ρ, hy, hnone | ⟨-, hyq⟩⟩ := hs.waits (hall σ (busy hx))
  · rw [hnone] at hx
    cases hx
  -- but so does the thread that has it
  obtain ⟨-, -, -, hnone | ⟨hsends, -⟩⟩ := hs.waits (hall ρ (busy hy))
  · rw [hnone] at hy
    cases hy
  · exact hyq (hs.locksProxies n ρ hsends y hy)

/-- Where no thread can go on and, once none is under way, no socket can be read, either there is
    nothing left to do or a thread is about to fail an assertion. -/
theorem Reachable.ends (hs : Reachable T s) (hsup : 2 ≤ s.supply.length)
    (hrun : ∀ n ∈ T.nodes, ∀ τ s', s.step (.run n τ) ≠ .ok s')
    (hread : Quiescent s → ∀ n ∈ T.nodes, ∀ channel s', s.step (.read n channel) ≠ .ok s') :
    (Quiescent s ∧ ∀ n, ∀ channel ∈ (s.process n).watchedSockets, s.wire channel n = []) ∨
    ∃ n τ k, s.Aborts (.run n τ) k := by
  by_cases hq : Quiescent s
  · refine .inl ⟨hq, fun n channel hw => ?_⟩
    have hl : Linked T n channel := hs.sound.handshake.watched n channel hw
    cases hwire : s.wire channel n with
    | nil => rfl
    | cons m rest =>
      refine absurd ?_ (hread hq n hl.symm.node channel (s.consume n channel m rest))
      simp [Network.step, check, hq n .io, Thread.isIdle, hw, hwire, bind, Except.bind, pure,
        Except.pure, Network.consume]
  · simp only [Quiescent, not_forall] at hq
    obtain ⟨n, τ, hτ⟩ := hq
    obtain ⟨σ, hσ, hrunning⟩ := hs.exists_unblocked hτ
    cases hstep : s.step (.run n σ) with
    | ok s' => exact absurd hstep (hrun n (hs.busy_node hσ) σ s')
    | error e =>
      have hfail := hstep
      simp only [Network.step, bind_eq_error, pure_ne_error, and_false, exists_false,
        or_false] at hfail
      have hlasting := Process.run_lasting hσ hsup e hfail
      cases e with
      | idle => exact absurd rfl hlasting.1
      | blocked => exact absurd hstep hrunning
      | noName => exact absurd rfl hlasting.2
      | check k => exact .inr ⟨n, σ, k, hs.run_aborts hstep⟩

/-- A run without calls that cannot go on, while there are names to draw, has left nothing to do: no
    thread is under way, and all that was written to a socket which is read has been read. Otherwise a
    thread is about to fail an assertion. -/
theorem rests_or_aborts (hs : Reachable T s) (hsup : 2 ≤ s.supply.length)
    (hend : ∀ s', ¬ s.RunsIn T 1 s') :
    (Quiescent s ∧ ∀ n, ∀ channel ∈ (s.process n).watchedSockets, s.wire channel n = []) ∨
    ∃ n τ k, s.Aborts (.run n τ) k := by
  have stuck : ∀ l, Permitted T s l → l.NoCall → ∀ s', s.step l ≠ .ok s' :=
    fun l hp hl s' hstep => hend s' (.step .init ⟨hp, hl⟩ hstep)
  exact hs.ends hsup (fun n hn τ => stuck (.run n τ) hn trivial)
    fun _ n hn channel => stuck (.read n channel) hn trivial

end

/-- Where two threads in each node are idle or cannot go on, and nothing is to be read, no step without
    a call is possible. -/
theorem ReachableBy.stuck {T : Topology} {s : Network} (hs : ReachableBy T Orderly s)
    (hidle : ∀ n ∈ T.nodes, ∀ τ ∈ [ThreadId.io, .user 0],
      ((s.process n).thread τ).isIdle ∨ (s.stops (.run n τ)).isSome)
    (hwire : ∀ n ∈ T.nodes, ∀ channel ∈ (s.process n).watchedSockets, s.wire channel n = [])
    {l : Label} (hp : Permitted T s l) (hl : l.NoCall) (s' : Network) : s.step l ≠ .ok s' := by
  intro hstep
  rcases Network.advance hp hstep with ⟨n, τ, c, o, rfl, ha, rfl⟩ | ⟨n, ch, m, rest, rfl, hc, rfl⟩
  · cases c with
    | some c => exact hl
    | none =>
      have hτ : τ ∈ [ThreadId.io, .user 0] := by
        simpa using hs.two_threads n τ ha.move.not_idle
      rcases hidle n ha.node τ hτ with hi | hstops
      · exact ha.move.not_idle (Thread.isIdle_iff.1 hi)
      · obtain ⟨e, he⟩ := Option.isSome_iff_exists.1 hstops
        cases (Network.stops_eq_some.1 he).symm.trans hstep
  · have hnone := hwire n hc.node ch hc.watched
    rw [hc.head] at hnone
    cases hnone

/-- When the acceptor passes on a pipe that had received another one unbound, and the inviter has read
    what came of it so far, the run ends in an abort. -/
theorem passing_on_ends : ∃ s, Reachable Sample.pair s ∧ (∀ s', ¬ s.RunsIn Sample.pair 1 s') ∧
    ∃ n τ k, s.Aborts (.run n τ) k := by
  obtain ⟨s, hs, hsup, hbusy, hidle, hwire⟩ := Network.exists_of_follow Sample.pair Orderly
    (Sample.passingOn ++ Label.reading Sample.inviter Sample.acceptor 4)
    (fun s => 2 ≤ s.supply.length ∧
      ((s.process Sample.acceptor).thread (.user 0)).isIdle = false ∧
      (∀ n ∈ Sample.pair.nodes, ∀ τ ∈ [ThreadId.io, .user 0],
        ((s.process n).thread τ).isIdle ∨ (s.stops (.run n τ)).isSome) ∧
      ∀ n ∈ Sample.pair.nodes, ∀ channel ∈ (s.process n).watchedSockets, s.wire channel n = [])
    (by decide +kernel)
  have hr : Reachable Sample.pair s := ReachableBy.reachable hs
  have hend : ∀ s', ¬ s.RunsIn Sample.pair 1 s' := by
    intro s' h
    cases h with
    | step run allowed move =>
      cases run
      exact ReachableBy.stuck hs hidle hwire allowed.1 allowed.2 s' move
  refine ⟨s, hr, hend, ?_⟩
  rcases rests_or_aborts hr hsup hend with ⟨hq, -⟩ | habort
  · rw [hq] at hbusy
    cases hbusy
  · exact habort

end Mage
