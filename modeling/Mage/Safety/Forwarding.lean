import Mage.Flow.Passing
import Mage.Safety.Entanglement
import Mage.Safety.Sending

/-! Forwarding is transparent. Each node that passes a message on changes its target and shifts the
    names in its descriptors by one, and leaves behind one proxy for each of them; so at the end of
    any chain of nodes the message is the one that was sent, and each of its pipes is where a chain
    of proxies from the pipe that was passed comes to its end. -/

namespace Mage
open Lib Relation

/-- `PrepareToForwardUserMessage` on one descriptor. -/
def EndpointDescriptor.inchworm (d : EndpointDescriptor) (newCrossNodeEndpointName : Identifier) :
    EndpointDescriptor :=
  { d with
    endpointName := d.crossNodeEndpointName, crossNodeEndpointName := newCrossNodeEndpointName }

/-- The endpoint `x` is a proxy for `target` and holds no messages. -/
def Core.Relay (c : Core) (x : Identifier) (target : Address) : Prop :=
  ∃ e, c.localEndpoints.find x = some e ∧ e.state = .kUnboundAndProxying ∧
    e.proxyTarget = target ∧ e.incomingMessageQueue = []

/-- How far `Node::OnReceivedUserMessage` has come with `m`, when it has drawn the names `fresh`. -/
def Thread.Relays (c : Core) (m : Message) (fresh : List Identifier) : Thread → Prop
  | .receiving m' => m' = m ∧ fresh = []
  | .recovering x m' done rest => x = m.targetEndpoint ∧ m' = { m with pipes := m'.pipes } ∧
      m.endpointsInMessage = done ++ rest ∧ fresh = []
  | .forwarding x t m' done rest => x = m.targetEndpoint ∧
      m' = { m with targetEndpoint := m'.targetEndpoint, pipes := m'.pipes } ∧
      (∃ e, c.localEndpoints.find x = some e ∧ e.state = .kUnboundAndProxying ∧
        e.proxyTarget = ⟨t, m'.targetEndpoint⟩) ∧
      (∃ old, m.endpointsInMessage = old ++ rest ∧ old.length = fresh.length ∧
        done = old.zipWith EndpointDescriptor.inchworm fresh) ∧
      ∀ d ∈ done, c.Relay d.endpointName ⟨t, d.crossNodeEndpointName⟩
  | .releasing _ => True
  | .idle => True
  | _ => False

theorem Thread.Relays.later {c c' : Core} {m : Message} {fresh : List Identifier} {t : Thread}
    (h : t.Relays c m fresh) (hl : Table.Later c.localEndpoints c'.localEndpoints)
    (hr : ∀ x a, c.Relay x a → c'.Relay x a) : t.Relays c' m fresh := by
  cases t with
  | forwarding x k m' done rest =>
    obtain ⟨hx, hm, ⟨e, he, hq, htarget⟩, hold, hdone⟩ := h
    obtain ⟨e', he', hl'⟩ := hl x e he
    obtain ⟨hq', htarget'⟩ := hl'.proxy hq
    exact ⟨hx, hm, ⟨e', he', hq', htarget'.trans htarget⟩, hold, fun d hd => hr _ _ (hdone d hd)⟩
  | _ => exact h

namespace Process.Move
variable {p : Process} {τ : ThreadId} {supply : List Identifier} {c : Option Call} {o : Outcome}

/-- A proxy without messages stays one. -/
theorem relay_kept (h : p.Move τ supply c o) (hi : c.isSome → p.thread τ = .idle) {x : Identifier}
    {a : Address} (hx : p.Relay x a) : o.process.Relay x a := by
  obtain ⟨e, he, hq, rfl, hnil⟩ := hx
  obtain ⟨e', he', hl⟩ := h.later x e he
  obtain ⟨hq', htarget⟩ := hl.proxy hq
  refine ⟨e', he', hq', htarget, ?_⟩
  by_cases hd : ∃ k, p.thread τ = .draining x k
  · obtain ⟨k, ht⟩ := hd
    rw [ht] at hi
    cases h with
    | drain ht' =>
      rw [ht] at ht'
      cases ht'
      simp only [goto_toCore, setEndpoint_localEndpoints, Table.find_set, if_true,
        Option.some.injEq] at he'
      rw [← he']
    | createMessagePipes | bindReceiver | sendMessage | sendInvitation | acceptInvitation =>
      exact absurd (hi rfl) (by simp)
    | _ => simp_all
  · have hqueue := h.queued_proxy he hq (not_exists.1 hd)
    rwa [Core.queued_of_find he', Core.queued_of_find he, hnil] at hqueue

/-- A step of the thread that forwards. -/
theorem relays (h : p.Move τ supply none o) {m : Message} {fresh : List Identifier}
    (ht : (p.thread τ).Relays p.toCore m fresh)
    (hempty : ∀ d ∈ (p.thread τ).recovered, p.queued d.crossNodeEndpointName = []) :
    ∃ fresh', (o.process.thread τ).Relays o.process.toCore m fresh' ∧
      (fresh' ++ o.supply).Sublist (fresh ++ supply) := by
  have hkept := fun x a => h.relay_kept (by simp) (x := x) (a := a)
  cases h with
  | receive h1 =>
    rw [h1] at ht
    obtain ⟨rfl, rfl⟩ := ht
    exact ⟨[], by simp [Thread.Relays], List.Sublist.refl _⟩
  | recover h1 =>
    rw [h1] at ht
    obtain ⟨rfl, hm, hsplit, rfl⟩ := ht
    refine ⟨[], ?_, List.Sublist.refl _⟩
    rw [goto_thread, upd₁_apply, if_pos rfl]
    refine ⟨rfl, ?_, by simp [hsplit], rfl⟩
    rw [hm]
    rfl
  | relay h1 he hq =>
    rw [h1] at ht
    obtain ⟨rfl, hm, -, rfl⟩ := ht
    refine ⟨[], ?_, List.Sublist.refl _⟩
    rw [goto_thread, upd₁_apply, if_pos rfl]
    refine ⟨rfl, ?_, ⟨_, he, hq, rfl⟩, ⟨[], ?_, rfl, rfl⟩, by simp⟩
    · rw [hm]
      rfl
    · exact (congrArg Message.endpointsInMessage hm).symm
  | @forward x n name m' done ds d rest e h1 hs he hq =>
    rw [h1] at ht hempty
    have hl := (Process.Move.forward h1 hs he hq).later
    obtain ⟨rfl, hm, hproxy, ⟨old, hold, hlen, rfl⟩, hdone⟩ := ht
    refine ⟨fresh ++ [name], ?_, by simp [hs]⟩
    rw [goto_thread, upd₁_apply, if_pos rfl]
    refine ⟨rfl, hm, ?_, ⟨old ++ [d], by simp [hold], by simp [hlen], ?_⟩, fun d' hd' => ?_⟩
    · obtain ⟨e₁, he₁, hq₁, htarget⟩ := hproxy
      obtain ⟨e₂, he₂, hl₂⟩ := hl _ _ he₁
      obtain ⟨hq₂, htarget₂⟩ := hl₂.proxy hq₁
      exact ⟨e₂, he₂, hq₂, htarget₂.trans htarget⟩
    · rw [List.zipWith_append hlen]
      rfl
    · rcases List.mem_append.1 hd' with hd' | hd'
      · exact hkept _ _ (hdone d' hd')
      · rw [List.mem_singleton.1 hd']
        refine ⟨_, if_pos rfl, rfl, rfl, ?_⟩
        have := hempty d List.mem_cons_self
        rwa [Core.queued_of_find he] at this
  | dispatch | writeForwarded | releaseTarget => exact ⟨fresh, by simp [Thread.Relays], List.Sublist.refl _⟩
  | _ => simp_all [Thread.Relays]

end Process.Move

/-- The IO thread of node `n` begins nothing new. -/
def Label.handling (n : Identifier) : Label → Prop
  | .call m τ _ => m = n → τ ≠ .io
  | .read m _ => m ≠ n
  | .run _ _ => True

/-- In state `s` node `n` reads `m` from `channel`, and up to state `s'` its IO thread is busy with it;
    other threads and nodes do as they please. -/
structure Handling (T : Topology) (s : Network) (n : Identifier) (channel : Channel) (m : Message)
    (s' : Network) : Prop where
  node : n ∈ T.nodes
  read : ∃ s₁ rest, s.wire channel n = .userMessage m :: rest ∧ s.step (.read n channel) = .ok s₁ ∧
    s₁.Runs T (Label.handling n) s'

/-- The next step of thread `τ` of node `n` writes `m` to channel `k`. -/
structure Writes (T : Topology) (s : Network) (n : Identifier) (τ : ThreadId) (k : Channel)
    (m : Message) (s' : Network) : Prop where
  node : n ∈ T.nodes
  step : s.step (.run n τ) = .ok s'
  wire : s'.wire n k = s.wire n k ++ [.userMessage m]

section
variable {T : Topology} {s s' : Network} {n : Identifier} {τ : ThreadId} {k : Channel} {m : Message}

theorem Writes.act (h : Writes T s n τ k m s') : ∃ o, Act T s n τ none o ∧ s' = s.apply n o ∧
    o.written = some (k, .userMessage m) := by
  obtain ⟨o, ha, rfl⟩ := Network.step_run h.node h.step
  refine ⟨o, ha, rfl, ?_⟩
  have hwire := h.wire
  cases hw : o.written with
  | none => simp [Network.apply_wire_none s n hw] at hwire
  | some w =>
    obtain ⟨c, m'⟩ := w
    rw [Network.apply_wire_some s n hw, upd_apply] at hwire
    split_ifs at hwire with hk
    · obtain ⟨-, rfl⟩ := hk
      rw [List.append_cancel_left_eq, List.cons.injEq] at hwire
      obtain rfl : m' = .userMessage m := hwire.1
      rfl
    · simp at hwire

theorem Writes.reachable (h : Writes T s n τ k m s') (hr : Reachable T s) : Reachable T s' :=
  .step (l := .run n τ) hr ⟨h.node, trivial⟩ h.step

/-- An endpoint that was just re-created holds no messages. -/
theorem Reachable.recovered_empty (h : Reachable T s) {d : EndpointDescriptor}
    (hd : d ∈ ((s.process n).thread τ).recovered) :
    (s.process n).queued d.crossNodeEndpointName = [] := by
  have htok : Token.recovered d ∈ s.ports.tokens (.hand n τ) := by
    simp only [Network.ports_tokens, Network.tokens]
    cases hth : (s.process n).thread τ <;> simp_all [Thread.recovered, Thread.tokens]
  rw [Core.queued]
  cases he : (s.process n).localEndpoints.find d.crossNodeEndpointName with
  | none => rfl
  | some e =>
    have hport : s.ports.port ⟨n, d.crossNodeEndpointName⟩ = some e.port :=
      Network.port_eq_some.2 ⟨e, he, rfl⟩
    have hlive : e.state ≠ .kUnboundAndProxying := by
      intro hq
      refine h.sound.ports.rights.not_proxying htok (a := ⟨n, d.crossNodeEndpointName⟩)
        (p := e.peerAddress) (b := e.proxyTarget) ⟨rfl, rfl⟩ ?_
      rw [hport, Endpoint.port, Endpoint.status, hq]
    have hstock := ((h.untouched.stock n).stocked _ e he).live hlive
    rw [(h.untouched.recovered n τ d hd).2] at hstock
    exact (List.append_eq_nil_iff.1 (List.map_eq_nil_iff.1 hstock.symm)).2

theorem Handling.receipt (h : Handling T s n k m s') (hr : Reachable T s) :
    ∃ rest, Receipt T s n k (.userMessage m) rest ∧
      Reachable T (s.consume n k (.userMessage m) rest) ∧
      (s.consume n k (.userMessage m) rest).Runs T (Label.handling n) s' := by
  obtain ⟨s₁, rest, hwire, hstep, hruns⟩ := h.read
  have hp : Permitted T s (.read n k) := h.node
  have hr₁ : Reachable T s₁ := .step hr ⟨hp, trivial⟩ hstep
  rcases Network.advance hp hstep with ⟨_, _, c, _, hl, -⟩ | ⟨_, _, m', rest', hl, hc, rfl⟩
  · cases c <;> cases hl
  · cases hl
    have hhead := hc.head
    rw [hwire, List.cons.injEq] at hhead
    obtain ⟨rfl, rfl⟩ := hhead
    exact ⟨rest, hc, hr₁, hruns⟩

/-- While the IO thread is busy with a message, it is somewhere in `Node::OnReceivedUserMessage`. -/
theorem Handling.relays (h : Handling T s n k m s') (hr : Reachable T s) : Reachable T s' ∧
    ∃ fresh, ((s'.process n).thread .io).Relays (s'.process n).toCore m fresh ∧
      (fresh ++ s'.supply).Sublist s.supply := by
  obtain ⟨rest, hc, hr₁, hruns⟩ := h.receipt hr
  refine hruns.induct hr₁ (P := fun u => ∃ fresh, ((u.process n).thread .io).Relays
    (u.process n).toCore m fresh ∧ (fresh ++ u.supply).Sublist s.supply) ⟨[], ?_⟩ ?_ ?_
  · simp [Process.onReceivedMessage, Thread.Relays]
  · rintro u l τ c o hu ⟨fresh, hP, hsub⟩ ha hok
    have hsupply : (fresh ++ o.supply).Sublist s.supply :=
      ((List.Sublist.refl fresh).append ha.move.suffix.sublist).trans hsub
    by_cases hl : l = n
    · subst hl
      rw [Network.apply_process, upd₁_apply, if_pos rfl]
      by_cases hτ : τ = .io
      · subst hτ
        cases c with
        | some c => exact absurd rfl (hok rfl)
        | none =>
          obtain ⟨fresh', hP', hsub'⟩ := ha.move.relays hP fun d hd => hu.recovered_empty hd
          exact ⟨fresh', hP', hsub'.trans hsub⟩
      · rw [ha.move.thread_other (Ne.symm hτ)]
        exact ⟨fresh, hP.later ha.move.later fun x a => ha.move.relay_kept ha.idle, hsupply⟩
    · rw [Network.apply_process, upd₁_apply, if_neg (Ne.symm hl)]
      exact ⟨fresh, hP, hsupply⟩
  · rintro u l ch msg rest' hu ⟨fresh, hP, hsub⟩ hc' hok
    rw [Network.consume_process, upd₁_apply, if_neg (Ne.symm hok)]
    exact ⟨fresh, hP, hsub⟩

/-- A descriptor on a channel is proxied to where it goes by the endpoint that it names. -/
theorem Reachable.wire_crossing (h : Reachable T s) (hm : .userMessage m ∈ s.wire n k)
    {d : EndpointDescriptor} (hd : d ∈ m.endpointsInMessage) : ∃ e,
      (s.process n).localEndpoints.find d.endpointName = some e ∧ e.peerAddress = d.peerAddress ∧
      e.state = .kUnboundAndProxying ∧ e.proxyTarget = ⟨k, d.crossNodeEndpointName⟩ := by
  have htok : Token.crossing k d ∈ s.ports.tokens (.wire n k) :=
    List.mem_flatMap.2 ⟨_, hm, List.mem_map_of_mem hd⟩
  obtain ⟨n', hP, -, -, hport⟩ := h.sound.ports.names.ok _ _ htok
  obtain ⟨e, he, hq⟩ := Network.port_eq_some.1 hport
  have hn : n' = n := by
    rcases hP with ⟨τ, hP⟩ | hP | hP
    · cases hP
    · cases hP
      rfl
    · cases hP
  subst hn
  rw [Endpoint.port, Port.mk.injEq, Network.Endpoint.status_eq_proxying] at hq
  exact ⟨e, he, hq⟩

end

namespace Network

/-- What is registered stays, and handles stand for what they stood for. -/
structure Grows (s s' : Network) : Prop where
  handle : ∀ n k x, (s.process n).findHandle k = some x → (s'.process n).findHandle k = some x
  endpoints : ∀ n, Table.Later (s.process n).localEndpoints (s'.process n).localEndpoints

/-- The endpoint at `a` sends on to `b` whatever it gets. -/
def Proxies (s : Network) (a b : Address) : Prop :=
  ∃ e, s.endpointAt a = some e ∧ e.state = .kUnboundAndProxying ∧ e.proxyTarget = b

/-- In node `n` the handle `h` stands for endpoint `x`, the peer of `p`. -/
def Stands (s : Network) (n : Identifier) (h : MessagePipe) (x : Identifier) (p : Address) : Prop :=
  (s.process n).findHandle h = some x ∧
    ∃ e, s.endpointAt ⟨n, x⟩ = some e ∧ e.peerAddress = p

section
variable {T : Topology} {s s' s'' : Network} {n x : Identifier} {a b p : Address} {h : MessagePipe}
  {ok : Label → Prop}

theorem Grows.refl (s : Network) : s.Grows s := ⟨fun _ _ _ hk => hk, fun _ => .refl _⟩

theorem Grows.trans (hg : s.Grows s') (hg' : s'.Grows s'') : s.Grows s'' :=
  ⟨fun n k x hk => hg'.handle n k x (hg.handle n k x hk),
    fun n => (hg.endpoints n).trans (hg'.endpoints n)⟩

theorem Grows.act {τ : ThreadId} {c : Option Call} {o : Outcome} (ha : Act T s n τ c o) :
    s.Grows (s.apply n o) := by
  refine ⟨fun k h x hh => ?_, fun k => ?_⟩ <;> rw [apply_process, upd₁_apply] <;> split_ifs with hk
  · subst hk
    exact ha.move.handle hh
  · exact hh
  · subst hk
    exact ha.move.later
  · exact .refl _

theorem Grows.consume {channel : Channel} {m : ChannelMessage} {rest : List ChannelMessage} :
    s.Grows (s.consume n channel m rest) := by
  refine ⟨fun k h x hh => ?_, fun k => ?_⟩ <;> rw [(Handshake.core_consume k).1]
  · exact hh
  · exact .refl _

theorem Runs.grows (hruns : s.Runs T ok s') (hr : Reachable T s) : s.Grows s' :=
  (hruns.induct hr (P := fun u => s.Grows u) (.refl s) (fun _ _ _ _ _ _ hP ha _ => hP.trans (.act ha))
    fun _ _ _ _ _ _ hP _ _ => hP.trans .consume).2

/-- Once a proxy, always the same proxy. -/
theorem Proxies.later (hp : s.Proxies a b) (hg : s.Grows s') : s'.Proxies a b := by
  obtain ⟨e, he, hq, htarget⟩ := hp
  obtain ⟨e', he', hl⟩ := hg.endpoints _ _ e he
  obtain ⟨hq', htarget'⟩ := hl.proxy hq
  exact ⟨e', he', hq', htarget'.trans htarget⟩

theorem Stands.later (hs : s.Stands n h x p) (hg : s.Grows s') : s'.Stands n h x p := by
  obtain ⟨hh, e, he, hp⟩ := hs
  obtain ⟨e', he', hl⟩ := hg.endpoints _ _ e he
  exact ⟨hg.handle n h x hh, e', he', hl.peer.trans hp⟩

end

end Network

/-- In state `s` node `n` reads `m` from `channel`; by state `s'` it has passed it on to node `k` as `m'`,
    with the names `fresh`. -/
structure Relayed (T : Topology) (s s' : Network) (n channel k : Identifier) (m m' : Message)
    (fresh : List Identifier) : Prop where
  target : ∃ e, (s'.process n).localEndpoints.find m.targetEndpoint = some e ∧
    e.state = .kUnboundAndProxying ∧ e.proxyTarget = ⟨k, m'.targetEndpoint⟩
  message : m' = { m with
    targetEndpoint := m'.targetEndpoint
    endpointsInMessage := m.endpointsInMessage.zipWith EndpointDescriptor.inchworm fresh }
  length : fresh.length = m.endpointsInMessage.length
  drawn : fresh.Nodup ∧ ∀ x ∈ fresh, s.ports.Unregistered x
  absent : m.crossNames.Nodup ∧ ∀ x ∈ m.crossNames, (s.process n).localEndpoints.find x = none
  registered : List.Forall₂ (fun d x => ∃ e,
    (s'.process n).localEndpoints.find d.crossNodeEndpointName = some e ∧
    e.name = d.crossNodeEndpointName ∧ e.peerAddress = d.peerAddress ∧
    e.incomingMessageQueue = [] ∧ e.state = .kUnboundAndProxying ∧ e.proxyTarget = ⟨k, x⟩)
    m.endpointsInMessage fresh
  exactly : ∀ s₁, s.step (.read n channel) = .ok s₁ → s₁.Runs T (Label.only n .io) s' →
    ∀ x, (s'.process n).localEndpoints.find x ≠ none ↔
      (s.process n).localEndpoints.find x ≠ none ∨ x ∈ m.crossNames

section
variable {T : Topology} {s s' s'' : Network} {n k channel : Identifier} {m m' : Message}

/-- The thread that writes what it forwards has nothing left to shift. -/
theorem Process.Move.forwarded {p : Process} {τ : ThreadId} {supply fresh : List Identifier}
    {o : Outcome} (h : p.Move τ supply none o) (hr : (p.thread τ).Relays p.toCore m fresh)
    (hw : o.written = some (k, .userMessage m')) :
    ∃ t m₁, p.thread τ = .forwarding m.targetEndpoint t m₁
        (m.endpointsInMessage.zipWith EndpointDescriptor.inchworm fresh) [] ∧
      p.nodeChannelMap.find t = some k ∧ fresh.length = m.endpointsInMessage.length ∧
      m' = { m with
        targetEndpoint := m₁.targetEndpoint
        endpointsInMessage := m.endpointsInMessage.zipWith EndpointDescriptor.inchworm fresh }.buffer ∧
      o.supply = supply ∧ o.process.thread τ = .releasing m.targetEndpoint := by
  cases h with
  | write h1 =>
    rw [h1] at hr
    exact hr.elim
  | @writeForwarded x t m₁ done channel h1 hc =>
    rw [h1] at hr
    obtain ⟨rfl, hm, -, ⟨old, hold, hlen, rfl⟩, -⟩ := hr
    rw [List.append_nil] at hold
    subst hold
    cases hw
    refine ⟨t, m₁, h1, hc, hlen.symm, ?_, rfl, by simp⟩
    rw [hm]
    rfl
  | _ => cases hw

theorem Handling.relayed (h : Handling T s n channel m s') (hr : Reachable T s)
    (hw : Writes T s' n .io k m' s'') : ∃ fresh, Relayed T s s'' n channel k m m' fresh := by
  obtain ⟨hr', fresh, hrel, hsub⟩ := h.relays hr
  obtain ⟨rest, hc, hr₁, hruns⟩ := h.receipt hr
  have hr'' := hw.reachable hr'
  have hnames := hr.sound.ports.names
  have hwire := hw.wire
  obtain ⟨o, ha, rfl, hwritten⟩ := hw.act
  obtain ⟨t, m₁, hth, hchannel, hlen, hm', hsupply, hnext⟩ := ha.move.forwarded hrel hwritten
  rw [hth] at hrel
  obtain ⟨-, -, hproxy, -, hdone⟩ := hrel
  have htidy := hr'.sound.tidy.threads n .io
  rw [hth] at htidy
  obtain rfl : k = t := hr'.sound.channel_eq htidy hchannel
  have hpipes : m.pipes = [] := hr.sound.tidy.wires channel n m (by
    rw [hc.head]
    exact List.mem_cons_self)
  have hdrawn : fresh.Sublist s.supply := (List.sublist_append_left _ _).trans hsub
  have hflight : s.inFlight channel n = m.endpointsInMessage ++ rest.flatMap (·.descriptors) := by
    rw [Network.inFlight, hc.head]
    rfl
  refine ⟨fresh, ?_, ?_, hlen, ⟨hdrawn.nodup hnames.supply_nodup, fun x hx =>
    hnames.unused x (hdrawn.subset hx)⟩, ⟨?_, fun x hx => ?_⟩, ?_, fun s₁ hstep honly x => ?_⟩
  · obtain ⟨e, he, hq, htarget⟩ := hproxy
    obtain ⟨e', he', hl⟩ := ha.move.later _ e he
    obtain ⟨hq', htarget'⟩ := hl.proxy hq
    refine ⟨e', by simpa using he', hq', ?_⟩
    rw [htarget', htarget, hm']
    rfl
  · rw [hm', Message.buffer, ← hpipes]
  · have hnodup := hr.sound.inFlight_once (a := channel) (n := n)
    rw [hflight, List.map_append] at hnodup
    exact (List.nodup_append.1 hnodup).1
  · obtain ⟨d, hd, rfl⟩ := List.mem_map.1 hx
    by_contra hne
    exact Network.port_ne_none.2 hne (hr.sound.unregistered (a := channel) (n := n)
      (by rw [hflight]; exact List.mem_append_left _ hd) n)
  · refine List.forall₂_iff_zip.2 ⟨hlen.symm, fun {d x} hdx => ?_⟩
    have hd : d.inchworm x ∈ m.endpointsInMessage.zipWith EndpointDescriptor.inchworm fresh := by
      rw [← List.map_uncurry_zip_eq_zipWith]
      exact List.mem_map_of_mem hdx
    obtain ⟨e, he, hpeer, hq, htarget⟩ := hr''.wire_crossing (n := n) (k := k) (m := m')
      (d := d.inchworm x) (by rw [hwire]; simp) (by rw [hm']; exact hd)
    obtain ⟨e', he', -, -, hnil⟩ := ha.move.relay_kept ha.idle (hdone _ hd)
    obtain rfl : e' = e := by
      have he₂ : o.process.localEndpoints.find (d.inchworm x).endpointName = some e := by
        simpa using he
      rw [he₂] at he'
      exact (Option.some.inj he').symm
    exact ⟨e', he, hr''.named n _ _ he, hpeer, hnil, hq, htarget⟩
  · have hp : Permitted T s (.read n channel) := h.node
    rcases Network.advance hp hstep with ⟨_, _, c, _, hl, -⟩ | ⟨_, _, m₂, rest', hl, hc', rfl⟩
    · cases c <;> cases hl
    · cases hl
      have hhead := hc'.head
      rw [hc.head, List.cons.injEq] at hhead
      obtain ⟨rfl, rfl⟩ := hhead
      have hadds := (hr₁.receipt_adds (m := m) (by simp [Process.onReceivedMessage]) honly
        (by simp [hnext, Thread.toRecover])).2.2.2 x
      simpa using hadds

end

/-! ### From the sender to the last node -/

/-- In state `s` the message of a call in node `n₀` with these arguments is, or was, on its way from node
    `a` to node `n` as `m`. -/
inductive Journey (T : Topology) (n₀ : Identifier) (id : ℤ) (body : List UInt8)
    (pipes : List MessagePipe) : Network → Identifier → Identifier → Message → Prop where
  | sent {s s' : Network} {τ : ThreadId} {k : Identifier} {b : Batch} {m m' : Message}
      {done : List EndpointDescriptor} (hh : Held T n₀ id body pipes s (.sending τ) m)
      (ht : (s.process n₀).thread τ = .sending b m done []) (hw : Writes T s n₀ τ k m' s') :
      Journey T n₀ id body pipes s' n₀ k m'
  | wait {s s' : Network} {a n : Identifier} {m : Message} (hj : Journey T n₀ id body pipes s a n m)
      (h : s.Runs T (fun _ => True) s') : Journey T n₀ id body pipes s' a n m
  | hop {s s' s'' : Network} {a n k : Identifier} {m m' : Message}
      (hj : Journey T n₀ id body pipes s a n m) (h : Handling T s n a m s')
      (hw : Writes T s' n .io k m' s'') : Journey T n₀ id body pipes s'' n k m'

/-- What is known of a message on its way. -/
structure Traced (T : Topology) (n₀ : Identifier) (id : ℤ) (body : List UInt8)
    (pipes : List MessagePipe) (s : Network) (a n : Identifier) (m : Message) : Prop where
  reachable : Reachable T s
  userMessageId : m.userMessageId = id
  body : m.body = body
  unpiped : m.pipes = []
  chains : List.Forall₂ (fun h d => ∃ x, s.Stands n₀ h x d.peerAddress ∧
    ReflTransGen s.Proxies ⟨n₀, x⟩ ⟨a, d.endpointName⟩) pipes m.endpointsInMessage
  next : ∀ d ∈ m.endpointsInMessage,
    s.Proxies ⟨a, d.endpointName⟩ ⟨n, d.crossNodeEndpointName⟩

section
variable {T : Topology} {s s' s'' : Network} {n₀ a n k : Identifier} {id : ℤ} {body : List UInt8}
  {pipes : List MessagePipe} {m m' : Message}

theorem Traced.later (h : Traced T n₀ id body pipes s a n m) (hr : Reachable T s')
    (hg : s.Grows s') : Traced T n₀ id body pipes s' a n m where
  reachable := hr
  userMessageId := h.userMessageId
  body := h.body
  unpiped := h.unpiped
  chains := h.chains.imp fun _ _ ⟨x, hs, hc⟩ =>
    ⟨x, hs.later hg, ReflTransGen.mono (fun _ _ hp => hp.later hg) _ _ hc⟩
  next d hd := (h.next d hd).later hg

theorem forall₂_with_mem {α β : Type} {R R' : α → β → Prop} {l₀ : List α} {l : List β}
    (h : List.Forall₂ R l₀ l) (hf : ∀ a, ∀ b ∈ l, R a b → R' a b) : List.Forall₂ R' l₀ l := by
  induction h with
  | nil => exact .nil
  | @cons a b _ l hab _ ih =>
    exact .cons (hf a b List.mem_cons_self hab) (ih fun a b hb => hf a b (List.mem_cons_of_mem _ hb))

theorem forall₂_zipWith {α β γ : Type} {R R' : α → β → Prop} {f : β → γ → β} {l₀ : List α}
    {l : List β} {xs : List γ} (h : List.Forall₂ R l₀ l) (hlen : xs.length = l.length)
    (hf : ∀ a, ∀ b ∈ l, ∀ x, R a b → R' a (f b x)) : List.Forall₂ R' l₀ (l.zipWith f xs) := by
  induction h generalizing xs with
  | nil => exact .nil
  | @cons a b _ l hab _ ih =>
    cases xs with
    | nil => cases hlen
    | cons x xs =>
      exact .cons (hf a b List.mem_cons_self x hab)
        (ih (Nat.succ.inj hlen) fun a b hb => hf a b (List.mem_cons_of_mem _ hb))

/-- What a node writes is proxied by the endpoints it names. -/
theorem Writes.next {τ : ThreadId} (hw : Writes T s n τ k m s') (hr : Reachable T s) :
    ∀ d ∈ m.endpointsInMessage, s'.Proxies ⟨n, d.endpointName⟩ ⟨k, d.crossNodeEndpointName⟩ := by
  intro d hd
  obtain ⟨e, he, -, hq, htarget⟩ :=
    (hw.reachable hr).wire_crossing (by rw [hw.wire]; simp) hd
  exact ⟨e, he, hq, htarget⟩

theorem Handling.grows (h : Handling T s n a m s') (hr : Reachable T s) : s.Grows s' := by
  obtain ⟨rest, hc, hr₁, hruns⟩ := h.receipt hr
  exact Network.Grows.consume.trans (hruns.grows hr₁)

theorem Writes.grows {τ : ThreadId} (hw : Writes T s n τ k m s') : s.Grows s' := by
  obtain ⟨o, ha, rfl, -⟩ := hw.act
  exact .act ha

/-- The first write of a message: it bears what the call asked for. -/
theorem Held.written {τ : ThreadId} {b : Batch} {done : List EndpointDescriptor}
    (hh : Held T n id body pipes s (.sending τ) m)
    (ht : (s.process n).thread τ = .sending b m done []) (hw : Writes T s n τ k m' s') :
    (s'.process n).toCore.Bears id body pipes m' := by
  obtain ⟨-, -, -, hb⟩ := hh.known
  have hm : m' = m.buffer := by
    obtain ⟨o, ha, -, hwritten⟩ := hw.act
    cases ha.move with
    | write h1 =>
      rw [ht] at h1
      cases h1
      cases hwritten
      rfl
    | writeForwarded h1 =>
      rw [ht] at h1
      cases h1
    | _ => cases hwritten
  have hlater := hb.later fun x y => hw.grows.handle n x y
  exact hm ▸ ⟨hlater.userMessageId, hlater.body, hlater.names⟩

theorem Journey.traced (h : Journey T n₀ id body pipes s a n m) :
    Traced T n₀ id body pipes s a n m := by
  induction h with
  | @sent s s' τ k b m m' done hh ht hw =>
    obtain ⟨-, hr, -⟩ := hh.known
    have hr' := hw.reachable hr
    have hb := hh.written ht hw
    have hmem : .userMessage m' ∈ s'.wire n₀ k := by simp [hw.wire]
    refine ⟨hr', hb.userMessageId, hb.body, hr'.sound.tidy.wires n₀ k m' hmem, ?_, hw.next hr⟩
    refine forall₂_with_mem hb.names fun h d hd hh => ?_
    obtain ⟨e, he, hp, -⟩ := hr'.wire_crossing hmem hd
    exact ⟨d.endpointName, ⟨hh, e, he, hp⟩, .refl⟩
  | wait _ hruns ih =>
    exact ih.later (Network.Runs.reachable hruns ih.reachable) (hruns.grows ih.reachable)
  | @hop s s' s'' a n k m m' _ hh hw ih =>
    obtain ⟨fresh, hrel⟩ := hh.relayed ih.reachable hw
    obtain ⟨hr', -⟩ := hh.relays ih.reachable
    have hg : s.Grows s'' := (hh.grows ih.reachable).trans hw.grows
    refine ⟨hw.reachable hr', ?_, ?_, ?_, ?_, hw.next hr'⟩
    · rw [hrel.message]
      exact ih.userMessageId
    · rw [hrel.message]
      exact ih.body
    · rw [hrel.message]
      exact ih.unpiped
    · rw [hrel.message]
      refine forall₂_zipWith ih.chains hrel.length fun h d hd x ⟨y, hs, hc⟩ => ⟨y, hs.later hg, ?_⟩
      exact (ReflTransGen.mono (fun _ _ hp => hp.later hg) _ _ hc).tail ((ih.next d hd).later hg)

end

/-- Node `n` has given `m` to its endpoint `x`: it has the arguments of the call in node `n₀`, and a pipe
    for each that was passed, to whose endpoint a chain of proxies leads from the one passed. -/
structure Delivered (s : Network) (n₀ n x : Identifier) (id : ℤ) (body : List UInt8)
    (pipes : List MessagePipe) (m : Message) : Prop where
  received : ∃ e before, (s.process n).localEndpoints.find x = some e ∧
    ((e.state = .kBound ∧ e.posted = before ++ [m]) ∨
      (e.state = .kUnboundAndQueueing ∧ e.incomingMessageQueue = before ++ [m]))
  userMessageId : m.userMessageId = id
  body : m.body = body
  pipes : List.Forall₂ (fun h₀ h => ∃ x₀ y p, s.Stands n₀ h₀ x₀ p ∧ s.Stands n h y p ∧
    (∃ e, (s.process n).localEndpoints.find y = some e ∧ e.state = .kUnboundAndQueueing) ∧
    Ends s.Proxies ⟨n₀, x₀⟩ ⟨n, y⟩) pipes m.pipes

section
variable {T : Topology} {s s' s'' : Network} {n₀ a n x : Identifier} {id : ℤ} {body : List UInt8}
  {pipes : List MessagePipe} {m m' : Message} {done : List EndpointDescriptor} {e : Endpoint}

theorem forall₂_trans {α β γ : Type} {R : α → β → Prop} {S : β → γ → Prop} {l : List α} {l' : List β}
    {l'' : List γ} (h : List.Forall₂ R l l') (h' : List.Forall₂ S l' l'') :
    List.Forall₂ (fun a c => ∃ b ∈ l', R a b ∧ S b c) l l'' := by
  induction h generalizing l'' with
  | nil =>
    cases h'
    exact .nil
  | cons hab _ ih =>
    cases h' with
    | cons hbc h' =>
      refine .cons ⟨_, List.mem_cons_self, hab, hbc⟩ ((ih h').imp ?_)
      rintro a c ⟨b, hb, h⟩
      exact ⟨b, List.mem_cons_of_mem _ hb, h⟩

theorem Process.Move.dispatched {p : Process} {τ : ThreadId} {supply : List Identifier} {o : Outcome}
    (h : p.Move τ supply none o) (ht : p.thread τ = .recovering x m' done [])
    (he : p.localEndpoints.find x = some e) (hq : e.state ≠ .kUnboundAndProxying) :
    ∃ e', e.acceptMessage m' = .ok e' ∧ o.process.localEndpoints = p.localEndpoints.set x e' ∧
      o.process.handleTable = p.handleTable := by
  cases h with
  | relay h1 he' hq' =>
    rw [ht] at h1
    cases h1
    rw [he] at he'
    cases he'
    exact absurd hq' hq
  | dispatch h1 he' ha =>
    rw [ht] at h1
    cases h1
    rw [he] at he'
    cases he'
    exact ⟨_, ha, rfl, rfl⟩
  | _ => simp_all

/-- An endpoint that was re-created and not passed on is still queueing. -/
theorem Reachable.recovered_queueing (h : Reachable T s) {τ : ThreadId} {d : EndpointDescriptor}
    (htok : .recovered d ∈ s.ports.tokens (.hand n τ)) : ∃ f,
      (s.process n).localEndpoints.find d.crossNodeEndpointName = some f ∧
      f.state = .kUnboundAndQueueing ∧ f.peerAddress = d.peerAddress := by
  obtain ⟨n', ⟨σ, hP⟩, ⟨q, hport, hpeer⟩, -⟩ := h.sound.ports.names.ok _ _ htok
  cases hP
  obtain ⟨f, hf, rfl⟩ := Network.port_eq_some.1 hport
  refine ⟨f, hf, ?_, hpeer⟩
  rcases h.sound.ports.rights.status _ _ htok ⟨n, d.crossNodeEndpointName⟩ _ ⟨rfl, rfl⟩ hport with
    hs | ⟨-, hs⟩
  · cases hstate : f.state <;> simp_all [Endpoint.port, Endpoint.status]
  · cases hs

theorem Journey.delivered (hj : Journey T n₀ id body pipes s a n m) (hh : Handling T s n a m s')
    (ht : (s'.process n).thread .io = .recovering x m' done [])
    (he : (s'.process n).localEndpoints.find x = some e) (hq : e.state ≠ .kUnboundAndProxying)
    (hstep : s'.step (.run n .io) = .ok s'') :
    x = m.targetEndpoint ∧ Delivered s'' n₀ n x id body pipes m' := by
  have htrace := hj.traced
  obtain ⟨hr', fresh, hrel, -⟩ := hh.relays htrace.reachable
  rw [ht] at hrel
  obtain ⟨rfl, hm', hsplit, -⟩ := hrel
  rw [List.append_nil] at hsplit
  subst hsplit
  obtain ⟨o, ha, rfl⟩ := Network.step_run hh.node hstep
  have hg : s.Grows (s'.apply n o) := (hh.grows htrace.reachable).trans (.act ha)
  have htidy := hr'.sound.tidy.threads n .io
  rw [ht] at htidy
  obtain ⟨e', haccept, hset, htable⟩ := ha.move.dispatched ht he hq
  have hfound : o.process.localEndpoints.find m.targetEndpoint = some e' := by simp [hset]
  refine ⟨rfl, ?_, ?_, ?_, ?_⟩
  · rcases Endpoint.acceptMessage_eq haccept with ⟨hs, -, heq⟩ | ⟨hs, -, heq⟩
    · exact ⟨e', e.incomingMessageQueue, by simpa using hfound, .inr (by simp [heq, hs])⟩
    · exact ⟨e', e.posted, by simpa using hfound, .inl (by simp [heq, hs])⟩
  · rw [hm']
    exact htrace.userMessageId
  · rw [hm']
    exact htrace.body
  · have hpiped : List.Forall₂ (fun d h => (s'.process n).findHandle h = some d.crossNodeEndpointName)
        m.endpointsInMessage m'.pipes := htidy.2.flip
    refine (forall₂_trans htrace.chains hpiped).imp ?_
    rintro h₀ h ⟨d, hd, ⟨x₀, hstands, hchain⟩, hhandle⟩
    obtain ⟨f, hf, hstate, hfpeer⟩ := hr'.recovered_queueing (n := n) (τ := .io) (d := d) (by
      simp [Network.tokens, ht, Thread.tokens, hd])
    have hne : d.crossNodeEndpointName ≠ m.targetEndpoint :=
      (hr'.untouched.target n .io _ _ _ _ ht).2 d hd
    have hf' : ((s'.apply n o).process n).localEndpoints.find d.crossNodeEndpointName = some f := by
      simpa [hset, hne] using hf
    refine ⟨x₀, _, d.peerAddress, hstands.later hg, ⟨?_, f, hf', hfpeer⟩, ⟨f, hf', hstate⟩,
      (ReflTransGen.mono (fun _ _ hp => hp.later hg) _ _ hchain).tail ((htrace.next d hd).later hg), ?_⟩
    · rw [Network.apply_process, upd₁_apply, if_pos rfl, Core.findHandle, htable]
      exact hhandle
    · rintro b ⟨g, hg, hproxy, -⟩
      rw [Network.endpointAt, hf'] at hg
      cases hg
      rw [hstate] at hproxy
      cases hproxy

end

/-- What sending and forwarding do to a message and leave alone. -/
structure Transparent (T : Topology) : Prop where
  /-- A message is routed with the arguments of its call and a descriptor for each pipe. -/
  described : ∀ s n τ h id body pipes s₁ s₂ x m rest, Reachable T s →
    Permitted T s (.call n τ (.sendMessage h id body pipes)) →
    s.step (.call n τ (.sendMessage h id body pipes)) = .ok s₁ →
    s₁.Runs T (fun l => ∀ c, l ≠ .call n τ c) s₂ → (s₂.process n).thread τ = .checking x m rest →
    (s₂.process n).toCore.Bears id body pipes m
  /-- It keeps them in every queue of the node where it waits to be written. -/
  held : ∀ n id body pipes s P m, Held T n id body pipes s P m → (∀ τ, P ≠ .preparing τ) →
    m ∈ (s.process n).messagesAt P ∧ (s.process n).toCore.Bears id body pipes m
  /-- And it is first written with them, by whichever thread. -/
  written : ∀ n id body pipes s τ b m done k m' s', Held T n id body pipes s (.sending τ) m →
    (s.process n).thread τ = .sending b m done [] → Writes T s n τ k m' s' →
    (s'.process n).toCore.Bears id body pipes m'
  /-- Every node that reads a message and passes it on changes nothing but names. -/
  hop : ∀ s n channel m s' k m' s'', Reachable T s → Handling T s n channel m s' →
    Writes T s' n .io k m' s'' → ∃ fresh, Relayed T s s'' n channel k m m' fresh
  /-- After any number of nodes the one that keeps the message has what the call asked for. -/
  delivered : ∀ n₀ id body pipes s a n m s' x m' done e s'', Journey T n₀ id body pipes s a n m →
    Handling T s n a m s' → (s'.process n).thread .io = .recovering x m' done [] →
    (s'.process n).localEndpoints.find x = some e → e.state ≠ .kUnboundAndProxying →
    s'.step (.run n .io) = .ok s'' →
    x = m.targetEndpoint ∧ Delivered s'' n₀ n x id body pipes m'

theorem forwarding_transparent (T : Topology) : Transparent T where
  described _ _ _ _ _ _ _ _ _ _ _ _ hr hp hstep hruns ht := hr.described hp hstep hruns ht
  held _ _ _ _ _ _ _ hh hP := ⟨hh.known.2.2.1, Spot.bears_of_knows hh.known.2.2.2 hP⟩
  written _ _ _ _ _ _ _ _ _ _ _ _ hh ht hw := hh.written ht hw
  hop _ _ _ _ _ _ _ _ hr hh hw := hh.relayed hr hw
  delivered _ _ _ _ _ _ _ _ _ _ _ _ _ _ hj hh ht he hq hstep := hj.delivered hh ht he hq hstep

/-! ### A pipe that goes through the inviter -/

namespace Sample

/-- What the inviter reads from one acceptor, and what it writes to the other. -/
def arriving : Message := ⟨9, word 0, [⟨word 9, word 11, acceptor, word 10⟩], [3], []⟩

def leaving : Message := ⟨9, word 8, [⟨word 11, word 12, acceptor, word 10⟩], [3], []⟩

instance (n : Identifier) (l : Label) : Decidable (l.handling n) :=
  match l with
  | .call m τ _ => inferInstanceAs (Decidable (m = n → τ ≠ .io))
  | .read m _ => inferInstanceAs (Decidable (m ≠ n))
  | .run _ _ => .isTrue trivial

def sender : Label := .run acceptor (.user 0)

/-- The states of the send: after the call, when the message is routed, in the work queue, at its front,
    ready to be written, and written. -/
def send (s : Network) : Option (Network × Network × Network × Network × Network × Network) := do
  let s₁ ← (s.step (.call acceptor (.user 0) (.sendMessage 1 9 [3] [2]))).toOption
  let s₂ ← Reaches.follow Network.step (fun s l => Permitted fork s l ∧ l = sender) s₁
    (List.replicate 3 sender)
  let s₃ ← (s₂.step sender).toOption
  let s₄ ← (s₃.step sender).toOption
  let s₅ ← (s₄.step sender).toOption
  let s₆ ← (s₅.step sender).toOption
  return (s₁, s₂, s₃, s₄, s₅, s₆)

/-- The states of a receipt: before and after the step that writes or dispatches the message. -/
def receive (n channel : Identifier) (k : ℕ) (s : Network) : Option (Network × Network) := do
  let s₁ ← (s.step (.read n channel)).toOption
  let s' ← Reaches.follow Network.step (fun s l => Permitted fork s l ∧ l.handling n) s₁
    (List.replicate k (.run n .io))
  let s'' ← (s'.step (.run n .io)).toOption
  return (s', s'')

theorem eq_ok {r : Except Stop Network} {u : Network} (h : r.toOption = some u) : r = .ok u := by
  cases r <;> cases h
  rfl

theorem handling_of_receive {n channel : Identifier} {k : ℕ} {s s' s'' : Network} {m : Message}
    {rest : List ChannelMessage} (hn : n ∈ fork.nodes)
    (hwire : s.wire channel n = .userMessage m :: rest)
    (h : receive n channel k s = some (s', s'')) :
    Handling fork s n channel m s' ∧ s'.step (.run n .io) = .ok s'' := by
  simp only [receive, Option.bind_eq_bind, Option.bind_eq_some_iff, Option.pure_def,
    Option.some.injEq, Prod.mk.injEq] at h
  obtain ⟨s₁, h₁, s', h', s'', h'', rfl, rfl⟩ := h
  exact ⟨⟨hn, s₁, rest, hwire, eq_ok h₁, .of_follow .init h'⟩, eq_ok h''⟩

/-- The message is where it should be at each state of the send. -/
def Staged (s s₁ s₂ s₃ s₄ s₅ s₆ : Network) : Prop :=
  Permitted fork s (.call acceptor (.user 0) (.sendMessage 1 9 [3] [2])) ∧
  (s₁.process acceptor).messagesAt (.preparing (.user 0)) = [⟨9, [], [], [3], []⟩] ∧
  ((s₂.process acceptor).thread (.user 0) matches .checking _ _ []) ∧
  (s₃.process acceptor).messagesAt (.waiting (.user 0)) = [arriving] ∧
  (s₃.process acceptor).messagesAt (.sending (.user 0)) = [] ∧
  (s₄.process acceptor).messagesAt (.sending (.user 0)) = [arriving] ∧
  (s₅.process acceptor).messagesAt (.sending (.user 0)) = [arriving] ∧
  ((s₅.process acceptor).thread (.user 0) matches .sending _ _ _ []) ∧
  s₆.wire acceptor inviter = s₅.wire acceptor inviter ++ [.userMessage arriving]

instance (s s₁ s₂ s₃ s₄ s₅ s₆ : Network) : Decidable (Staged s s₁ s₂ s₃ s₄ s₅ s₆) := by
  unfold Staged
  infer_instance

/-- And of the two receipts. -/
def Passed (s : Network) : Prop :=
  s.wire acceptor inviter = [.userMessage arriving] ∧
  (receive inviter acceptor 4 s).any fun (s₁, s₂) =>
    s₂.wire inviter other = s₁.wire inviter other ++ [.userMessage leaving] ∧
    (Reaches.follow Network.step (fun s l => Permitted fork s l ∧ True) s₂
      (Label.reading other inviter 4)).any fun s₃ =>
        s₃.wire inviter other = [.userMessage leaving] ∧
        (receive other inviter 2 s₃).any fun (s₄, _) =>
          match (s₄.process other).thread .io with
          | .recovering x _ _ [] =>
            ((s₄.process other).localEndpoints.find x).any (·.state ≠ .kUnboundAndProxying)
          | _ => false

instance (s : Network) : Decidable (Passed s) := by
  unfold Passed
  infer_instance

end Sample

/-- The sender's part. -/
theorem Sample.Staged.held {s s₁ s₂ s₃ s₄ s₅ s₆ : Network} (hs : Reachable fork s)
    (hsend : send s = some (s₁, s₂, s₃, s₄, s₅, s₆)) (h : Staged s s₁ s₂ s₃ s₄ s₅ s₆) :
    ∃ x m b done, s.step (.call acceptor (.user 0) (.sendMessage 1 9 [3] [2])) = .ok s₁ ∧
      s₁.Runs fork (fun l => ∀ c, l ≠ .call acceptor (.user 0) c) s₂ ∧
      (s₂.process acceptor).thread (.user 0) = .checking x m [] ∧
      Held fork acceptor 9 [3] [2] s₅ (.sending (.user 0)) arriving ∧
      (s₅.process acceptor).thread (.user 0) = .sending b arriving done [] ∧
      Writes fork s₅ acceptor (.user 0) inviter arriving s₆ := by
  simp only [send, Option.bind_eq_bind, Option.bind_eq_some_iff, Option.pure_def,
    Option.some.injEq, Prod.mk.injEq] at hsend
  obtain ⟨s₁, h₁, s₂, h₂, s₃, h₃, s₄, h₄, s₅, h₅, s₆, h₆, rfl, rfl, rfl, rfl, rfl, rfl⟩ := hsend
  obtain ⟨hp, hm₁, hm₂, hm₃, hf₃, hm₄, hm₅, ht₅, hwire⟩ := h
  have hruns : s₁.Runs fork (fun l => ∀ c, l ≠ .call acceptor (.user 0) c) s₂ := by
    refine Reaches.mono (fun s l hl => ⟨hl.1, fun c => ?_⟩) (Reaches.of_follow .init h₂)
    rw [hl.2]
    simp [sender]
  have hrouted : ∃ x m, (s₂.process acceptor).thread (.user 0) = .checking x m [] := by
    split at hm₂
    · exact ⟨_, _, ‹_›⟩
    · cases hm₂
  have hfront : ∃ b m done, (s₅.process acceptor).thread (.user 0) = .sending b m done [] := by
    split at ht₅
    · exact ⟨_, _, _, ‹_›⟩
    · cases ht₅
  obtain ⟨x, m, hm⟩ := hrouted
  obtain ⟨b, m', done, hb⟩ := hfront
  obtain rfl : m' = arriving := by simpa [Process.messagesAt, Thread.front, hb] using hm₅
  have hcalled := Held.called hs hp (eq_ok h₁) (hm₁ ▸ List.mem_cons_self)
  have hmp : m ∈ (s₂.process acceptor).messagesAt (.preparing (.user 0)) := by
    simp [Process.messagesAt, hm, Thread.preparing]
  have hprepared := hcalled.prepared hruns hmp
  have hwaiting := hprepared.routed (eq_ok h₃) (hm₃ ▸ List.mem_cons_self)
  have hsending := hwaiting.next (eq_ok h₄) hm₃ hf₃ (hm₄ ▸ List.mem_cons_self)
  have hstays := hsending.stays (by simp) (.step (l := sender) .init ⟨hp.1, trivial⟩ (eq_ok h₅))
    (hm₅ ▸ List.mem_cons_self)
  exact ⟨x, m, b, done, eq_ok h₁, hruns, hm, hstays, hb, hp.1, eq_ok h₆, hwire⟩

theorem relayed_to_other : ∃ (s₂ s₅ s₆ s₈ s₁₁ : Network) (m m' : Message) (x : Identifier)
    (fresh : List Identifier),
    (s₂.process Sample.acceptor).toCore.Bears 9 [3] [2] m ∧
    (s₅.process Sample.acceptor).toCore.Bears 9 [3] [2] Sample.arriving ∧
    (s₆.process Sample.acceptor).toCore.Bears 9 [3] [2] Sample.arriving ∧
    Relayed Sample.fork s₆ s₈ Sample.inviter Sample.acceptor Sample.other Sample.arriving
      Sample.leaving fresh ∧
    Delivered s₁₁ Sample.acceptor Sample.other x 9 [3] [2] m' := by
  have transparent := forwarding_transparent Sample.fork
  obtain ⟨s, hs, hP⟩ := Network.exists_of_follow Sample.fork (fun _ _ => True) Sample.relaying
    (fun s => (Sample.send s).any fun (s₁, s₂, s₃, s₄, s₅, s₆) =>
      Sample.Staged s s₁ s₂ s₃ s₄ s₅ s₆ ∧ Sample.Passed s₆) (by decide +kernel)
  obtain ⟨⟨s₁, s₂, s₃, s₄, s₅, s₆⟩, hsend, hP⟩ := (Option.any_eq_true _ _).1 hP
  obtain ⟨hstaged, hwire₆, hP⟩ := of_decide_eq_true hP
  obtain ⟨⟨s₇, s₈⟩, hreceive, hP⟩ := (Option.any_eq_true _ _).1 hP
  obtain ⟨hwire₈, hP⟩ := of_decide_eq_true hP
  obtain ⟨s₉, hfollow, hP⟩ := (Option.any_eq_true _ _).1 hP
  obtain ⟨hwire₉, hP⟩ := of_decide_eq_true hP
  obtain ⟨⟨s₁₀, s₁₁⟩, hreceive', hP⟩ := (Option.any_eq_true _ _).1 hP
  obtain ⟨x, m, b, done, h₁, h₂, hm, hheld, hb, hw⟩ := hstaged.held hs hsend
  obtain ⟨hh, h₈⟩ := Sample.handling_of_receive (by decide) hwire₆ hreceive
  obtain ⟨hh', h₁₁⟩ := Sample.handling_of_receive (by decide) hwire₉ hreceive'
  have hw' : Writes Sample.fork s₇ Sample.inviter .io Sample.other Sample.leaving s₈ :=
    ⟨by decide, h₈, hwire₈⟩
  have hj := ((Journey.sent hheld hb hw).hop hh hw').wait (Reaches.of_follow .init hfollow)
  have hlast : ∃ x m done e, (s₁₀.process Sample.other).thread .io = .recovering x m done [] ∧
      (s₁₀.process Sample.other).localEndpoints.find x = some e ∧ e.state ≠ .kUnboundAndProxying := by
    dsimp only at hP
    split at hP
    · obtain ⟨e, he, hq⟩ := (Option.any_eq_true _ _).1 hP
      exact ⟨_, _, _, e, ‹_›, he, of_decide_eq_true hq⟩
    · cases hP
  obtain ⟨x', m', done', e, ht, he, hq⟩ := hlast
  obtain ⟨fresh, hrelayed⟩ := transparent.hop _ _ _ _ _ _ _ _ (hw.reachable hheld.known.2.1) hh hw'
  exact ⟨s₂, s₅, s₆, s₈, s₁₁, m, m', x', fresh,
    transparent.described _ _ _ _ _ _ _ _ _ _ _ _ hs hstaged.1 h₁ h₂ hm,
    (transparent.held _ _ _ _ _ _ _ hheld (by simp)).2,
    transparent.written _ _ _ _ _ _ _ _ _ _ _ _ hheld hb hw, hrelayed,
    (transparent.delivered _ _ _ _ _ _ _ _ _ _ _ _ _ _ hj hh' ht he hq h₁₁).2⟩

end Mage
