import Mage.Safety.Targets

/-! Where messages are routed to. An endpoint's peer is in the endpoint's own node or in another one, and
    never looks like both; a proxy, and whatever is written, goes to a node that there is a channel to.
    The channel of an accepted invitation is the one exception, while its key is changed. -/

namespace Mage
open Lib

/-- The inviter that a thread answers. -/
def Thread.answering : Thread → Option Identifier
  | .accepting i _ _ | .replying i _ _ => some i
  | _ => none

/-- There is a channel to whatever is written to. -/
structure Process.Keyed (p : Process) : Prop where
  destination : ∀ τ t, (p.thread τ).destination = some t → p.nodeChannelMap.find t ≠ none
  proxies : ∀ x e, p.localEndpoints.find x = some e → e.state = .kUnboundAndProxying →
    p.nodeChannelMap.find e.proxyTarget.nodeName ≠ none ∨
      ∃ τ t, p.thread τ = .rekeying x t e.proxyTarget.nodeName
  answering : ∀ τ i, (p.thread τ).answering = some i → p.nodeChannelMap.find i ≠ none

theorem Thread.destination_of_announcing {t : Thread} {w : Identifier × Address}
    (hw : w ∈ t.announcing) : t.destination = some w.2.nodeName := by
  cases t with
  | sending | forwarding =>
    obtain ⟨d, -, rfl⟩ := List.mem_map.1 hw
    rfl
  | _ => cases hw

namespace Process.Move
variable {p : Process} {τ : ThreadId} {supply : List Identifier} {c : Option Call} {o : Outcome}

/-- A thread starts to write to a node that it looked up, or that a proxy leads to. -/
theorem destination (h : p.Move τ supply c o) {T : Topology} {n t : Identifier}
    (ht : (p.thread τ).Tidy T n p) (ht' : (o.process.thread τ).destination = some t) :
    (p.thread τ).destination = some t ∨
      (∃ x m e, p.thread τ = .checking x m [] ∧ p.localEndpoints.find x = some e ∧
        e.peerAddress.nodeName = t ∧ p.nodeChannelMap.find t ≠ none) ∨
      ∃ x e, p.localEndpoints.find x = some e ∧ e.state = .kUnboundAndProxying ∧
        e.proxyTarget.nodeName = t ∧ p.Meets τ x := by
  cases h with
  | createMessagePipes | bindReceiver | acceptInvitation => exact .inl ht'
  | routeRemote h1 he hp hc =>
    simp only [goto_thread, upd₁_apply, if_true, Thread.destination, Option.some.injEq] at ht'
    exact .inr (.inl ⟨_, _, _, h1, he, ht', by simp [← ht', hc]⟩)
  | deliverToProxy h1 he hl hq =>
    simp only [goto_thread, upd₁_apply, if_true, Thread.destination, Option.some.injEq] at ht'
    exact .inr (.inr ⟨_, _, he, hq, ht', .delivering h1 hl⟩)
  | relay h1 he hq =>
    simp only [goto_thread, upd₁_apply, if_true, Thread.destination, Option.some.injEq] at ht'
    exact .inr (.inr ⟨_, _, he, hq, ht', .recovering h1⟩)
  | @drain r channel e h1 he =>
    simp only [goto_thread, upd₁_apply, if_true, Thread.destination, Option.some.injEq] at ht'
    rw [h1] at ht
    obtain ⟨e', he', hq⟩ := ht
    rw [he, Option.some.injEq] at he'
    subst he'
    exact .inr (.inr ⟨_, _, he, hq, ht', .draining h1⟩)
  | take h1 | write h1 | unlock h1 | next h1 | forward h1 =>
    rw [h1]
    simpa [Thread.destination] using Or.inl ht'
  | _ => simp [Thread.destination] at ht'

/-- An inviter is answered once its channel has its name. -/
theorem answering (h : p.Move τ supply c o) {i : Identifier}
    (ht : (o.process.thread τ).answering = some i) : (p.thread τ).answering = some i ∨
      o.process.nodeChannelMap.find i ≠ none := by
  cases h with
  | createMessagePipes | bindReceiver | acceptInvitation => exact .inl ht
  | rekeyInitial =>
    simp only [goto_thread, upd₁_apply, if_true, Thread.answering, Option.some.injEq] at ht
    subst ht
    refine .inr ?_
    change (Table.insert _ _ _).find _ ≠ none
    simp [Table.find_insert]
  | accept h1 =>
    rw [h1]
    simpa [Thread.answering] using Or.inl ht
  | _ => simp [Thread.answering] at ht

/-- A thread that changes a channel's key goes on to do so, or stores it under the name of the node. -/
theorem rekeyed (h : p.Move τ supply c o) (hi : c.isSome → p.thread τ = .idle)
    {r t m : Identifier} (ht : p.thread τ = .rekeying r t m) :
    o.process.nodeChannelMap.find m ≠ none := by
  cases h with
  | rekey h1 =>
    rw [ht, Thread.rekeying.injEq] at h1
    obtain ⟨-, -, rfl⟩ := h1
    change (Table.insert _ _ _).find _ ≠ none
    simp [Table.find_insert]
  | createMessagePipes | sendMessage | bindReceiver | sendInvitation | acceptInvitation =>
    rw [hi rfl] at ht
    cases ht
  | _ => simp_all

end Process.Move

section
variable {T : Topology} {s : Network} {n : Identifier} {τ : ThreadId} {c : Option Call} {o : Outcome}

/-- A channel under the name of a node stays there. -/
theorem Act.key_kept (h : Handshake T s) (ha : Act T s n τ c o) {t : Identifier} (ht : t ∈ T.nodes)
    (hk : (s.process n).nodeChannelMap.find t ≠ none) : o.process.nodeChannelMap.find t ≠ none := by
  obtain ⟨k, hk⟩ := Option.ne_none_iff_exists'.1 hk
  obtain ⟨rfl, -⟩ := (h.entries n t k hk).of_node ht
  rw [ha.channel_kept h hk]
  exact Option.some_ne_none t

theorem Network.Sound.peer_node (h : s.Sound T) {x : Identifier} {e : Endpoint}
    (he : (s.process n).localEndpoints.find x = some e) : e.peerAddress.nodeName ∈ T.nodes :=
  (h.ports.names.node e.peerAddress (Network.port_ne_none.2 (h.peer_registered he))).1

/-- While a proxy's channel changes its key, the lock of the proxy is taken. -/
theorem Exclusive.not_rekeying {p : Process} (h : Exclusive p.thread p.lock) {x : Identifier}
    (hm : p.Meets τ x) {σ : ThreadId} {t k : Identifier} : p.thread σ ≠ .rekeying x t k := by
  intro hσ
  have hlocks : x ∈ (p.thread σ).locks := by
    rw [hσ]
    simp [Thread.locks]
  cases hm with
  | delivering _ hl =>
    rw [(h σ).2, hl] at hlocks
    cases hlocks
  | recovering ht | draining ht =>
    obtain rfl := h.eq_of_mem (τ := τ) (by rw [ht]; simp [Thread.locks]) hlocks
    rw [ht] at hσ
    cases hσ

theorem Act.keyed (ha : Act T s n τ c o) (hr : Reachable T s) (hp : (s.process n).Keyed) :
    o.process.Keyed := by
  have hs := hr.sound
  have hkept := fun {t} => ha.key_kept hs.handshake (t := t)
  have htidy := hs.tidy.threads n
  have hnode : ∀ σ t, ((s.process n).thread σ).destination = some t → t ∈ T.nodes := by
    intro σ t ht
    have h := htidy σ
    cases hth : (s.process n).thread σ <;> rw [hth] at h ht <;> cases ht
    · exact h.2.node
    · exact h.node
    · exact h.node
  have hlinked : ∀ x e, (s.process n).localEndpoints.find x = some e →
      e.state = .kUnboundAndProxying → Linked T n e.proxyTarget.nodeName := by
    intro x e he hq
    refine hs.ports.links.linked ⟨n, x⟩ e.peerAddress e.proxyTarget ?_
    simp [Network.port, he, Endpoint.port, Endpoint.status, hq]
  have hdest : ∀ σ t, (o.process.thread σ).destination = some t →
      o.process.nodeChannelMap.find t ≠ none := by
    intro σ t ht
    by_cases hσ : σ = τ
    · subst hσ
      rcases ha.move.destination (htidy σ) ht with hold | ⟨x, m, e, -, he, rfl, hk⟩ |
        ⟨x, e, he, hq, rfl, hm⟩
      · exact hkept (hnode σ t hold) (hp.destination σ t hold)
      · exact hkept (hs.peer_node he) hk
      · refine hkept (hlinked x e he hq).node ((hp.proxies x e he hq).resolve_right ?_)
        rintro ⟨υ, t, hυ⟩
        exact (hr.exclusive n).not_rekeying hm hυ
    · rw [ha.move.thread_other hσ] at ht
      exact hkept (hnode σ t ht) (hp.destination σ t ht)
  refine ⟨hdest, fun x e he hq => ?_, fun σ i hi => ?_⟩
  · have hold : ∀ f, (s.process n).localEndpoints.find x = some f →
        f.state = .kUnboundAndProxying → f.proxyTarget = e.proxyTarget →
        o.process.nodeChannelMap.find e.proxyTarget.nodeName ≠ none ∨
          ∃ τ t, o.process.thread τ = .rekeying x t e.proxyTarget.nodeName := by
      intro f hf hfq heq
      rw [← heq]
      rcases hp.proxies x f hf hfq with hk | ⟨σ, t, hσ⟩
      · exact .inl (hkept (hlinked x f hf hfq).node hk)
      · by_cases hστ : σ = τ
        · subst hστ
          exact .inl (ha.move.rekeyed ha.idle hσ)
        · exact .inr ⟨σ, t, by rwa [ha.move.thread_other hστ]⟩
    rcases ha.move.proxied he hq with ⟨f, hf, hfq, heq⟩ | hann | ⟨t, k, g, -, ht, heq⟩
    · exact hold f hf hfq heq
    · exact .inl (hdest τ _ (Thread.destination_of_announcing hann))
    · exact .inr ⟨τ, t, by rw [heq]; exact ht⟩
  · have hold : ∀ σ, ((s.process n).thread σ).answering = some i →
        o.process.nodeChannelMap.find i ≠ none := by
      intro σ hi
      have h := hs.handshake.threads n σ
      refine hkept ?_ (hp.answering σ i hi)
      cases hth : (s.process n).thread σ <;> rw [hth] at h hi <;> cases hi
      · exact (T.invites_nodes _ h.1).1
      · exact (T.invites_nodes _ h.1).1
    by_cases hσ : σ = τ
    · subst hσ
      exact (ha.move.answering hi).elim (hold σ) id
    · rw [ha.move.thread_other hσ] at hi
      exact hold σ hi

theorem Reachable.keyed (h : Reachable T s) (n : Identifier) : (s.process n).Keyed := by
  refine Reachable.forall_process (P := fun _ p => p.Keyed) (fun n => ⟨?_, ?_, ?_⟩)
    (fun s n τ c o hr hp ha => ha.keyed hr hp) (fun s n ch m rest hr hp hc => ?_) h n
  · rintro τ t ⟨⟩
  · rintro x e ⟨⟩
  · rintro τ i ⟨⟩
  · have hthread : ∀ σ, (s.process n).thread σ =
        ((s.process n).goto .io (Process.onReceivedMessage m)).thread σ ∨
        (((s.process n).goto .io (Process.onReceivedMessage m)).thread σ).destination = none ∧
        (((s.process n).goto .io (Process.onReceivedMessage m)).thread σ).answering = none := by
      intro σ
      by_cases hσ : σ = .io
      · subst hσ
        refine .inr ?_
        cases m <;> simp [Process.onReceivedMessage, Thread.destination, Thread.answering]
      · exact .inl (by simp [hσ])
    refine ⟨fun σ t ht => ?_, fun x e he hq => ?_, fun σ i hi => ?_⟩
    · rcases hthread σ with hth | ⟨hd, -⟩
      · exact hp.destination σ t (hth ▸ ht)
      · rw [hd] at ht
        cases ht
    · refine (hp.proxies x e he hq).imp_right ?_
      rintro ⟨σ, t, hσ⟩
      refine ⟨σ, t, ?_⟩
      by_cases hio : σ = .io
      · rw [hio, hc.idle] at hσ
        cases hσ
      · simpa [hio] using hσ
    · rcases hthread σ with hth | ⟨-, ha⟩
      · exact hp.answering σ i (hth ▸ hi)
      · rw [ha] at hi
        cases hi

/-! ### In any network -/

/-- No node has a channel to itself. -/
theorem Reachable.no_own_channel (hs : Reachable T s) (hn : n ∈ T.nodes) :
    (s.process n).nodeChannelMap.find n = none := by
  by_contra hk
  obtain ⟨k, hk⟩ := Option.ne_none_iff_exists'.1 hk
  obtain ⟨rfl, hl⟩ := (hs.sound.handshake.entries n n k hk).of_node hn
  exact hl.ne rfl

/-- An endpoint and its peer are in one node exactly if that node's name is the peer's. -/
theorem Reachable.peer_local (hs : Reachable T s) {x : Identifier} {e : Endpoint}
    (he : (s.process n).localEndpoints.find x = some e) :
    (e.peerAddress.nodeName = n ∧
      (s.process n).localEndpoints.find e.peerAddress.endpointName ≠ none ∧
      (s.process n).nodeChannelMap.find n = none) ∨
    (e.peerAddress.nodeName ≠ n ∧
      (s.process n).localEndpoints.find e.peerAddress.endpointName = none) := by
  have hreg := hs.sound.peer_registered he
  by_cases hn : e.peerAddress.nodeName = n
  · exact .inl ⟨hn, hn ▸ hreg, hs.no_own_channel (hn ▸ hs.sound.peer_node he)⟩
  · refine .inr ⟨hn, ?_⟩
    by_contra hx
    exact hn (hs.sound.ports.names.unique _ n e.peerAddress.endpointName
      (Network.port_ne_none.2 hreg) (Network.port_ne_none.2 hx))

/-- A proxy leads to a linked node. -/
theorem Reachable.proxy_linked (hs : Reachable T s) {x : Identifier} {e : Endpoint}
    (he : (s.process n).localEndpoints.find x = some e) (hq : e.state = .kUnboundAndProxying) :
    Linked T n e.proxyTarget.nodeName := by
  refine hs.sound.ports.links.linked ⟨n, x⟩ e.peerAddress e.proxyTarget ?_
  simp [Network.port, he, Endpoint.port, Endpoint.status, hq]

/-- No write lacks its channel. -/
theorem Reachable.never_nullChannel (hs : Reachable T s) (l : Label) :
    s.step l ≠ .error (.check .nullChannel) := by
  intro hl
  rcases Network.step_fault hl with ⟨n, τ, c, rfl, hf⟩ | ⟨n, τ, rfl, hf⟩
  · cases hf with
    | callCreate _ _ hk' => simp at hk'
  · have hkeyed := hs.keyed n
    cases hf with
    | deliver _ _ _ hk | dispatch _ _ _ hk => simpa using Endpoint.acceptMessage_check hk
    | invite _ _ _ hk' => simp at hk'
    | write ht hc => exact hkeyed.destination τ _ (by rw [ht]; rfl) hc
    | writeForwarded ht hc => exact hkeyed.destination τ _ (by rw [ht]; rfl) hc
    | reply ht hc => exact hkeyed.answering τ _ (by rw [ht]; rfl) hc
    | startChannel ht hc =>
      have h := hs.sound.handshake.threads n τ
      rw [ht] at h
      exact h.1 hc

/-- No proxy leads to its own node. -/
theorem Reachable.never_self (hs : Reachable T s) (l : Label) :
    s.step l ≠ .error (.check .proxyTargetIsSelf) := by
  intro hl
  rcases Network.step_fault hl with ⟨n, τ, c, rfl, hf⟩ | ⟨n, τ, rfl, hf⟩
  · cases hf with
    | callCreate _ _ hk' => simp at hk'
  · cases hf with
    | deliver _ _ _ hk | dispatch _ _ _ hk => simpa using Endpoint.acceptMessage_check hk
    | invite _ _ _ hk' => simp at hk'
    | relay ht he hq hn => exact (hs.proxy_linked he hq).ne (hn.trans (hs.name n))

/-- Routing fails where the peer is elsewhere and there is no channel to its node. -/
theorem Reachable.routing_iff (hs : Reachable T s) (l : Label) :
    s.step l = .error (.check .routing) ↔
      ∃ n τ x m e, l = .run n τ ∧ (s.process n).thread τ = .checking x m [] ∧
        (s.process n).localEndpoints.find x = some e ∧ e.peerAddress.nodeName ≠ n ∧
        (s.process n).nodeChannelMap.find e.peerAddress.nodeName = none := by
  refine ⟨fun hl => ?_, ?_⟩
  · rcases Network.step_fault hl with ⟨n, τ, c, rfl, hf⟩ | ⟨n, τ, rfl, hf⟩
    · cases hf with
      | callCreate _ _ hk' => simp at hk'
    · cases hf with
      | deliver _ _ _ hk | dispatch _ _ _ hk => simpa using Endpoint.acceptMessage_check hk
      | invite _ _ _ hk' => simp at hk'
      | @route x m e ht he hr =>
        refine ⟨n, τ, x, m, e, rfl, ht, he, ?_⟩
        rcases hs.peer_local he with ⟨hn, hx, hk⟩ | ⟨hn, hx⟩
        · rw [hn, hk] at hr
          simp [hx] at hr
        · rw [hx] at hr
          exact ⟨hn, by simpa using hr.symm⟩
  · rintro ⟨n, τ, x, m, e, rfl, ht, he, hn, hk⟩
    rcases hs.peer_local he with ⟨hn', -⟩ | ⟨-, hx⟩
    · exact absurd hn' hn
    · simp [Network.step, Process.run, ht, Process.checkOrRoute, Core.endpoint, he, hx, hk, check,
        orFail, bind, Except.bind]

/-- The channel behind a proxy has its key, or the acceptance it comes from is being processed. -/
theorem Reachable.proxy_channel (hs : Reachable T s) {x : Identifier} {e : Endpoint}
    (he : (s.process n).localEndpoints.find x = some e) (hq : e.state = .kUnboundAndProxying) :
    (s.process n).nodeChannelMap.find e.proxyTarget.nodeName = some e.proxyTarget.nodeName ∨
      ∃ t, (s.process n).thread .io = .rekeying x t e.proxyTarget.nodeName ∧
        (s.process n).nodeChannelMap.find t = some e.proxyTarget.nodeName := by
  refine ((hs.keyed n).proxies x e he hq).imp (fun hk => ?_) ?_
  · obtain ⟨k, hk⟩ := Option.ne_none_iff_exists'.1 hk
    rw [hk, hs.sound.channel_eq (hs.proxy_linked he hq) hk]
  · rintro ⟨σ, t, hσ⟩
    obtain rfl : σ = .io := (hs.channels n).io (by rw [hσ]; rfl)
    have hth := hs.sound.handshake.threads n .io
    rw [hσ] at hth
    exact ⟨t, hσ, hth.2.1⟩

/-- In every reachable state of any network the peer of an endpoint never looks like it is in the node
    and elsewhere. So routing fails exactly where it is elsewhere and there is no channel to its node;
    proxies lead to other nodes that there are channels to, and no write lacks its channel. -/
theorem routing_unambiguous (hs : Reachable T s) :
    (∀ n ∈ T.nodes, (s.process n).nodeChannelMap.find n = none) ∧
    (∀ n x e, (s.process n).localEndpoints.find x = some e →
      ((s.process n).localEndpoints.find e.peerAddress.endpointName ≠ none ↔
        e.peerAddress.nodeName = n) ∧
      ((s.process n).localEndpoints.find e.peerAddress.endpointName = none ∨
        (s.process n).nodeChannelMap.find e.peerAddress.nodeName = none)) ∧
    (∀ n x e, (s.process n).localEndpoints.find x = some e → e.state = .kUnboundAndProxying →
      e.proxyTarget.nodeName ≠ n ∧
      ((s.process n).nodeChannelMap.find e.proxyTarget.nodeName = some e.proxyTarget.nodeName ∨
        ∃ t, (s.process n).thread .io = .rekeying x t e.proxyTarget.nodeName ∧
          (s.process n).nodeChannelMap.find t = some e.proxyTarget.nodeName)) ∧
    (∀ l, s.step l ≠ .error (.check .nullChannel)) ∧
    (∀ l, s.step l ≠ .error (.check .proxyTargetIsSelf)) ∧
    ∀ l, s.step l = .error (.check .routing) ↔
      ∃ n τ x m e, l = .run n τ ∧ (s.process n).thread τ = .checking x m [] ∧
        (s.process n).localEndpoints.find x = some e ∧ e.peerAddress.nodeName ≠ n ∧
        (s.process n).nodeChannelMap.find e.peerAddress.nodeName = none := by
  refine ⟨fun n hn => hs.no_own_channel hn, fun n x e he => ?_,
    fun n x e he hq => ⟨(hs.proxy_linked he hq).ne, hs.proxy_channel he hq⟩,
    hs.never_nullChannel, hs.never_self, hs.routing_iff⟩
  rcases hs.peer_local he with ⟨hn, hx, hk⟩ | ⟨hn, hx⟩
  · exact ⟨by simp [hn, hx], .inr (hn ▸ hk)⟩
  · exact ⟨by simp [hn, hx], .inl hx⟩

end

/-- With three nodes a pipe can come to a node that has no channel to the node of its peer. -/
theorem passed_on_pipe_unroutable : ∃ s, Reachable Sample.fork s ∧
    s.step (.run Sample.other (.user 0)) = .error (.check .routing) ∧
    ∃ x e, (s.process Sample.other).localEndpoints.find x = some e ∧
      e.peerAddress.nodeName ≠ Sample.other ∧
      (s.process Sample.other).nodeChannelMap.find e.peerAddress.nodeName = none := by
  obtain ⟨s, hs, hstop⟩ := Network.exists_of_follow Sample.fork (fun _ _ => True) Sample.stranding
    (fun s => s.stops (.run Sample.other (.user 0)) = some (.check .routing)) (by decide +kernel)
  have hfail := Network.stops_eq_some.1 hstop
  obtain ⟨n, τ, x, m, e, hl, -, he, hn, hk⟩ := ((routing_unambiguous hs).2.2.2.2.2 _).1 hfail
  cases hl
  exact ⟨s, hs, hfail, x, e, he, hn, hk⟩

end Mage
