import Mage.Safety.Collision

/-! Entanglement survives every movement. Following proxies from any endpoint leads, without coming
    back, to the one place where the endpoint now lives or is about to be re-created; from there its
    peer leads to where the other end lives, and back. -/

namespace Mage
open Lib Relation

namespace Network

def endpointAt (s : Network) (a : Address) : Option Endpoint :=
  (s.process a.nodeName).localEndpoints.find a.endpointName

/-- The descriptor `d` is in flight to node `t`: on a channel, or with the thread that is about to
    write it there or to register its endpoint. -/
def Travels (s : Network) (t : Identifier) (d : EndpointDescriptor) : Prop :=
  (∃ a, d ∈ s.inFlight a t) ∨ ∃ n τ, .crossing t d ∈ ((s.process n).thread τ).tokens n

/-- An acceptor created `g` for an invitation that the inviter still has to settle. -/
def Answered (s : Network) (g : Address) : Prop :=
  (∃ a b t, .acceptInvitation t g.nodeName g.endpointName ∈ s.wire a b) ∨
  ∃ n τ, .acceptance g ∈ ((s.process n).thread τ).tokens n

/-- A proxy leads to its target; a reserved endpoint, which is the peer of the acceptor's peer,
    stands for the acceptor's endpoint. -/
inductive Link (s : Network) : Address → Address → Prop where
  | proxy {a : Address} {e : Endpoint} (he : s.endpointAt a = some e)
      (hq : e.state = .kUnboundAndProxying) : Link s a e.proxyTarget
  | stand {g : Address} {e f : Endpoint} (hg : s.Answered g) (he : s.endpointAt g = some e)
      (hf : s.endpointAt e.peerAddress = some f) : Link s f.peerAddress g

/-- The peer of an endpoint, or of one that is about to be re-created. -/
inductive PeerOf (s : Network) : Address → Address → Prop where
  | here {a : Address} {e : Endpoint} (he : s.endpointAt a = some e) : PeerOf s a e.peerAddress
  | inFlight {t : Identifier} {d : EndpointDescriptor} (hd : s.Travels t d) :
      PeerOf s ⟨t, d.crossNodeEndpointName⟩ d.peerAddress

/-- An endpoint that is bound or queueing, or a name whose descriptor is in flight. -/
def Terminal (s : Network) (a : Address) : Prop :=
  (∃ e, s.endpointAt a = some e ∧ e.state ≠ .kUnboundAndProxying) ∨
  ∃ d, s.Travels a.nodeName d ∧ d.crossNodeEndpointName = a.endpointName

/-! ### The same, seen from far away -/

section
variable {T : Topology} {s : Network}

theorem port_of_endpointAt {a : Address} {e : Endpoint} (h : s.endpointAt a = some e) :
    s.ports.port a = some e.port := by
  rw [endpointAt] at h
  simp [port, h]

theorem endpointAt_of_port {a : Address} {q : Port} (h : s.ports.port a = some q) :
    ∃ e, s.endpointAt a = some e ∧ e.port = q := by
  rwa [ports_port, port_eq_some] at h

theorem peer_eq_some {a p : Address} : s.ports.peer a = some p ↔
    ∃ e, s.endpointAt a = some e ∧ e.peerAddress = p := by
  simp [Ports.peer, port, endpointAt, Endpoint.port]

theorem Endpoint.status_eq_proxying {e : Endpoint} {b : Address} :
    e.status = .proxying b ↔ e.state = .kUnboundAndProxying ∧ e.proxyTarget = b := by
  cases hs : e.state <;> simp [Endpoint.status, hs]

theorem travels_iff {t : Identifier} {d : EndpointDescriptor} :
    s.Travels t d ↔ ∃ P, .crossing t d ∈ s.ports.tokens P := by
  constructor
  · rintro (⟨a, hd⟩ | ⟨n, τ, hd⟩)
    · exact ⟨.wire a t, crossing_mem_wire.2 hd⟩
    · exact ⟨.hand n τ, hd⟩
  · rintro ⟨P, hd⟩
    cases P with
    | hand n τ => exact .inr ⟨n, τ, hd⟩
    | wire a b =>
      simp only [ports_tokens, tokens, List.mem_flatMap] at hd
      obtain ⟨m, hm, hd⟩ := hd
      cases m with
      | sendInvitation | acceptInvitation => simp [ChannelMessage.tokens] at hd
      | userMessage m =>
        simp only [ChannelMessage.tokens, List.mem_map, Token.crossing.injEq] at hd
        obtain ⟨d', hd', rfl, rfl⟩ := hd
        exact .inl ⟨a, List.mem_flatMap.2 ⟨_, hm, hd'⟩⟩
    | held | queue | pending => simp [tokens, Message.described] at hd

theorem answered_iff {g : Address} :
    s.Answered g ↔ ∃ P, .acceptance g ∈ s.ports.tokens P := by
  constructor
  · rintro (⟨a, b, t, hg⟩ | ⟨n, τ, hg⟩)
    · exact ⟨.wire a b, List.mem_flatMap.2 ⟨_, hg, List.mem_singleton.2 rfl⟩⟩
    · exact ⟨.hand n τ, hg⟩
  · rintro ⟨P, hg⟩
    cases P with
    | hand n τ => exact .inr ⟨n, τ, hg⟩
    | wire a b =>
      simp only [ports_tokens, tokens, List.mem_flatMap] at hg
      obtain ⟨m, hm, hg⟩ := hg
      cases m with
      | sendInvitation | userMessage => simp [ChannelMessage.tokens] at hg
      | acceptInvitation t m e =>
        simp only [ChannelMessage.tokens, List.mem_singleton, Token.acceptance.injEq] at hg
        subst hg
        exact .inl ⟨a, b, t, hm⟩
    | held | queue | pending => simp [tokens, Message.described] at hg

theorem link_iff {a b : Address} : s.Link a b ↔ s.ports.Next a b := by
  constructor
  · intro h
    cases h with
    | proxy he hq =>
      have hport := port_of_endpointAt he
      rw [Endpoint.port, Endpoint.status_eq_proxying.2 ⟨hq, rfl⟩] at hport
      exact .proxy hport
    | stand hg he hf =>
      obtain ⟨P, hP⟩ := answered_iff.1 hg
      exact .stand hP (peer_eq_some.2 ⟨_, he, rfl⟩) (peer_eq_some.2 ⟨_, hf, rfl⟩)
  · intro h
    cases h with
    | proxy h =>
      obtain ⟨e, he, hport⟩ := endpointAt_of_port h
      rw [Endpoint.port, Port.mk.injEq, Endpoint.status_eq_proxying] at hport
      obtain ⟨-, hq, rfl⟩ := hport
      exact .proxy he hq
    | stand ht hg ha =>
      obtain ⟨e, he, rfl⟩ := peer_eq_some.1 hg
      obtain ⟨f, hf, rfl⟩ := peer_eq_some.1 ha
      exact .stand (answered_iff.2 ⟨_, ht⟩) he hf

theorem peerOf_iff {a p : Address} : s.PeerOf a p ↔ s.ports.Live a p := by
  constructor
  · intro h
    cases h with
    | here he => exact .port (peer_eq_some.2 ⟨_, he, rfl⟩)
    | inFlight hd =>
      obtain ⟨P, hP⟩ := travels_iff.1 hd
      exact .crossing hP
  · intro h
    cases h with
    | port h =>
      obtain ⟨e, he, rfl⟩ := peer_eq_some.1 h
      exact .here he
    | crossing h => exact .inFlight (travels_iff.2 ⟨_, h⟩)

theorem link_eq : s.Link = s.ports.Next := by
  funext a b
  exact propext link_iff

/-- Where nothing leads on, something lives. -/
theorem PeerOf.terminal {a p : Address} (h : s.PeerOf a p) (hlast : ∀ b, ¬ s.Link a b) :
    s.Terminal a := by
  cases h with
  | here he => exact .inl ⟨_, he, fun hq => hlast _ (.proxy he hq)⟩
  | inFlight hd => exact .inr ⟨_, hd, rfl⟩

theorem Terminal.peerOf {a : Address} (h : s.Terminal a) : ∃ p, s.PeerOf a p := by
  rcases h with ⟨e, he, -⟩ | ⟨d, hd, hname⟩
  · exact ⟨_, .here he⟩
  · obtain ⟨n, x⟩ := a
    subst hname
    exact ⟨_, .inFlight hd⟩

/-- Between calls and receipts, what travels is on a channel. -/
theorem Travels.of_quiescent {t : Identifier} {d : EndpointDescriptor} (h : s.Travels t d)
    (hq : Quiescent s) : ∃ a, d ∈ s.inFlight a t := by
  rcases h with h | ⟨n, τ, h⟩
  · exact h
  · simp [hq n τ, Thread.tokens] at h

namespace Sound
variable (h : s.Sound T)
include h

theorem link_acyclic (a : Address) : ¬ TransGen s.Link a a := by
  rw [link_eq]
  exact acyclic_of_rank h.ports.links.rank a

theorem link_end_unique {a z z' : Address} (hz : Ends s.Link a z) (hz' : Ends s.Link a z') :
    z' = z := by
  rw [link_eq] at hz hz'
  exact hz'.unique (Links.functional h.ports.rights h.ports.pacts) hz

/-- Whatever has a peer lives somewhere. -/
theorem exists_terminal {a p : Address} (ha : s.PeerOf a p) :
    ∃ z, Ends s.Link a z ∧ s.Terminal z := by
  obtain ⟨z, hz⟩ := h.ports.links.exists_end a
  have htw := h.ports.links.twins h.ports.names
  have hp := peerOf_iff.2 (htw.mate_of_chain hz.1 (peerOf_iff.1 ha))
  rw [← link_eq] at hz
  exact ⟨z, hz, hp.terminal hz.2⟩

theorem peerOf_unique {a p q : Address} (hp : s.PeerOf a p) (hq : s.PeerOf a q) : p = q :=
  h.ports.names.live_single (peerOf_iff.1 hp) (peerOf_iff.1 hq)

/-- From one end of a pipe its peer leads to the other end, and that one's peer leads back. -/
theorem ends_meet {z p : Address} (hz : s.PeerOf z p) (hlast : ∀ b, ¬ s.Link z b) :
    ∃ f q, Ends s.Link p f ∧ s.Terminal f ∧ s.PeerOf f q ∧ Ends s.Link q z ∧ z ≠ f := by
  have htw := h.ports.links.twins h.ports.names
  rw [link_eq] at hlast
  obtain ⟨f, q, hpf, hf, hqz, hne⟩ :=
    htw.ends_meet h.ports.links.exists_end (peerOf_iff.1 hz) hlast
  rw [← link_eq] at hpf hqz
  have hf' := peerOf_iff.2 hf
  exact ⟨f, q, hpf, hf'.terminal hpf.2, hf', hqz, hne⟩

end Sound
end
end Network

/-- In every reachable state, links never come back to where they were, those from an endpoint end in
    one place, and the two ends of a pipe lead to each other. -/
theorem entanglement_preserved {T : Topology} {s : Network} (hs : Reachable T s) :
    (∀ a, ¬ TransGen s.Link a a) ∧
    (∀ a e, s.endpointAt a = some e →
      ∃ z, Ends s.Link a z ∧ s.Terminal z ∧ ∀ z', Ends s.Link a z' → z' = z) ∧
    (∀ z, s.Terminal z → (∀ b, ¬ s.Link z b) →
      ∃ p, (∀ p', s.PeerOf z p' ↔ p' = p) ∧
        ∃ f q, Ends s.Link p f ∧ s.Terminal f ∧ s.PeerOf f q ∧ Ends s.Link q z ∧ z ≠ f) ∧
    (Quiescent s → ∀ t d, s.Travels t d → ∃ a, d ∈ s.inFlight a t) := by
  have h := hs.sound
  refine ⟨h.link_acyclic, fun a e he => ?_, fun z hz hlast => ?_, fun hq t d hd =>
    hd.of_quiescent hq⟩
  · obtain ⟨z, hz, hterm⟩ := h.exists_terminal (.here he)
    exact ⟨z, hz, hterm, fun z' hz' => h.link_end_unique hz hz'⟩
  · obtain ⟨p, hp⟩ := hz.peerOf
    refine ⟨p, fun p' => ⟨fun hp' => h.peerOf_unique hp' hp, ?_⟩, h.ends_meet hp hlast⟩
    rintro rfl
    exact hp

/-- While a pipe is on its way, the reserved end of the first pipe leads to the acceptor. -/
theorem carried_entanglement : ∃ s, Reachable Sample.pair s ∧
    (∃ a e, s.endpointAt a = some e ∧ e.state = .kUnboundAndProxying) ∧
    ∀ a, ¬ TransGen s.Link a a := by
  obtain ⟨s, hs, hd⟩ := Network.exists_of_follow Sample.pair (fun _ _ => True) Sample.carrying
    (fun s => (s.endpointAt ⟨Sample.inviter, Sample.word 1⟩).any
      (·.state = .kUnboundAndProxying)) (by decide +kernel)
  obtain ⟨e, he, hq⟩ := (Option.any_eq_true _ _).1 hd
  exact ⟨s, hs, ⟨_, e, he, of_decide_eq_true hq⟩, (entanglement_preserved hs).1⟩

end Mage
