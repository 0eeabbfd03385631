import Mage.Safety.Queues

/-! Two nodes seen from outside. A turn is a call of the embedder or the receipt of a message, with all
    that comes of it. Between two turns no thread is under way; so a pipe is then nothing but the
    queue of its end, the channels that its proxies lead over, and the channel to where they start. -/

namespace Mage
open Lib Relation

namespace Label

/-- The node that makes the step. -/
def node : Label → Identifier
  | .call n _ _ | .read n _ | .run n _ => n

/-- A call or a receipt, which a turn begins with. -/
def Begins : Label → Prop
  | .call _ _ _ | .read _ _ => True
  | .run _ _ => False

instance (l : Label) : Decidable l.Begins :=
  match l with
  | .call _ _ _ | .read _ _ => .isTrue trivial
  | .run _ _ => .isFalse id

end Label

/-- A call or a receipt, and `k` more steps of the same thread, which is then done. -/
def Network.turn (s : Network) (l : Label) (k : ℕ) : Except Stop Network := do
  let s ← s.step l
  let s ← (List.replicate k (Label.run l.node l.thread)).foldlM step s
  check ((s.process l.node).thread l.thread).isIdle .blocked
  return s

/-- States reached by permitted turns, in any order. -/
abbrev ReachedByTurns (T : Topology) : Network → Prop :=
  Reaches (fun s (i : Label × ℕ) s' => s.turn i.1 i.2 = .ok s')
    (fun s i => Permitted T s i.1 ∧ i.1.Begins) (Network.initial T)

/-- What is computed at the end of a list of turns is true of a state that turns reach. -/
theorem Network.exists_of_turns (T : Topology) (is : List (Label × ℕ)) (P : Network → Prop)
    [DecidablePred P] (h : (Reaches.follow (fun (s : Network) (i : Label × ℕ) => s.turn i.1 i.2)
      (fun s i => Permitted T s i.1 ∧ i.1.Begins) (.initial T) is).any (P ·) = true) :
    ∃ s, ReachedByTurns T s ∧ P s := by
  obtain ⟨s, hs, hP⟩ := (Option.any_eq_true _ _).1 h
  exact ⟨s, Reaches.of_follow .init hs, of_decide_eq_true hP⟩

/-- Only thread `τ` of node `n` may be under way. -/
def Network.Sole (s : Network) (n : Identifier) (τ : ThreadId) : Prop :=
  ∀ k σ, (s.process k).thread σ ≠ .idle → k = n ∧ σ = τ

section
variable {T : Topology} {s s' : Network} {n : Identifier} {τ : ThreadId} {l : Label}

/-- A step puts no other thread under way. -/
theorem Network.Sole.step (h : s.Sole l.node l.thread) (hp : Permitted T s l)
    (hs : s.step l = .ok s') : s'.Sole l.node l.thread := by
  intro k σ hσ
  rcases Network.advance hp hs with ⟨n, τ, c, o, rfl, ha, rfl⟩ | ⟨n, ch, m, rest, rfl, hc, rfl⟩
  · have hl : (Label.of n τ c).node = n ∧ (Label.of n τ c).thread = τ := by cases c <;> exact ⟨rfl, rfl⟩
    rcases ha.thread_apply k σ with ⟨hk, hτ, -⟩ | hth
    · exact ⟨hk.trans hl.1.symm, hτ.trans hl.2.symm⟩
    · exact h k σ (hth ▸ hσ)
  · rcases Receipt.thread_consume s n ch m rest k σ with ⟨hk, hio, -⟩ | hth
    · exact ⟨hk, hio⟩
    · exact h k σ (hth ▸ hσ)

/-- A thread that goes on keeps the rule, and stays the only one. -/
theorem ReachableBy.go_on {k : ℕ} (hs : ReachableBy T OneAtATime s) (hsole : s.Sole n τ)
    (hn : n ∈ T.nodes) (h : (List.replicate k (Label.run n τ)).foldlM Network.step s = .ok s') :
    ReachableBy T OneAtATime s' ∧ s'.Sole n τ := by
  induction k generalizing s with
  | zero =>
    obtain rfl : s = s' := Except.ok.inj h
    exact ⟨hs, hsole⟩
  | succ k ih =>
    rw [List.replicate_succ, List.foldlM_cons] at h
    obtain ⟨s₁, hstep, hrest⟩ := bind_eq_ok.1 h
    have hp : Permitted T s (.run n τ) := hn
    exact ih (.step hs ⟨hp, trivial⟩ hstep) (hsole.step (l := .run n τ) hp hstep) hrest

/-- Between turns nothing is under way, and the nodes do one thing at a time. -/
theorem ReachedByTurns.between (hs : ReachedByTurns T s) :
    ReachableBy T OneAtATime s ∧ Quiescent s := by
  refine hs.invariant (P := fun s => ReachableBy T OneAtATime s ∧ Quiescent s)
    ⟨.init, fun n τ => rfl⟩ ?_
  rintro s ⟨l, k⟩ s' - ⟨hs, hq⟩ ⟨hp, hl⟩ hturn
  simp only [Network.turn, bind_eq_ok, check_eq_ok, pure_eq_ok] at hturn
  obtain ⟨s₁, hstep, s₂, hrest, -, hidle, rfl⟩ := hturn
  have hone : OneAtATime s l := by
    cases l with
    | call | read => exact hq _
    | run => exact hl.elim
  have hn : l.node ∈ T.nodes := by
    cases l with
    | call => exact hp.1
    | read | run => exact hp
  have hsole : s.Sole l.node l.thread := fun k σ hσ => absurd (hq k σ) hσ
  obtain ⟨hs', hsole'⟩ := ReachableBy.go_on (.step hs ⟨hp, hone⟩ hstep) (hsole.step hp hstep) hn hrest
  refine ⟨hs', fun n τ => by_contra fun hbusy => ?_⟩
  obtain ⟨rfl, rfl⟩ := hsole' n τ hbusy
  exact hbusy (Thread.isIdle_iff.1 hidle)

end

/-! ### What is between the two ends -/

namespace Network

/-- `l` is in the channels along the proxies from `a` to where they lead, the oldest message first. -/
inductive Hops (s : Network) : Address → Address → List Payload → Prop where
  | here {a : Address} (h : ∀ e, s.endpointAt a = some e → e.state ≠ .kUnboundAndProxying) :
      Hops s a a []
  | hop {a b : Address} {e : Endpoint} {l : List Payload} (he : s.endpointAt a = some e)
      (hq : e.state = .kUnboundAndProxying) (hb : Hops s e.proxyTarget b l) :
      Hops s a b (l ++ s.crossing a.nodeName e.proxyTarget)

end Network

section
variable {T : Topology} {s : Network} {a b z : Address}

/-- A proxy is linked to its target only. -/
theorem Reachable.link_proxy (hs : Reachable T s) {e : Endpoint} (he : s.endpointAt a = some e)
    (hq : e.state = .kUnboundAndProxying) (h : s.Link a b) : b = e.proxyTarget := by
  have hport : s.port a = some e.port := Network.port_eq_some.2 ⟨e, he, rfl⟩
  rcases hs.next_cases (Network.link_iff.1 h) with ⟨p, hp⟩ | ⟨⟨p, hp⟩, -⟩
  · rw [hport] at hp
    simp only [Endpoint.port, Endpoint.status, hq, Option.some.injEq, Port.mk.injEq,
      Status.proxying.injEq] at hp
    exact hp.2.symm
  · rw [hport] at hp
    simp [Endpoint.port, Endpoint.status, hq] at hp

/-- As long as an acceptance is awaited, the acceptor's end has nothing. -/
theorem ReachableBy.stock_awaited (hs : ReachableBy T InTurn s)
    (ha : ∀ e, s.endpointAt a = some e → e.state ≠ .kUnboundAndProxying) (hz : Ends s.Link a z)
    (hne : z ≠ a) : s.stock z = [] := by
  have hr := hs.reachable
  obtain ⟨hchain, hend⟩ := hz
  rcases ReflTransGen.cases_head hchain with rfl | ⟨b, hab, hbz⟩
  · exact absurd rfl hne
  rcases hr.next_cases (Network.link_iff.1 hab) with ⟨p, hp⟩ | ⟨⟨p, hp⟩, -⟩
  · obtain ⟨e, he, hep⟩ := Network.port_eq_some.1 hp
    refine absurd ?_ (ha e he)
    cases hst : e.state <;> simp_all [Endpoint.port, Endpoint.status]
  · obtain ⟨l, -, harr⟩ := hs.journey ⟨hbz, hend⟩
    rw [(hr.awaited (Network.link_iff.1 hab) hp).1] at harr
    exact (List.append_eq_nil_iff.1 harr.symm).1

/-- Between turns, what arrived where a chain of proxies starts is where they lead, or in the channels
    between. -/
theorem ReachableBy.hops (hs : ReachableBy T InTurn s) (hq : Quiescent s) (h : Ends s.Link a z) :
    ∃ e l, s.Hops a e l ∧ s.arrived a = s.stock e ++ l ∧ (z ≠ e → s.stock z = []) := by
  have hr := hs.reachable
  obtain ⟨hchain, hend⟩ := h
  have here {a : Address} (hchain : ReflTransGen s.Link a z)
      (hlive : ∀ e, s.endpointAt a = some e → e.state ≠ .kUnboundAndProxying) :
      ∃ e l, s.Hops a e l ∧ s.arrived a = s.stock e ++ l ∧ (z ≠ e → s.stock z = []) :=
    ⟨a, [], .here hlive, by rw [List.append_nil, hr.arrived_live hlive],
      hs.stock_awaited hlive ⟨hchain, hend⟩⟩
  induction hchain using ReflTransGen.head_induction_on with
  | refl => exact here .refl fun e he hp => hend _ (.proxy he hp)
  | @head a b hab hbz ih =>
    by_cases hproxy : ∃ e, s.endpointAt a = some e ∧ e.state = .kUnboundAndProxying
    · obtain ⟨e, he, hp⟩ := hproxy
      obtain rfl := hr.link_proxy he hp hab
      obtain ⟨c, l, hc, harr, hwait⟩ := ih
      obtain ⟨l', hl', ha⟩ := hs.flight (Network.link_iff.1 hab)
      rw [hl'.quiescent hq, hr.proxy_drained hq he hp, List.map_nil, List.append_nil] at ha
      exact ⟨c, _, .hop he hp hc, by rw [ha, harr, List.append_assoc], hwait⟩
    · exact here (.head hab hbz) fun e he hp => hproxy ⟨e, he, hp⟩

/-- Nothing is on its way to an address but in the channel from the other node. -/
theorem Network.Approach.quiescent (hq : Quiescent s) {n : Identifier} {l : List Payload}
    (hl : s.Approach n a l) : l = s.crossing n a := by
  obtain ⟨τ, σ, -, -, rfl⟩ := hl
  rw [Network.brought, hq, Network.box, hq]
  exact List.append_nil _

end

/-- In two nodes, after any turns in any order, and for each address `a` where one end of a pipe was
    made: all that was ever sent to that end, from wherever the other end was, is posted or queued, in
    this order, where the proxies from `a` lead to; or in the channels that they lead over; or in the
    channel from the other node to `a`. Nothing is anywhere else: an end that stands in for `a` until
    an acceptance arrives has nothing yet. -/
theorem network_refines_queues {T : Topology} {s : Network} (hs : ReachedByTurns T s)
    {x a : Address} {b : Identifier} (hb : b ≠ a.nodeName)
    (hT : ∀ k ∈ T.nodes, k = a.nodeName ∨ k = b) (ha : s.PeerOf x a) :
    ∃ e l, s.Hops a e l ∧ s.sent a = s.stock e ++ l ++ s.crossing b a ∧
      ∀ z, Ends s.Link a z → z ≠ e → s.stock z = [] := by
  obtain ⟨hone, hq⟩ := hs.between
  have hr : Reachable T s := ReachableBy.reachable hone
  obtain ⟨z, hz⟩ := hr.sound.ports.links.exists_end a
  rw [← Network.link_eq] at hz
  obtain ⟨e, l, hhops, harr, hwait⟩ := (ReachableBy.inTurn hone).hops hq hz
  obtain ⟨l', hl', hsent⟩ := ReachableBy.approach hone hb hT (hr.peer_unlinked ha)
  refine ⟨e, l, hhops, ?_, fun z' hz' => ?_⟩
  · rw [hsent, hl'.quiescent hq, harr]
  · rw [hr.sound.link_end_unique hz hz']
    exact hwait

namespace Sample

/-- The inviter makes a pipe, sends over one end, and then sends both ends to the acceptor, over the
    pipe of the invitation; in between it sends over the same end again. When the acceptor has read it
    all, it sends over that end twice, and the inviter reads the first of the two messages. -/
def sendingBoth : List (Label × ℕ) :=
  [(.call inviter (.user 0) (.sendInvitationAndGetMessagePipe acceptor none), 4),
    (.call acceptor (.user 0) (.acceptInvitation inviter 0), 0),
    (.read acceptor inviter, 4),
    (.read inviter acceptor, 6),
    (.call acceptor (.user 0) (.bindReceiverDelegateToEndpoint 1 0 0), 0),
    (.call inviter (.user 0) .createMessagePipes, 0),
    (.call inviter (.user 0) (.sendMessage 4 8 [2] []), 3),
    (.call inviter (.user 0) (.sendMessage 1 9 [3] [3]), 12),
    (.call inviter (.user 0) (.sendMessage 4 10 [4] []), 6),
    (.call inviter (.user 0) (.sendMessage 1 11 [5] [4]), 10),
    (.read acceptor inviter, 4), (.read acceptor inviter, 3), (.read acceptor inviter, 3),
    (.read acceptor inviter, 4),
    (.call acceptor (.user 0) (.sendMessage 3 12 [6] []), 5),
    (.read inviter acceptor, 4),
    (.call acceptor (.user 0) (.sendMessage 3 13 [7] []), 5)]

end Sample

/-- Of four messages that were sent, two have come to the acceptor, the third has left the inviter, and
    the last one is on its way there. -/
theorem messages_on_both_channels : ∃ s e l, ReachedByTurns Sample.pair s ∧
    s.Hops ⟨Sample.inviter, Sample.word 4⟩ e (l ++ [⟨12, [6]⟩]) ∧
    s.stock e ++ l = [⟨8, [2]⟩, ⟨10, [4]⟩] ∧
    s.crossing Sample.acceptor ⟨Sample.inviter, Sample.word 4⟩ = [⟨13, [7]⟩] := by
  obtain ⟨s, hs, hsent, hcross, ⟨g, hg, hpeer⟩, f, hf, hq, hhop⟩ := Network.exists_of_turns
    Sample.pair Sample.sendingBoth (fun s =>
      s.sent ⟨Sample.inviter, Sample.word 4⟩ = [⟨8, [2]⟩, ⟨10, [4]⟩, ⟨12, [6]⟩, ⟨13, [7]⟩] ∧
      s.crossing Sample.acceptor ⟨Sample.inviter, Sample.word 4⟩ = [⟨13, [7]⟩] ∧
      (∃ f ∈ s.endpointAt ⟨Sample.inviter, Sample.word 5⟩,
        f.peerAddress = ⟨Sample.inviter, Sample.word 4⟩) ∧
      ∃ f ∈ s.endpointAt ⟨Sample.inviter, Sample.word 4⟩, f.state = .kUnboundAndProxying ∧
        s.crossing Sample.inviter f.proxyTarget = [⟨12, [6]⟩]) (by decide +kernel)
  have hend : s.PeerOf ⟨Sample.inviter, Sample.word 5⟩ ⟨Sample.inviter, Sample.word 4⟩ :=
    hpeer ▸ .here hg
  obtain ⟨e, l, hhops, heq, -⟩ := network_refines_queues hs (b := Sample.acceptor) (by decide)
    (by decide) hend
  rw [hsent, hcross] at heq
  cases hhops with
  | here hlive => exact absurd hq (hlive f hf)
  | @hop _ _ f' l he hq' hb =>
    obtain rfl : f' = f := Option.some.inj (he.symm.trans hf)
    refine ⟨s, e, l, hs, hhop ▸ .hop he hq' hb, ?_, hcross⟩
    have hsplit : (s.stock e ++ l) ++ [⟨12, [6]⟩, ⟨13, [7]⟩] =
        [⟨8, [2]⟩, ⟨10, [4]⟩] ++ [⟨12, [6]⟩, ⟨13, [7]⟩] := by
      rw [hhop] at heq
      simpa using heq.symm
    exact List.append_cancel_right hsplit

end Mage
