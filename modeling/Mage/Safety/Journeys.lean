import Mage.Safety.Entanglement
import Mage.Safety.Overtaking
import Mage.Safety.Routing

/-! Messages along a chain of proxies. What a node reads from a channel it hands over in the order in
    which it was written; so what arrived at the end of a chain is the beginning of what arrived where
    the chain starts, and the rest is in the channels, threads and queues between the two. -/

namespace Mage
open Lib Relation

/-- What a thread of node `n` has in hand for endpoints of its own node. -/
def Thread.bringing (n : Identifier) : Thread → List (Address × Payload)
  | .delivering x m => [(⟨n, x⟩, m.payload)]
  | .receiving m => [m.letter n]
  | .recovering x m _ _ => [(⟨n, x⟩, m.payload)]
  | _ => []

namespace Network

/-- All that ever arrived at the address `a`. -/
def arrived (s : Network) (a : Address) : List Payload :=
  (s.process a.nodeName).arrivals a.endpointName

/-- What thread `τ` of the node of `a` has in hand for `a`. -/
def brought (s : Network) (a : Address) (τ : ThreadId) : List Payload :=
  lane a (((s.process a.nodeName).thread τ).bringing a.nodeName)

/-- What was read from node `n` for the address `a`. -/
def opened (s : Network) (n : Identifier) (a : Address) : List Payload :=
  lane a ((s.received n a.nodeName).flatMap (·.letters a.nodeName))

/-- What is in the channel from node `n` for the address `a`. -/
def crossing (s : Network) (n : Identifier) (a : Address) : List Payload :=
  lane a ((s.wire n a.nodeName).flatMap (·.letters a.nodeName))

theorem written_eq (s : Network) (n : Identifier) (a : Address) :
    s.written n a = s.opened n a ++ s.crossing n a := by
  rw [written, transmitted, List.flatMap_append, lane_append, opened, crossing]

end Network

/-! ### From the channel to the endpoint -/

namespace Process.Move
variable {p : Process} {τ : ThreadId} {supply : List Identifier} {c : Option Call} {o : Outcome}

/-- A thread takes a message in hand for an endpoint of its node when it finds it to be the peer, and
    hands over what it has. -/
theorem bringing (h : p.Move τ supply c o) (hi : c.isSome → p.thread τ = .idle) (n : Identifier) :
    (o.process.arrivals = p.arrivals ∧
      (o.process.thread τ).bringing n = (p.thread τ).bringing n ∧
      ∀ l, o.sent = some l → ∃ y e, p.localEndpoints.find y = some e ∧ l.1 = e.peerAddress ∧
        p.localEndpoints.find e.peerAddress.endpointName = none) ∨
    (∃ m e y, p.thread τ = .checking y m [] ∧ p.localEndpoints.find y = some e ∧
      p.localEndpoints.find e.peerAddress.endpointName ≠ none ∧
      o.process.thread τ =
        .delivering e.peerAddress.endpointName (m.retarget e.peerAddress.endpointName) ∧
      o.process.arrivals = p.arrivals ∧ o.sent = some (e.peerAddress, m.payload)) ∨
    ∃ x l, (p.thread τ).bringing n = [(⟨n, x⟩, l)] ∧ (o.process.thread τ).bringing n = [] ∧
      o.process.arrivals = upd₁ p.arrivals x (p.arrivals x ++ [l]) ∧ o.sent = none := by
  cases h with
  | createMessagePipes | bindReceiver | acceptInvitation => exact .inl ⟨rfl, rfl, by simp⟩
  | sendMessage | sendInvitation => exact .inl ⟨rfl, by simp [hi, Thread.bringing], by simp⟩
  | @routeLocal y m e peer ht he hp =>
    exact .inr (.inl ⟨m, e, y, ht, he, by simp [hp], by simp, rfl, rfl⟩)
  | @routeRemote y m e channel ht he hp =>
    refine .inl ⟨rfl, by simp [ht, Thread.bringing], fun l hl => ?_⟩
    cases hl
    exact ⟨y, e, he, rfl, hp⟩
  | @deliverToProxy x m e ht | @deliver x m e e' pipes ht =>
    exact .inr (.inr ⟨x, m.payload, by simp [ht, Thread.bringing], by simp [Thread.bringing], rfl, rfl⟩)
  | @relay x m done e ht | @dispatch x m done e e' ht =>
    exact .inr (.inr ⟨x, m.payload, by simp [ht, Thread.bringing], by simp [Thread.bringing], rfl, rfl⟩)
  | _ => exact .inl ⟨rfl, by simp_all [Thread.bringing, Message.letter], by simp⟩

end Process.Move

section
variable {T : Topology} {s : Network} {n : Identifier} {τ : ThreadId} {c : Option Call} {o : Outcome}
  {a : Address}

/-- In the node of `a`, what is in hand for `a` is handed over, and nothing else arrives; unless `a` is
    the peer of an endpoint that something is sent over. -/
theorem Act.brought (ha : Act T s n τ c o) (hr : Reachable T s) (hn : a.nodeName = n) :
    ((s.apply n o).arrived a ++ (s.apply n o).brought a τ = s.arrived a ++ s.brought a τ ∧
      ∀ l, o.sent ≠ some (a, l)) ∨
    ∃ m e y, (s.process n).thread τ = .checking y m [] ∧
      (s.process n).localEndpoints.find y = some e ∧ e.peerAddress = a ∧
      s.brought a τ = [] ∧ (s.apply n o).arrived a = s.arrived a ∧
      (s.apply n o).brought a τ = [m.payload] ∧ o.sent = some (a, m.payload) := by
  obtain ⟨k, z⟩ := a
  obtain rfl : k = n := hn
  simp only [Network.arrived, Network.brought, Network.apply_process, upd₁_apply, if_true]
  rcases ha.move.bringing ha.idle k with ⟨h1, h2, hsent⟩ |
    ⟨m, e, y, ht, he, hreg, ht', h1, hsent⟩ | ⟨x, l, h2, h3, h1, hsent⟩
  · refine .inl ⟨by rw [h1, h2], fun l hl => ?_⟩
    obtain ⟨y, e, he, heq, hnone⟩ := hsent _ hl
    rcases hr.peer_local he with ⟨-, hreg, -⟩ | ⟨hne, -⟩
    · exact hreg hnone
    · exact hne (by rw [← heq])
  · rcases hr.peer_local he with ⟨hk, -, -⟩ | ⟨-, hnone⟩
    swap
    · exact absurd hnone hreg
    have hbrought : lane ⟨k, z⟩ (((s.process k).thread τ).bringing k) = [] := by
      rw [ht]
      rfl
    rw [h1, ht', hbrought, Thread.bringing, lane_cons, hsent]
    split_ifs with hz
    · have heq : e.peerAddress = ⟨k, z⟩ := by
        rw [← hz]
        exact congrArg (Address.mk · _) hk
      exact .inr ⟨m, e, y, ht, he, heq, rfl, rfl, rfl, by rw [heq]⟩
    · refine .inl ⟨rfl, fun l hl => hz ?_⟩
      have heq : e.peerAddress = ⟨k, z⟩ := (Prod.mk.inj (Option.some.inj hl)).1
      rw [heq]
  · rw [h1, h2, h3, upd₁_apply, lane_cons, hsent]
    refine .inl ⟨?_, by simp⟩
    by_cases hxz : z = x
    · subst hxz
      simp
    · rw [if_neg hxz, if_neg fun heq => hxz (Address.mk.inj heq).2.symm]

/-- What another thread has in hand, and what is in another node, stays. -/
theorem Act.brought_other (ha : Act T s n τ c o) {σ : ThreadId} (hσ : a.nodeName = n → σ ≠ τ) :
    (s.apply n o).brought a σ = s.brought a σ := by
  rw [Network.brought, Network.brought]
  rcases ha.thread_apply a.nodeName σ with ⟨hk, rfl, -⟩ | hth
  · exact absurd rfl (hσ hk)
  · rw [hth]

theorem Network.arrived_other (s : Network) (o : Outcome) (hn : a.nodeName ≠ n) :
    (s.apply n o).arrived a = s.arrived a := by
  rw [arrived, apply_process, upd₁_apply, if_neg hn, arrived]

/-- What is received for `a` is in hand for `a`. -/
theorem Receipt.brought {channel : Channel} {m : ChannelMessage} {rest : List ChannelMessage}
    (hc : Receipt T s n channel m rest) (hn : a.nodeName = n) :
    s.brought a .io = [] ∧
    (s.consume n channel m rest).brought a .io = lane a (m.letters a.nodeName) := by
  subst hn
  rw [Network.brought, Network.brought, hc.idle]
  refine ⟨rfl, ?_⟩
  rw [Network.consume_process, upd₁_apply, if_pos rfl, Process.goto_thread, upd₁_apply, if_pos rfl]
  cases m <;> rfl

theorem Network.opened_consume (s : Network) (n : Identifier) (channel : Channel)
    (m : ChannelMessage) (rest : List ChannelMessage) (k : Identifier) (a : Address) :
    (s.consume n channel m rest).opened k a = s.opened k a ++
      if k = channel ∧ a.nodeName = n then lane a (m.letters a.nodeName) else [] := by
  rw [opened, consume_received, upd_apply, opened]
  split_ifs with hk
  · obtain ⟨rfl, rfl⟩ := hk
    rw [List.flatMap_append, lane_append]
    simp
  · simp

theorem Network.arrived_consume (s : Network) (n : Identifier) (channel : Channel)
    (m : ChannelMessage) (rest : List ChannelMessage) (a : Address) :
    (s.consume n channel m rest).arrived a = s.arrived a := by
  rw [arrived, consume_process, upd₁_apply, arrived]
  split_ifs with hn
  · rw [hn, Process.goto_arrivals]
  · rfl

/-- Only what is delivered to a peer arrives other than from a channel. -/
theorem Act.arrived_io (ha : Act T s n τ c o) (hr : Reachable T s)
    (hpeer : ∀ y, (s.apply n o).ports.peer y ≠ some a) (hn : a.nodeName = n) :
    (s.apply n o).arrived a ++ (s.apply n o).brought a .io = s.arrived a ++ s.brought a .io := by
  obtain ⟨k, z⟩ := a
  obtain rfl : k = n := hn
  by_cases hτ : τ = .io
  · subst hτ
    rcases ha.brought (a := ⟨k, z⟩) hr rfl with ⟨heq, -⟩ | ⟨m, e, y, -, he, heq, -⟩
    · exact heq
    · have hy : s.ports.peer ⟨k, y⟩ = some ⟨k, z⟩ := Network.peer_eq_some.2 ⟨e, he, heq⟩
      exact absurd ((ha.grows hr).peer hy) (hpeer _)
  · rw [ha.brought_other (σ := .io) fun _ => Ne.symm hτ, Network.arrived, Network.arrived,
      Network.apply_process, upd₁_apply, if_pos rfl]
    by_contra hne
    rcases ha.move.arrivals fun heq => hne (by rw [heq]) with ⟨m, ht⟩ | ⟨m, done, ht⟩
    · obtain ⟨y, hy⟩ := hr.untouched.delivering k τ z m ht
      exact hpeer y ((ha.grows hr).peer hy)
    · obtain rfl : τ = .io := (hr.channels k).io (by rw [ht]; rfl)
      exact hτ rfl

/-- What a node reads from one channel for an address that is nobody's peer, and from no other, is
    what arrived there and what is in hand. -/
theorem Reachable.opened_eq (hs : Reachable T s) {n : Identifier} {a : Address}
    (hpeer : ∀ y, s.ports.peer y ≠ some a) (hone : ∀ k, k ≠ n → s.opened k a = []) :
    s.opened n a = s.arrived a ++ s.brought a .io := by
  refine Reachable.induct (P := fun s => ∀ n a, (∀ y, s.ports.peer y ≠ some a) →
    (∀ k, k ≠ n → s.opened k a = []) → s.opened n a = s.arrived a ++ s.brought a .io)
    (fun n a _ _ => rfl) (fun s k τ c o hr hs ha n a hpeer hone => ?_)
    (fun s k ch m rest hr hs hc n a hpeer hone => ?_) hs n a hpeer hone
  · have hold := hs n a (fun y hy => hpeer y ((ha.grows hr).peer hy)) hone
    have hopened : (s.apply k o).opened n a = s.opened n a := rfl
    rw [hopened, hold]
    by_cases hk : a.nodeName = k
    · exact (ha.arrived_io hr hpeer hk).symm
    · rw [Network.arrived_other s o hk, ha.brought_other fun h => absurd h hk]
  · have hopened := Network.opened_consume s k ch m rest
    have hold := hs n a (fun y hy => hpeer y (by simpa [Ports.peer, Network.port_consume] using hy))
      fun j hj => (List.append_eq_nil_iff.1 ((hopened j a).symm.trans (hone j hj))).1
    rw [hopened, hold, Network.arrived_consume]
    by_cases hk : a.nodeName = k
    · obtain ⟨hnil, hnew⟩ := hc.brought hk
      rw [hnil, hnew]
      by_cases hn : n = ch
      · simp [hn, hk]
      · have hother := hone ch (Ne.symm hn)
        rw [hopened] at hother
        have hlane := (List.append_eq_nil_iff.1 hother).2
        rw [if_pos ⟨rfl, hk⟩] at hlane
        simp [hn, hlane]
    · have hsame : (s.consume k ch m rest).brought a .io = s.brought a .io := by
        rw [Network.brought, Network.consume_process, upd₁_apply, if_neg hk, Network.brought]
      rw [hsame]
      simp [hk]

end

/-! ### Along a chain of links -/

namespace Network

/-- `l` is on its way along the link from `a` to `b`, the oldest message first: in hand in the node of
    `b`, in the channel, with at most two threads of the node of `a`, waiting at `a`. -/
def Flight (s : Network) (a b : Address) (l : List Payload) : Prop :=
  ∃ σ τ, σ ≠ τ ∧ (∀ ρ, ρ ≠ σ → ρ ≠ τ → s.box a.nodeName b ρ = []) ∧
    l = s.brought b .io ++ s.crossing a.nodeName b ++ s.box a.nodeName b σ ++ s.box a.nodeName b τ ++
      ((s.process a.nodeName).queued a.endpointName).map Message.payload

/-- `l` is on its way along the links from `a` to `e`. -/
inductive Journey (s : Network) : Address → Address → List Payload → Prop where
  | here (a : Address) : Journey s a a []
  | hop {a b e : Address} {l l' : List Payload} (hab : s.Link a b) (hl : s.Flight a b l)
      (hbe : Journey s b e l') : Journey s a e (l' ++ l)

/-- What the endpoint at `a` has of what arrived there. -/
def stock (s : Network) (a : Address) : List Payload :=
  match s.endpointAt a with
  | some e => (e.posted ++ e.incomingMessageQueue).map Message.payload
  | none => []

end Network

section
variable {T : Topology} {s : Network} {a b : Address}

/-- A link leads from a proxy to its target, or from a reserved endpoint. -/
theorem Reachable.next_cases (hs : Reachable T s) (h : s.ports.Next a b) :
    (∃ p, s.port a = some ⟨p, .proxying b⟩) ∨ (∃ p, s.port a = some ⟨p, .queueing⟩) ∧
      ∃ Q, .reserved a.endpointName ∈ s.ports.tokens Q ∧ Q.node = some a.nodeName := by
  have hports := hs.sound.ports
  cases h with
  | proxy h => exact .inl ⟨_, h⟩
  | @stand k P ht hg ha =>
    obtain ⟨x, Q, ⟨hx, hxk⟩, hQ, hres⟩ := hports.pacts.backed P _ ht k hg
    rw [ha, Option.some.injEq] at hx
    subst hx
    obtain ⟨q, hq, -⟩ := Option.map_eq_some_iff.1 hxk
    refine .inr ⟨⟨q.peer, ?_⟩, Q, hres, hQ⟩
    rcases hports.rights.status Q _ hres ⟨k.nodeName, x⟩ q ⟨hQ, rfl⟩ hq with hst | ⟨-, rfl⟩
    · rw [← Network.ports_port, hq, ← hst]
    · simp [Network.tokens] at hres

/-- Only the node of `a` writes to what `a` is linked to. -/
theorem Reachable.opened_other (hs : Reachable T s) (h : s.ports.Next a b) {k : Identifier}
    (hk : k ≠ a.nodeName) : s.opened k b = [] := by
  have hlinks := hs.sound.ports.links
  refine lane_eq_nil.2 fun l hl heq => ?_
  have haim := hs.addressed.wire k b.nodeName l
    (by rw [Network.transmitted, List.flatMap_append]; exact List.mem_append_left _ hl)
  rw [heq] at haim
  rcases haim with ⟨y, hy⟩ | ⟨y, p, hy⟩
  · exact hlinks.not_peer hs.sound.ports.names h y hy
  · have heq := hlinks.inj _ _ _ (.proxy hy) h
    exact hk (heq ▸ rfl)

/-- What the node of `a` wrote to what `a` is linked to has arrived, is in hand, or is in the channel. -/
theorem Reachable.written_next (hs : Reachable T s) (h : s.ports.Next a b) :
    s.written a.nodeName b = s.arrived b ++ s.brought b .io ++ s.crossing a.nodeName b := by
  rw [Network.written_eq, hs.opened_eq (fun y => hs.sound.ports.links.not_peer hs.sound.ports.names h y)
    fun k hk => hs.opened_other h hk]

/-- As long as an acceptance is awaited, nothing is sent on from the reserved endpoint. -/
theorem Reachable.awaited (hr : Reachable T s) (h : s.ports.Next a b) {p : Address}
    (hp : s.port a = some ⟨p, .queueing⟩) : s.arrived b = [] ∧ s.brought b .io = [] ∧
      s.crossing a.nodeName b = [] ∧ ∀ ρ, s.box a.nodeName b ρ = [] := by
  have hun : ¬ s.ports.Aimed a.nodeName b := by
    rintro (⟨y, hy⟩ | ⟨y, q, hy⟩)
    · exact hr.sound.ports.links.not_peer hr.sound.ports.names h y hy
    · have heq := hr.sound.ports.links.inj _ _ _ (.proxy hy) h
      rw [heq, Network.ports_port, hp] at hy
      cases hy
  have hnone : s.written a.nodeName b = [] := lane_eq_nil.2 fun l hl heq =>
    hun (heq ▸ hr.addressed.wire a.nodeName b.nodeName l hl)
  obtain ⟨hleft, hcrossing⟩ := List.append_eq_nil_iff.1 ((hr.written_next h).symm.trans hnone)
  obtain ⟨harr, hbrought⟩ := List.append_eq_nil_iff.1 hleft
  exact ⟨harr, hbrought, hcrossing, fun ρ => lane_eq_nil.2 fun l hl heq =>
    hun (heq ▸ hr.addressed.hand a.nodeName ρ l hl)⟩

/-- What arrived at `a` has arrived at `b` or is on its way there. -/
theorem ReachableBy.flight (hs : ReachableBy T InTurn s) (h : s.ports.Next a b) :
    ∃ l, s.Flight a b l ∧ s.arrived a = s.arrived b ++ l := by
  have hr := hs.reachable
  obtain ⟨n, x⟩ := a
  rcases hr.next_cases h with ⟨p, hp⟩ | ⟨⟨p, hp⟩, -⟩
  · obtain ⟨σ, τ, hne, hbox, harr, -⟩ := (hs.passed hp).carried
    refine ⟨_, ⟨σ, τ, hne, hbox, rfl⟩, ?_⟩
    rw [Network.arrived, harr, hr.written_next h]
    simp
  · obtain ⟨harr, hbrought, hcrossing, hbox⟩ := hr.awaited h hp
    refine ⟨_, ⟨.io, .user 0, by simp, fun ρ _ _ => hbox ρ, rfl⟩, ?_⟩
    obtain ⟨e, he, hep⟩ := Network.port_eq_some.1 hp
    have hq : e.state = .kUnboundAndQueueing := by
      cases hst : e.state <;> simp_all [Endpoint.port, Endpoint.status]
    have hstock := (hr.untouched.stock n).stocked x e he
    have hlive := hstock.live (by simp [hq])
    rw [hstock.unbound (by simp [hq]), List.nil_append] at hlive
    rw [harr, hbrought, hcrossing, Core.queued_of_find he]
    simpa [hbox, Network.arrived] using hlive

/-- All that arrived at an address is there, unless a proxy is. -/
theorem Reachable.arrived_live (hs : Reachable T s)
    (h : ∀ e, s.endpointAt a = some e → e.state ≠ .kUnboundAndProxying) : s.arrived a = s.stock a := by
  obtain ⟨n, x⟩ := a
  cases he : s.endpointAt ⟨n, x⟩ with
  | none => rw [Network.stock, he, Network.arrived, (hs.untouched.stock n).absent x he]
  | some e =>
    rw [Network.stock, he]
    exact ((hs.untouched.stock n).stocked x e he).live (h e he)

/-- At the end of a chain all that arrived is there. -/
theorem Reachable.arrived_end (hs : Reachable T s) (h : ∀ b, ¬ s.ports.Next a b) :
    s.arrived a = s.stock a :=
  hs.arrived_live fun _ he hq => h _ (Network.link_iff.1 (.proxy he hq))

/-- What arrived where a chain starts is with the endpoint at its end, or on its way there. -/
theorem ReachableBy.journey (hs : ReachableBy T InTurn s) {e : Address} (h : Ends s.Link a e) :
    ∃ l, s.Journey a e l ∧ s.arrived a = s.stock e ++ l := by
  obtain ⟨hchain, hend⟩ := h
  induction hchain using ReflTransGen.head_induction_on with
  | refl =>
    refine ⟨[], .here e, ?_⟩
    rw [List.append_nil]
    exact hs.reachable.arrived_end fun b hb => hend b (Network.link_iff.2 hb)
  | @head a b hab _ ih =>
    obtain ⟨l', hbe, hb⟩ := ih
    obtain ⟨l, hl, ha⟩ := hs.flight (Network.link_iff.1 hab)
    exact ⟨l' ++ l, .hop hab hl hbe, by rw [ha, hb, List.append_assoc]⟩

/-- When nothing is under way, what is on its way along a link is in the channel or waits where the
    link starts. -/
theorem Network.Flight.quiescent (hq : Quiescent s) {l : List Payload} (hl : s.Flight a b l) :
    l = s.crossing a.nodeName b ++
      ((s.process a.nodeName).queued a.endpointName).map Message.payload := by
  obtain ⟨σ, τ, -, -, rfl⟩ := hl
  have hbrought : s.brought b .io = [] := by
    rw [Network.brought, hq]
    rfl
  have hbox : ∀ ρ, s.box a.nodeName b ρ = [] := by
    intro ρ
    rw [Network.box, hq]
    rfl
  rw [hbrought, hbox, hbox, List.nil_append, List.append_nil, List.append_nil]

/-- Nothing waits at a proxy then. -/
theorem Reachable.proxy_drained (hs : Reachable T s) (hq : Quiescent s) {e : Endpoint}
    (he : s.endpointAt a = some e) (hp : e.state = .kUnboundAndProxying) :
    (s.process a.nodeName).queued a.endpointName = [] := by
  rw [Core.queued_of_find he]
  refine (((hs.untouched.stock a.nodeName).stocked _ e he).proxying hp).resolve_right ?_
  rintro ⟨ρ, hρ⟩
  rw [hq] at hρ
  cases hρ

/-- When nothing is under way and every channel is empty, nothing is on its way along a link. -/
theorem Reachable.flight_at_rest (hs : Reachable T s) (hq : Quiescent s)
    (hw : ∀ n t, s.wire n t = []) (hab : s.Link a b) {l : List Payload} (hl : s.Flight a b l) :
    l = [] := by
  have hcrossing : s.crossing a.nodeName b = [] := by
    rw [Network.crossing, hw]
    rfl
  have hqueued : (s.process a.nodeName).queued a.endpointName = [] := by
    cases hab with
    | proxy he hp => exact hs.proxy_drained hq he hp
    | stand hg =>
      rcases hg with ⟨k, t, y, hm⟩ | ⟨n, τ, hm⟩
      · rw [hw] at hm
        cases hm
      · rw [hq] at hm
        cases hm
  rw [hl.quiescent hq, hcrossing, hqueued]
  rfl

theorem Reachable.journey_at_rest (hs : Reachable T s) (hq : Quiescent s)
    (hw : ∀ n t, s.wire n t = []) {e : Address} {l : List Payload} (h : s.Journey a e l) : l = [] := by
  induction h with
  | here => rfl
  | hop hab hl _ ih => rw [ih, hs.flight_at_rest hq hw hab hl, List.nil_append]

end

/-- As long as messages are written in turn, in any network and whatever the chain of proxies: all that
    arrived where a chain starts is with the endpoint at its end, posted and then queued, or on its way
    along the links, in the order of its arrival. It is all there once nothing is under way. -/
theorem chains_keep_order {T : Topology} {s : Network} (hs : ReachableBy T InTurn s)
    {a e : Address} (h : Ends s.Link a e) :
    ∃ l, s.Journey a e l ∧ s.arrived a = s.stock e ++ l ∧
      (Quiescent s → (∀ n t, s.wire n t = []) → l = []) := by
  obtain ⟨l, hl, ha⟩ := hs.journey h
  exact ⟨l, hl, ha, fun hq hw => hs.reachable.journey_at_rest hq hw hl⟩

/-- What arrived at an endpoint that was sent away, before and after, is found along its chain. -/
theorem drained_message_found : ∃ s e l, ReachableBy Sample.pair InTurn s ∧
    s.endpointAt ⟨Sample.acceptor, Sample.word 4⟩ ≠ none ∧
    Ends s.Link ⟨Sample.acceptor, Sample.word 4⟩ e ∧ e ≠ ⟨Sample.acceptor, Sample.word 4⟩ ∧
    s.Journey ⟨Sample.acceptor, Sample.word 4⟩ e l ∧
    s.stock e ++ l = [⟨8, [2]⟩, ⟨10, [4]⟩] := by
  obtain ⟨s, hs, harr', f, hf, hq⟩ := Network.exists_of_follow Sample.pair
    (DrainedAmong [.io, .user 0, .user 1]) Sample.following
    (fun s => s.arrived ⟨Sample.acceptor, Sample.word 4⟩ = [⟨8, [2]⟩, ⟨10, [4]⟩] ∧
      ∃ e ∈ s.endpointAt ⟨Sample.acceptor, Sample.word 4⟩, e.state = .kUnboundAndProxying)
    (by decide +kernel)
  have hturn := hs.afterDrain.drained_first.1
  obtain ⟨e, he, -⟩ := hturn.reachable.sound.exists_terminal (.here hf)
  obtain ⟨l, hl, harr, -⟩ := chains_keep_order hturn he
  refine ⟨s, e, l, hturn, by simp [Option.mem_def.1 hf], he, ?_, hl, harr ▸ harr'⟩
  rintro rfl
  exact he.2 _ (.proxy hf hq)

end Mage
