import Mage.Safety.Alone

/-! An end of a pipe that moves to the node of its peer comes after all that was sent over it. Messages
    and ends go from one node to another in one line, and whatever stands in the line behind an end was
    not sent over that end. -/

namespace Mage
open Lib Relation

/-- Where a message goes to, and the peers of the ends `ds` that go along. -/
def Message.item (t : Identifier) (m : Message) (ds : List EndpointDescriptor) :
    Address × List Address :=
  (⟨t, m.targetEndpoint⟩, ds.map (·.peerAddress))

def ChannelMessage.items (t : Identifier) : ChannelMessage → List (Address × List Address)
  | .userMessage m => [m.item t m.endpointsInMessage]
  | _ => []

/-- What a thread is about to write, with the ends that go along already. -/
def Thread.items : Thread → List (Address × List Address)
  | .sending b m done _ =>
    m.item b.targetNodeName done :: b.messagesToSend.map (·.item b.targetNodeName [])
  | .unlocking b _ => b.messagesToSend.map (·.item b.targetNodeName [])
  | .forwarding _ t m done _ => [m.item t done]
  | _ => []

theorem Thread.items_letters (t : Thread) : t.items.map Prod.fst = t.letters.map Prod.fst := by
  cases t <;> simp [items, letters, Message.item, Message.letter]

theorem ChannelMessage.items_letters (t : Identifier) (m : ChannelMessage) :
    (m.items t).map Prod.fst = (m.letters t).map Prod.fst := by
  cases m <;> rfl

/-- An end that goes along with a message has left. -/
theorem Thread.item_crossing {t : Thread} {n : Identifier} {i : Address × List Address}
    (hi : i ∈ t.items) {p : Address} (hp : p ∈ i.2) :
    ∃ d, .crossing i.1.nodeName d ∈ t.tokens n ∧ d.peerAddress = p := by
  cases t with
  | sending b m done rest =>
    rcases List.mem_cons.1 hi with rfl | hi
    · obtain ⟨d, hd, rfl⟩ := List.mem_map.1 hp
      exact ⟨d, by simp [tokens, Message.item, hd], rfl⟩
    · obtain ⟨m', -, rfl⟩ := List.mem_map.1 hi
      cases hp
  | unlocking b xs =>
    obtain ⟨m', -, rfl⟩ := List.mem_map.1 hi
    cases hp
  | forwarding x k m done rest =>
    obtain rfl := List.mem_singleton.1 hi
    obtain ⟨d, hd, rfl⟩ := List.mem_map.1 hp
    exact ⟨d, by simp [tokens, Message.item, hd], rfl⟩
  | _ => cases hi

namespace Process.Move
variable {T : Topology} {n : Identifier} {p : Process} {τ : ThreadId} {supply : List Identifier}
  {c : Option Call} {o : Outcome}

/-- A thread writes the first of its items. -/
theorem item_written (h : p.Move τ supply c o) (ht : (p.thread τ).Tidy T n p) {k : Channel}
    {m : Message} (hw : o.written = some (k, .userMessage m)) :
    ∃ t, p.nodeChannelMap.find t = some k ∧ Linked T n t ∧
      (p.thread τ).items = m.item t m.endpointsInMessage :: (o.process.thread τ).items := by
  cases h with
  | @write b m done channel h1 hc =>
    cases hw
    rw [h1] at ht
    exact ⟨b.targetNodeName, hc, ht.2, by simp [h1, Thread.items, Message.item, ht.1]⟩
  | @writeForwarded x t m done channel h1 hc =>
    cases hw
    rw [h1] at ht
    exact ⟨t, hc, ht, by simp [h1, Thread.items, Message.item]⟩
  | _ => cases hw

/-- Otherwise its items stay; or it has none, and finds the peer of what it sends over in another node,
    or a proxy; or one more end goes along with the first. -/
theorem items (h : p.Move τ supply c o) (hi : c.isSome → p.thread τ = .idle)
    (htidy : (p.thread τ).Tidy T n p) :
    (∃ k m, o.written = some (k, .userMessage m)) ∨
    (o.process.thread τ).items = (p.thread τ).items ∨
    (p.thread τ).items = [] ∧ (∃ x e, (p.thread τ).carrier = some x ∧
      p.localEndpoints.find x = some e ∧
      p.localEndpoints.find e.peerAddress.endpointName = none ∧
      (o.process.thread τ).items = [(e.peerAddress, [])]) ∨
    (p.thread τ).items = [] ∧ (∃ x e, o.process.localEndpoints.find x = some e ∧
      e.state = .kUnboundAndProxying ∧
      ∀ i ∈ (o.process.thread τ).items, i = (e.proxyTarget, [])) ∨
    ∃ i rest a new x e, (p.thread τ).items = i :: rest ∧
      (o.process.thread τ).items = (i.1, i.2 ++ [a]) :: (rest ++ new) ∧
      o.process.localEndpoints.find x = some e ∧ e.state = .kUnboundAndProxying ∧
      ∀ j ∈ new, j = (e.proxyTarget, []) := by
  cases h with
  | write | writeForwarded => exact .inl ⟨_, _, rfl⟩
  | createMessagePipes | bindReceiver | acceptInvitation => exact .inr (.inl rfl)
  | sendMessage | sendInvitation => exact .inr (.inl (by simp [hi, Thread.items]))
  | @routeRemote x m e channel ht he hp =>
    refine .inr (.inr (.inl ⟨by simp [ht, Thread.items], x, e, by rw [ht]; rfl, he, hp, ?_⟩))
    simp [Thread.items, Message.item]
  | @deliverToProxy x m e ht he _ hq =>
    refine .inr (.inr (.inr (.inl ⟨by simp [ht, Thread.items], x, e, he, hq, ?_⟩)))
    simp [Thread.items, Message.item]
  | @relay x m done e ht he hq =>
    refine .inr (.inr (.inr (.inl ⟨by simp [ht, Thread.items], x, e, he, hq, ?_⟩)))
    simp [Thread.items, Message.item]
  | @take b m done ds d e ht he =>
    refine .inr (.inr (.inr (.inr ⟨_, _, d.peerAddress, e.incomingMessageQueue.map fun _ =>
      (⟨b.targetNodeName, d.crossNodeEndpointName⟩, []), d.endpointName, _,
      by rw [ht, Thread.items], ?_, if_pos rfl, rfl, fun j hj => ?_⟩)))
    · simp [Thread.items, Message.item, Function.comp_def]
    · obtain ⟨m', -, rfl⟩ := List.mem_map.1 hj
      rfl
  | @forward x k name m done ds d rest e ht =>
    refine .inr (.inr (.inr (.inr ⟨_, _, d.peerAddress, [], d.crossNodeEndpointName, _,
      by rw [ht, Thread.items], ?_, if_pos rfl, rfl, fun j hj => (by cases hj)⟩)))
    simp [Thread.items, Message.item, EndpointDescriptor.peerAddress]
  | @drain r k e ht he =>
    rw [ht] at htidy
    obtain ⟨e', he', hq⟩ := htidy
    rw [he, Option.some.injEq] at he'
    subst he'
    refine .inr (.inr (.inr (.inl ⟨by simp [ht, Thread.items], r, _, if_pos rfl, hq,
      fun i hi => ?_⟩)))
    simp only [goto_thread, upd₁_apply, if_true, Thread.items, List.map_map] at hi
    obtain ⟨m', -, rfl⟩ := List.mem_map.1 hi
    rfl
  | _ => exact .inr (.inl (by simp_all [Thread.items]))

/-- An end on its way to the node of the thread that has it came there. -/
theorem crossing_old (h : p.Move τ supply c o) (ht : (o.process.thread τ).Tidy T n o.process)
    {d : EndpointDescriptor} (hd : .crossing n d ∈ (o.process.thread τ).tokens n) :
    .crossing n d ∈ (p.thread τ).tokens n := by
  cases h with
  | createMessagePipes | bindReceiver | acceptInvitation => exact hd
  | @take b =>
    simp only [goto_thread, upd₁_apply, if_true] at hd ht
    have hne : b.targetNodeName ≠ n := ht.2.ne
    simp [Thread.tokens, hne, hne.symm, Message.described] at hd
  | forward =>
    simp only [goto_thread, upd₁_apply, if_true] at hd ht
    have hne := Linked.ne ht
    simp [Thread.tokens, hne, hne.symm] at hd
  | receive h1 | recover h1 =>
    rw [h1]
    simp_all [Thread.tokens]
  | _ => simp [Thread.tokens, Message.described] at hd

end Process.Move

/-! ### The line from one node to another -/

namespace Network

/-- What stands in line from node `n` to node `t`: in the channel, then with thread `τ`. -/
def line (s : Network) (n t : Identifier) (τ : ThreadId) : List (Address × List Address) :=
  (s.wire n t).flatMap (·.items t) ++ ((s.process n).thread τ).items

/-- An end with the peer `a` is in the node of `a`, or with the thread that reads there. -/
def Home (s : Network) (a : Address) : Prop :=
  (∃ x, s.ports.peer x = some a ∧ x.nodeName = a.nodeName ∧ ∀ b, ¬ s.ports.Next x b) ∨
  ∃ τ d, .crossing a.nodeName d ∈ s.ports.tokens (.hand a.nodeName τ) ∧ d.peerAddress = a

end Network

structure Trailing (s : Network) : Prop where
  later : ∀ n τ, ∀ i ∈ ((s.process n).thread τ).items.tail, ∃ x, s.ports.Next ⟨n, x⟩ i.1
  ordered : ∀ n t τ, (s.line n t τ).Pairwise fun i j => j.1 ∉ i.2
  home : ∀ a, s.Home a → ∀ n t τ, ∀ i ∈ s.line n t τ, i.1 ≠ a

section
variable {T : Topology} {s : Network} {n t : Identifier} {τ : ThreadId} {a : Address}
  {i : Address × List Address}

/-- What stands in line is for another node. -/
theorem Reachable.line_linked (hs : Reachable T s) (hi : i ∈ s.line n t τ) :
    Linked T n i.1.nodeName := by
  rcases List.mem_append.1 hi with hi | hi
  · obtain ⟨m, hm, hi⟩ := List.mem_flatMap.1 hi
    cases m with
    | userMessage m =>
      obtain rfl := List.mem_singleton.1 hi
      exact hs.sound.handshake.wires n t _ hm
    | sendInvitation | acceptInvitation => cases hi
  · have ht := hs.sound.tidy.threads n τ
    cases hth : (s.process n).thread τ with
    | sending b m done rest =>
      rw [hth] at hi ht
      rcases List.mem_cons.1 hi with rfl | hi
      · exact ht.2
      · obtain ⟨m', -, rfl⟩ := List.mem_map.1 hi
        exact ht.2
    | unlocking b xs =>
      rw [hth] at hi ht
      obtain ⟨m', -, rfl⟩ := List.mem_map.1 hi
      exact ht
    | forwarding x k m done rest =>
      rw [hth] at hi ht
      obtain rfl := List.mem_singleton.1 hi
      exact ht
    | _ => simp [hth, Thread.items] at hi

/-- The ends in line travel to where their messages go. -/
theorem Network.line_crossing (hi : i ∈ s.line n t τ) (ha : a ∈ i.2) :
    ∃ P d, .crossing i.1.nodeName d ∈ s.ports.tokens P ∧ d.peerAddress = a := by
  rcases List.mem_append.1 hi with hi | hi
  · obtain ⟨m, hm, hi⟩ := List.mem_flatMap.1 hi
    cases m with
    | userMessage m =>
      obtain rfl := List.mem_singleton.1 hi
      obtain ⟨d, hd, rfl⟩ := List.mem_map.1 ha
      refine ⟨.wire n t, d, List.mem_flatMap.2 ⟨_, hm, ?_⟩, rfl⟩
      simpa [ChannelMessage.tokens, Message.item] using hd
    | sendInvitation | acceptInvitation => cases hi
  · obtain ⟨d, hd, rfl⟩ := Thread.item_crossing (n := n) hi ha
    exact ⟨.hand n τ, d, hd, rfl⟩

/-- An end that is home, or in line, has a peer. -/
theorem Network.Sound.peer_of_crossing (hs : s.Sound T) {P : Place} {d : EndpointDescriptor}
    (hd : .crossing t d ∈ s.ports.tokens P) : ∃ y, s.ports.peer y = some d.peerAddress := by
  obtain ⟨q, -, hq, -⟩ := hs.ports.links.mate _ _ (.crossing hd)
  exact ⟨q, hq⟩

theorem Network.Sound.peer_of_home (hs : s.Sound T) (ha : s.Home a) :
    ∃ y, s.ports.peer y = some a := by
  rcases ha with ⟨x, hx, -⟩ | ⟨τ, d, hd, rfl⟩
  · exact ⟨x, hx⟩
  · exact hs.peer_of_crossing hd

theorem Network.Sound.peer_of_line (hs : s.Sound T) (hi : i ∈ s.line n t τ) (ha : a ∈ i.2) :
    ∃ y, s.ports.peer y = some a := by
  obtain ⟨P, d, hd, rfl⟩ := Network.line_crossing hi ha
  exact hs.peer_of_crossing hd

/-- Nothing goes to an address that is new. -/
theorem Reachable.line_drawn (hs : Reachable T s) (hi : i ∈ s.line n t τ) :
    i.1.endpointName ∉ s.supply := by
  have hports := hs.sound.ports
  have haim : s.ports.Aimed n i.1 := by
    rcases List.mem_append.1 hi with hi | hi
    · obtain ⟨m, hm, hi⟩ := List.mem_flatMap.1 hi
      have hfst : i.1 ∈ (m.letters t).map Prod.fst := by
        rw [← m.items_letters]
        exact List.mem_map_of_mem hi
      obtain ⟨l, hl, heq⟩ := List.mem_map.1 hfst
      rw [← heq]
      refine hs.addressed.wire n t l ?_
      exact List.mem_flatMap.2 ⟨m, List.mem_append_right _ hm, hl⟩
    · have hfst : i.1 ∈ ((s.process n).thread τ).letters.map Prod.fst := by
        rw [← Thread.items_letters]
        exact List.mem_map_of_mem hi
      obtain ⟨l, hl, heq⟩ := List.mem_map.1 hfst
      rw [← heq]
      exact hs.addressed.hand n τ l hl
  intro hfresh
  exact hports.links.unaimed (Links.free_of_supply hports.names hfresh) n haim

/-- The live end behind it. -/
theorem Reachable.end_of_home (hs : Reachable T s) (ha : s.Home a) :
    ∃ x, s.ports.Live x a ∧ x.nodeName = a.nodeName ∧ ∀ b, ¬ s.ports.Next x b := by
  rcases ha with ⟨x, hx, hn, hlast⟩ | ⟨τ, d, hd, rfl⟩
  · exact ⟨x, .port hx, hn, hlast⟩
  · exact ⟨_, .crossing hd, rfl, hs.sound.ports.links.crossing_last hs.sound.ports.names hd⟩

end

/-! ### One act -/

section
variable {T : Topology} {s : Network} {n t : Identifier} {τ : ThreadId} {c : Option Call}
  {o : Outcome} {a : Address}

theorem Act.next (ha : Act T s n τ c o) (hr : Reachable T s) {b : Address}
    (hab : s.ports.Next a b) : (s.apply n o).ports.Next a b :=
  have h := hr.sound
  h.ports.next_later (ha.effects h.handshake h.tidy h.ports hr) hab

theorem Network.line_other {k : Identifier} {σ : ThreadId} (hk : k ≠ n) :
    (s.apply n o).line k t σ = s.line k t σ := by
  have hwire : (s.apply n o).wire k t = s.wire k t := by
    cases hw : o.written with
    | none => rw [apply_wire_none s n hw]
    | some w => rw [apply_wire_some s n hw, upd_apply, if_neg fun h => hk h.1]
  rw [line, hwire, apply_process, upd₁_apply, if_neg hk, line]

theorem Network.items_written (s : Network) (n : Identifier) {m : Message}
    (hw : o.written = some (t, .userMessage m)) (k : Identifier) :
    ((s.apply n o).wire n k).flatMap (·.items k) =
      (s.wire n k).flatMap (·.items k) ++ if k = t then [m.item t m.endpointsInMessage] else [] := by
  rw [apply_wire_some s n hw, upd_apply]
  split_ifs with h1 h2 h2
  · simp [ChannelMessage.items, h2]
  · exact absurd h1.2 h2
  · exact absurd ⟨rfl, h2⟩ h1
  · simp

theorem Network.items_unwritten (s : Network) (n : Identifier)
    (hw : ∀ k m, o.written ≠ some (k, .userMessage m)) (k : Identifier) :
    ((s.apply n o).wire n k).flatMap (·.items k) = (s.wire n k).flatMap (·.items k) := by
  cases h : o.written with
  | none => rw [apply_wire_none s n h]
  | some w =>
    obtain ⟨t, M⟩ := w
    rw [apply_wire_some s n h, upd_apply]
    split_ifs with hk
    · cases M with
      | userMessage m => exact absurd h (hw t m)
      | sendInvitation | acceptInvitation => simp [hk.2, ChannelMessage.items]
    · rfl

/-- An end that comes home was on its way there, or is new. -/
theorem Act.home (ha : Act T s n τ c o) (hr : Reachable T s) (hh : (s.apply n o).Home a) :
    s.Home a ∨ a.endpointName ∈ s.supply := by
  rcases hh with ⟨⟨k, x⟩, hx, hn, hlast⟩ | ⟨σ, d, hd, rfl⟩
  · have hlast' : ∀ b, ¬ s.ports.Next ⟨k, x⟩ b := fun b hb => hlast b (ha.next hr hb)
    obtain ⟨e', he', rfl⟩ := Network.peer_eq_some.1 hx
    simp only [Network.endpointAt, Network.apply_process, upd₁_apply] at he'
    split_ifs at he' with hk
    · subst hk
      rcases ha.move.newcomer he' with ⟨e, he, heq⟩ | ⟨-, hfresh⟩ |
        ⟨y, m, done, d, ds, ht, rfl, heq⟩ | ⟨i, t, y, ht, -, heq⟩
      · exact .inl (.inl ⟨⟨k, x⟩, Network.peer_eq_some.2 ⟨e, he, heq⟩, hn, hlast'⟩)
      · exact .inr hfresh
      · refine .inl (.inr ⟨τ, d, ?_, heq.symm⟩)
        rw [← show k = e'.peerAddress.nodeName from hn]
        simp [Network.tokens, ht, Thread.tokens]
      · have hth := hr.sound.handshake.threads k τ
        rw [ht] at hth
        rw [heq] at hn
        exact absurd hn.symm (T.invites_irrefl _ hth.1)
    · exact .inl (.inl ⟨⟨k, x⟩, Network.peer_eq_some.2 ⟨e', he', rfl⟩, hn, hlast'⟩)
  · refine .inl (.inr ⟨σ, d, ?_, rfl⟩)
    rcases ha.thread_apply d.peerAddress.nodeName σ with ⟨hk, rfl, hth⟩ | hth
    · rw [hk] at hd hth ⊢
      have htidy := (ha.sound hr).tidy.threads n σ
      simp only [Network.apply_process, upd₁_apply, if_true] at htidy
      simp only [Network.ports_tokens, Network.tokens] at hd ⊢
      rw [hth] at hd
      exact ha.move.crossing_old htidy hd
    · simp only [Network.ports_tokens, Network.tokens] at hd ⊢
      rwa [hth] at hd

/-- What a thread sends over to another node is the only end there with its peer. -/
theorem ReachableBy.carrier_away (hs : ReachableBy T OneAtATime s) {x : Identifier} {e : Endpoint}
    (hx : ((s.process n).thread τ).carrier = some x)
    (he : (s.process n).localEndpoints.find x = some e)
    (hp : (s.process n).localEndpoints.find e.peerAddress.endpointName = none) :
    ¬ s.Home e.peerAddress ∧ ∀ t σ, ∀ i ∈ s.line n t σ, e.peerAddress ∉ i.2 := by
  have hr := hs.reachable
  have hports := hr.sound.ports
  have hlive : s.ports.Live ⟨n, x⟩ e.peerAddress := .port (Network.peer_eq_some.2 ⟨e, he, rfl⟩)
  have hlast := hs.carrier_unlinked hx
  refine ⟨fun hh => ?_, fun t σ i hi hmem => ?_⟩
  · obtain ⟨y, hy, hn, hlast'⟩ := hr.end_of_home hh
    obtain rfl := hports.links.end_unique hports.rights hports.pacts hlive hy hlast hlast'
    rcases hr.peer_local he with ⟨-, hreg, -⟩ | ⟨hne, -⟩
    · exact hreg hp
    · exact hne hn.symm
  · obtain ⟨P, d, hd, heq⟩ := Network.line_crossing hi hmem
    have hd' : s.ports.Live ⟨i.1.nodeName, d.crossNodeEndpointName⟩ e.peerAddress :=
      heq ▸ .crossing hd
    have heq := hports.links.end_unique hports.rights hports.pacts hlive hd' hlast
      (hports.links.crossing_last hports.names hd)
    exact (hr.line_linked hi).ne (Address.mk.inj heq).1.symm

namespace Trailing
variable (h : Trailing s) (hs : ReachableBy T OneAtATime s) (ha : Act T s n τ c o)
include hs ha

include h in
theorem act_later (k : Identifier) (σ : ThreadId) {i : Address × List Address}
    (hi : i ∈ (((s.apply n o).process k).thread σ).items.tail) :
    ∃ x, (s.apply n o).ports.Next ⟨k, x⟩ i.1 := by
  have hr := hs.reachable
  have old : ∀ {k σ}, i ∈ ((s.process k).thread σ).items.tail →
      ∃ x, (s.apply n o).ports.Next ⟨k, x⟩ i.1 := by
    intro k σ hi
    obtain ⟨x, hx⟩ := h.later k σ i hi
    exact ⟨x, ha.next hr hx⟩
  have proxied : ∀ {x e}, o.process.localEndpoints.find x = some e →
      e.state = .kUnboundAndProxying → i = (e.proxyTarget, []) →
      ∃ x, (s.apply n o).ports.Next ⟨n, x⟩ i.1 := by
    rintro x e he hq rfl
    refine ⟨x, Network.link_iff.1 (.proxy (e := e) ?_ hq)⟩
    simpa [Network.endpointAt] using he
  rcases ha.thread_apply k σ with ⟨rfl, rfl, hth⟩ | hth
  · rw [hth] at hi
    have htidy := hr.sound.tidy.threads k σ
    rcases ha.move.items ha.idle htidy with ⟨ch, m, hw⟩ | heq | ⟨-, x, e, -, -, -, heq⟩ |
      ⟨-, x, e, he, hq, hall⟩ | ⟨j, rest, b, new, x, e, hold, heq, he, hq, hall⟩
    · obtain ⟨t, -, -, hitems⟩ := ha.move.item_written htidy hw
      refine old (k := k) (σ := σ) ?_
      rw [hitems]
      exact List.mem_of_mem_tail hi
    · exact old (heq ▸ hi)
    · simp [heq] at hi
    · exact proxied he hq (hall i (List.mem_of_mem_tail hi))
    · rw [heq] at hi
      rcases List.mem_append.1 hi with hi | hi
      · exact old (k := k) (σ := σ) (by simpa [hold] using hi)
      · exact proxied he hq (hall i hi)
  · exact old (hth ▸ hi)

/-- What stands in line stood there, or is for the peer of what is sent over, or goes along a link. -/
theorem act_origin {k : Identifier} {σ : ThreadId} {i : Address × List Address}
    (hi : i ∈ (s.apply n o).line k t σ) :
    (∃ t' σ' j, j ∈ s.line k t' σ' ∧ j.1 = i.1) ∨
    (∃ x e, ((s.process n).thread τ).carrier = some x ∧
      (s.process n).localEndpoints.find x = some e ∧
      (s.process n).localEndpoints.find e.peerAddress.endpointName = none ∧ i.1 = e.peerAddress) ∨
    ∃ x, (s.apply n o).ports.Next x i.1 := by
  have hr := hs.reachable
  have htidy := hr.sound.tidy.threads n τ
  have hand : ∀ {j}, j ∈ ((s.process n).thread τ).items → j ∈ s.line n t τ :=
    fun hj => List.mem_append_right _ hj
  have proxied : ∀ {x e}, o.process.localEndpoints.find x = some e →
      e.state = .kUnboundAndProxying → i = (e.proxyTarget, []) →
      ∃ x, (s.apply n o).ports.Next x i.1 := by
    rintro x e he hq rfl
    refine ⟨⟨n, x⟩, Network.link_iff.1 (.proxy (e := e) ?_ hq)⟩
    simpa [Network.endpointAt] using he
  rcases List.mem_append.1 hi with hi | hi
  · obtain ⟨M, hM, hi⟩ := List.mem_flatMap.1 hi
    rcases (Network.mem_apply_wire s n o).1 hM with hM | ⟨rfl, hw⟩
    · exact .inl ⟨t, σ, i, List.mem_append_left _ (List.mem_flatMap.2 ⟨M, hM, hi⟩), rfl⟩
    · cases M with
      | sendInvitation | acceptInvitation => cases hi
      | userMessage m =>
        obtain rfl := List.mem_singleton.1 hi
        obtain ⟨t', hc, hl, hitems⟩ := ha.move.item_written htidy hw
        obtain rfl := hr.sound.channel_eq hl hc
        exact .inl ⟨_, _, _, hand (hitems ▸ List.mem_cons_self), rfl⟩
  rcases ha.thread_apply k σ with ⟨rfl, rfl, hth⟩ | hth
  · rw [hth] at hi
    rcases ha.move.items ha.idle htidy with ⟨ch, m, hw⟩ | heq | ⟨-, x, e, hx, he, hp, heq⟩ |
      ⟨-, x, e, he, hq, hall⟩ | ⟨j, rest, b, new, x, e, hold, heq, he, hq, hall⟩
    · obtain ⟨t', -, -, hitems⟩ := ha.move.item_written htidy hw
      exact .inl ⟨_, _, i, hand (hitems ▸ List.mem_cons_of_mem _ hi), rfl⟩
    · exact .inl ⟨_, _, i, hand (heq ▸ hi), rfl⟩
    · rw [heq, List.mem_singleton] at hi
      exact .inr (.inl ⟨x, e, hx, he, hp, by rw [hi]⟩)
    · exact .inr (.inr (proxied he hq (hall i hi)))
    · rw [heq, List.mem_cons, List.mem_append] at hi
      rcases hi with rfl | hi | hi
      · exact .inl ⟨_, _, j, hand (hold ▸ List.mem_cons_self), rfl⟩
      · exact .inl ⟨_, _, i, hand (hold ▸ List.mem_cons_of_mem _ hi), rfl⟩
      · exact .inr (.inr (proxied he hq (hall i hi)))
  · exact .inl ⟨t, σ, i, List.mem_append_right _ (hth ▸ hi), rfl⟩

include h in
/-- Nothing in line is for the peer of an end that is home. -/
theorem act_home (hh : (s.apply n o).Home a) (k : Identifier) (σ : ThreadId)
    {i : Address × List Address} (hi : i ∈ (s.apply n o).line k t σ) : i.1 ≠ a := by
  have hr := hs.reachable
  rintro rfl
  rcases act_origin hs ha hi with ⟨t', σ', j, hj, heq⟩ | ⟨x, e, hx, he, hp, heq⟩ | ⟨x, hx⟩
  · rcases ha.home hr hh with hold | hfresh
    · exact h.home _ hold k t' σ' j hj heq
    · exact hr.line_drawn hj (heq ▸ hfresh)
  · rw [heq] at hh
    rcases ha.home hr hh with hold | hfresh
    · exact (hs.carrier_away hx he hp).1 hold
    · exact hr.sound.peer_registered he (hr.sound.fresh _ hfresh _)
  · have hs' := ha.sound hr
    obtain ⟨y, hy⟩ := hs'.peer_of_home hh
    exact hs'.ports.links.not_peer hs'.ports.names hx y hy

include h in
/-- What stands in line behind an end is not for its peer. -/
theorem act_ordered (hok : OneAtATime s (.of n τ c)) (k : Identifier) (σ : ThreadId) :
    ((s.apply n o).line k t σ).Pairwise fun i j => j.1 ∉ i.2 := by
  have hr := hs.reachable
  by_cases hk : k = n
  swap
  · rw [Network.line_other hk]
    exact h.ordered k t σ
  subst hk
  have htidy := hr.sound.tidy.threads k τ
  by_cases hw : ∃ t' m, o.written = some (t', .userMessage m)
  · obtain ⟨t', m, hw⟩ := hw
    obtain ⟨t'', hc, hl, hitems⟩ := ha.move.item_written htidy hw
    obtain rfl := hr.sound.channel_eq hl hc
    have hold := h.ordered k t τ
    rw [Network.line, hitems] at hold
    rw [Network.line, Network.items_written s k hw]
    by_cases hσ : σ = τ
    · subst hσ
      simp only [Network.apply_process, upd₁_apply, if_true]
      split_ifs
      · simpa using hold
      · rw [List.append_nil]
        exact hold.sublist (List.Sublist.append_left (List.sublist_cons_self _ _) _)
    · simp only [Network.apply_process, upd₁_apply, if_true]
      rw [ha.move.thread_other hσ, ha.alone hs.lone hok hσ]
      have hidle : Thread.items .idle = [] := rfl
      rw [hidle, List.append_nil]
      split_ifs
      · exact hold.sublist (List.Sublist.append_left (List.Sublist.cons_cons _ (List.nil_sublist _)) _)
      · rw [List.append_nil]
        exact hold.sublist (List.sublist_append_left _ _)
  · have hw : ∀ t' m, o.written ≠ some (t', .userMessage m) := fun t' m hw' => hw ⟨t', m, hw'⟩
    by_cases hσ : σ = τ
    swap
    · have hsame : (s.apply k o).line k t σ = s.line k t σ := by
        simp only [Network.line, Network.items_unwritten s k hw, Network.apply_process, upd₁_apply,
          if_true, ha.move.thread_other hσ]
      rw [hsame]
      exact h.ordered k t σ
    subst hσ
    have hs' := ha.sound hr
    have hnew := Network.items_unwritten s k hw t
    have hold := h.ordered k t σ
    -- Nobody's peer is where a link leads.
    have apart : ∀ {i : Address × List Address} {x b}, i ∈ (s.apply k o).line k t σ →
        (s.apply k o).ports.Next x b → b ∉ i.2 := by
      intro i x b hi hx hb
      obtain ⟨y, hy⟩ := hs'.peer_of_line hi hb
      exact hs'.ports.links.not_peer hs'.ports.names hx y hy
    have proxied : ∀ {x e}, o.process.localEndpoints.find x = some e →
        e.state = .kUnboundAndProxying → (s.apply k o).ports.Next ⟨k, x⟩ e.proxyTarget := by
      intro x e he hq
      refine Network.link_iff.1 (.proxy (e := e) ?_ hq)
      simpa [Network.endpointAt] using he
    have hline : (s.apply k o).line k t σ =
        (s.wire k t).flatMap (·.items t) ++ (o.process.thread σ).items := by
      rw [Network.line, hnew, Network.apply_process, upd₁_apply, if_pos rfl]
    rw [Network.line] at hold
    rcases ha.move.items ha.idle htidy with ⟨ch, m, hw'⟩ | heq | ⟨hnil, x, e, hx, he, hp, heq⟩ |
      ⟨hnil, x, e, he, hq, hall⟩ | ⟨j, rest, b, new, x, e, hitems, heq, he, hq, hall⟩
    · exact absurd hw' (hw ch m)
    · rw [hline, heq]
      exact hold
    · rw [hnil, List.append_nil] at hold
      rw [hline, heq, List.pairwise_append]
      refine ⟨hold, List.pairwise_singleton _ _, fun i hi j hj => ?_⟩
      rw [List.mem_singleton.1 hj]
      exact (hs.carrier_away hx he hp).2 t σ i (List.mem_append_left _ hi)
    · rw [hnil, List.append_nil] at hold
      rw [hline, List.pairwise_append]
      refine ⟨hold, ?_, fun i hi j hj => ?_⟩
      · refine List.pairwise_of_forall_mem_list fun i hi j hj => ?_
        rw [hall i hi]
        exact List.not_mem_nil
      · rw [hall j hj]
        exact apart (hline ▸ List.mem_append_left _ hi) (proxied he hq)
    · rw [hitems, List.pairwise_append, List.pairwise_cons] at hold
      obtain ⟨hwire, ⟨-, hrest⟩, hacross⟩ := hold
      have hmem : ∀ i, i ∈ (s.wire k t).flatMap (·.items t) ++ (j.1, j.2 ++ [b]) :: (rest ++ new) →
          i ∈ (s.apply k o).line k t σ := by
        rw [hline, heq]
        exact fun _ hi => hi
      have hlater : ∀ i ∈ rest, ∃ y, (s.apply k o).ports.Next ⟨k, y⟩ i.1 := by
        intro i hi
        obtain ⟨y, hy⟩ := h.later k σ i (by rwa [hitems])
        exact ⟨y, ha.next hr hy⟩
      rw [hline, heq, List.pairwise_append, List.pairwise_cons, List.pairwise_append]
      refine ⟨hwire, ⟨fun i hi => ?_, hrest, ?_, fun i hi l hl => ?_⟩, fun i hi l hl => ?_⟩
      · have hfirst := hmem (j.1, j.2 ++ [b]) (List.mem_append_right _ List.mem_cons_self)
        rcases List.mem_append.1 hi with hi | hi
        · obtain ⟨y, hy⟩ := hlater i hi
          exact apart hfirst hy
        · rw [hall i hi]
          exact apart hfirst (proxied he hq)
      · refine List.pairwise_of_forall_mem_list fun i hi l hl => ?_
        rw [hall i hi]
        exact List.not_mem_nil
      · rw [hall l hl]
        exact apart (hmem i (by simp [hi])) (proxied he hq)
      · rw [List.mem_cons, List.mem_append] at hl
        rcases hl with rfl | hl | hl
        · exact hacross i hi j List.mem_cons_self
        · exact hacross i hi l (List.mem_cons_of_mem _ hl)
        · rw [hall l hl]
          exact apart (hmem i (List.mem_append_left _ hi)) (proxied he hq)

end Trailing

/-! ### One receipt -/

variable {channel : Channel} {m : ChannelMessage} {rest : List ChannelMessage}

/-- A receipt takes what stands first in one line. -/
theorem Receipt.line (hc : Receipt T s n channel m rest) (k t : Identifier) (σ : ThreadId) :
    s.line k t σ = (if k = channel ∧ t = n then m.items n else []) ++
      (s.consume n channel m rest).line k t σ := by
  have hitems : (((s.consume n channel m rest).process k).thread σ).items =
      ((s.process k).thread σ).items := by
    rcases Receipt.thread_consume s n channel m rest k σ with ⟨rfl, rfl, hth⟩ | hth
    · rw [hth, hc.idle]
      cases m <;> rfl
    · rw [hth]
  rw [Network.line, Network.line, hitems, Network.consume_wire, upd_apply]
  split_ifs with hk
  · obtain ⟨rfl, rfl⟩ := hk
    rw [hc.head, List.flatMap_cons, List.append_assoc]
  · rfl

theorem Receipt.next (hc : Receipt T s n channel m rest) (hr : Reachable T s) {a b : Address}
    (hab : s.ports.Next a b) : (s.consume n channel m rest).ports.Next a b :=
  hr.sound.ports.next_later (.single hc.effects) hab

/-- An end that comes home was the first in line. -/
theorem Receipt.home (hc : Receipt T s n channel m rest) (hr : Reachable T s)
    (hh : (s.consume n channel m rest).Home a) :
    s.Home a ∨ a.nodeName = n ∧ ∃ i ∈ m.items n, a ∈ i.2 := by
  rcases hh with ⟨x, hx, hn, hlast⟩ | ⟨σ, d, hd, rfl⟩
  · refine .inl (.inl ⟨x, ?_, hn, fun b hb => hlast b (hc.next hr hb)⟩)
    simpa [Ports.peer, Network.port_consume] using hx
  · simp only [Network.ports_tokens, Network.tokens] at hd
    rcases Receipt.thread_consume s n channel m rest d.peerAddress.nodeName σ with
      ⟨hn, rfl, hth⟩ | hth
    · rw [hth] at hd
      refine .inr ⟨hn, ?_⟩
      cases m with
      | sendInvitation | acceptInvitation => simp [Process.onReceivedMessage, Thread.tokens] at hd
      | userMessage m =>
        simp only [Process.onReceivedMessage, Thread.tokens, List.mem_map, Token.crossing.injEq] at hd
        obtain ⟨d', hd', -, rfl⟩ := hd
        exact ⟨_, List.mem_singleton_self _, List.mem_map_of_mem hd'⟩
    · rw [hth] at hd
      exact .inl (.inr ⟨σ, d, hd, rfl⟩)

theorem Trailing.receipt
    (hT : ∀ a ∈ T.nodes, ∀ b ∈ T.nodes, ∀ k ∈ T.nodes, a = b ∨ a = k ∨ b = k)
    (h : Trailing s) (hr : Reachable T s) (hc : Receipt T s n channel m rest) :
    Trailing (s.consume n channel m rest) := by
  have hmem : ∀ {k t σ i}, i ∈ (s.consume n channel m rest).line k t σ → i ∈ s.line k t σ := by
    intro k t σ i hi
    rw [hc.line]
    exact List.mem_append_right _ hi
  refine ⟨fun k σ i hi => ?_, fun k t σ => ?_, fun a hh k t σ i hi heq => ?_⟩
  · rcases Receipt.thread_consume s n channel m rest k σ with ⟨rfl, rfl, hth⟩ | hth
    · rw [hth] at hi
      cases m <;> cases hi
    · rw [hth] at hi
      obtain ⟨x, hx⟩ := h.later k σ i hi
      exact ⟨x, hc.next hr hx⟩
  · have hold := h.ordered k t σ
    rw [hc.line] at hold
    exact (List.pairwise_append.1 hold).2.1
  · rcases hc.home hr hh with hold | ⟨hn, j, hj, ha⟩
    · exact h.home a hold k t σ i (hmem hi) heq
    · have hl := hr.line_linked (hmem hi)
      rw [heq, hn] at hl
      have hch : Linked T channel n := by
        cases m with
        | sendInvitation | acceptInvitation => cases hj
        | userMessage m =>
          exact hr.sound.handshake.wires channel n (.userMessage m) (by simp [hc.head])
      have hk : k = channel := by
        rcases hT k hl.symm.node channel hch.symm.node n hl.node with h1 | h1 | h1
        · exact h1
        · exact absurd h1.symm hl.ne
        · exact absurd h1.symm hch.ne
      subst hk
      -- Whatever goes to node `n` stands in the line that the end comes from.
      have hi' : i ∈ (s.consume n k m rest).line k n σ := by
        rcases List.mem_append.1 hi with hwire | hhand
        · obtain ⟨M, hM, hi⟩ := List.mem_flatMap.1 hwire
          have ht : t = n := by
            cases M with
            | sendInvitation | acceptInvitation => cases hi
            | userMessage m' =>
              obtain rfl := List.mem_singleton.1 hi
              rw [← hn, ← heq]
              rfl
          rw [ht] at hwire
          exact List.mem_append_left _ hwire
        · exact List.mem_append_right _ hhand
      have hold := h.ordered k n σ
      rw [hc.line, if_pos ⟨rfl, rfl⟩, List.pairwise_append] at hold
      exact hold.2.2 j hj i hi' (heq ▸ ha)

/-- In two nodes that do one thing at a time, what was sent over an end is ahead of it. -/
theorem ReachableBy.trailing
    (hT : ∀ a ∈ T.nodes, ∀ b ∈ T.nodes, ∀ k ∈ T.nodes, a = b ∨ a = k ∨ b = k)
    (hs : ReachableBy T OneAtATime s) : Trailing s := by
  refine hs.induct ⟨?_, ?_, ?_⟩ (fun s n τ c o hs h ha hok => ?_)
    fun s n ch m rest hs h hc hok => h.receipt hT hs.reachable hc
  · intro n τ i hi
    cases hi
  · intro n t τ
    exact List.Pairwise.nil
  · intro a ha n t τ i hi
    cases hi
  · exact ⟨fun k σ i hi => h.act_later hs ha k σ hi, fun k t σ => h.act_ordered hs ha hok k σ,
      fun a hh k t σ i hi => h.act_home hs ha hh k σ hi⟩

end

end Mage
