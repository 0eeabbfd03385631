import Mage.Safety.Handles
import Mage.Safety.Queues
import Mage.Safety.Rest

/-! Two nodes at their best. When each does one thing at a time, no message with endpoints is queued on
    arrival and there are handles for all endpoints, nothing can fail but a call that should not have
    been made twice; so whatever is sent over a pipe is with its other end in the end. -/

namespace Mage
open Lib

/-- A node does one thing at a time and queues no message with endpoints on arrival. -/
def Calm (s : Network) (l : Label) : Prop := OneAtATime s l ∧ KeepsHome s l

/-- The call was made before, where once is all there is. -/
def Call.Repeats (p : Process) : Call → Prop
  | .acceptInvitation _ _ => p.hasAcceptedInvitation = true
  | .bindReceiverDelegateToEndpoint h _ _ => ∃ x e, p.findHandle h = some x ∧
      p.localEndpoints.find x = some e ∧ e.state = .kBound
  | _ => False

/-- The states that calm runs of `k` permitted steps without calls lead to. -/
abbrev Network.RunsCalmly (T : Topology) (s : Network) : ℕ → Network → Prop :=
  ReachesIn (fun s l s' => s.step l = .ok s') (fun s l => (Permitted T s l ∧ l.NoCall) ∧ Calm s l) s

/-- Each node does one thing at a time, and still there is nothing to do without a call. -/
def Network.Done (T : Topology) (s : Network) : Prop :=
  ∀ l, Permitted T s l → l.NoCall → OneAtATime s l → ∀ s', s.step l ≠ .ok s'

section
variable {T : Topology} {s : Network} {n : Identifier} {τ : ThreadId}

/-! ### Handles -/

/-- A node has at most as many handles as there are names. -/
theorem Reachable.handles_le (hs : Reachable T s) (n : Identifier) :
    (s.process n).handleTable.length ≤ T.names.length := by
  have hsingle := hs.single n
  have hnames : (s.process n).handled ⊆ T.names := by
    intro x hx
    have hreg := hsingle.registered x (.inl hx)
    exact (hs.sound.ports.names.node ⟨n, x⟩ (Network.port_ne_none.2 hreg)).2
  have hle := (List.subperm_of_subset hsingle.once hnames).length_le
  rwa [Core.handled, List.length_map] at hle

/-- With few names handles do not run out. -/
theorem Reachable.handles_left (hs : Reachable T s) (hfew : T.names.length + 2 < 2 ^ 32)
    (n : Identifier) : ¬ (s.process n).toCore.Exhausted := by
  have hle := hs.handles_le n
  have hroom : (s.process n).Roomy := by
    rw [Core.Roomy]
    omega
  have hhandles := hs.handles n hroom
  rintro (hused | hused)
  · exact hused hhandles.fresh
  · obtain ⟨x, hx⟩ := Option.ne_none_iff_exists'.1 hused
    have hlast := (hhandles.allocated _ (Core.mem_of_lookup hx)).2
    have hcounted := hhandles.counted
    rw [UInt32.toNat_add] at hlast
    simp only [UInt32.toNat_one] at hlast
    omega

/-! ### What can fail -/

theorem ReachableBy.oneAtATime_of_calm (hs : ReachableBy T Calm s) : ReachableBy T OneAtATime s :=
  Reaches.mono (fun _ _ h => ⟨h.1, h.2.1⟩) hs

theorem ReachableBy.keepsHome_of_calm (hs : ReachableBy T Calm s) : ReachableBy T KeepsHome s :=
  Reaches.mono (fun _ _ h => ⟨h.1, h.2.2⟩) hs

/-- No thread under way fails. -/
theorem ReachableBy.run_passes (hs : ReachableBy T Calm s)
    (hT : ∀ a ∈ T.nodes, ∀ b ∈ T.nodes, ∀ k ∈ T.nodes, a = b ∨ a = k ∨ b = k)
    (hfew : T.names.length + 2 < 2 ^ 32) {k : Check} : ¬ s.Aborts (.run n τ) k := by
  have hr : Reachable T s := ReachableBy.reachable hs
  intro habort
  cases habort with
  | invite ht _ hh => exact hr.handles_left hfew n hh
  | recover ht hh => exact hr.handles_left hfew n (.inl hh)
  | @carrier _ _ x y m ys e ht _ he hq =>
    have hport : s.ports.port ⟨n, x⟩ = some e.port := by simp [Network.port, he]
    refine ReachableBy.carrier_unlinked (ReachableBy.oneAtATime_of_calm hs) (n := n) (τ := τ)
      (x := x) (by rw [ht]; rfl) e.proxyTarget ?_
    exact .proxy (p := e.peerAddress) (by rw [hport]; simp [Endpoint.port, Endpoint.status, hq])
  | dependent ht hf =>
    refine (ReachableBy.home (ReachableBy.keepsHome_of_calm hs) n).threads τ _ ?_ hf
    rw [ht]
    exact List.mem_append_left _ List.mem_cons_self
  | @route _ _ x m e ht he hne hc =>
    have hn := hr.busy_node (n := n) (τ := τ) (by rw [ht]; simp)
    exact ((hr.acquainted hT).peers n hn x e he hne).1 hc

end

/-- In two nodes that do one thing at a time, with fewer names than handles and while no message with
    endpoints is queued on arrival, only two things ever fail: to accept an invitation after another
    one, and to bind a receiver to an endpoint that has one. -/
theorem only_repeated_calls_abort {T : Topology} {s : Network} {l : Label} {k : Check}
    (hs : ReachableBy T Calm s)
    (hT : ∀ a ∈ T.nodes, ∀ b ∈ T.nodes, ∀ k ∈ T.nodes, a = b ∨ a = k ∨ b = k)
    (hfew : T.names.length + 2 < 2 ^ 32) (hp : Permitted T s l)
    (hl : s.step l = .error (.check k)) :
    ∃ n τ c, l = .call n τ c ∧ c.Repeats (s.process n) := by
  have hr : Reachable T s := ReachableBy.reachable hs
  cases l with
  | call n τ c =>
    refine ⟨n, τ, c, rfl, ?_⟩
    cases hr.call_aborts hp.2 hl with
    | accept _ ha => exact ha
    | bind _ hx he _ hb => exact ⟨_, _, hx, he, hb⟩
    | create _ _ hh => exact absurd hh (hr.handles_left hfew n)
  | run n τ => exact absurd (hr.run_aborts hl) (ReachableBy.run_passes hs hT hfew)
  | read n ch => rcases Network.step_fault hl with ⟨_, _, _, h, -⟩ | ⟨_, _, h, -⟩ <;> cases h

/-- Orderly runs that keep the rule about messages that arrive are calm. -/
theorem ReachableBy.calm {T : Topology} {s : Network}
    (hs : ReachableBy T (fun s l => Orderly s l ∧ KeepsHome s l) s) :
    ReachableBy T Orderly s ∧ ReachableBy T Calm s := by
  have horder : ∀ {s}, ReachableBy T (fun s l => Orderly s l ∧ KeepsHome s l) s →
      ReachableBy T Orderly s := fun hs => Reaches.mono (fun _ _ hok => ⟨hok.1, hok.2.1⟩) hs
  refine ⟨horder hs, hs.mono_of_reaches fun s l hs hok => ⟨hok.1, ?_, hok.2.2⟩⟩
  exact hok.2.1.oneAtATime (horder hs)

/-- A receiver that is bound to an end of a pipe is bound to it again. -/
theorem second_binding_aborts : ∃ s, ReachableBy Sample.pair Calm s ∧
    s.step (.call Sample.acceptor (.user 0) (.bindReceiverDelegateToEndpoint 1 0 0)) =
      .error (.check .notQueueing) ∧
    ∃ x e, (s.process Sample.acceptor).localEndpoints.find x = some e ∧ e.state = .kBound := by
  obtain ⟨s, hs, hallowed, hstop⟩ := Network.exists_of_follow Sample.pair
    (fun s l => Orderly s l ∧ KeepsHome s l) Sample.bound
    (fun s => Permitted Sample.pair s
        (.call Sample.acceptor (.user 0) (.bindReceiverDelegateToEndpoint 1 0 0)) ∧
      s.stops (.call Sample.acceptor (.user 0) (.bindReceiverDelegateToEndpoint 1 0 0)) =
        some (.check .notQueueing)) (by decide +kernel)
  have hfail := Network.stops_eq_some.1 hstop
  have hcalm := (ReachableBy.calm hs).2
  obtain ⟨n, τ, c, heq, hrep⟩ := only_repeated_calls_abort hcalm (by decide) (by decide) hallowed
    hfail
  cases heq
  obtain ⟨x, e, -, he, hb⟩ := hrep
  exact ⟨s, hcalm, hfail, x, e, he, hb⟩

/-! ### What becomes of a message -/

section
variable {T : Topology} {s : Network} {i j : Identifier}

/-- When there is nothing to do, and both nodes read their socket, everything has been read. -/
theorem ReachableBy.rests (hs : ReachableBy T Calm s) (hT : ∀ k ∈ T.nodes, k = i ∨ k = j)
    (hfew : T.names.length + 2 < 2 ^ 32) (hsup : 2 ≤ s.supply.length) (hdone : s.Done T)
    (hi : j ∈ (s.process i).watchedSockets) (hj : i ∈ (s.process j).watchedSockets) :
    Quiescent s ∧ ∀ n t, s.wire n t = [] := by
  have hr : Reachable T s := ReachableBy.reachable hs
  have hend := hr.ends hsup (fun n hn τ s' => hdone (.run n τ) hn trivial trivial s')
    fun hq n hn ch s' => hdone (.read n ch) hn trivial (fun τ => hq n τ) s'
  rcases hend with ⟨hq, hread⟩ | ⟨n, τ, k, habort⟩
  swap
  · exact absurd habort (ReachableBy.run_passes hs (Topology.two_of_pair hT) hfew)
  refine ⟨hq, fun n t => ?_⟩
  cases hw : s.wire n t with
  | nil => rfl
  | cons m rest =>
    have hl : Linked T n t := by
      have hsound := hr.sound.handshake.wires n t m (by simp [hw])
      cases m with
      | sendInvitation => exact .inl hsound.2.1
      | acceptInvitation => exact .inr hsound.2.1
      | userMessage => exact hsound
    rw [← hw]
    rcases hT n hl.symm.node with rfl | rfl <;> rcases hT t hl.node with rfl | rfl
    · exact absurd rfl hl.ne
    · exact hread _ _ hj
    · exact hread _ _ hi
    · exact absurd rfl hl.ne

end

/-- Two nodes at their best, in any reachable state: without further calls they take no more steps than
    there was work to do, as far as the names go that they draw. And once there is nothing left to do,
    with names left to draw, and both read their socket, all that was ever sent over an end of a pipe is
    with the other end, posted and then queued, in the order in which it was sent, however often the two
    ends were moved. -/
theorem sent_is_delivered {T : Topology} {s : Network} (hs : ReachableBy T Calm s) {i j : Identifier}
    (hij : i ≠ j) (hT : ∀ k ∈ T.nodes, k = i ∨ k = j) (hfew : T.names.length + 2 < 2 ^ 32) :
    ∃ F, s.Within T F ∧ ∀ k s', s.RunsCalmly T k s' → k ≤ s.work T (s'.drawn T) F ∧
      (2 ≤ s'.supply.length → s'.Done T →
        j ∈ (s'.process i).watchedSockets → i ∈ (s'.process j).watchedSockets →
        ∀ x a e, s'.PeerOf x a → Ends s'.Link a e → s'.sent a = s'.stock e) := by
  have hr : Reachable T s := ReachableBy.reachable hs
  obtain ⟨F, hF⟩ := hr.exists_within
  refine ⟨F, hF, fun k s' hrun => ⟨hF.length_le hr (hrun.mono fun _ _ h => h.1), ?_⟩⟩
  intro hsup hdone hi hj x a e ha he
  have hs' : ReachableBy T Calm s' := hrun.reaches hs fun _ _ h => ⟨h.1.1, h.2⟩
  have hr' : Reachable T s' := ReachableBy.reachable hs'
  have hone : ReachableBy T OneAtATime s' := ReachableBy.oneAtATime_of_calm hs'
  obtain ⟨hq, hw⟩ := ReachableBy.rests hs' hT hfew hsup hdone hi hj
  have hnode : a.nodeName ∈ T.nodes := by
    obtain ⟨q, hpeer, -⟩ := hr'.sound.ports.links.mate x a (Network.peerOf_iff.1 ha)
    refine (hr'.sound.ports.names.node a fun hnone => ?_).1
    simp [Ports.peer, hnone] at hpeer
  obtain ⟨b, hb, hTb⟩ : ∃ b, b ≠ a.nodeName ∧ ∀ k ∈ T.nodes, k = a.nodeName ∨ k = b := by
    rcases hT _ hnode with heq | heq
    · exact ⟨j, heq ▸ hij.symm, heq ▸ hT⟩
    · exact ⟨i, heq ▸ hij, fun k hk => heq ▸ (hT k hk).symm⟩
  obtain ⟨l, l', hl, hl', hsent⟩ := hone.conveyed hb hTb ha he
  exact hr'.conveyed_at_rest hl hl' hsent hq hw

/-- One end of a pipe is sent to the other node, and then a message over the one that stayed. -/
theorem message_follows_end : ∃ s e, ReachableBy Sample.pair Calm s ∧ s.Done Sample.pair ∧
    s.PeerOf ⟨Sample.inviter, Sample.word 5⟩ ⟨Sample.inviter, Sample.word 4⟩ ∧
    Ends s.Link ⟨Sample.inviter, Sample.word 4⟩ e ∧ e ≠ ⟨Sample.inviter, Sample.word 4⟩ ∧
    (s.stock e).length = 1 := by
  obtain ⟨s, hs, hsup, hidle, hwire, hi, hj, hlen, ⟨f, hf, hpeer⟩, g, hg, hq⟩ :=
    Network.exists_of_follow Sample.pair (fun s l => Orderly s l ∧ KeepsHome s l)
      (Sample.bound ++ Label.reading Sample.acceptor Sample.inviter 4 ++
        Label.calling Sample.inviter (.user 0) (.sendMessage 4 9 [3] []) 6 ++
        Label.reading Sample.acceptor Sample.inviter 3)
      (fun s => 2 ≤ s.supply.length ∧
        (∀ n ∈ Sample.pair.nodes, ∀ τ ∈ [ThreadId.io, .user 0],
          ((s.process n).thread τ).isIdle ∨ (s.stops (.run n τ)).isSome) ∧
        (∀ n ∈ Sample.pair.nodes, ∀ channel ∈ (s.process n).watchedSockets, s.wire channel n = []) ∧
        Sample.acceptor ∈ (s.process Sample.inviter).watchedSockets ∧
        Sample.inviter ∈ (s.process Sample.acceptor).watchedSockets ∧
        (s.sent ⟨Sample.inviter, Sample.word 4⟩).length = 1 ∧
        (∃ f ∈ s.endpointAt ⟨Sample.inviter, Sample.word 5⟩,
          f.peerAddress = ⟨Sample.inviter, Sample.word 4⟩) ∧
        ∃ f ∈ s.endpointAt ⟨Sample.inviter, Sample.word 4⟩, f.state = .kUnboundAndProxying)
      (by decide +kernel)
  obtain ⟨horder, hcalm⟩ := ReachableBy.calm hs
  have hr : Reachable Sample.pair s := ReachableBy.reachable hcalm
  have hdone : s.Done Sample.pair := fun l hp hl _ s' =>
    ReachableBy.stuck horder hidle hwire hp hl s'
  obtain ⟨e, he, -⟩ := hr.sound.exists_terminal (.here hg)
  have hend : s.PeerOf ⟨Sample.inviter, Sample.word 5⟩ ⟨Sample.inviter, Sample.word 4⟩ :=
    hpeer ▸ .here hf
  obtain ⟨F, -, hF⟩ := sent_is_delivered hcalm (i := Sample.inviter) (j := Sample.acceptor) (by decide)
    (by decide) (by decide)
  have hsent := (hF 0 s .init).2 hsup hdone hi hj _ _ e hend he
  refine ⟨s, e, hcalm, hdone, hend, he, ?_, hsent ▸ hlen⟩
  rintro rfl
  exact he.2 _ (.proxy hg hq)

end Mage
