import Mage.Safety.Trailing

/-! A pipe is a queue. What was sent over either end is with the other end, or on its way there, in the
    order in which it was sent: in two nodes that do one thing at a time, through every invitation and
    however often the two ends are sent back and forth. -/

namespace Mage
open Lib Relation

namespace Process.Move
variable {T : Topology} {n : Identifier} {p : Process} {τ : ThreadId} {supply : List Identifier}
  {c : Option Call} {o : Outcome}

/-- What is written was sent before. -/
theorem sent_written (h : p.Move τ supply c o) {k : Channel} {m : Message}
    (hw : o.written = some (k, .userMessage m)) : o.sent = none := by
  cases h with
  | write | writeForwarded => rfl
  | _ => cases hw

/-- A thread that writes no message gets a letter for the peer in another node to whom something is
    sent, or letters for the target of a proxy, and what is sent otherwise is for its own node. -/
theorem lines_up (h : p.Move τ supply c o) (hi : c.isSome → p.thread τ = .idle)
    (ht : (p.thread τ).Tidy T n p) (hw : ∀ k m, o.written ≠ some (k, .userMessage m)) :
    (∃ x e l, p.localEndpoints.find x = some e ∧
      p.localEndpoints.find e.peerAddress.endpointName = none ∧ (p.thread τ).letters = [] ∧
      (o.process.thread τ).letters = [(e.peerAddress, l)] ∧ o.sent = some (e.peerAddress, l)) ∨
    ∃ new, (o.process.thread τ).letters = (p.thread τ).letters ++ new ∧
      (∀ i ∈ new, ∃ x e, o.process.localEndpoints.find x = some e ∧
        e.state = .kUnboundAndProxying ∧ i.1 = e.proxyTarget) ∧
      ∀ a l, o.sent = some (a, l) → ∃ x e, p.localEndpoints.find x = some e ∧
        a = e.peerAddress ∧ p.localEndpoints.find e.peerAddress.endpointName ≠ none := by
  have same (hl : (o.process.thread τ).letters = (p.thread τ).letters) (hs : o.sent = none) :
      ∃ new, (o.process.thread τ).letters = (p.thread τ).letters ++ new ∧
        (∀ i ∈ new, ∃ x e, o.process.localEndpoints.find x = some e ∧
          e.state = .kUnboundAndProxying ∧ i.1 = e.proxyTarget) ∧
        ∀ a l, o.sent = some (a, l) → ∃ x e, p.localEndpoints.find x = some e ∧
          a = e.peerAddress ∧ p.localEndpoints.find e.peerAddress.endpointName ≠ none :=
    ⟨[], by rw [hl, List.append_nil], fun i hi => (by cases hi), fun a l hl => by simp [hs] at hl⟩
  cases h with
  | write | writeForwarded => exact absurd rfl (hw _ _)
  | createMessagePipes | bindReceiver | acceptInvitation => exact .inr (same rfl rfl)
  | sendMessage | sendInvitation =>
    exact .inr (same (by simp [hi, Thread.letters]) rfl)
  | @routeRemote x m e channel ht he hp =>
    refine .inl ⟨x, e, m.payload, he, hp, by simp [ht, Thread.letters], ?_, rfl⟩
    simp [Thread.letters, Message.letter]
  | @routeLocal x m e peer ht he hp =>
    refine .inr ⟨[], by simp [ht, Thread.letters], fun i hi => (by cases hi), fun a l hl => ?_⟩
    cases hl
    exact ⟨x, e, he, rfl, by simp [hp]⟩
  | @deliverToProxy x m e ht he _ hq =>
    refine .inr ⟨[(e.proxyTarget, m.payload)], by simp [ht, Thread.letters, Message.letter],
      fun i hi => ?_, fun a l hl => (by cases hl)⟩
    exact ⟨x, e, he, hq, by rw [List.mem_singleton.1 hi]⟩
  | @relay x m done e ht he hq =>
    refine .inr ⟨[(e.proxyTarget, m.payload)], by simp [ht, Thread.letters, Message.letter],
      fun i hi => ?_, fun a l hl => (by cases hl)⟩
    exact ⟨x, e, he, hq, by rw [List.mem_singleton.1 hi]⟩
  | @take b m done ds d e ht he =>
    refine .inr ⟨e.incomingMessageQueue.map fun m =>
      (⟨b.targetNodeName, d.crossNodeEndpointName⟩, m.payload), ?_, fun i hi => ?_,
      fun a l hl => (by cases hl)⟩
    · simp [ht, Thread.letters, Message.letter, Function.comp_def]
    · obtain ⟨m', -, rfl⟩ := List.mem_map.1 hi
      exact ⟨d.endpointName, _, if_pos rfl, rfl, rfl⟩
  | @drain r k e h1 he =>
    rw [h1] at ht
    obtain ⟨e', he', hq⟩ := ht
    rw [he, Option.some.injEq] at he'
    subst he'
    refine .inr ⟨e.incomingMessageQueue.map fun m => (e.proxyTarget, m.payload), ?_,
      fun i hi => ?_, fun a l hl => (by cases hl)⟩
    · simp [h1, Thread.letters, Message.letter, Function.comp_def]
    · obtain ⟨m', -, rfl⟩ := List.mem_map.1 hi
      exact ⟨r, _, if_pos rfl, hq, rfl⟩
  | _ => exact .inr (same (by simp_all [Thread.letters]) rfl)

end Process.Move

section
variable {T : Topology} {s : Network} {n : Identifier} {τ : ThreadId} {c : Option Call} {o : Outcome}
  {a : Address} {b : Identifier}

theorem Network.sent_apply (s : Network) (n : Identifier) (o : Outcome) (a : Address) :
    (s.apply n o).sent a = s.sent a ++ lane a o.sent.toList := by
  cases h : o.sent with
  | none => simp [apply, h]
  | some l =>
    obtain ⟨p, l⟩ := l
    simp only [apply, h, upd₁_apply, Option.toList, lane_cons, lane_nil]
    split_ifs with h1 h2 h2
    · rw [h1]
    · exact absurd h1.symm h2
    · exact absurd h2.symm h1
    · rw [List.append_nil]

/-- What is sent to `a` from another node than that of `a` lines up behind what goes there. -/
theorem Act.lines_up (ha : Act T s n τ c o) (hr : Reachable T s) (hn : n ≠ a.nodeName)
    (hlast : ∀ y, ¬ (s.apply n o).ports.Next y a) :
    ∃ new, (s.apply n o).sent a = s.sent a ++ new ∧
      (s.apply n o).crossing n a ++ (s.apply n o).box n a τ = s.crossing n a ++ s.box n a τ ++ new := by
  have htidy := hr.sound.tidy.threads n τ
  -- It is the same to count what was written, as nothing is read.
  suffices h : ∃ new, (s.apply n o).sent a = s.sent a ++ new ∧
      (s.apply n o).written n a ++ (s.apply n o).box n a τ = s.written n a ++ s.box n a τ ++ new by
    obtain ⟨new, hsent, heq⟩ := h
    have hopened : (s.apply n o).opened n a = s.opened n a := rfl
    rw [Network.written_eq, Network.written_eq, hopened] at heq
    refine ⟨new, hsent, ?_⟩
    simp only [List.append_assoc] at heq ⊢
    exact List.append_cancel_left heq
  rw [Network.sent_apply, Network.box_apply, Network.box]
  by_cases hw : ∃ k m, o.written = some (k, .userMessage m)
  · obtain ⟨k, m, hw⟩ := hw
    obtain ⟨t, hc, hl, hletters⟩ := ha.move.letter_written htidy hw
    obtain rfl := hr.sound.channel_eq hl hc
    refine ⟨[], by simp [ha.move.sent_written hw], ?_⟩
    rw [Network.written_apply_some a hw, hletters,
      lane_cons_append (l := (o.process.thread τ).letters), List.append_assoc, List.append_nil]
  · have hw : ∀ k m, o.written ≠ some (k, .userMessage m) := fun k m hw' => hw ⟨k, m, hw'⟩
    rw [Network.written_apply_none a hw]
    rcases ha.move.lines_up ha.idle htidy hw with ⟨x, e, l, -, -, hnil, hnew, hs⟩ |
      ⟨new, hnew, htarget, hs⟩
    · refine ⟨lane a [(e.peerAddress, l)], by simp [hs], ?_⟩
      rw [hnil, hnew, lane_nil, List.append_nil]
    · have hsent : lane a o.sent.toList = [] := lane_eq_nil.2 fun l hl heq => by
        obtain ⟨p, l⟩ := l
        obtain ⟨x, e, he, rfl, hreg⟩ := hs p l (Option.mem_toList.1 hl)
        rcases hr.peer_local he with ⟨hk, -, -⟩ | ⟨-, hnone⟩
        · exact hn (heq ▸ hk.symm)
        · exact hreg hnone
      have htarget : lane a new = [] := lane_eq_nil.2 fun i hi heq => by
        obtain ⟨x, e, he, hq, hi⟩ := htarget i hi
        refine hlast ⟨n, x⟩ (Network.link_iff.1 ?_)
        rw [← heq, hi]
        refine .proxy (e := e) ?_ hq
        simpa [Network.endpointAt] using he
      refine ⟨[], by rw [hsent], ?_⟩
      rw [hnew, lane_append, htarget, List.append_nil, List.append_nil]

/-! ### Between the two ends -/

/-- `l` is on its way to `a`, or was taken up for it: in hand in its node, in the channel from node `b`,
    with a thread there. Nothing else is under way. -/
def Network.Approach (s : Network) (b : Identifier) (a : Address) (l : List Payload) : Prop :=
  ∃ τ σ, (∀ ρ, ρ ≠ τ → (s.process a.nodeName).thread ρ = .idle) ∧
    (∀ ρ, ρ ≠ σ → (s.process b).thread ρ = .idle) ∧
    l = s.brought a τ ++ s.crossing b a ++ s.box b a σ

/-- If one thread only is under way, it does not matter which one is said to be. -/
theorem Network.thread_sole {σ : ThreadId} (hτ : ∀ ρ, ρ ≠ τ → (s.process n).thread ρ = .idle)
    (hσ : ∀ ρ, ρ ≠ σ → (s.process n).thread ρ = .idle) :
    (s.process n).thread τ = (s.process n).thread σ := by
  by_cases h : τ = σ
  · rw [h]
  · rw [hσ τ h, hτ σ (Ne.symm h)]

/-- When an end is home, nothing is on its way to its peer from elsewhere. -/
theorem Trailing.clear (h : Trailing s) (hh : s.Home a) (b : Identifier) (σ : ThreadId) :
    s.crossing b a = [] ∧ s.box b a σ = [] := by
  have none : ∀ l ∈ (s.wire b a.nodeName).flatMap (·.letters a.nodeName) ++
      ((s.process b).thread σ).letters, l.1 ≠ a := by
    intro l hl
    have hfst : l.1 ∈ (s.line b a.nodeName σ).map Prod.fst := by
      rw [Network.line, List.map_append, Thread.items_letters, List.map_flatMap]
      simp only [ChannelMessage.items_letters]
      rw [← List.map_flatMap, ← List.map_append]
      exact List.mem_map_of_mem hl
    obtain ⟨i, hi, heq⟩ := List.mem_map.1 hfst
    rw [← heq]
    exact h.home a hh b a.nodeName σ i hi
  exact ⟨lane_eq_nil.2 fun l hl => none l (List.mem_append_left _ hl),
    lane_eq_nil.2 fun l hl => none l (List.mem_append_right _ hl)⟩

theorem Act.approach (ha : Act T s n τ c o) (hs : ReachableBy T OneAtATime s) (ht : Trailing s)
    (hok : OneAtATime s (.of n τ c)) (hb : b ≠ a.nodeName) (hn : n = a.nodeName ∨ n = b)
    (hlast : ∀ y, ¬ (s.apply n o).ports.Next y a) {l : List Payload} (hl : s.Approach b a l)
    (hsent : s.sent a = s.arrived a ++ l) :
    ∃ l', (s.apply n o).Approach b a l' ∧
      (s.apply n o).sent a = (s.apply n o).arrived a ++ l' := by
  have hr := hs.reachable
  obtain ⟨τ₀, σ₀, hτ, hσ, rfl⟩ := hl
  have hidle : ∀ ρ, ρ ≠ τ → ((s.apply n o).process n).thread ρ = .idle := by
    intro ρ hρ
    rw [Network.apply_process, upd₁_apply, if_pos rfl, ha.move.thread_other hρ]
    exact ha.alone hs.lone hok hρ
  have hother : ∀ k, k ≠ n → (s.apply n o).process k = s.process k := by
    intro k hk
    rw [Network.apply_process, upd₁_apply, if_neg hk]
  rcases hn with rfl | rfl
  · have hsole : s.brought a τ₀ = s.brought a τ := by
      rw [Network.brought, Network.brought,
        Network.thread_sole hτ fun ρ hρ => ha.alone hs.lone hok hρ]
    have hcross : (s.apply a.nodeName o).crossing b a = s.crossing b a := by
      have hwire : (s.apply a.nodeName o).wire b a.nodeName = s.wire b a.nodeName := by
        cases hw : o.written with
        | none => rw [Network.apply_wire_none s _ hw]
        | some w => rw [Network.apply_wire_some s _ hw, upd_apply, if_neg fun h => hb h.1]
      rw [Network.crossing, hwire, Network.crossing]
    have hbox : (s.apply a.nodeName o).box b a σ₀ = s.box b a σ₀ := by
      rw [Network.box, hother b hb, Network.box]
    refine ⟨_, ⟨τ, σ₀, hidle, by rwa [hother b hb], rfl⟩, ?_⟩
    rw [hcross, hbox, Network.sent_apply, hsent, hsole]
    rcases ha.brought hr rfl with ⟨heq, hnone⟩ | ⟨m, e, y, hth, he, hpeer, hnil, harr, hnew, hs'⟩
    · have hnil : lane a o.sent.toList = [] := lane_eq_nil.2 fun l hl heq => by
        obtain ⟨p, l⟩ := l
        obtain rfl : p = a := heq
        exact hnone l (Option.mem_toList.1 hl)
      rw [hnil, List.append_nil, ← List.append_assoc, ← List.append_assoc, ← heq]
      simp only [List.append_assoc]
    · -- The sender has the other end of the pipe, which is in the node of its peer.
      have hhome : s.Home a := by
        refine .inl ⟨⟨a.nodeName, y⟩, Network.peer_eq_some.2 ⟨e, he, hpeer⟩, rfl, fun z => ?_⟩
        exact hs.carrier_unlinked (τ := τ) (by rw [hth]; rfl) z
      obtain ⟨hc, hbx⟩ := ht.clear hhome b σ₀
      rw [hnil, harr, hnew, hs', hc, hbx]
      simp [lane_cons]
  · have hsole : s.box n a σ₀ = s.box n a τ := by
      rw [Network.box, Network.box, Network.thread_sole hσ fun ρ hρ => ha.alone hs.lone hok hρ]
    obtain ⟨new, hnew, heq⟩ := ha.lines_up hr hb hlast
    refine ⟨_, ⟨τ₀, τ, by rwa [hother _ hb.symm], hidle, rfl⟩, ?_⟩
    have hbrought : (s.apply n o).brought a τ₀ = s.brought a τ₀ :=
      ha.brought_other fun h => absurd h.symm hb
    rw [hnew, hsent, hsole, Network.arrived_other s o hb.symm, hbrought, List.append_assoc,
      List.append_assoc _ _ ((s.apply n o).box n a τ), heq]
    simp only [List.append_assoc]

theorem Receipt.approach {channel : Channel} {m : ChannelMessage} {rest : List ChannelMessage}
    (hc : Receipt T s n channel m rest) (hr : Reachable T s)
    (hok : OneAtATime s (.read n channel)) (hb : b ≠ a.nodeName)
    (hT : ∀ k ∈ T.nodes, k = a.nodeName ∨ k = b) (hn : n = a.nodeName ∨ n = b)
    {l : List Payload} (hl : s.Approach b a l) (hsent : s.sent a = s.arrived a ++ l) :
    ∃ l', (s.consume n channel m rest).Approach b a l' ∧
      (s.consume n channel m rest).sent a = (s.consume n channel m rest).arrived a ++ l' := by
  obtain ⟨τ₀, σ₀, hτ, hσ, rfl⟩ := hl
  have hidle : ∀ ρ, ρ ≠ .io → ((s.consume n channel m rest).process n).thread ρ = .idle := by
    intro ρ hρ
    rw [Network.consume_process, upd₁_apply, if_pos rfl, Process.goto_thread, upd₁_apply, if_neg hρ]
    exact hok ρ
  have hother : ∀ k, k ≠ n → (s.consume n channel m rest).process k = s.process k := by
    intro k hk
    rw [Network.consume_process, upd₁_apply, if_neg hk]
  have hsame : (s.consume n channel m rest).sent a = s.sent a := rfl
  rw [hsame, hsent, Network.arrived_consume]
  rcases hn with rfl | rfl
  · have hbrought : s.brought a τ₀ = [] := by
      rw [Network.brought, hok τ₀]
      rfl
    obtain ⟨-, hnew⟩ := hc.brought rfl
    have hcross : s.crossing b a = lane a (m.letters a.nodeName) ++
        (s.consume a.nodeName channel m rest).crossing b a := by
      rw [Network.crossing, Network.crossing, Network.consume_wire, upd_apply]
      split_ifs with hch
      · rw [hch.1, hc.head, List.flatMap_cons, lane_append]
      · cases m with
        | sendInvitation | acceptInvitation => rfl
        | userMessage m =>
          have hl : Linked T channel a.nodeName :=
            hr.sound.handshake.wires channel a.nodeName (.userMessage m) (by simp [hc.head])
          rcases hT channel hl.symm.node with rfl | rfl
          · exact absurd rfl hl.ne
          · exact absurd ⟨rfl, rfl⟩ hch
    have hbox : (s.consume a.nodeName channel m rest).box b a σ₀ = s.box b a σ₀ := by
      rw [Network.box, hother b hb, Network.box]
    refine ⟨_, ⟨.io, σ₀, hidle, by rwa [hother b hb], rfl⟩, ?_⟩
    rw [hbrought, hcross, hnew, hbox, List.nil_append]
  · have hold : s.box n a σ₀ = [] := by
      rw [Network.box, hok σ₀]
      rfl
    have hnew : (s.consume n channel m rest).box n a .io = [] := by
      rw [Network.box, Network.consume_process, upd₁_apply, if_pos rfl, Process.goto_thread,
        upd₁_apply, if_pos rfl]
      cases m <;> rfl
    have hcross : (s.consume n channel m rest).crossing n a = s.crossing n a := by
      rw [Network.crossing, Network.consume_wire, upd_apply, if_neg fun h => hb h.2.symm,
        Network.crossing]
    have hbrought : (s.consume n channel m rest).brought a τ₀ = s.brought a τ₀ := by
      rw [Network.brought, hother _ hb.symm, Network.brought]
    exact ⟨_, ⟨τ₀, .io, by rwa [hother _ hb.symm], hidle, rfl⟩,
      by rw [hold, hnew, hcross, hbrought]⟩

theorem Topology.two_of_pair {i j : Identifier} (hT : ∀ k ∈ T.nodes, k = i ∨ k = j) :
    ∀ x ∈ T.nodes, ∀ y ∈ T.nodes, ∀ k ∈ T.nodes, x = y ∨ x = k ∨ y = k := by
  intro x hx y hy k hk
  rcases hT x hx with rfl | rfl <;> rcases hT y hy with rfl | rfl <;>
    rcases hT k hk with rfl | rfl <;> simp

/-- What was sent to an address has arrived there or is on its way. -/
theorem ReachableBy.approach (hs : ReachableBy T OneAtATime s) (hb : b ≠ a.nodeName)
    (hT : ∀ k ∈ T.nodes, k = a.nodeName ∨ k = b) (hlast : ∀ y, ¬ s.ports.Next y a) :
    ∃ l, s.Approach b a l ∧ s.sent a = s.arrived a ++ l := by
  refine hs.induct (P := fun s => (∀ y, ¬ s.ports.Next y a) →
    ∃ l, s.Approach b a l ∧ s.sent a = s.arrived a ++ l) (fun _ => ?_)
    (fun s n τ c o hr hs ha hok hlast => ?_) (fun s n ch m rest hr hs hc hok hlast => ?_) hlast
  · exact ⟨_, ⟨.io, .io, fun _ _ => rfl, fun _ _ => rfl, rfl⟩, rfl⟩
  · obtain ⟨l, hl, hsent⟩ := hs fun y hy => hlast y (ha.next hr.reachable hy)
    have htrailing := hr.trailing (Topology.two_of_pair hT)
    exact ha.approach hr htrailing hok hb (hT n ha.node) hlast hl hsent
  · obtain ⟨l, hl, hsent⟩ := hs fun y hy => hlast y (hc.next hr.reachable hy)
    exact hc.approach hr.reachable hok hb hT (hT n hc.node) hl hsent

/-- When nothing is under way and every channel is empty, nothing is on its way. -/
theorem Network.Approach.at_rest (hq : Quiescent s) (hw : ∀ n t, s.wire n t = [])
    {l : List Payload} (hl : s.Approach b a l) : l = [] := by
  obtain ⟨τ, σ, -, -, rfl⟩ := hl
  rw [Network.brought, hq, Network.crossing, hw, Network.box, hq]
  rfl

/-- No link leads to the address where an end of a pipe was made. -/
theorem Reachable.peer_unlinked (hr : Reachable T s) {x : Address} (ha : s.PeerOf x a) (y : Address) :
    ¬ s.ports.Next y a := by
  intro hy
  obtain ⟨z, hz⟩ : ∃ z, s.ports.peer z = some a := by
    cases Network.peerOf_iff.1 ha with
    | port hx => exact ⟨x, hx⟩
    | crossing hd => exact hr.sound.peer_of_crossing hd
  exact hr.sound.ports.links.not_peer hr.sound.ports.names hy z hz

/-- What was sent over the end `x` of a pipe is with the other end or on its way there. -/
theorem ReachableBy.conveyed (hs : ReachableBy T OneAtATime s) {x e : Address} (hb : b ≠ a.nodeName)
    (hT : ∀ k ∈ T.nodes, k = a.nodeName ∨ k = b) (ha : s.PeerOf x a) (he : Ends s.Link a e) :
    ∃ l l', s.Journey a e l ∧ s.Approach b a l' ∧ s.sent a = s.stock e ++ l ++ l' := by
  have hturn : ReachableBy T InTurn s := ReachableBy.inTurn hs
  obtain ⟨l, hl, harr⟩ := hturn.journey he
  obtain ⟨l', hl', hsent⟩ := hs.approach hb hT (hs.reachable.peer_unlinked ha)
  rw [harr] at hsent
  exact ⟨l, l', hl, hl', hsent⟩

theorem Reachable.conveyed_at_rest (hs : Reachable T s) {e : Address} {l l' : List Payload}
    (hl : s.Journey a e l) (hl' : s.Approach b a l') (hsent : s.sent a = s.stock e ++ l ++ l')
    (hq : Quiescent s) (hw : ∀ n t, s.wire n t = []) : s.sent a = s.stock e := by
  rw [hsent, hs.journey_at_rest hq hw hl, hl'.at_rest hq hw, List.append_nil, List.append_nil]

end

/-- In two nodes that do one thing at a time, whatever is called and whichever node takes the next
    step: all that was sent over the end `x` of a pipe is, in the order in which it was sent, with the
    endpoint where the other end lives, posted and then queued, or on its way there along the links, or
    on its way to the address where the other end was made. Once nothing is under way and the channels
    are empty, it is all with the other end. -/
theorem pipes_are_queues {T : Topology} {s : Network} (hs : ReachableBy T OneAtATime s)
    {x a e : Address} {b : Identifier} (hb : b ≠ a.nodeName)
    (hT : ∀ k ∈ T.nodes, k = a.nodeName ∨ k = b) (ha : s.PeerOf x a) (he : Ends s.Link a e) :
    ∃ l l', s.Journey a e l ∧ s.Approach b a l' ∧ s.sent a = s.stock e ++ l ++ l' ∧
      (Quiescent s → (∀ n t, s.wire n t = []) → s.sent a = s.stock e) := by
  obtain ⟨l, l', hl, hl', hsent⟩ := hs.conveyed hb hT ha he
  exact ⟨l, l', hl, hl', hsent, hs.reachable.conveyed_at_rest hl hl' hsent⟩

/-- A message that is sent to an end which has moved to the other node is there. -/
theorem moved_end_has_message : ∃ s e l l', ReachableBy Sample.pair OneAtATime s ∧
    s.PeerOf ⟨Sample.inviter, Sample.word 5⟩ ⟨Sample.inviter, Sample.word 4⟩ ∧
    Ends s.Link ⟨Sample.inviter, Sample.word 4⟩ e ∧ e ≠ ⟨Sample.inviter, Sample.word 4⟩ ∧
    s.Journey ⟨Sample.inviter, Sample.word 4⟩ e l ∧
    s.Approach Sample.acceptor ⟨Sample.inviter, Sample.word 4⟩ l' ∧
    (s.stock e ++ l ++ l').length = 1 := by
  obtain ⟨s, hs, hlen, hx, f, hf, hq⟩ := Network.exists_of_follow Sample.pair Orderly Sample.queueing
    (fun s => (s.sent ⟨Sample.inviter, Sample.word 4⟩).length = 1 ∧
      (∃ f ∈ s.endpointAt ⟨Sample.inviter, Sample.word 5⟩,
        f.peerAddress = ⟨Sample.inviter, Sample.word 4⟩) ∧
      ∃ f ∈ s.endpointAt ⟨Sample.inviter, Sample.word 4⟩, f.state = .kUnboundAndProxying)
    (by decide +kernel)
  have hone : ReachableBy Sample.pair OneAtATime s := ReachableBy.oneAtATime hs
  obtain ⟨e, he, -⟩ := hone.reachable.sound.exists_terminal (.here hf)
  have hpeer : s.PeerOf ⟨Sample.inviter, Sample.word 5⟩ ⟨Sample.inviter, Sample.word 4⟩ := by
    obtain ⟨f, hf, heq⟩ := hx
    exact heq ▸ .here hf
  obtain ⟨l, l', hl, hl', hsent, -⟩ := pipes_are_queues hone (b := Sample.acceptor) (by decide)
    (by decide) hpeer he
  refine ⟨s, e, l, l', hone, hpeer, he, ?_, hl, hl', hsent ▸ hlen⟩
  rintro rfl
  exact he.2 _ (.proxy hf hq)

end Mage
