import Mage.Invariant.Channels
import Mage.Invariant.Tidy

/-! The network refines its ports: every act of a thread, and every receipt, is an effect or two. -/

namespace Mage
open Lib Relation

namespace Network
variable {s : Network} {n : Identifier} {τ : ThreadId} {o : Outcome}

/-- The field behind the tokens of `R`, a place of node `n` other than the hand of `τ`, keeps its
    value. -/
structure Frame (n : Identifier) (p p' : Process) (τ : ThreadId) (R : Place) : Prop where
  threads : ∀ σ, σ ≠ τ → p'.thread σ = p.thread σ
  held : R = .held n → p'.held = p.held
  queue : ∀ x, R = .queue n x → p'.queued x = p.queued x
  pending : ∀ t, R = .pending n t → p'.pendingInvitations.find t = p.pendingInvitations.find t

theorem Frame.tokens {R : Place} (h : Frame n (s.process n) o.process τ R) (hR : R ≠ .hand n τ)
    (hw : ∀ b, R = .wire n b → ∀ m, o.written ≠ some (b, m)) :
    (s.apply n o).tokens R = s.tokens R :=
  tokens_apply hR h.threads h.held h.queue h.pending hw

/-- Only the hand of the thread changes. -/
theorem swap_hand {l r b : List Token} (hf : ∀ R, Frame n (s.process n) o.process τ R)
    (hw : o.written = none) (hr : (((s.process n).thread τ).tokens n).Perm (l ++ r))
    (hb : ((o.process.thread τ).tokens n).Perm (l ++ b)) :
    Swap s.tokens (s.apply n o).tokens (.hand n τ) r b where
  here := ⟨l, hr, by rw [tokens_hand]; exact hb⟩
  away R hR := by rw [(hf R).tokens hR (by simp [hw])]

theorem quiet (T : Topology) (hf : ∀ R, Frame n (s.process n) o.process τ R)
    (hp : o.process.localEndpoints = (s.process n).localEndpoints) (hs : o.supply <:+ s.supply)
    (hw : o.written = none)
    (hh : ((o.process.thread τ).tokens n).Perm (((s.process n).thread τ).tokens n)) :
    Effect T s.ports (s.apply n o).ports := by
  refine .quiet (port_apply_same hp) hs fun R => ?_
  by_cases hR : R = .hand n τ
  · rw [hR]
    simpa [tokens] using hh
  · simp [(hf R).tokens hR (by simp [hw])]

/-- Tokens go from the hand to a wire. -/
theorem to_wire {b : Identifier} {m : ChannelMessage} {l r : List Token}
    (hf : ∀ R, Frame n (s.process n) o.process τ R) (hw : o.written = some (b, m))
    (hr : (((s.process n).thread τ).tokens n).Perm (l ++ r))
    (hl : ((o.process.thread τ).tokens n).Perm l) :
    Transfer s.tokens (s.apply n o).tokens (.hand n τ) (.wire n b) r (m.tokens b) where
  ne := by simp
  source := by
    rw [tokens_hand]
    exact hr.trans (hl.symm.append_right r)
  target := by rw [tokens_wire s n hw]
  away R hR hRw := by
    rw [(hf R).tokens hR ?_]
    rintro c rfl m' hm'
    rw [hw, Option.some.injEq] at hm'
    cases hm'
    exact hRw rfl

/-- Tokens go from the hand to another place of the node. -/
theorem from_hand {Q : Place} {l r b : List Token} (hQ : Q ≠ .hand n τ)
    (hf : ∀ R, R ≠ Q → Frame n (s.process n) o.process τ R) (hw : o.written = none)
    (hr : (((s.process n).thread τ).tokens n).Perm (l ++ r))
    (hl : ((o.process.thread τ).tokens n).Perm l)
    (hb : ((s.apply n o).tokens Q).Perm (s.tokens Q ++ b)) :
    Transfer s.tokens (s.apply n o).tokens (.hand n τ) Q r b where
  ne := hQ.symm
  source := by
    rw [tokens_hand]
    exact hr.trans (hl.symm.append_right r)
  target := hb
  away R hR hRQ := by rw [(hf R hRQ).tokens hR (by simp [hw])]

/-- Tokens come to the hand from another place of the node. -/
theorem to_hand {P : Place} {r b : List Token} (hP : P ≠ .hand n τ)
    (hf : ∀ R, R ≠ P → Frame n (s.process n) o.process τ R) (hw : o.written = none)
    (hr : (s.tokens P).Perm ((s.apply n o).tokens P ++ r))
    (hb : ((o.process.thread τ).tokens n).Perm (((s.process n).thread τ).tokens n ++ b)) :
    Transfer s.tokens (s.apply n o).tokens P (.hand n τ) r b where
  ne := hP
  source := hr
  target := by
    rw [tokens_hand]
    exact hb
  away R hRP hR := by rw [(hf R hRP).tokens hR (by simp [hw])]

end Network

section
variable {T : Topology} {s : Network} {n : Identifier} {τ : ThreadId} {c : Option Call} {o : Outcome}

theorem Network.Frame.of_same {p p' : Process} (hth : ∀ σ, σ ≠ τ → p'.thread σ = p.thread σ)
    (hheld : p'.held = p.held) (hends : p'.localEndpoints = p.localEndpoints)
    (hpend : p'.pendingInvitations = p.pendingInvitations) (R : Place) : Network.Frame n p p' τ R :=
  ⟨hth, fun _ => hheld, fun x _ => by rw [Core.queued, hends, Core.queued],
    fun t _ => by rw [hpend]⟩

/-- The acts that change nothing of the ports. -/
theorem Act.quiet (ha : Act T s n τ c o) (hheld : o.process.held = (s.process n).held)
    (hends : o.process.localEndpoints = (s.process n).localEndpoints)
    (hpend : o.process.pendingInvitations = (s.process n).pendingInvitations)
    (hw : o.written = none)
    (hh : ((o.process.thread τ).tokens n).Perm (((s.process n).thread τ).tokens n)) :
    ReflTransGen (Effect T) s.ports (s.apply n o).ports :=
  .single (Network.quiet T (Network.Frame.of_same (fun _ => ha.move.thread_other) hheld hends hpend)
    hends ha.move.suffix hw hh)

theorem perm_take {α : Type} (l r : List α) (x : α) : (l ++ x :: r).Perm (l ++ r ++ [x]) :=
  List.perm_middle.trans (List.perm_append_singleton x (l ++ r)).symm

/-- A handle that the embedder has, it has once. -/
theorem Rights.held_nodup (h : Rights s.ports) (hv : Names T s.ports) (n : Identifier) :
    (s.process n).held.Nodup := by
  rw [List.nodup_iff_count_le_one]
  intro x
  by_cases hx : x ∈ (s.process n).held
  · have hmem : Token.right x ∈ s.ports.tokens (.held n) := List.mem_map_of_mem hx
    obtain ⟨m, hP | ⟨σ, hP⟩, hreg⟩ := hv.ok _ _ hmem <;> cases hP
    have hone := (h.once ⟨n, x⟩ hreg).le_one (.held n)
    have hcount : weigh (Claims ⟨n, x⟩) s.ports.tokens (.held n) = (s.process n).held.count x := by
      rw [weigh, List.count_eq_countP]
      simp only [Network.ports_tokens, Network.tokens, List.countP_map]
      exact List.countP_congr fun y _ => by simp [Claims, Place.node, Token.Mentions]
    omega
  · rw [List.count_eq_zero.2 hx]
    exact Nat.zero_le _

theorem perm_filter_append {α : Type} {l xs : List α} {f : α → Bool} (hl : l.Nodup)
    (hxs : xs.Nodup) (hsub : ∀ x ∈ xs, x ∈ l) (hf : ∀ x, f x = true ↔ x ∉ xs) :
    l.Perm (l.filter f ++ xs) := by
  rw [List.perm_ext_iff_of_nodup hl]
  · intro x
    by_cases hx : x ∈ xs
    · simp [hx, hsub x hx]
    · simp [hx, hf]
  · refine List.nodup_append.2 ⟨hl.filter _, hxs, ?_⟩
    rintro x hx y hy rfl
    exact (hf x).1 (List.mem_filter.1 hx).2 hy

/-- Two new endpoints, each the other's peer. -/
theorem Network.port_apply_create {p : Process} {x y : Identifier} (hp : s.process n = p)
    (hn : p.name = n)
    (h : o.process.localEndpoints =
      ((p.enroll x ⟨p.name, y⟩).enroll y ⟨p.name, x⟩).localEndpoints) :
    (s.apply n o).port = upd₁ (upd₁ s.port ⟨n, x⟩ (some ⟨⟨n, y⟩, .queueing⟩)) ⟨n, y⟩
      (some ⟨⟨n, x⟩, .queueing⟩) := by
  funext a
  rw [port_apply_set h]
  obtain ⟨m, z⟩ := a
  by_cases hzy : (⟨m, z⟩ : Address) = ⟨n, y⟩
  · simp [hzy, hn, Endpoint.port, Endpoint.new, Endpoint.status]
  · rw [if_neg hzy, upd₁_apply, if_neg hzy]
    by_cases hm : m = n
    · subst hm
      by_cases hzx : z = x
      · simp [hzx, hn, Endpoint.port, Endpoint.new, Endpoint.status]
      · simp [hzx, port, hp]
    · simp [hm]

/-- New endpoints have nothing in their queues. -/
theorem Core.queued_new {c c' : Core} {x : Identifier} {a : Address}
    (hx : c.localEndpoints.find x = none)
    (h : c'.localEndpoints = c.localEndpoints.set x (.new x a)) (y : Identifier) :
    c'.queued y = c.queued y := by
  rw [queued_set h]
  split_ifs with hy
  · rw [hy, queued, hx]
    rfl
  · rfl

theorem Core.queued_enroll {c : Core} {x : Identifier} {a : Address}
    (hx : c.localEndpoints.find x = none) (y : Identifier) :
    (c.enroll x a).queued y = c.queued y := queued_new hx rfl y

theorem Core.queued_enroll_two {c : Core} {x y : Identifier} {a b : Address}
    (hx : c.localEndpoints.find x = none) (hy : c.localEndpoints.find y = none) (hxy : x ≠ y)
    (z : Identifier) : ((c.enroll x a).enroll y b).queued z = c.queued z := by
  have hy' : (c.enroll x a).localEndpoints.find y = none := by simp [hxy.symm, hy]
  rw [queued_enroll hy', queued_enroll hx]

theorem Core.queued_rewrite {c c' : Core} {x : Identifier} {e e' : Endpoint}
    (he : c.localEndpoints.find x = some e) (h : c'.localEndpoints = c.localEndpoints.set x e')
    (hq : e'.incomingMessageQueue = e.incomingMessageQueue) (y : Identifier) :
    c'.queued y = c.queued y := by
  rw [queued_set h]
  split_ifs with hy
  · rw [hy, hq, queued_of_find he]
  · rfl

/-- A thread takes all that waits in a queue. -/
theorem Effect.drained (v : Ports) (n x : Identifier) (τ : ThreadId)
    (hq : ∀ tok ∈ v.tokens (.queue n x), ∃ d, tok = .described d) :
    Effect T v ⟨v.port, upd₁ (upd₁ v.tokens (.queue n x) []) (.hand n τ)
      (v.tokens (.hand n τ) ++ v.tokens (.queue n x)), v.supply⟩ := by
  refine .pass (P := .queue n x) (Q := .hand n τ) (r := v.tokens (.queue n x))
    (b := v.tokens (.queue n x)) rfl rfl ⟨by simp, by simp, by simp, fun R hR hR' => ?_⟩
    (List.forall₂_same.2 fun tok htok => ?_)
  · simp [hR, hR']
  · obtain ⟨d, rfl⟩ := hq tok htok
    exact .drain

/-- A thread gives a right to the embedder. -/
theorem Effect.given (v : Ports) (n x : Identifier) (τ : ThreadId) {l : List Token}
    (hh : (v.tokens (.hand n τ)).Perm (l ++ [.right x])) :
    Effect T v ⟨v.port, upd₁ (upd₁ v.tokens (.held n) (v.tokens (.held n) ++ [.right x]))
      (.hand n τ) l, v.supply⟩ := by
  refine .pass (P := .hand n τ) (Q := .held n) (r := [.right x]) (b := [.right x]) rfl rfl
    ⟨by simp, by simpa using hh, by simp, fun R hR hR' => ?_⟩ (.cons .give .nil)
  simp [hR, hR']

theorem Message.described_retarget (ms : List Message) (x : Identifier) :
    (ms.map (·.retarget x)).flatMap Message.described = ms.flatMap Message.described := by
  rw [List.flatMap_map]
  rfl

theorem mem_described {ms : List Message} {tok : Token}
    (h : tok ∈ ms.flatMap Message.described) : ∃ d, tok = .described d := by
  obtain ⟨m, -, hm⟩ := List.mem_flatMap.1 h
  obtain ⟨d, -, rfl⟩ := List.mem_map.1 hm
  exact ⟨d, rfl⟩

/-- `SetProxying` on a dependent endpoint, together with the queue that is taken from it. -/
theorem Network.take_effects {b : Batch} {m : Message} {done ds : List EndpointDescriptor}
    {d : EndpointDescriptor} {e e' : Endpoint} (b' : Batch) (hl : Linked T n b.targetNodeName)
    (h1 : (s.process n).thread τ = .sending b m done (d :: ds))
    (he : (s.process n).localEndpoints.find d.endpointName = some e)
    (hq : e.state = .kUnboundAndQueueing)
    (he' : e' = { e with
      incomingMessageQueue := [], state := .kUnboundAndProxying,
      proxyTarget := ⟨b.targetNodeName, d.crossNodeEndpointName⟩ })
    (hb' : b'.targetNodeName = b.targetNodeName ∧
      b'.messagesToSend.flatMap Message.described = b.messagesToSend.flatMap Message.described ++
        e.incomingMessageQueue.flatMap Message.described)
    (hth : ∀ σ, σ ≠ τ → o.process.thread σ = (s.process n).thread σ)
    (ho : o.process.thread τ = .sending b' m (done ++ [d]) ds)
    (hends : o.process.localEndpoints = (s.process n).localEndpoints.set d.endpointName e')
    (hheld : o.process.held = (s.process n).held)
    (hpend : o.process.pendingInvitations = (s.process n).pendingInvitations)
    (hw : o.written = none) (hs : o.supply = s.supply) :
    ReflTransGen (Effect T) s.ports (s.apply n o).ports := by
  have hqueue : s.tokens (.queue n d.endpointName) =
      e.incomingMessageQueue.flatMap Message.described := by
    rw [tokens, Core.queued_of_find he]
  refine .tail (.single (.drained s.ports n d.endpointName τ fun tok htok => ?_)) (.move (n := n)
    (t := b.targetNodeName) (τ := τ) (d := d) (p := e.peerAddress) hl ?_ ?_ hs
    ⟨⟨done.map (.crossing b.targetNodeName) ++ ds.map .described ++
      (b.messagesToSend.flatMap Message.described ++
        e.incomingMessageQueue.flatMap Message.described), ?_, ?_⟩, fun R hR => ?_⟩)
  · rw [ports_tokens, hqueue] at htok
    exact mem_described htok
  · exact port_eq_some.2 ⟨e, he, by simp [Endpoint.port, Endpoint.status, hq]⟩
  · rw [ports_port, port_apply_write hends, he']
    rfl
  · simp only [ports_tokens, upd₁_apply, if_true, hqueue]
    refine .trans (.of_eq ?_) ((perm_take (done.map (Token.crossing b.targetNodeName))
      (ds.map .described ++ (b.messagesToSend.flatMap Message.described ++
        e.incomingMessageQueue.flatMap Message.described)) (.described d)).trans (.of_eq ?_))
    · simp [tokens, h1, Thread.tokens]
    · simp
  · simp only [ports_tokens, tokens_hand, ho, Thread.tokens, hb'.1, hb'.2]
    refine .trans (.of_eq ?_) ((perm_take (done.map (Token.crossing b.targetNodeName))
      (ds.map .described ++ (b.messagesToSend.flatMap Message.described ++
        e.incomingMessageQueue.flatMap Message.described))
      (.crossing b.targetNodeName d)).trans (.of_eq ?_))
    · simp
    · simp
  · by_cases hRq : R = .queue n d.endpointName
    · subst hRq
      simp [tokens, Core.queued_set hends, he']
    · refine .of_eq ?_
      simp only [ports_tokens, upd₁_apply, if_neg hR, if_neg hRq]
      refine Frame.tokens ⟨hth, fun _ => hheld, fun z hz => ?_, fun t _ => by rw [hpend]⟩ hR
        (by simp [hw])
      have hzd : z ≠ d.endpointName := by
        rintro rfl
        exact hRq hz
      rw [Core.queued_set hends, if_neg hzd]

/-- A message from this node or another is queued on its endpoint or posted to its delegate. -/
theorem Network.accept_effects {r : List Token} {x : Identifier} {m : Message} {e e' : Endpoint}
    (he : (s.process n).localEndpoints.find x = some e) (hacc : e.acceptMessage m = .ok e')
    (hr : ((s.process n).thread τ).tokens n = r)
    (hqueued : List.Forall₂ (Passes s.ports (.hand n τ) (.queue n x)) r m.described)
    (hposted : List.Forall₂ (Passes s.ports (.hand n τ) (.held n)) r
      (((s.process n).endpointsOf m).map .right))
    (hth : ∀ σ, σ ≠ τ → o.process.thread σ = (s.process n).thread σ)
    (ho : (o.process.thread τ).tokens n = [])
    (hends : o.process.localEndpoints = (s.process n).localEndpoints.set x e')
    (hheld : o.process.held = if e.state = .kBound then
      (s.process n).held ++ (s.process n).endpointsOf m else (s.process n).held)
    (hpend : o.process.pendingInvitations = (s.process n).pendingInvitations)
    (hw : o.written = none) (hs : o.supply = s.supply) :
    ReflTransGen (Effect T) s.ports (s.apply n o).ports := by
  rcases Endpoint.acceptMessage_eq hacc with ⟨hq, -, rfl⟩ | ⟨hb, -, rfl⟩
  · refine .single (.pass (P := .hand n τ) (Q := .queue n x) (r := r) (b := m.described)
      (port_apply_rewrite he hends rfl) hs (from_hand (l := []) (by simp) (fun R hR =>
        ⟨hth, fun _ => by simp [hheld, hq], fun z hz => ?_, fun t _ => by rw [hpend]⟩) hw
        (by simp [hr]) (by simp [ho]) ?_) hqueued)
    · have hzx : z ≠ x := by
        rintro rfl
        exact hR hz
      rw [Core.queued_set hends, if_neg hzx]
    · rw [tokens_queue, Core.queued_set hends, if_pos rfl, tokens, Core.queued_of_find he]
      simp
  · refine .single (.pass (P := .hand n τ) (Q := .held n) (r := r)
      (b := ((s.process n).endpointsOf m).map .right) (port_apply_rewrite he hends rfl) hs
      (from_hand (l := []) (by simp) (fun R hR => ⟨hth, fun h => absurd h hR, fun z _ => ?_,
        fun t _ => by rw [hpend]⟩) hw (by simp [hr]) (by simp [ho]) ?_) hposted)
    · exact Core.queued_rewrite he hends rfl z
    · simp [tokens, hheld, hb]

/-- The handles found for the descriptors of a local message give rights to their endpoints. -/
theorem Network.posted_passes {pipes : List MessagePipe} {ds : List EndpointDescriptor}
    (ht : (s.process n).toCore.Tidy) (hr : List.Forall₂ (fun h d =>
      (s.process n).recoverExistingMessagePipeFromEndpointDescriptor d = .ok h) pipes ds) :
    List.Forall₂ (Passes s.ports (.hand n τ) (.held n)) (ds.map .described)
      ((pipes.filterMap (s.process n).findHandle).map .right) := by
  induction hr with
  | nil => exact .nil
  | @cons pipe d pipes ds hlead _ ih =>
    have hlead := ht.recoverExisting hlead
    obtain ⟨q, hq⟩ := Option.ne_none_iff_exists'.1 (port_ne_none.2 (ht.registered hlead))
    simpa [hlead] using List.Forall₂.cons (Passes.post hq) ih

/-- The handles of recovered endpoints give rights to those. -/
theorem Network.recovered_passes {v : Ports} {pipes : List MessagePipe}
    {ds : List EndpointDescriptor}
    (hr : List.Forall₂ (fun h d => (s.process n).findHandle h = some d.crossNodeEndpointName)
      pipes ds) :
    List.Forall₂ (Passes v (.hand n τ) (.held n)) (ds.map .recovered)
      ((pipes.filterMap (s.process n).findHandle).map .right) := by
  induction hr with
  | nil => exact .nil
  | @cons pipe d pipes ds hlead _ ih =>
    simpa [hlead] using List.Forall₂.cons Passes.postRecovered ih

/-- `RegisterDelegate`: the endpoint is bound, and its queue is replayed to the delegate. -/
theorem Network.bind_effects {x : Identifier} {e : Endpoint} (e' : Endpoint)
    (hs : s.ports.Sound T) (ht : (s.process n).toCore.Tidy) (hx : x ∈ (s.process n).held)
    (he : (s.process n).localEndpoints.find x = some e) (hq : e.state = .kUnboundAndQueueing)
    (he' : e'.peerAddress = e.peerAddress ∧ e'.state = .kBound ∧ e'.incomingMessageQueue = [])
    (hth : o.process.thread = (s.process n).thread)
    (hends : o.process.localEndpoints = (s.process n).localEndpoints.set x e')
    (hheld : o.process.held =
      (s.process n).held ++ e.incomingMessageQueue.flatMap (s.process n).endpointsOf)
    (hpend : o.process.pendingInvitations = (s.process n).pendingInvitations)
    (hw : o.written = none) (hsup : o.supply = s.supply) :
    ReflTransGen (Effect T) s.ports (s.apply n o).ports := by
  have hport : s.port ⟨n, x⟩ = some ⟨e.peerAddress, .queueing⟩ :=
    port_eq_some.2 ⟨e, he, by simp [Endpoint.port, Endpoint.status, hq]⟩
  have hport' : (s.apply n o).port = upd₁ s.port ⟨n, x⟩ (some ⟨e.peerAddress, .bound⟩) := by
    rw [port_apply_write hends]
    simp [Endpoint.port, Endpoint.status, he'.1, he'.2.1]
  have hqueue : s.tokens (.queue n x) = e.incomingMessageQueue.flatMap Message.described := by
    rw [tokens, Core.queued_of_find he]
  let v : Ports := ⟨(s.apply n o).port, s.tokens, s.supply⟩
  have hreg : ∀ y, v.port ⟨n, y⟩ = none ↔ (s.process n).localEndpoints.find y = none := by
    intro y
    simp only [v, hport', upd₁_apply]
    split_ifs with hy
    · simp only [Address.mk.injEq, true_and] at hy
      simp [hy, he]
    · simp [port]
  have hreplay : ∀ m ∈ e.incomingMessageQueue, List.Forall₂ (Passes v (.queue n x) (.held n))
      m.described (((s.process n).endpointsOf m).map .right) := by
    intro m hm
    have hpiped := ht.queues x m (by rwa [Core.queued_of_find he])
    have hok : ∀ d ∈ m.endpointsInMessage, (Token.described d).Ok T s.ports (.queue n x) :=
      fun d hd => hs.names.ok _ _ (by
        rw [ports_tokens, hqueue]
        exact List.mem_flatMap.2 ⟨m, hm, List.mem_map_of_mem hd⟩)
    rw [Message.described, Core.endpointsOf]
    unfold Core.Piped at hpiped
    generalize m.pipes = pipes, m.endpointsInMessage = ds at hpiped hok
    induction hpiped with
    | nil => exact .nil
    | @cons pipe d pipes ds hlead _ ih =>
      have ih := ih fun d' hd' => hok d' (List.mem_cons_of_mem _ hd')
      rcases hlead with hlead | hlead
      · have hfound := ht.registered hlead
        obtain ⟨q, hq⟩ := Option.ne_none_iff_exists'.1 (mt (hreg _).1 hfound)
        simpa [hlead] using List.Forall₂.cons (Passes.replay hq) ih
      · have hnone : v.port ⟨n, d.endpointName⟩ = none := by
          rw [hreg]
          have hfound := port_ne_none.2 (ht.registered hlead)
          obtain ⟨k, ⟨σ, hP⟩ | ⟨z, hP⟩, hd⟩ := hok d List.mem_cons_self <;> cases hP
          rcases hd with ⟨-, hu⟩ | hst
          · exact absurd (hu n) hfound
          · have := hst.not_sender hs.names
            simpa [port] using this
        simpa [hlead] using List.Forall₂.cons (Passes.replayRecovered hnone) ih
  refine .tail (.single (b := v) (.bind (n := n) (x := x) (p := e.peerAddress) hport
    (List.mem_map_of_mem hx) hport' rfl fun P => .refl _)) (.pass (P := .queue n x) (Q := .held n)
    (r := e.incomingMessageQueue.flatMap Message.described)
    (b := (e.incomingMessageQueue.flatMap (s.process n).endpointsOf).map .right) rfl hsup
    ⟨by simp, ?_, ?_, fun R hR hR' => ?_⟩ ?_)
  · rw [ports_tokens, tokens_queue, Core.queued_set hends, if_pos rfl, he'.2.2]
    simpa [v] using .of_eq hqueue
  · simp [v, tokens, hheld]
  · by_cases hRh : R = .hand n .io
    · simp [v, hRh, tokens, hth]
    · refine .of_eq (Frame.tokens ⟨fun σ _ => by rw [hth], fun h => absurd h hR', fun z hz => ?_,
        fun t _ => by rw [hpend]⟩ hRh (by simp [hw]))
      have hzx : z ≠ x := by
        rintro rfl
        exact hR hz
      rw [Core.queued_set hends, if_neg hzx]
  · clear_value v
    clear hqueue
    generalize e.incomingMessageQueue = ms at hreplay
    induction ms with
    | nil => exact .nil
    | cons m ms ih =>
      simp only [List.flatMap_cons, List.map_append]
      exact List.rel_append (hreplay m List.mem_cons_self)
        (ih fun m' hm' => hreplay m' (List.mem_cons_of_mem _ hm'))

theorem Act.effects_of_call {call : Call} (ha : Act T s n τ (some call) o) (ht : Tidy T s)
    (hs : s.ports.Sound T) (hreach : Reachable T s) :
    ReflTransGen (Effect T) s.ports (s.apply n o).ports := by
  have hidle := ha.idle
  have hth := fun σ (hσ : σ ≠ τ) => ha.move.thread_other hσ
  have hquiet := ha.quiet
  cases ha.move with
  | @createMessagePipes x y rest hsup hx hy hxy =>
    refine .single (.create (n := n) (x := x) (y := y) (P := .held n) (a := [.right x, .right y])
      ha.node hsup (Network.port_apply_create rfl (hreach.name n) rfl) ⟨?_, fun R hR => ?_⟩
      (.inl ⟨rfl, rfl⟩))
    · exact ⟨s.tokens (.held n), by simp, by simp [Network.tokens]⟩
    · by_cases hRh : R = .hand n τ
      · simp [hRh, Network.tokens]
      · refine .of_eq (Network.Frame.tokens ⟨hth, fun h => absurd h hR, fun z _ => ?_, fun _ _ => rfl⟩
          hRh (by simp))
        exact Core.queued_enroll_two hx hy hxy z
  | @sendMessage k id body pipes x xs hx hxs =>
    have hall := (ha.allowed _ rfl).2
    simp only [hxs, Option.any_some, decide_eq_true_eq] at hall
    obtain ⟨hnd, hall⟩ := hall
    refine .single (.pass (P := .held n) (Q := .hand n τ) (r := xs.map .right)
      (b := xs.map .right) (Network.port_apply_same rfl) rfl
      (Network.to_hand (by simp) (fun R hR => ⟨hth, fun h => absurd h hR, fun _ _ => rfl,
        fun _ _ => rfl⟩) rfl ?_ ?_) (Forall₂.map_map fun y hy => .take fun q hq => ?_))
    · rw [Network.tokens_held, Network.tokens, ← List.map_append]
      exact (perm_filter_append (hs.rights.held_nodup hs.names n) hnd (fun y hy => (hall y hy).1)
        (by simp)).map Token.right
    · simp [hidle, Thread.tokens, Message.described]
    · obtain ⟨e, he, rfl⟩ := Network.port_eq_some.1 hq
      have := (hall y hy).2
      simp only [he, Option.any_some, decide_eq_true_eq] at this
      cases hst : e.state <;> simp_all [Endpoint.port, Endpoint.status]
  | @bindReceiver k delegate runner x e hx he hl hq hd =>
    have hheld := ha.allowed _ rfl
    simp only [Allowed, hx, Option.any_some, decide_eq_true_eq] at hheld
    let e' : Endpoint := { e with
      state := .kBound, delegate := some delegate, delegateTaskRunner := some runner,
      incomingMessageQueue := [], posted := e.posted ++ e.incomingMessageQueue }
    exact Network.bind_effects e' hs (ht.cores n) hheld he hq ⟨rfl, rfl, rfl⟩ rfl rfl rfl rfl rfl rfl
  | sendInvitation => exact hquiet rfl rfl rfl rfl (by simp [hidle, Thread.tokens])
  | acceptInvitation => exact hquiet rfl rfl rfl rfl (.refl _)

theorem Act.effects_of_sendMessage (ha : Act T s n τ none o) (ht : Tidy T s)
    (hreach : Reachable T s) (hr : ((s.process n).thread τ).routine = some .sendMessage) :
    ReflTransGen (Effect T) s.ports (s.apply n o).ports := by
  have htidy := ht.threads n τ
  have hth := fun σ (hσ : σ ≠ τ) => ha.move.thread_other hσ
  have hquiet := ha.quiet
  cases ha.move with
  | populated h1 | checkSent h1 | routeRemote h1 | routeLocal h1 =>
    refine hquiet rfl rfl rfl rfl ?_
    simp_all [Thread.tokens, Message.described]
  | @populate x y name m ys rest e h1 hsup he =>
    have hname : e.name = y := hreach.named n y e he
    refine .single (.describe (n := n) (x := y) (c := name) (τ := τ) (q := e.port) hsup
      (Network.port_apply_same rfl) (Network.port_eq_some.2 ⟨e, he, rfl⟩)
      (Network.swap_hand (l := m.described ++ ys.map .right)
        (Network.Frame.of_same hth rfl rfl rfl) rfl ?_ ?_))
    · simpa [h1, Thread.tokens] using perm_take m.described (ys.map .right) (.right y)
    · simpa [Thread.tokens, Message.described, hname, Endpoint.port] using
        perm_take m.described (ys.map .right)
          (.described ⟨y, name, e.peerAddress.nodeName, e.peerAddress.endpointName⟩)
  | deliverToProxy h1 he hl hq =>
    refine hquiet (by simp [hq]) rfl rfl rfl ?_
    simp [h1, Thread.tokens, Message.described]
  | @deliver x m e e' pipes h1 he hl hr hacc =>
    rw [h1] at htidy
    have hpipes : m.pipes = [] := htidy
    refine Network.accept_effects (r := m.described) he hacc (by simp [h1, Thread.tokens]) ?_ ?_ hth
      (by simp [Thread.tokens]) rfl rfl rfl rfl rfl
    · exact Forall₂.map_map fun d _ => .queue
    · rw [Core.endpointsOf, hpipes, List.nil_append]
      exact Network.posted_passes (ht.cores n) hr
  | _ => simp_all [Thread.routine]

theorem Act.effects_of_flush (ha : Act T s n τ none o) (h : Handshake T s) (ht : Tidy T s)
    (hr : ((s.process n).thread τ).routine = some .sendMessagesAndRecursiveDependents) :
    ReflTransGen (Effect T) s.ports (s.apply n o).ports := by
  have htidy := ht.threads n τ
  have hth := fun σ (hσ : σ ≠ τ) => ha.move.thread_other hσ
  have hquiet := ha.quiet
  cases ha.move with
  | unlock h1 | next h1 | sent h1 | sentToProxy h1 | drained h1 =>
    refine hquiet rfl rfl rfl rfl ?_
    simp_all [Thread.tokens, Message.described]
  | @take b m done ds d e h1 he hl hd hq =>
    rw [h1] at htidy
    exact Network.take_effects ⟨b.targetNodeName, b.messagesToSend ++
      e.incomingMessageQueue.map (·.retarget d.crossNodeEndpointName), b.caller⟩ htidy.2 h1 he hq rfl
      ⟨rfl, by rw [List.flatMap_append, Message.described_retarget]⟩ hth (by simp) rfl rfl rfl rfl rfl
  | @write b m done channel h1 hc =>
    rw [h1] at htidy
    obtain ⟨hsplit, hlink⟩ := htidy
    obtain ⟨hch, -⟩ := (h.entries n _ _ hc).of_node hlink.node
    refine .single (.pass (P := .hand n τ) (Q := .wire n channel)
      (r := done.map (.crossing channel)) (b := done.map (.crossing channel))
      (Network.port_apply_same rfl) rfl ?_ (Forall₂.map_map fun d _ => .send (hch ▸ hlink.ne)))
    have hto := Network.to_wire (l := b.messagesToSend.flatMap Message.described)
      (r := done.map (.crossing channel)) (Network.Frame.of_same hth rfl rfl rfl) rfl
      (by simpa [h1, Thread.tokens, hch] using List.perm_append_comm) (by simp [Thread.tokens])
    simpa [ChannelMessage.tokens, hsplit] using hto
  | _ => simp_all [Thread.routine]

theorem Act.effects_of_userMessage (ha : Act T s n τ none o) (h : Handshake T s) (ht : Tidy T s)
    (hr : ((s.process n).thread τ).routine = some .onReceivedUserMessage) :
    ReflTransGen (Effect T) s.ports (s.apply n o).ports := by
  have htidy := ht.threads n τ
  have hth := fun σ (hσ : σ ≠ τ) => ha.move.thread_other hσ
  have hquiet := ha.quiet
  cases ha.move with
  | receive h1 | releaseTarget h1 =>
    refine hquiet rfl rfl rfl rfl ?_
    simp_all [Thread.tokens]
  | @recover x m d done ds h1 hd hf =>
    refine .single (.recover (n := n) (τ := τ) (d := d) ?_ rfl
      (Network.swap_hand (l := done.map .recovered ++ ds.map (.crossing n))
        (fun R => ⟨hth, fun _ => rfl, fun z _ => Core.queued_enroll hd z, fun _ _ => rfl⟩) rfl ?_ ?_))
    · exact Network.port_apply_write (e := .new d.crossNodeEndpointName d.peerAddress) rfl
    · simpa [h1, Thread.tokens] using
        perm_take (done.map Token.recovered) (ds.map (.crossing n)) (.crossing n d)
    · simpa [Thread.tokens] using
        perm_take (done.map Token.recovered) (ds.map (.crossing n)) (.recovered d)
  | relay h1 he hq =>
    rw [h1] at htidy
    refine hquiet (by simp [hq]) rfl rfl rfl ?_
    simp [h1, Thread.tokens, htidy.1]
  | @dispatch x m done e e' h1 he hacc =>
    rw [h1] at htidy
    obtain ⟨hsplit, hpipes⟩ := htidy
    rw [List.append_nil] at hsplit
    refine Network.accept_effects (r := done.map .recovered) he hacc (by simp [h1, Thread.tokens])
      ?_ ?_ hth (by simp [Thread.tokens]) rfl rfl rfl rfl rfl
    · rw [Message.described, hsplit]
      exact Forall₂.map_map fun d _ => .queueRecovered
    · exact Network.recovered_passes hpipes
  | @forward x t name m done ds d rest e h1 hsup he hq =>
    rw [h1] at htidy
    refine .single (.forward (n := n) (t := t) (c := name) (τ := τ) (d := d) (p := e.peerAddress)
      htidy hsup ?_ ?_ (Network.swap_hand (l := done.map (.crossing t) ++ ds.map .recovered)
        (fun R => ⟨hth, fun _ => rfl, fun z _ => Core.queued_rewrite he rfl (by rfl) z,
          fun _ _ => rfl⟩) rfl ?_ ?_))
    · exact Network.port_eq_some.2 ⟨e, he, by simp [Endpoint.port, Endpoint.status, hq]⟩
    · exact Network.port_apply_write (e := { e with
        state := .kUnboundAndProxying, proxyTarget := ⟨t, name⟩ }) rfl
    · simpa [h1, Thread.tokens] using
        perm_take (done.map (Token.crossing t)) (ds.map .recovered) (.recovered d)
    · simpa [Thread.tokens] using
        perm_take (done.map (Token.crossing t)) (ds.map .recovered) (.crossing t { d with
          endpointName := d.crossNodeEndpointName, crossNodeEndpointName := name })
  | @writeForwarded x t m done channel h1 hc =>
    rw [h1] at htidy
    obtain ⟨hch, -⟩ := (h.entries n _ _ hc).of_node htidy.node
    refine .single (.pass (P := .hand n τ) (Q := .wire n channel)
      (r := done.map (.crossing channel)) (b := done.map (.crossing channel))
      (Network.port_apply_same rfl) rfl ?_ (Forall₂.map_map fun d _ => .send (hch ▸ htidy.ne)))
    have hto := Network.to_wire (l := []) (r := done.map (.crossing channel))
      (Network.Frame.of_same hth rfl rfl rfl) rfl
      (by simp [h1, Thread.tokens, hch]) (by simp [Thread.tokens])
    simpa [ChannelMessage.tokens] using hto
  | _ => simp_all [Thread.routine]

theorem Act.effects_of_invitation (ha : Act T s n τ none o) (h : Handshake T s) (hs : s.ports.Sound T)
    (hreach : Reachable T s) (hr : ((s.process n).thread τ).routine = some .onReceivedInvitation) :
    ReflTransGen (Effect T) s.ports (s.apply n o).ports := by
  have hsound := h.threads n τ
  have hth := fun σ (hσ : σ ≠ τ) => ha.move.thread_other hσ
  have hquiet := ha.quiet
  cases ha.move with
  | rekeyInitial h1 =>
    refine hquiet rfl rfl rfl rfl ?_
    simp_all [Thread.tokens]
  | @accept i t x name rest h1 hsup =>
    rw [h1] at hsound
    have hnone : (s.process n).localEndpoints.find name = none := by
      by_contra hne
      exact Network.port_ne_none.2 hne (hs.names.unused name (by simp [hsup]) n)
    have hins := Table.insert_of_absent hnone (.new name ⟨i, x⟩)
    refine .single (.accept (n := n) (i := i) (x := x) (e := name) (τ := τ) (.inl hsound.1) hsup ?_
      (Network.swap_hand (l := []) (fun R => ⟨hth, fun _ => rfl,
        fun z _ => Core.queued_new hnone hins z, fun _ _ => rfl⟩) rfl (by simp [h1, Thread.tokens])
        (by simp [Thread.tokens])))
    exact Network.port_apply_write (e := .new name ⟨i, x⟩) hins
  | @reply i t x channel h1 hc =>
    have hto := Network.to_wire (l := [.right x]) (r := [.acceptance ⟨n, x⟩])
      (Network.Frame.of_same hth rfl rfl rfl) rfl (by simp [h1, Thread.tokens])
      (by simp [Thread.tokens])
    refine .single (.pass (Network.port_apply_same rfl) rfl hto ?_)
    rw [hreach.name n]
    exact .cons .reply .nil
  | @accepted x h1 hc =>
    by_cases hf : ((s.process n).findHandle (s.process n).nextAvailableHandle).isNone
    · refine .single (.pass (P := .hand n τ) (Q := .held n) (r := [.right x]) (b := [.right x])
        (Network.port_apply_same rfl) rfl (Network.from_hand (l := []) (by simp)
          (fun R hR => ⟨hth, fun h => absurd h hR, fun _ _ => rfl, fun _ _ => rfl⟩) rfl
          (by simp [h1, Thread.tokens]) (by simp [Thread.tokens]) ?_) (.cons .give .nil))
      simp [Network.tokens, hf]
    · refine .single (.drop (P := .hand n τ) (x := x) (Network.port_apply_same rfl) rfl
        (Network.swap_hand (l := []) (fun R => ⟨hth, fun _ => ?_, fun _ _ => rfl, fun _ _ => rfl⟩)
          rfl (by simp [h1, Thread.tokens]) (by simp [Thread.tokens])))
      simp [hf]
  | _ => simp_all [Thread.routine]

theorem Act.effects_of_acceptance (ha : Act T s n τ none o) (h : Handshake T s)
    (hr : ((s.process n).thread τ).routine = some .onReceivedAcceptInvitation) :
    ReflTransGen (Effect T) s.ports (s.apply n o).ports := by
  have hsound := h.threads n τ
  have hth := fun σ (hσ : σ ≠ τ) => ha.move.thread_other hσ
  have hquiet := ha.quiet
  cases ha.move with
  | rekey h1 | acknowledged h1 =>
    refine hquiet rfl rfl rfl rfl ?_
    simp_all [Thread.tokens]
  | @acknowledge t m x r h1 hr =>
    refine .single (.pass (P := .pending n t) (Q := .hand n τ) (r := [.reserved r])
      (b := [.reserved r]) (Network.port_apply_same rfl) rfl (Network.to_hand (by simp)
        (fun R hR => ⟨hth, fun _ => rfl, fun _ _ => rfl, fun t' ht' => ?_⟩) rfl ?_ ?_)
      (.cons .claim .nil))
    · have htt : t' ≠ t := by
        rintro rfl
        exact hR ht'
      simp [htt]
    · simp [Network.tokens, hr]
    · simpa [h1, Thread.tokens] using
        (List.perm_append_singleton (Token.reserved r) [.acceptance ⟨m, x⟩]).symm
  | @reserve t m x r e h1 he hl hq =>
    rw [h1] at hsound
    obtain ⟨hin, -, -, y, hpair, hpeer⟩ := hsound
    obtain ⟨g, hg, hgp⟩ := Option.map_eq_some_iff.1 hpeer
    have hep : e.peerAddress = ⟨n, y⟩ := by
      have := hpair.2
      simpa [Network.peerOf, he] using this
    refine .single (.acknowledge (n := n) (r := r) (g := ⟨m, x⟩) (p := e.peerAddress) (τ := τ)
      (q := g.port) (.inl hin) ?_ (Network.port_eq_some.2 ⟨g, hg, rfl⟩) (hgp.trans hep.symm) ?_ rfl
      (Network.swap_hand (l := []) (fun R => ⟨hth, fun _ => rfl,
        fun z _ => Core.queued_rewrite he rfl (by rfl) z, fun _ _ => rfl⟩) rfl (by simp [h1, Thread.tokens])
        (by simp [Thread.tokens])))
    · exact Network.port_eq_some.2 ⟨e, he, by simp [Endpoint.port, Endpoint.status, hq]⟩
    · exact Network.port_apply_write (e := { e with
        state := .kUnboundAndProxying, proxyTarget := ⟨m, x⟩ }) rfl
  | @drain r channel e h1 he hd =>
    refine .single (.pass (P := .queue n r) (Q := .hand n τ)
      (r := e.incomingMessageQueue.flatMap Message.described)
      (b := e.incomingMessageQueue.flatMap Message.described)
      (Network.port_apply_rewrite he rfl rfl) rfl (Network.to_hand (by simp)
        (fun R hR => ⟨hth, fun _ => rfl, fun z hz => ?_, fun _ _ => rfl⟩) rfl ?_ ?_) ?_)
    · have hzr : z ≠ r := by
        rintro rfl
        exact hR hz
      simp [Core.queued, hzr]
    · simp [Network.tokens, Core.queued, he]
    · simp [h1, Thread.tokens, Message.described_retarget]
    · exact List.forall₂_same.2 fun tok htok => by
        obtain ⟨m, -, hm⟩ := List.mem_flatMap.1 htok
        obtain ⟨d, -, rfl⟩ := List.mem_map.1 hm
        exact .drain
  | _ => simp_all [Thread.routine]

theorem Act.effects_of_inviting (ha : Act T s n τ none o) (h : Handshake T s)
    (hreach : Reachable T s)
    (hr : ((s.process n).thread τ).routine = some .sendInvitationAndGetMessagePipe) :
    ReflTransGen (Effect T) s.ports (s.apply n o).ports := by
  have hsound := h.threads n τ
  have hth := fun σ (hσ : σ ≠ τ) => ha.move.thread_other hσ
  have hquiet := ha.quiet
  cases ha.move with
  | createChannel h1 =>
    refine hquiet rfl rfl rfl rfl ?_
    simp_all [Thread.tokens]
  | @invite channel x y rest h1 hsup hx hy hxy =>
    refine .single (.create (n := n) (x := x) (y := y) (P := .hand n τ)
      (a := [.right x, .reserved y, .invitation ⟨n, x⟩]) ha.node hsup
      (Network.port_apply_create rfl (hreach.name n) rfl)
      (Network.swap_hand (l := []) (fun R => ⟨hth, fun _ => rfl, fun z _ => ?_, fun _ _ => rfl⟩) rfl
        (by simp [h1, Thread.tokens]) (by simp [Thread.tokens])) (.inr ⟨τ, rfl, rfl⟩))
    exact Core.queued_enroll_two hx hy hxy z
  | @insertPending l r t h1 =>
    rw [h1] at hsound
    refine .single (.pass (P := .hand n τ) (Q := .pending n t) (r := [.reserved r])
      (b := [.reserved r]) (Network.port_apply_same rfl) rfl
      (Network.from_hand (l := [.right l, .invitation ⟨n, l⟩]) (by simp)
        (fun R hR => ⟨hth, fun _ => rfl, fun _ _ => rfl, fun t' ht' => ?_⟩) rfl ?_
        (by simp [Thread.tokens]) ?_) (.cons .reserve .nil))
    · have htt : t' ≠ t := by
        rintro rfl
        exact hR ht'
      simp [htt]
    · simpa [h1, Thread.tokens] using
        perm_take [Token.right l] [.invitation ⟨n, l⟩] (.reserved r)
    · simp [Network.tokens, hsound.2.1]
  | @startChannel l r t channel e h1 hc he =>
    rw [h1] at hsound
    have hpeer : e.peerAddress = ⟨n, l⟩ := by
      have := hsound.2.2.2
      simpa [Network.peerOf, he] using this
    refine .tail (.single (.given s.ports n l τ (l := [.invitation ⟨n, l⟩]) ?_)) (.pass
      (P := .hand n τ) (Q := .wire n channel) (r := [.invitation ⟨n, l⟩])
      (b := [.invitation ⟨n, l⟩]) (Network.port_apply_same rfl) rfl
      ⟨by simp, by simp [Network.tokens, Thread.tokens], ?_, fun R hR hR' => ?_⟩
      (.cons .invite .nil))
    · simpa [Network.tokens, h1, Thread.tokens] using
        (List.perm_append_singleton (Token.right l) [.invitation ⟨n, l⟩]).symm
    · rw [Network.ports_tokens, Network.tokens_wire s n rfl]
      simp [ChannelMessage.tokens, hpeer, hreach.name n]
    · by_cases hRh : R = .held n
      · simp [hRh, Network.tokens]
      · refine .of_eq ?_
        simp only [Network.ports_tokens, upd₁_apply, if_neg hR, if_neg hRh]
        refine Network.Frame.tokens ⟨hth, fun h => absurd h hRh, fun _ _ => rfl, fun _ _ => rfl⟩ hR ?_
        rintro b rfl m' hm'
        cases hm'
        exact hR' rfl
  | _ => simp_all [Thread.routine]

/-- A step of the code is a few effects on the ports, by the function that its thread is in. -/
theorem Act.effects (h : Handshake T s) (ht : Tidy T s) (hs : s.ports.Sound T)
    (hreach : Reachable T s) (ha : Act T s n τ c o) :
    ReflTransGen (Effect T) s.ports (s.apply n o).ports := by
  cases c with
  | some call => exact ha.effects_of_call ht hs hreach
  | none =>
    cases hr : ((s.process n).thread τ).routine with
    | none => exact absurd (Thread.routine_eq_none.1 hr) ha.move.not_idle
    | some r =>
      cases r with
      | sendMessage => exact ha.effects_of_sendMessage ht hreach hr
      | sendMessagesAndRecursiveDependents => exact ha.effects_of_flush h ht hr
      | onReceivedUserMessage => exact ha.effects_of_userMessage h ht hr
      | onReceivedInvitation => exact ha.effects_of_invitation h hs hreach hr
      | onReceivedAcceptInvitation => exact ha.effects_of_acceptance h hr
      | sendInvitationAndGetMessagePipe => exact ha.effects_of_inviting h hreach hr

theorem Network.port_consume {channel : Channel} {m : ChannelMessage} {rest : List ChannelMessage} :
    (s.consume n channel m rest).port = s.port := by
  funext a
  simp only [Network.port, Handshake.core_consume]

/-- So is the receipt of a message. -/
theorem Receipt.effects {channel : Channel} {m : ChannelMessage} {rest : List ChannelMessage}
    (hc : Receipt T s n channel m rest) :
    Effect T s.ports (s.consume n channel m rest).ports := by
  have hport : (s.consume n channel m rest).port = s.port := Network.port_consume
  refine .pass (P := .wire channel n) (Q := .hand n .io) (r := m.tokens n) (b := m.tokens n) hport
    rfl ⟨by simp, ?_, ?_, fun R hR hR' => ?_⟩ ?_
  · simpa [Network.tokens, hc.head] using List.perm_append_comm
  · cases m <;> simp [Network.tokens, hc.idle, Process.onReceivedMessage, Thread.tokens,
      ChannelMessage.tokens]
  · refine .of_eq ?_
    cases R with
    | held k | pending k =>
      by_cases hk : k = n
      · subst hk
        simp [Network.tokens]
      · simp [Network.tokens, hk]
    | queue k x =>
      simp only [Network.ports_tokens, Network.tokens, Core.queued, Handshake.core_consume]
    | hand k σ =>
      by_cases hk : k = n
      · subst hk
        have hσ : σ ≠ .io := fun hσ => hR' (by rw [hσ])
        simp [Network.tokens, hσ]
      · simp [Network.tokens, hk]
    | wire a b =>
      have hab : ¬ (a = channel ∧ b = n) := by
        rintro ⟨rfl, rfl⟩
        exact hR rfl
      simp only [Network.ports_tokens, Network.tokens, Network.consume_wire, upd_apply]
      rw [if_neg hab]
  · refine List.forall₂_same.2 fun tok htok => ?_
    cases m with
    | sendInvitation | acceptInvitation =>
      rw [List.mem_singleton.1 htok]
      constructor
    | userMessage m =>
      obtain ⟨d, -, rfl⟩ := List.mem_map.1 htok
      exact .receive

end

/-! ### Every reachable state -/

/-- What holds of the network in every reachable state. -/
structure Network.Sound (T : Topology) (s : Network) : Prop where
  handshake : Handshake T s
  tidy : Tidy T s
  ports : s.ports.Sound T

namespace Network.Sound
variable {T : Topology} {s : Network}

theorem fresh (h : s.Sound T) (x : Identifier) (hx : x ∈ s.supply) (n : Identifier) :
    (s.process n).localEndpoints.find x = none := by
  by_contra hne
  exact port_ne_none.2 hne (h.ports.names.unused x hx n)

theorem routed (h : s.Sound T) : Routed T s := h.handshake.routed h.ports

end Network.Sound

theorem Reachable.sound {T : Topology} {s : Network} (h : Reachable T s) : s.Sound T := by
  refine h.induct ⟨.start, .initial, .initial (fun _ => rfl) (fun P => ?_) rfl⟩
    (fun s n τ c o hr hs ha => ?_) fun s n channel m rest hr hs hc => ?_
  · cases P <;> rfl
  · exact ⟨hs.handshake.act hr hs.fresh ha, hs.tidy.act hs.ports hs.routed ha,
      hs.ports.effects (ha.effects hs.handshake hs.tidy hs.ports hr)⟩
  · exact ⟨hs.handshake.receipt hc, hs.tidy.receipt hc, hs.ports.effect hc.effects⟩

theorem Reachable.channels {T : Topology} {s : Network} (h : Reachable T s) (n : Identifier) :
    Channels T n (s.process n) :=
  Reachable.forall_process (Channels.initial T)
    (fun _ _ _ _ _ hr hp ha => ha.channels hr.sound.handshake hp)
    (fun _ _ _ _ _ _ hp hc => hp.receipt hc) h n

theorem Act.grows {T : Topology} {s : Network} {n : Identifier} {τ : ThreadId} {c : Option Call}
    {o : Outcome} (ha : Act T s n τ c o) (hr : Reachable T s) :
    s.ports.Grows (s.apply n o).ports :=
  have h := hr.sound
  h.ports.grows (ha.effects h.handshake h.tidy h.ports hr)

end Mage
