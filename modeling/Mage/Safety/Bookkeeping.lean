import Mage.Safety.Aborts
import Mage.Safety.Acceptance
import Mage.Safety.Journeys

/-! The books of an inviter while everything goes on. The keys of its channels are the temporary names of
    pending invitations and the names of the nodes whose acceptances it has read. While one acceptance
    is processed, and other threads send, invite and bind, the lock of the reserved endpoint keeps what
    was queued there together and ahead of what comes later. -/

namespace Mage
open Lib

/-! ### Who has accepted -/

/-- Node `n` has read that node `m` accepts. -/
def Network.HasAccepted (s : Network) (n m : Identifier) : Prop :=
  ∃ t x, .acceptInvitation t m x ∈ s.received m n

/-- The node whose acceptance a thread has yet to enter in the books. -/
def Thread.entering : Thread → Option Identifier
  | .acknowledging _ m _ | .reserving _ _ m _ | .rekeying _ _ m => some m
  | _ => none

namespace Process.Move
variable {p : Process} {τ : ThreadId} {supply : List Identifier} {c : Option Call} {o : Outcome}
  {m : Identifier}

theorem entering_old (h : p.Move τ supply c o) (hm : (o.process.thread τ).entering = some m) :
    (p.thread τ).entering = some m := by
  cases h with
  | createMessagePipes | bindReceiver | acceptInvitation => exact hm
  | acknowledge h1 | reserve h1 => simpa [h1, Thread.entering] using hm
  | _ => simp [Thread.entering] at hm

/-- The entry is made under the name of the node. -/
theorem entering (h : p.Move τ supply c o) (hi : c.isSome → p.thread τ = .idle)
    (hm : (p.thread τ).entering = some m) : (o.process.thread τ).entering = some m ∨
      ∃ r t channel, p.thread τ = .rekeying r t m ∧ p.nodeChannelMap.find t = some channel ∧
        o.process.nodeChannelMap = (p.nodeChannelMap.erase t).insert m channel := by
  cases h with
  | createMessagePipes | sendMessage | bindReceiver | sendInvitation | acceptInvitation =>
    rw [hi rfl] at hm
    cases hm
  | acknowledge h1 | reserve h1 => exact .inl (by simpa [h1, Thread.entering] using hm)
  | @rekey r t m' channel h1 hc =>
    rw [h1] at hm
    cases hm
    exact .inr ⟨r, t, channel, h1, hc, rfl⟩
  | _ => simp_all [Thread.entering]

end Process.Move

/-- Acceptances that were read are entered or about to be, and nothing else is. -/
structure Network.Admits (T : Topology) (s : Network) (n : Identifier) : Prop where
  read : ∀ m, s.HasAccepted n m → (∃ τ, ((s.process n).thread τ).entering = some m) ∨
    (s.process n).nodeChannelMap.find m = some m
  threads : ∀ τ m, ((s.process n).thread τ).entering = some m → s.HasAccepted n m
  keys : ∀ m, (n, m) ∈ T.invites → (s.process n).nodeChannelMap.find m = some m →
    s.HasAccepted n m

section
variable {T : Topology} {s : Network} {n : Identifier} {τ : ThreadId} {c : Option Call} {o : Outcome}

theorem Network.Admits.act (h : s.Admits T n) (hr : Reachable T s) (ha : Act T s n τ c o) :
    (s.apply n o).Admits T n := by
  have hs := hr.sound.handshake
  have hsame : ∀ m, (s.apply n o).HasAccepted n m ↔ s.HasAccepted n m := fun m => Iff.rfl
  have hproc : (s.apply n o).process n = o.process := by simp
  refine ⟨fun m hm => ?_, fun σ m hm => ?_, fun m hi hk => ?_⟩
  · rw [hproc]
    rcases h.read m hm with ⟨σ, hσ⟩ | hk
    · by_cases hστ : σ = τ
      · subst hστ
        rcases ha.move.entering ha.idle hσ with hσ | ⟨r, t, channel, hth, hc, heq⟩
        · exact .inl ⟨σ, hσ⟩
        · have hsound := hs.threads n σ
          rw [hth] at hsound
          obtain ⟨hi, hm', -⟩ := hsound
          obtain rfl : m = channel := Option.some.inj (hm'.symm.trans hc)
          rw [heq]
          exact .inr (hs.find_settled hi)
      · exact .inl ⟨σ, by rw [ha.move.thread_other hστ, hσ]⟩
    · exact .inr (ha.channel_kept hs hk)
  · rw [hsame]
    rcases ha.thread_apply n σ with ⟨-, rfl, hth⟩ | hth
    · rw [hth] at hm
      exact h.threads σ m (ha.move.entering_old hm)
    · exact h.threads σ m (hth ▸ hm)
  · rw [hsame]
    rw [hproc] at hk
    by_cases hold : (s.process n).nodeChannelMap.find m = some m
    · exact h.keys m hi hold
    have hnode := (T.invites_nodes _ hi).2
    rcases ha.move.new_key hk hold with rfl | hin | ⟨t, x, hth, -⟩ | ⟨r, t, hth⟩
    · exact absurd hnode (kInitialChannelName_not_mem_nodes T)
    · exact absurd hnode (T.names_fresh _ (hr.suffix.subset hin))
    · have hsound := hs.threads n τ
      rw [hth] at hsound
      exact absurd hsound.1 (T.invites_asymm _ hi)
    · exact h.threads τ m (by rw [hth]; rfl)

theorem Network.Admits.receipt (h : s.Admits T n) (hr : Reachable T s) {k : Identifier}
    {channel : Channel} {M : ChannelMessage} {rest : List ChannelMessage}
    (hc : Receipt T s k channel M rest) : (s.consume k channel M rest).Admits T n := by
  have hsound := hr.sound.handshake.wires channel k M (by simp [hc.head])
  have hgrow : ∀ m, s.HasAccepted n m → (s.consume k channel M rest).HasAccepted n m := by
    rintro m ⟨t, x, hm⟩
    refine ⟨t, x, ?_⟩
    rw [Network.consume_received, upd_apply]
    split_ifs with hk
    · exact List.mem_append_left _ (hk.1 ▸ hk.2 ▸ hm)
    · exact hm
  have hmap : ((s.consume k channel M rest).process n).nodeChannelMap =
      (s.process n).nodeChannelMap := by
    rw [Network.consume_process, upd₁_apply]
    split_ifs with hk
    · rw [hk]
      rfl
    · rfl
  have hold : ∀ m, s.HasAccepted n m →
      (∃ σ, (((s.consume k channel M rest).process n).thread σ).entering = some m) ∨
        ((s.consume k channel M rest).process n).nodeChannelMap.find m = some m := by
    intro m hm
    rcases h.read m hm with ⟨σ, hσ⟩ | hk
    · refine .inl ⟨σ, ?_⟩
      rcases Receipt.thread_consume s k channel M rest n σ with ⟨rfl, rfl, -⟩ | hth
      · rw [hc.idle] at hσ
        cases hσ
      · rw [hth, hσ]
    · exact .inr (hmap ▸ hk)
  have hnew : ∀ m, (s.consume k channel M rest).HasAccepted n m → s.HasAccepted n m ∨
      (m = channel ∧ n = k ∧ ∃ t x, M = .acceptInvitation t m x) := by
    rintro m ⟨t, x, hm⟩
    rw [Network.consume_received, upd_apply] at hm
    split_ifs at hm with hk
    · obtain ⟨rfl, rfl⟩ := hk
      rcases List.mem_append.1 hm with hm | hm
      · exact .inl ⟨t, x, hm⟩
      · exact .inr ⟨rfl, rfl, t, x, (List.mem_singleton.1 hm).symm⟩
    · exact .inl ⟨t, x, hm⟩
  refine ⟨fun m hm => ?_, fun σ m hm => ?_, fun m hi hk => hgrow m (h.keys m hi (hmap ▸ hk))⟩
  · rcases hnew m hm with hm | ⟨rfl, rfl, t, x, rfl⟩
    · exact hold m hm
    · exact .inl ⟨.io, by simp [Process.onReceivedMessage, Thread.entering]⟩
  · rcases Receipt.thread_consume s k channel M rest n σ with ⟨rfl, rfl, hth⟩ | hth
    · rw [hth] at hm
      cases M with
      | sendInvitation | userMessage => cases hm
      | acceptInvitation t m' x =>
        cases hm
        obtain ⟨rfl, -⟩ := hsound
        refine ⟨t, x, ?_⟩
        rw [Network.consume_received, upd_apply, if_pos ⟨rfl, rfl⟩]
        exact List.mem_append_right _ List.mem_cons_self
    · exact hgrow m (h.threads σ m (hth ▸ hm))

theorem Reachable.admits (hs : Reachable T s) (n : Identifier) : s.Admits T n := by
  refine Reachable.induct (P := fun s => ∀ n, s.Admits T n) (fun n => ?_)
    (fun s k τ c o hr hs ha n => ?_) (fun s k ch m rest hr hs hc n => (hs n).receipt hr hc) hs n
  · refine ⟨?_, ?_, ?_⟩
    · rintro m ⟨t, x, hm⟩
      cases hm
    · rintro τ m ⟨⟩
    · rintro m - ⟨⟩
  · by_cases hk : n = k
    · subst hk
      exact (hs n).act hr ha
    · have hproc : (s.apply k o).process n = s.process n := by
        rw [Network.apply_process, upd₁_apply, if_neg hk]
      obtain ⟨h1, h2, h3⟩ := hs n
      exact ⟨by rw [hproc]; exact h1, by rw [hproc]; exact h2, by rw [hproc]; exact h3⟩

end

/-! ### While an endpoint is locked -/

/-- Endpoint `x` of node `n` is a proxy for `a`, and what arrived there and is not written waits there
    or with thread `ρ`. -/
structure Network.Kept (s : Network) (n x : Identifier) (a : Address) (ρ : ThreadId) : Prop where
  proxy : ∃ e, (s.process n).localEndpoints.find x = some e ∧ e.state = .kUnboundAndProxying ∧
    e.proxyTarget = a
  passed : s.Passed n x a
  sole : ∀ σ, σ ≠ ρ → s.box n a σ = []

section
variable {T : Topology} {s : Network} {n x : Identifier} {a : Address} {τ ρ : ThreadId}
  {c : Option Call} {o : Outcome}

/-- As long as `ρ` has the endpoint locked, and not to pass on a message of its own, no step of any
    thread changes that. -/
theorem Act.kept (ha : Act T s n τ c o) (hr : Reachable T s) (h : s.Kept n x a ρ)
    (hx : x ∈ ((s.process n).thread ρ).locks) (hρ : ((s.process n).thread ρ).passing ≠ some x) :
    (s.apply n o).Kept n x a ρ := by
  have hex := hr.exclusive n
  obtain ⟨e, he, hq, rfl⟩ := h.proxy
  have hport : s.port ⟨n, x⟩ = some ⟨e.peerAddress, .proxying e.proxyTarget⟩ :=
    Network.port_eq_proxying.2 ⟨e, he, rfl, hq, rfl⟩
  refine ⟨?_, ?_, fun σ hσ => ?_⟩
  · obtain ⟨e', he', hlater⟩ := ha.move.later x e he
    obtain ⟨hq', ht⟩ := hlater.proxy hq
    exact ⟨e', by simpa using he', hq', ht⟩
  · refine ha.passed hr hport h.passed fun k m hw hm hpass => ?_
    obtain rfl := hex.eq_of_mem hx (Thread.locks_of_passing hpass)
    exact absurd hpass hρ
  · by_cases hστ : σ = τ
    swap
    · rw [ha.box_other hστ, h.sole σ hσ]
    subst hστ
    have hfree : x ∉ ((s.process n).thread σ).locks := fun hmem => hσ (hex.eq_of_mem hmem hx)
    have hold := h.sole σ hσ
    rw [Network.box] at hold
    rw [Network.box_apply]
    rcases ha.move.letters_new ha.idle with ⟨k, m, hw⟩ | ⟨new, hletters, -, hnew⟩
    · obtain ⟨t, -, -, hcons⟩ := ha.move.letter_written (hr.sound.tidy.threads n σ) hw
      rw [hcons, lane_cons_append] at hold
      exact (List.append_eq_nil_iff.1 hold).2
    · rw [hletters, lane_append, hold, List.nil_append]
      refine hr.lane_new hport ?_ (fun k hk => hfree ?_) hnew
      · by_contra hne
        obtain ⟨-, -, -, -, -, -, -, hlock, -⟩ := ha.move.arrived he hq hne
        rcases hlock with hnone | hmem
        · have hheld := (hex ρ).2 x |>.1 hx
          rw [hnone] at hheld
          cases hheld
        · exact hfree hmem
      · exact Thread.locks_of_flushing (by rw [hk]; rfl)

theorem Receipt.kept {k : Identifier} {channel : Channel} {m : ChannelMessage}
    {rest : List ChannelMessage} (hc : Receipt T s k channel m rest) (h : s.Kept n x a ρ) :
    (s.consume k channel m rest).Kept n x a ρ := by
  refine ⟨?_, h.passed.receipt hc, fun σ hσ => by rw [hc.box, h.sole σ hσ]⟩
  rw [Network.consume_process, upd₁_apply]
  split_ifs with hk
  · exact hk ▸ h.proxy
  · exact h.proxy

theorem Network.Kept.away (h : s.Kept n x a ρ) {k : Identifier} (hk : n ≠ k) (o : Outcome) :
    (s.apply k o).Kept n x a ρ := by
  have hproc : (s.apply k o).process n = s.process n := by simp [hk]
  refine ⟨hproc ▸ h.proxy, h.passed.away hk, fun σ hσ => ?_⟩
  rw [Network.box, hproc]
  exact h.sole σ hσ

/-- What becomes a proxy when it is locked is kept. -/
theorem Act.kept_new (ha : Act T s n τ c o) (hr : Reachable T s) {e e' : Endpoint}
    (he : (s.process n).localEndpoints.find x = some e) (hq : e.state = .kUnboundAndQueueing)
    (he' : o.process.localEndpoints.find x = some e') (hq' : e'.state = .kUnboundAndProxying) :
    (s.apply n o).Kept n x e'.proxyTarget τ := by
  have hport : (s.apply n o).port ⟨n, x⟩ = some ⟨e'.peerAddress, .proxying e'.proxyTarget⟩ :=
    Network.port_eq_proxying.2 ⟨e', by simpa using he', rfl, hq', rfl⟩
  have hnot : s.port ⟨n, x⟩ ≠ some ⟨e'.peerAddress, .proxying e'.proxyTarget⟩ := by
    intro hp
    obtain ⟨f, hf, -, hfq, -⟩ := Network.port_eq_proxying.1 hp
    rw [he, Option.some.injEq] at hf
    rw [hf, hfq] at hq
    cases hq
  refine ⟨⟨e', by simpa using he', hq', rfl⟩, ha.passed_new hr hport hnot, fun σ hσ => ?_⟩
  rcases ha.move.becomes he' hq' with ⟨f, hf, -, hfq, -⟩ | ⟨f, hf, hfq, -, -, hb⟩
  · rw [he, Option.some.injEq] at hf
    rw [hf, hfq] at hq
    cases hq
  · rw [ha.box_other hσ]
    exact hb.box_nil hr hf hfq σ

end

/-! ### One acceptance -/

/-- A thread in `OnReceivedAcceptInvitation`, up to the end of the flush: node `m` accepts with `x` the
    invitation that was sent under `t`, for which `r` is reserved. -/
inductive Thread.Settles (t m x r : Identifier) : Thread → Prop where
  | acknowledging : Settles t m x r (.acknowledging t m x)
  | reserving : Settles t m x r (.reserving r t m x)
  | rekeying : Settles t m x r (.rekeying r t m)
  | draining : Settles t m x r (.draining r m)
  | sending {b : Batch} {m' : Message} {done rest : List EndpointDescriptor}
      (hb : b.caller = .onReceivedAcceptInvitation r m) : Settles t m x r (.sending b m' done rest)
  | unlocking {b : Batch} {l : List Identifier} (hb : b.caller = .onReceivedAcceptInvitation r m) :
      Settles t m x r (.unlocking b l)

/-- The key that a thread is about to take out of one of the maps. -/
def Thread.strikes : Thread → Option Identifier
  | .acknowledging t _ _ | .rekeying _ t _ => some t
  | .invited _ _ _ => some kInitialChannelName
  | _ => none

namespace Process.Move
variable {p : Process} {τ : ThreadId} {supply : List Identifier} {c : Option Call} {o : Outcome}
  {t m x r k : Identifier}

theorem pending_kept (h : p.Move τ supply c o) {y : Identifier}
    (hp : p.pendingInvitations.find k = some y) (hk : (p.thread τ).strikes ≠ some k) :
    o.process.pendingInvitations.find k = some y := by
  cases h with
  | insertPending => exact Table.find_insert_of_present hp _ _
  | @acknowledge t n x r h1 =>
    rw [h1] at hk
    change (p.pendingInvitations.erase t).find k = _
    rw [Table.find_erase, if_neg fun heq => hk (by rw [heq]; rfl), hp]
  | _ => exact hp

theorem channel_kept (h : p.Move τ supply c o) {v : Channel}
    (hv : p.nodeChannelMap.find k = some v) (hk : (p.thread τ).strikes ≠ some k) :
    o.process.nodeChannelMap.find k = some v := by
  have erased : ∀ {j}, (p.thread τ).strikes = some j →
      (p.nodeChannelMap.erase j).find k = some v := by
    intro j hj
    rw [Table.find_erase, if_neg, hv]
    rintro rfl
    exact hk hj
  cases h with
  | acceptInvitation | createChannel => exact Table.find_insert_of_present hv _ _
  | rekeyInitial h1 => exact Table.find_insert_of_present (erased (by rw [h1]; rfl)) _ _
  | rekey h1 => exact Table.find_insert_of_present (erased (by rw [h1]; rfl)) _ _
  | _ => exact hv

/-- One step of the thread, of five kinds: it strikes the invitation out, locks the reserved endpoint,
    gives the channel its new key, goes on with the flush, or is through with it. -/
theorem settlement (h : p.Move τ supply none o) (ht : (p.thread τ).Settles t m x r) :
    (p.thread τ = .acknowledging t m x ∧ ∃ y, p.pendingInvitations.find t = some y ∧
      o.process.thread τ = .reserving y t m x) ∨
    (o.process.thread τ = .rekeying r t m ∧ ∃ e, p.localEndpoints.find r = some e ∧
      e.state = .kUnboundAndQueueing ∧ o.process.localEndpoints.find r = some
        { e with state := .kUnboundAndProxying, proxyTarget := ⟨m, x⟩ }) ∨
    (p.thread τ = .rekeying r t m ∧ ∃ channel, p.nodeChannelMap.find t = some channel ∧
      o.process.nodeChannelMap = (p.nodeChannelMap.erase t).insert m channel ∧
      o.process.thread τ = .draining r channel) ∨
    ((p.thread τ).settling = some m ∧ r ∈ (p.thread τ).locks ∧
      (o.process.thread τ).Settles t m x r ∧ (o.process.thread τ).strikes = none) ∨
    ∃ b, p.thread τ = .unlocking b [] ∧ b.messagesToSend = [] ∧
      b.caller = .onReceivedAcceptInvitation r m ∧ o.written = none ∧
      o.process = (p.release r).goto τ (.acknowledged m) := by
  cases h with
  | @acknowledge _ _ _ y h1 hr =>
    rw [h1] at ht
    cases ht
    exact .inl ⟨h1, y, hr, by simp⟩
  | @reserve _ _ _ _ e h1 he _ hq =>
    rw [h1] at ht
    cases ht
    exact .inr (.inl ⟨by simp, e, he, hq, by simp⟩)
  | @rekey _ _ _ channel h1 hc =>
    rw [h1] at ht
    cases ht
    exact .inr (.inr (.inl ⟨h1, channel, hc, rfl, by simp⟩))
  | drain h1 =>
    rw [h1] at ht ⊢
    cases ht
    refine .inr (.inr (.inr (.inl ⟨rfl, by simp [Thread.locks], ?_, ?_⟩)))
    · simpa using .unlocking rfl
    · simp [Thread.strikes]
  | take h1 | next h1 =>
    rw [h1] at ht ⊢
    cases ht
    next hb =>
    refine .inr (.inr (.inr (.inl ⟨?_, ?_, ?_, by simp [Thread.strikes]⟩)))
    · simp [Thread.settling, hb, Caller.settling]
    · simp [Thread.locks, hb, Caller.locks]
    · simpa using .sending hb
  | write h1 | unlock h1 =>
    rw [h1] at ht ⊢
    cases ht
    next hb =>
    refine .inr (.inr (.inr (.inl ⟨?_, ?_, ?_, by simp [Thread.strikes]⟩)))
    · simp [Thread.settling, hb, Caller.settling]
    · simp [Thread.locks, hb, Caller.locks]
    · simpa using .unlocking hb
  | @drained b _ _ h1 hm hb =>
    rw [h1] at ht
    cases ht with
    | unlocking hb' =>
      rw [hb] at hb'
      cases hb'
      exact .inr (.inr (.inr (.inr ⟨b, h1, hm, hb, rfl, rfl⟩)))
  | sent h1 _ hb | sentToProxy h1 _ hb =>
    rw [h1] at ht
    cases ht with
    | unlocking hb' =>
      rw [hb] at hb'
      cases hb'
  | populated h1 | populate h1 | checkSent h1 | routeRemote h1 | routeLocal h1 | deliverToProxy h1
  | deliver h1 | receive h1 | recover h1 | relay h1 | dispatch h1 | forward h1 | writeForwarded h1
  | releaseTarget h1 | rekeyInitial h1 | accept h1 | reply h1 | accepted h1 | acknowledged h1
  | invite h1 | createChannel h1 | insertPending h1 | startChannel h1 =>
    rw [h1] at ht
    cases ht

end Process.Move

theorem Thread.Settles.strikes {t m x r k : Identifier} {th : Thread} (h : th.Settles t m x r)
    (hk : th.strikes = some k) : k = t := by
  cases h <;> cases hk <;> rfl

theorem Thread.Settles.not_idle {t m x r : Identifier} {th : Thread} (h : th.Settles t m x r) :
    th ≠ .idle := by
  rintro rfl
  cases h

theorem Thread.Settles.passing {t m x r : Identifier} {th : Thread} (h : th.Settles t m x r)
    (y : Identifier) : th.passing ≠ some y := by
  cases h with
  | sending hb | unlocking hb => simp [Thread.passing, hb, Caller.passing]
  | _ => simp [Thread.passing]

/-- Nothing is taken out of the maps but what is under `t`, and nothing that arrived is forgotten. -/
structure Process.Retains (p p' : Process) (t : Identifier) : Prop where
  pending : ∀ k y, k ≠ t → p.pendingInvitations.find k = some y →
    p'.pendingInvitations.find k = some y
  channels : ∀ k c, k ≠ t → p.nodeChannelMap.find k = some c → p'.nodeChannelMap.find k = some c
  arrivals : ∀ y, p.arrivals y <+: p'.arrivals y

namespace Process.Retains
variable {p p' p'' : Process} {t : Identifier}

theorem refl (p : Process) (t : Identifier) : p.Retains p t :=
  ⟨fun _ _ _ h => h, fun _ _ _ h => h, fun _ => List.prefix_rfl⟩

theorem trans (h : p.Retains p' t) (h' : p'.Retains p'' t) : p.Retains p'' t :=
  ⟨fun k y hk hy => h'.pending k y hk (h.pending k y hk hy),
    fun k c hk hc => h'.channels k c hk (h.channels k c hk hc),
    fun y => (h.arrivals y).trans (h'.arrivals y)⟩

end Process.Retains

theorem Process.Move.retains {p : Process} {τ : ThreadId} {supply : List Identifier}
    {c : Option Call} {o : Outcome} {t : Identifier} (h : p.Move τ supply c o)
    (hi : c.isSome → p.thread τ = .idle) (ht : ∀ k, (p.thread τ).strikes = some k → k = t) :
    p.Retains o.process t where
  pending k _ hk hy := h.pending_kept hy fun heq => hk (ht k heq)
  channels k _ hk hc := h.channel_kept hc fun heq => hk (ht k heq)
  arrivals y := by
    rcases h.bringing hi [] with ⟨heq, -⟩ | ⟨_, _, _, -, -, -, -, heq, -⟩ | ⟨z, l, -, -, heq, -⟩ <;>
      rw [heq]
    rw [upd₁_apply]
    split_ifs with hy
    · exact hy ▸ List.prefix_append _ _
    · exact List.prefix_rfl

/-- Node `n` processes that acceptance, and this is how far its tables are. -/
structure Network.Settling (T : Topology) (s : Network) (n t m x r : Identifier) : Prop where
  thread : ((s.process n).thread .io).Settles t m x r
  drawn : t ∈ T.names ∧ t ∉ s.supply
  noted : (s.process n).thread .io = .acknowledging t m x →
    (s.process n).pendingInvitations.find t = some r
  kept : r ∈ ((s.process n).thread .io).locks → s.Kept n r ⟨m, x⟩ .io
  erased : ((s.process n).thread .io).settling = some m →
    (s.process n).nodeChannelMap.find t = none

section
variable {T : Topology} {s : Network} {n t m x r : Identifier} {τ : ThreadId} {c : Option Call}
  {o : Outcome}

/-- Only the thread that reads the sockets strikes anything out. -/
theorem Reachable.strikes (hr : Reachable T s) (hτ : τ ≠ .io) :
    ((s.process n).thread τ).strikes = none := by
  cases τ with
  | io => exact absurd rfl hτ
  | user k =>
    have hio := (hr.channels n).ioOnly k
    cases hth : (s.process n).thread (.user k) <;> simp_all [Thread.strikes, Thread.ioOnly]

/-- The steps of the other threads leave it there. -/
theorem Network.Settling.other (h : s.Settling T n t m x r) (hr : Reachable T s)
    (ha : Act T s n τ c o) (hτ : τ ≠ .io) : (s.apply n o).Settling T n t m x r := by
  have hth : ((s.apply n o).process n).thread .io = (s.process n).thread .io := by
    simp [ha.move.thread_other (Ne.symm hτ)]
  have hproc : (s.apply n o).process n = o.process := by simp
  refine ⟨hth ▸ h.thread, ⟨h.drawn.1, fun hin => h.drawn.2 (ha.move.suffix.subset hin)⟩, ?_, ?_, ?_⟩
  · rw [hth, hproc]
    exact fun hio => ha.move.pending_kept (h.noted hio) (by simp [hr.strikes hτ])
  · rw [hth]
    exact fun hl => ha.kept hr (h.kept hl) hl (h.thread.passing r)
  · rw [hth, hproc]
    exact fun hio => ha.temp_gone hr.sound.handshake h.drawn.1 h.drawn.2 (h.erased hio)

theorem Network.Settling.away (h : s.Settling T n t m x r) {k : Identifier} (hk : n ≠ k)
    (ha : Act T s k τ c o) : (s.apply k o).Settling T n t m x r := by
  have hproc : (s.apply k o).process n = s.process n := by simp [hk]
  refine ⟨hproc ▸ h.thread, ⟨h.drawn.1, fun hin => h.drawn.2 (ha.move.suffix.subset hin)⟩, ?_, ?_, ?_⟩
  · rw [hproc]
    exact h.noted
  · rw [hproc]
    exact fun hl => (h.kept hl).away hk o
  · rw [hproc]
    exact h.erased

theorem Network.Settling.receipt (h : s.Settling T n t m x r) {k : Identifier} {channel : Channel}
    {M : ChannelMessage} {rest : List ChannelMessage} (hc : Receipt T s k channel M rest) :
    (s.consume k channel M rest).Settling T n t m x r := by
  have hk : n ≠ k := by
    rintro rfl
    exact h.thread.not_idle hc.idle
  have hproc : (s.consume k channel M rest).process n = s.process n := by simp [hk]
  refine ⟨hproc ▸ h.thread, h.drawn, ?_, ?_, ?_⟩
  · rw [hproc]
    exact h.noted
  · rw [hproc]
    exact fun hl => hc.kept (h.kept hl)
  · rw [hproc]
    exact h.erased

/-- The steps of the thread itself take it further. -/
theorem Network.Settling.own (h : s.Settling T n t m x r) (hr : Reachable T s)
    (ha : Act T s n .io none o) : (s.apply n o).Settling T n t m x r ∨
      ∃ b, (s.process n).thread .io = .unlocking b [] ∧ b.messagesToSend = [] ∧
        b.caller = .onReceivedAcceptInvitation r m ∧ o.written = none ∧
        o.process = ((s.process n).release r).goto .io (.acknowledged m) := by
  have hs := hr.sound.handshake
  have hproc : (s.apply n o).process n = o.process := by simp
  have hdrawn : t ∈ T.names ∧ t ∉ (s.apply n o).supply :=
    ⟨h.drawn.1, fun hin => h.drawn.2 (ha.move.suffix.subset hin)⟩
  have hsound := hs.threads n .io
  rcases ha.move.settlement h.thread with ⟨hth, y, hy, hth'⟩ | ⟨hth', e, he, hq, he'⟩ |
    ⟨hth, channel, hc, hmap, hth'⟩ | ⟨hsett, hl, hth', hnone⟩ | hlast
  · obtain rfl : r = y := Option.some.inj ((h.noted hth).symm.trans hy)
    left
    refine ⟨?_, hdrawn, ?_, ?_, ?_⟩ <;> rw [hproc, hth']
    · exact .reserving
    · rintro ⟨⟩
    · rintro ⟨⟩
    · rintro ⟨⟩
  · left
    refine ⟨?_, hdrawn, ?_, ?_, ?_⟩ <;> rw [hproc, hth']
    · exact .rekeying
    · rintro ⟨⟩
    · exact fun _ => ha.kept_new hr he hq he' rfl
    · rintro ⟨⟩
  · rw [hth] at hsound
    obtain rfl : m = channel := Option.some.inj (hsound.2.1.symm.trans hc)
    have hne : t ≠ m := by
      rintro rfl
      exact T.names_fresh _ h.drawn.1 (T.invites_nodes _ hsound.1).2
    left
    refine ⟨?_, hdrawn, ?_, ?_, ?_⟩ <;> rw [hproc, hth']
    · exact .draining
    · rintro ⟨⟩
    · have hl : r ∈ ((s.process n).thread .io).locks := by simp [hth, Thread.locks]
      exact fun _ => ha.kept hr (h.kept hl) hl (h.thread.passing r)
    · rw [hmap]
      simp [hne]
  · left
    refine ⟨by rwa [hproc], hdrawn, fun hio => ?_, fun _ => ha.kept hr (h.kept hl) hl (h.thread.passing r),
      fun _ => ?_⟩
    · rw [hproc] at hio
      rw [hio] at hnone
      cases hnone
    · rw [hproc]
      exact ha.temp_gone hs h.drawn.1 h.drawn.2 (h.erased hsett)
  · exact .inr hlast

/-- When it is through with the flush, all that was queued has been written. -/
theorem Network.Settling.flushed (h : s.Settling T n t m x r) (hr : Reachable T s) {b : Batch}
    (hth : (s.process n).thread .io = .unlocking b []) (hb : b.messagesToSend = [])
    (hcall : b.caller = .onReceivedAcceptInvitation r m) :
    (∃ e, (s.process n).localEndpoints.find r = some e ∧ e.state = .kUnboundAndProxying ∧
      e.proxyTarget = ⟨m, x⟩ ∧ e.incomingMessageQueue = []) ∧
    s.written n ⟨m, x⟩ = s.arrived ⟨n, r⟩ := by
  have hl : r ∈ ((s.process n).thread .io).locks := by simp [hth, Thread.locks, hcall, Caller.locks]
  have hkept := h.kept hl
  obtain ⟨e, he, hq, htarget⟩ := hkept.proxy
  have hqueue : e.incomingMessageQueue = [] := by
    refine (((hr.untouched.stock n).stocked r e he).proxying hq).resolve_right ?_
    rintro ⟨ρ, hρ⟩
    obtain rfl := (hr.exclusive n).eq_of_mem hl (Thread.locks_of_flushing hρ)
    rw [hth] at hρ
    cases hρ
  have hbox : ∀ σ, s.box n ⟨m, x⟩ σ = [] := by
    intro σ
    by_cases hσ : σ = .io
    · rw [hσ, Network.box, hth, Thread.letters, hb]
      rfl
    · exact hkept.sole σ hσ
  refine ⟨⟨e, he, hq, htarget, hqueue⟩, ?_⟩
  have harr := hkept.passed.carried.settled hbox
  rw [Core.queued_of_find he, hqueue, List.map_nil, List.append_nil] at harr
  exact harr.symm

end

/-- The channel of the acceptance that a thread is through with. -/
def Thread.processed : Thread → Option Channel
  | .acknowledged c => some c
  | _ => none

theorem Thread.Settles.not_processed {t m x r : Identifier} {th : Thread} (h : th.Settles t m x r) :
    th.processed = none := by
  cases h <;> rfl

/-- Runs from `s`, with the steps of all threads in any order that the rule `ok` allows, until node `n`
    is through with the acceptance that it processes. -/
abbrev Network.Processes (T : Topology) (ok : Network → Label → Prop) (n : Identifier) (s : Network) :
    Network → Prop :=
  Reaches (fun s l s' => s.step l = .ok s')
    (fun s l => (Permitted T s l ∧ ok s l) ∧ ((s.process n).thread .io).processed = none) s

/-- Node `n` has processed the acceptance of `t` by `m` since state `s₀`: the invitation is struck out,
    the channel has the name of the acceptor, the reserved endpoint `r` is a proxy to `x`, where
    nothing waits, and what was written for `x` is what ever arrived at `r`, in the same order: first
    what was queued in `s₀`. -/
structure Network.Entered (s₀ s : Network) (n t m x r : Identifier) : Prop where
  thread : ((s.process n).thread .io).processed = some m
  struck : (s.process n).pendingInvitations.find t = none
  erased : (s.process n).nodeChannelMap.find t = none
  channel : ∀ k, (s.process n).nodeChannelMap.find k = some m ↔ k = m
  retained : (s₀.process n).Retains (s.process n) t
  reserved : ∃ e, (s.process n).localEndpoints.find r = some e ∧ e.state = .kUnboundAndProxying ∧
    e.proxyTarget = ⟨m, x⟩ ∧ e.incomingMessageQueue = []
  written : s.written n ⟨m, x⟩ = s.arrived ⟨n, r⟩
  queued : ((s₀.process n).queued r).map Message.payload <+: s.written n ⟨m, x⟩

section
variable {T : Topology} {s₀ s : Network} {n t m x r : Identifier} {τ : ThreadId} {c : Option Call}
  {o : Outcome} {ok : Network → Label → Prop}

/-- The last step. -/
theorem Network.Settling.entered (h : s.Settling T n t m x r) (hr : Reachable T s)
    (hkept : (s₀.process n).Retains (s.process n) t)
    (hold : (s₀.process n).arrivals r = ((s₀.process n).queued r).map Message.payload) {b : Batch}
    (hth : (s.process n).thread .io = .unlocking b []) (hb : b.messagesToSend = [])
    (hcall : b.caller = .onReceivedAcceptInvitation r m) (hw : o.written = none)
    (ho : o.process = ((s.process n).release r).goto .io (.acknowledged m)) :
    s₀.Entered (s.apply n o) n t m x r := by
  obtain ⟨hreserved, hwritten⟩ := h.flushed hr hth hb hcall
  have hsett : ((s.process n).thread .io).settling = some m := by
    simp [hth, Thread.settling, hcall, Caller.settling]
  have herased := h.erased hsett
  have hproc : (s.apply n o).process n = o.process := by simp
  have hw' : (s.apply n o).written n ⟨m, x⟩ = (s.apply n o).arrived ⟨n, r⟩ := by
    rw [Network.written_apply_none _ (by simp [hw]), hwritten, Network.arrived, Network.arrived,
      hproc, ho]
    rfl
  obtain ⟨hm, -, -⟩ := (hr.channels n).settling .io m hsett
  refine ⟨by simp [ho, Thread.processed], ?_, ?_, fun k => ?_, ?_, ?_, hw', ?_⟩
  · rw [hproc, ho]
    by_contra hne
    obtain ⟨y, hy⟩ := Option.ne_none_iff_exists'.1 hne
    obtain ⟨c, -, hc⟩ := (hr.books n).pending t y hy
    rw [herased] at hc
    cases hc
  · rw [hproc, ho]
    exact herased
  · rw [hproc, ho]
    exact ⟨fun hk => (hr.channels n).injective k m m hk hm, fun hk => hk ▸ hm⟩
  · rw [hproc, ho]
    exact ⟨hkept.pending, hkept.channels, hkept.arrivals⟩
  · rw [hproc, ho]
    exact hreserved
  · rw [hw', ← hold, Network.arrived, hproc, ho]
    exact hkept.arrivals r

/-- Whatever the threads do, the acceptance is being processed or has been. -/
theorem Network.Settling.run (h : s₀.Settling T n t m x r) (hr : Reachable T s₀)
    (hold : (s₀.process n).arrivals r = ((s₀.process n).queued r).map Message.payload)
    (hrun : s₀.Processes T ok n s) : Reachable T s ∧
      (s.Settling T n t m x r ∧ (s₀.process n).Retains (s.process n) t ∨ s₀.Entered s n t m x r) := by
  refine hrun.invariant (P := fun s => Reachable T s ∧
    (s.Settling T n t m x r ∧ (s₀.process n).Retains (s.process n) t ∨ s₀.Entered s n t m x r))
    ⟨hr, .inl ⟨h, .refl _ _⟩⟩ ?_
  rintro s l s' - ⟨hr, hs⟩ ⟨⟨hp, -⟩, hnot⟩ hstep
  refine ⟨.step hr ⟨hp, trivial⟩ hstep, ?_⟩
  obtain ⟨hs, hkept⟩ := hs.resolve_right fun hdone => by simp [hdone.thread] at hnot
  rcases Network.advance hp hstep with ⟨k, τ, c, o, rfl, ha, rfl⟩ | ⟨k, ch, M, rest, rfl, hc, rfl⟩
  swap
  · refine .inl ⟨hs.receipt hc, ?_⟩
    rw [Network.consume_process, upd₁_apply]
    split_ifs with hk
    · exact hk ▸ ⟨hkept.pending, hkept.channels, hkept.arrivals⟩
    · exact hkept
  by_cases hk : n = k
  swap
  · exact .inl ⟨hs.away hk ha, by simpa [hk] using hkept⟩
  subst hk
  have hretains : (s₀.process n).Retains ((s.apply n o).process n) t := by
    refine hkept.trans ?_
    rw [Network.apply_process, upd₁_apply, if_pos rfl]
    refine ha.move.retains ha.idle fun j hj => ?_
    by_cases hτ : τ = .io
    · exact hs.thread.strikes (hτ ▸ hj)
    · rw [hr.strikes hτ] at hj
      cases hj
  by_cases hτ : τ = .io
  swap
  · exact .inl ⟨hs.other hr ha hτ, hretains⟩
  subst hτ
  cases c with
  | some c => exact absurd (ha.idle rfl) hs.thread.not_idle
  | none =>
    rcases hs.own hr ha with hs' | ⟨b, hth, hb, hcall, hw, ho⟩
    · exact .inl ⟨hs', hretains⟩
    · exact .inr (hs.entered hr hkept hold hth hb hcall hw ho)

end

/-! ### A node that only invites -/

/-- Node `n` reads no user message, only what nodes answer to its invitations. -/
def Inviting (n : Identifier) (s : Network) : Label → Prop
  | .read k channel => k = n → ∀ M ∈ (s.wire channel n).head?, M.user? = none
  | .call _ _ _ | .run _ _ => True

instance (n : Identifier) (s : Network) (l : Label) : Decidable (Inviting n s l) :=
  match l with
  | .read k channel =>
    inferInstanceAs (Decidable (k = n → ∀ M ∈ (s.wire channel n).head?, M.user? = none))
  | .call _ _ _ | .run _ _ => .isTrue trivial

theorem Process.Move.receiving_old {p : Process} {τ : ThreadId} {supply : List Identifier}
    {c : Option Call} {o : Outcome} (h : p.Move τ supply c o)
    (ht : (o.process.thread τ).routine = some .onReceivedUserMessage) :
    (p.thread τ).routine = some .onReceivedUserMessage := by
  cases h with
  | createMessagePipes | bindReceiver | acceptInvitation => exact ht
  | receive h1 | recover h1 | relay h1 | dispatch h1 | forward h1 | writeForwarded h1 =>
    rw [h1]
    rfl
  | _ => simp [Thread.routine] at ht

section
variable {T : Topology} {s : Network} {n : Identifier}

/-- Then no thread of it ever receives one. -/
theorem ReachableBy.none_receiving (hs : ReachableBy T (Inviting n) s) (τ : ThreadId) :
    ((s.process n).thread τ).routine ≠ some .onReceivedUserMessage := by
  refine hs.induct (P := fun s => ∀ τ, ((s.process n).thread τ).routine ≠
    some .onReceivedUserMessage) (fun τ h => (by cases h)) (fun s k τ c o hr hs ha _ σ hσ => ?_)
    (fun s k ch m rest hr hs hc hok σ hσ => ?_) τ
  · rcases ha.thread_apply n σ with ⟨rfl, rfl, hth⟩ | hth
    · exact hs σ (ha.move.receiving_old (hth ▸ hσ))
    · exact hs σ (hth ▸ hσ)
  · rcases Receipt.thread_consume s k ch m rest n σ with ⟨rfl, rfl, hth⟩ | hth
    · rw [hth] at hσ
      cases m with
      | sendInvitation | acceptInvitation => cases hσ
      | userMessage m =>
        have hnone := hok rfl (.userMessage m) (by rw [hc.head]; rfl)
        cases hnone
    · exact hs σ (hth ▸ hσ)

/-- So all that it queues and sends is its own, and no assertion fails in what it does for an
    acceptance. -/
theorem ReachableBy.settles_unfailing (hs : ReachableBy T (Inviting n) s) {t m x r : Identifier}
    (ht : ((s.process n).thread .io).Settles t m x r ∨
      ((s.process n).thread .io).processed = some m)
    (k : Check) : s.step (.run n .io) ≠ .error (.check k) := by
  intro hl
  have hhome : (s.process n).Home := by
    refine hs.home_of n fun s τ hs _ => keepsHome_iff.2 fun y m done e hth _ _ => ?_
    exact absurd (by rw [hth]; rfl) (ReachableBy.none_receiving hs τ)
  cases (ReachableBy.reachable hs).run_aborts hl with
  | dependent hth hf =>
    refine hhome.threads .io _ ?_ hf
    rw [hth]
    exact List.mem_append_left _ List.mem_cons_self
  | invite hth | recover hth | carrier hth | route hth =>
    rw [hth] at ht
    rcases ht with ht | ht <;> cases ht

theorem Thread.entering_of_routine {th : Thread}
    (h : th.routine ≠ some .onReceivedAcceptInvitation) : th.entering = none := by
  cases th <;> simp_all [Thread.entering, Thread.routine]

theorem Thread.enters_of_routine {th : Thread}
    (h : th.routine ≠ some .sendInvitationAndGetMessagePipe) : th.enters = none := by
  cases th <;> simp_all [Thread.enters, Thread.routine]

/-- The keys of the channels, once all that was begun is in the books. -/
theorem Reachable.keys_exact (hs : Reachable T s) (hn : ∀ i, (i, n) ∉ T.invites)
    (hdone : ∀ τ, ((s.process n).thread τ).routine ≠ some .sendInvitationAndGetMessagePipe ∧
      ((s.process n).thread τ).routine ≠ some .onReceivedAcceptInvitation) (k : Identifier) :
    ((s.process n).nodeChannelMap.find k ≠ none ↔
      (s.process n).pendingInvitations.find k ≠ none ∨ s.HasAccepted n k) ∧
    ¬ ((s.process n).pendingInvitations.find k ≠ none ∧ s.HasAccepted n k) := by
  have hbooks := hs.books n
  have hadmits := hs.admits n
  have hinj := (hs.channels n).injective
  have hentering : ∀ τ, ((s.process n).thread τ).entering = none :=
    fun τ => Thread.entering_of_routine (hdone τ).2
  have haccepted : ∀ {m}, s.HasAccepted n m → (s.process n).nodeChannelMap.find m = some m := by
    intro m hm
    refine (hadmits.read m hm).resolve_left ?_
    rintro ⟨τ, hτ⟩
    rw [hentering τ] at hτ
    cases hτ
  refine ⟨⟨fun hk => ?_, ?_⟩, ?_⟩
  · obtain ⟨c, hc⟩ := Option.ne_none_iff_exists'.1 hk
    have hi : (n, c) ∈ T.invites :=
      (hs.sound.handshake.entries n k c hc).linked.resolve_right (hn c)
    obtain ⟨r, hr, rfl⟩ := hbooks.keys k c hc hi
    cases hbooks.stages r hr with
    | @entering τ ht =>
      rw [Thread.enters_of_routine (hdone τ).1] at ht
      cases ht
    | pending hk' hp =>
      obtain rfl := hinj k _ _ hc hk'
      exact .inl (by simp [hp])
    | @reserving τ m x ht | @rekeying τ m ht =>
      have hτ := hentering τ
      rw [ht] at hτ
      cases hτ
    | settled hk' =>
      obtain rfl := hinj k _ _ hc hk'
      exact .inr (hadmits.keys _ hi hc)
  · rintro (hp | hm)
    · obtain ⟨x, hx⟩ := Option.ne_none_iff_exists'.1 hp
      obtain ⟨c, -, hc⟩ := hbooks.pending k x hx
      simp [hc]
    · simp [haccepted hm]
  · rintro ⟨hp, hm⟩
    obtain ⟨x, hx⟩ := Option.ne_none_iff_exists'.1 hp
    refine T.names_fresh k (hs.sound.handshake.pending_drawn n k x hx).1 ?_
    exact (hs.sound.handshake.entries n k k (haccepted hm)).linked.node

/-- What was written stays in front of what is written later. -/
theorem Network.Runs.written {ok : Label → Prop} {s' : Network} (h : s.Runs T ok s')
    (hr : Reachable T s) (k : Identifier) (a : Address) : s.written k a <+: s'.written k a := by
  refine (Network.Runs.induct h hr (P := fun u => s.written k a <+: u.written k a) List.prefix_rfl
    (fun u m τ c o _ hP _ _ => ?_) (fun u m ch M rest _ hP hc _ => ?_)).2
  · refine hP.trans ?_
    rw [Network.written, Network.written, Network.transmitted_apply, lane_append]
    exact List.prefix_append _ _
  · have hsame : (u.consume m ch M rest).written k a = u.written k a := by
      rw [Network.written, Network.transmitted_consume hc, Network.written]
    rwa [hsame]

/-- An acceptance that is read is for an invitation that is pending. -/
theorem Reachable.settling (hs : Reachable T s) {t m x : Identifier}
    (ht : (s.process n).thread .io = .acknowledging t m x) :
    ∃ r e, (s.process n).pendingInvitations.find t = some r ∧
      (s.process n).nodeChannelMap.find t = some m ∧
      (s.process n).localEndpoints.find r = some e ∧ e.state = .kUnboundAndQueueing ∧
      s.Settling T n t m x r := by
  have hsound := hs.sound.handshake.threads n .io
  rw [ht] at hsound
  obtain ⟨-, y, ⟨hc, r, hp, -⟩, -⟩ := hsound
  obtain ⟨e, he, hq⟩ := hs.noted_queueing hp
  refine ⟨r, e, hp, hc, he, hq, ?_, hs.sound.handshake.temps_drawn (.hand n .io) t ?_, fun _ => hp,
    ?_, ?_⟩
  · exact ht ▸ .acknowledging
  · simp [Network.temps, ht, Thread.temps]
  · simp [ht, Thread.locks]
  · simp [ht, Thread.settling]

end

/-- In every reachable state of a node that accepts no invitation itself, whatever it has sent and
    however its threads interleave. Once no call to invite and no acceptance is half-way, the keys of
    its channels are the temporary names of pending invitations and the names of the nodes that
    accepted, no name is both, every channel that was created has exactly one key, and every pending
    name has the endpoint that was reserved with it, still queueing. An acceptance that is read is for a
    pending invitation; whatever all threads do until it is processed, it is then entered in the books,
    the endpoints of the other invitations still queue, all that was queued is on the channel in order,
    and all that is written there later comes behind.
    While the node reads nothing but answers, nothing fails on the way. -/
theorem invitation_books_exact {T : Topology} {s : Network} (hs : Reachable T s) {n : Identifier}
    (hn : ∀ i, (i, n) ∉ T.invites) :
    ((∀ τ, ((s.process n).thread τ).routine ≠ some .sendInvitationAndGetMessagePipe ∧
        ((s.process n).thread τ).routine ≠ some .onReceivedAcceptInvitation) →
      (∀ k, ((s.process n).nodeChannelMap.find k ≠ none ↔
          (s.process n).pendingInvitations.find k ≠ none ∨ s.HasAccepted n k) ∧
        ¬ ((s.process n).pendingInvitations.find k ≠ none ∧ s.HasAccepted n k)) ∧
      (∀ r ∈ (s.process n).reservations, ∃ k, ∀ j,
        (s.process n).nodeChannelMap.find j = some r.channel ↔ j = k) ∧
      ∀ t x, (s.process n).pendingInvitations.find t = some x →
        (∃ c, ⟨c, t, x⟩ ∈ (s.process n).reservations) ∧
        ∃ e, (s.process n).localEndpoints.find x = some e ∧ e.state = .kUnboundAndQueueing) ∧
    ∀ t m x, (s.process n).thread .io = .acknowledging t m x →
      ∃ r e, (s.process n).pendingInvitations.find t = some r ∧
        (s.process n).nodeChannelMap.find t = some m ∧
        (s.process n).localEndpoints.find r = some e ∧ e.state = .kUnboundAndQueueing ∧
        (∀ s', s.Processes T (fun _ _ => True) n s' →
          ((s'.process n).thread .io).processed = some m →
          s.Entered s' n t m x r ∧
          (∀ k y, (s'.process n).pendingInvitations.find k = some y →
            ∃ f, (s'.process n).localEndpoints.find y = some f ∧ f.state = .kUnboundAndQueueing) ∧
          ∀ s'', s'.Runs T (fun _ => True) s'' → s'.written n ⟨m, x⟩ <+: s''.written n ⟨m, x⟩) ∧
        (ReachableBy T (Inviting n) s → ∀ s', s.Processes T (Inviting n) n s' → ∀ k,
          s'.step (.run n .io) ≠ .error (.check k)) := by
  have hbooks := hs.books n
  refine ⟨fun hdone => ⟨hs.keys_exact hn hdone, fun r hr => ?_, fun t x hp => ?_⟩,
    fun t m x ht => ?_⟩
  · obtain ⟨k, hk, -⟩ := (hbooks.stages r hr).key
    exact ⟨k, fun j => ⟨fun hj => (hs.channels n).injective j k _ hj hk, fun hj => hj ▸ hk⟩⟩
  · obtain ⟨c, hc, -⟩ := hbooks.pending t x hp
    exact ⟨⟨c, hc⟩, hs.noted_queueing hp⟩
  · obtain ⟨r, e, hp, hc, he, hq, hsett⟩ := hs.settling ht
    have hold : (s.process n).arrivals r = ((s.process n).queued r).map Message.payload := by
      have hstock := (hs.untouched.stock n).stocked r e he
      rw [hstock.live (by simp [hq]), hstock.unbound (by simp [hq]), Core.queued_of_find he,
        List.nil_append]
    refine ⟨r, e, hp, hc, he, hq, fun s' hrun hlast => ?_, fun hinv s' hrun k => ?_⟩
    · obtain ⟨hs', hdone⟩ := hsett.run hs hold hrun
      refine ⟨hdone.resolve_left ?_, fun k y hy => hs'.noted_queueing hy,
        fun s'' hruns => hruns.written hs' n ⟨m, x⟩⟩
      rintro ⟨hbusy, -⟩
      rw [hbusy.thread.not_processed] at hlast
      cases hlast
    · have hreach : ReachableBy T (Inviting n) s' :=
        hinv.trans (hrun.mono fun _ _ hok => hok.1)
      obtain ⟨-, hdone⟩ := hsett.run hs hold hrun
      exact ReachableBy.settles_unfailing hreach (hdone.imp (fun h => h.1.thread) fun h => h.thread) k

namespace Sample

/-- Two invitations are sent, and a message over the pipe of the first, which is accepted. -/
def answered : List Label :=
  Label.calling inviter (.user 0) (.sendInvitationAndGetMessagePipe acceptor none) 4 ++
  Label.calling inviter (.user 0) (.sendInvitationAndGetMessagePipe other none) 4 ++
  Label.calling inviter (.user 0) (.sendMessage 1 8 [2] []) 3 ++
  [.call acceptor (.user 0) (.acceptInvitation inviter 0)] ++ Label.reading acceptor inviter 4 ++
  [.read inviter acceptor]

/-- The acceptance is processed, and another thread sends over the same pipe in the middle of it. -/
def interrupted : List Label :=
  [.run inviter .io, .run inviter .io] ++
  Label.calling inviter (.user 1) (.sendMessage 1 9 [3] []) 2 ++ List.replicate 5 (.run inviter .io)

end Sample

/-- The first acceptance is processed while another thread sends, and the second one is awaited. -/
theorem first_message_ahead : ∃ (s s' : Network) (r : Identifier),
    s.Entered s' Sample.inviter (Sample.word 2) Sample.acceptor (Sample.word 6) r ∧
    ((s'.process Sample.inviter).thread (.user 1)).routing = some r ∧
    s'.written Sample.inviter ⟨Sample.acceptor, Sample.word 6⟩ = [⟨8, [2]⟩] ∧
    ∃ q, Reachable Sample.fork q ∧ q.HasAccepted Sample.inviter Sample.acceptor ∧
      ¬ q.HasAccepted Sample.inviter (Sample.word 5) ∧
      (q.process Sample.inviter).nodeChannelMap.find (Sample.word 5) ≠ none := by
  have hn : ∀ i, (i, Sample.inviter) ∉ Sample.fork.invites := by
    intro i hi
    have heq : Sample.inviter ∈ Sample.fork.invites.map Prod.snd := List.mem_map_of_mem hi
    revert heq
    decide
  obtain ⟨s, hs, hio, hp, hrest⟩ := Network.exists_of_follow Sample.fork (fun _ _ => True)
    Sample.answered
    (fun s => ((s.process Sample.inviter).thread .io).acknowledges =
        some (Sample.word 2, Sample.acceptor, Sample.word 6) ∧
      (s.process Sample.inviter).pendingInvitations.find (Sample.word 2) = some (Sample.word 1) ∧
      (Reaches.follow Network.step (fun s l => (Permitted Sample.fork s l ∧ True) ∧
          ((s.process Sample.inviter).thread .io).processed = none) s Sample.interrupted).any fun s' =>
        ((s'.process Sample.inviter).thread .io).processed = some Sample.acceptor ∧
        ((s'.process Sample.inviter).thread (.user 1)).routing = some (Sample.word 1) ∧
        s'.written Sample.inviter ⟨Sample.acceptor, Sample.word 6⟩ = [⟨8, [2]⟩])
    (by decide +kernel)
  obtain ⟨s', hfollow, hend⟩ := (Option.any_eq_true _ _).1 hrest
  obtain ⟨hlast, huser, hwritten⟩ := of_decide_eq_true hend
  obtain ⟨-, hprocess⟩ := invitation_books_exact hs hn
  obtain ⟨r, -, hr, -, -, -, hrun, -⟩ := hprocess _ _ _ (Thread.eq_of_acknowledges hio)
  obtain rfl : Sample.word 1 = r := Option.some.inj (hp.symm.trans hr)
  obtain ⟨hentered, -⟩ := hrun s' (Reaches.of_follow .init hfollow) hlast
  obtain ⟨q, hq, hqio, hquser, hacc, hacc', hpend⟩ := Network.exists_of_follow Sample.fork Orderly
    (Sample.answered ++ List.replicate 8 (.run Sample.inviter .io))
    (fun q => ((q.process Sample.inviter).thread .io).isIdle ∧
      ((q.process Sample.inviter).thread (.user 0)).isIdle ∧
      (q.process Sample.inviter).nodeChannelMap.find Sample.acceptor ≠ none ∧
      (q.process Sample.inviter).pendingInvitations.find Sample.acceptor = none ∧
      (q.process Sample.inviter).pendingInvitations.find (Sample.word 5) ≠ none)
    (by decide +kernel)
  have hidle : ∀ τ, (q.process Sample.inviter).thread τ = .idle := by
    intro τ
    by_contra hbusy
    rcases ReachableBy.two_threads hq _ τ hbusy with rfl | rfl
    · exact hbusy (Thread.isIdle_iff.1 hqio)
    · exact hbusy (Thread.isIdle_iff.1 hquser)
  have hqr : Reachable Sample.fork q := ReachableBy.reachable hq
  obtain ⟨hkeys, -⟩ := (invitation_books_exact hqr hn).1 fun τ => by simp [hidle τ, Thread.routine]
  have hfirst := ((hkeys Sample.acceptor).1.1 hacc).resolve_left (by simp [hacc'])
  have hsecond : ¬ q.HasAccepted Sample.inviter (Sample.word 5) :=
    fun hm => (hkeys (Sample.word 5)).2 ⟨hpend, hm⟩
  exact ⟨s, s', _, hentered, huser, hwritten, q, hqr, hfirst, hsecond,
    (hkeys (Sample.word 5)).1.2 (.inl hpend)⟩

end Mage
