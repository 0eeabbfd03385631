import Mage.Safety.Alone
import Mage.Safety.Invitations

/-! The books of an inviter. For each invitation it draws a temporary name, stores the new channel under
    it and notes the endpoint that is reserved for the acceptor; when the acceptance is back it strikes
    the note out, makes the endpoint a proxy and stores the channel under the name of the acceptor.
    These are separate steps, and other invitations come between them. -/

namespace Mage
open Lib

/-- The endpoint and the temporary name that a thread is about to note. -/
def Thread.enters : Thread → Option (Identifier × Identifier)
  | .insertingPending _ x t => some (x, t)
  | _ => none

/-- A thread is between two entries for the same invitation. -/
def Thread.booking : Thread → Bool
  | .insertingPending _ _ _ | .reserving _ _ _ _ | .rekeying _ _ _ => true
  | _ => false

/-- `x` stands for an endpoint of node `n`. -/
def Process.ProxyTo (p : Process) (x n : Identifier) : Prop :=
  ∃ e, p.localEndpoints.find x = some e ∧ e.state = .kUnboundAndProxying ∧ e.proxyTarget.nodeName = n

/-- How far an invitation has come in the process that sent it. -/
inductive Reservation.Stage (p : Process) (r : Reservation) : Prop where
  | entering {τ : ThreadId}
      (ht : (p.thread τ).enters = some (r.remoteEndpoint, r.temporaryRemoteNodeName))
      (hk : p.nodeChannelMap.find r.temporaryRemoteNodeName = some r.channel)
  | pending (hk : p.nodeChannelMap.find r.temporaryRemoteNodeName = some r.channel)
      (hp : p.pendingInvitations.find r.temporaryRemoteNodeName = some r.remoteEndpoint)
  | reserving {τ : ThreadId} {m x : Identifier}
      (ht : p.thread τ = .reserving r.remoteEndpoint r.temporaryRemoteNodeName m x)
      (hk : p.nodeChannelMap.find r.temporaryRemoteNodeName = some r.channel)
  | rekeying {τ : ThreadId} {m : Identifier}
      (ht : p.thread τ = .rekeying r.remoteEndpoint r.temporaryRemoteNodeName m)
      (hk : p.nodeChannelMap.find r.temporaryRemoteNodeName = some r.channel)
      (hx : p.ProxyTo r.remoteEndpoint r.channel)
  | settled (hk : p.nodeChannelMap.find r.channel = some r.channel)
      (hnone : p.nodeChannelMap.find r.temporaryRemoteNodeName = none)
      (hx : p.ProxyTo r.remoteEndpoint r.channel)

structure Process.Books (T : Topology) (n : Identifier) (p : Process) : Prop where
  stages : ∀ r ∈ p.reservations, r.Stage p
  invites : ∀ r ∈ p.reservations, (n, r.channel) ∈ T.invites
  temps : (p.reservations.map (·.temporaryRemoteNodeName)).Nodup
  channels : (p.reservations.map (·.channel)).Nodup
  pending : ∀ t x, p.pendingInvitations.find t = some x →
    ∃ c, ⟨c, t, x⟩ ∈ p.reservations ∧ p.nodeChannelMap.find t = some c
  entering : ∀ τ x t, (p.thread τ).enters = some (x, t) →
    ∃ c, ⟨c, t, x⟩ ∈ p.reservations ∧ p.nodeChannelMap.find t = some c
  keys : ∀ k c, p.nodeChannelMap.find k = some c → (n, c) ∈ T.invites →
    ∃ r ∈ p.reservations, r.channel = c

/-! ### What a move does to it -/

namespace Process.Move
variable {p : Process} {τ : ThreadId} {supply : List Identifier} {c : Option Call} {o : Outcome}

/-- A reservation is made when its channel is created. -/
theorem reservations (h : p.Move τ supply c o) : o.process.reservations = p.reservations ∨
    ∃ channel l x t, p.thread τ = .creatingChannel channel l x ∧ supply = t :: o.supply ∧
      o.process.reservations = p.reservations ++ [⟨channel, t, x⟩] ∧
      o.process.nodeChannelMap = p.nodeChannelMap.insert t channel ∧
      o.process.pendingInvitations = p.pendingInvitations ∧
      o.process.thread τ = .insertingPending l x t := by
  cases h with
  | createChannel ht hs => exact .inr ⟨_, _, _, _, ht, hs, rfl, rfl, rfl, by simp⟩
  | _ => exact .inl rfl

theorem reservations_kept (h : p.Move τ supply c o) {r : Reservation} (hr : r ∈ p.reservations) :
    r ∈ o.process.reservations := by
  rcases h.reservations with heq | ⟨_, _, _, _, -, -, heq, -⟩ <;> rw [heq]
  · exact hr
  · exact List.mem_append_left _ hr

/-- A note is made by the thread that is about to enter it. -/
theorem pending_old (h : p.Move τ supply c o) {t x : Identifier}
    (ht : o.process.pendingInvitations.find t = some x) :
    p.pendingInvitations.find t = some x ∨
      ((p.thread τ).enters = some (x, t) ∧ o.process.nodeChannelMap = p.nodeChannelMap ∧
        o.process.reservations = p.reservations) := by
  cases h with
  | @insertPending l x' t' h1 =>
    have hf : (p.pendingInvitations.insert t' x').find t = some x := ht
    rw [Table.find_insert] at hf
    split_ifs at hf with htt
    · subst htt
      cases hold : p.pendingInvitations.find t with
      | none =>
        rw [hold, Option.getD_none, Option.some.injEq] at hf
        subst hf
        exact .inr ⟨by rw [h1]; rfl, rfl, rfl⟩
      | some y =>
        rw [hold, Option.getD_some] at hf
        exact .inl hf
    · exact .inl hf
  | @acknowledge t' m y x' h1 =>
    have hf : (p.pendingInvitations.erase t').find t = some x := ht
    rw [Table.find_erase] at hf
    split_ifs at hf
    exact .inl hf
  | _ => exact .inl ht

/-- Only the thread that creates the channel goes on to make the note. -/
theorem enters_old (h : p.Move τ supply c o) (hi : c.isSome → p.thread τ = .idle) {x t : Identifier}
    (ht : (o.process.thread τ).enters = some (x, t)) :
    ∃ channel l, p.thread τ = .creatingChannel channel l x ∧ supply = t :: o.supply ∧
      o.process.reservations = p.reservations ++ [⟨channel, t, x⟩] ∧
      o.process.nodeChannelMap = p.nodeChannelMap.insert t channel := by
  cases h with
  | createMessagePipes | bindReceiver | acceptInvitation =>
    have ht : (p.thread τ).enters = some (x, t) := ht
    rw [hi rfl] at ht
    cases ht
  | createChannel h1 hs =>
    simp only [goto_thread, upd₁_apply, if_true, Thread.enters, Option.some.injEq,
      Prod.mk.injEq] at ht
    obtain ⟨rfl, rfl⟩ := ht
    exact ⟨_, _, h1, hs, rfl, rfl⟩
  | _ => simp [Thread.enters] at ht

theorem starts (h : p.Move τ supply c o) (hi : c.isSome → p.thread τ = .idle) {channel : Channel}
    (ht : (p.thread τ).starting = some channel) (ht' : (o.process.thread τ).starting = none) :
    ∃ r ∈ o.process.reservations, r.channel = channel := by
  cases h with
  | createChannel h1 =>
    rw [h1] at ht
    cases ht
    exact ⟨_, List.mem_append_right _ List.mem_cons_self, rfl⟩
  | _ => simp_all [Thread.starting]

end Process.Move

/-! ### One step -/

theorem Thread.temps_of_enters {t : Thread} {x k : Identifier} (h : t.enters = some (x, k)) :
    t.temps = [k] := by
  cases t <;> cases h
  rfl

theorem Process.ProxyTo.later {p p' : Process} {x n : Identifier} (h : p.ProxyTo x n)
    (hl : Table.Later p.localEndpoints p'.localEndpoints) : p'.ProxyTo x n := by
  obtain ⟨e, he, hq, hn⟩ := h
  obtain ⟨e', he', hl⟩ := hl x e he
  obtain ⟨hq', ht⟩ := hl.proxy hq
  exact ⟨e', he', hq', by rw [ht, hn]⟩

section
variable {T : Topology} {s : Network} {n : Identifier} {τ : ThreadId} {c : Option Call} {o : Outcome}
  {r : Reservation} {t : Identifier}

/-- A temporary key stays, unless this thread is about to replace it. -/
theorem Act.temp_kept (ha : Act T s n τ c o) (hs : Handshake T s) (ht : t ∈ T.names) {k : Channel}
    (hk : (s.process n).nodeChannelMap.find t = some k) {σ : ThreadId} (hσ : σ ≠ τ)
    (htemps : t ∈ ((s.process n).thread σ).temps) :
    o.process.nodeChannelMap.find t = some k := by
  refine (ha.key_stays ht hk).resolve_right ?_
  rintro ⟨x, m, hτ, -⟩
  have heq := hs.temps_eq (P := .hand n σ) (Q := .hand n τ) (t := t) htemps
    (by simp [Network.temps, hτ, Thread.temps])
  cases heq
  exact hσ rfl

/-- A temporary key that is gone does not come back. -/
theorem Act.temp_gone (ha : Act T s n τ c o) (hs : Handshake T s) (ht : t ∈ T.names)
    (hsup : t ∉ s.supply) (hk : (s.process n).nodeChannelMap.find t = none) :
    o.process.nodeChannelMap.find t = none := by
  have hnode : t ∉ T.nodes := T.names_fresh t ht
  have hth := hs.threads n τ
  by_contra hne
  obtain ⟨k, hnew⟩ := Option.ne_none_iff_exists'.1 hne
  rcases ha.move.new_key hnew (by simp [hk]) with rfl | hin | ⟨t', x, hτ, -⟩ | ⟨x, t', hτ⟩
  · exact kInitialChannelName_not_mem_names T ht
  · exact hsup hin
  · rw [hτ] at hth
    exact hnode (T.invites_nodes _ hth.1).1
  · rw [hτ] at hth
    exact hnode (T.invites_nodes _ hth.1).2

/-- One step of the process leaves an invitation where it was, or takes it further. -/
theorem Reservation.Stage.act (h : r.Stage (s.process n)) (hr : Reachable T s)
    (ha : Act T s n τ c o) (ht : r.temporaryRemoteNodeName ∈ T.names)
    (hsup : r.temporaryRemoteNodeName ∉ s.supply) : r.Stage o.process := by
  have hs := hr.sound.handshake
  cases h with
  | @entering σ hσ hk =>
    by_cases heq : σ = τ
    · subst heq
      cases ha.move with
      | @insertPending l x t h1 =>
        have hth := hs.threads n σ
        rw [h1] at hσ hth
        cases hσ
        obtain ⟨-, hnone, -⟩ := hth
        exact .pending hk (by simp [hnone])
      | createMessagePipes | sendMessage | bindReceiver | sendInvitation | acceptInvitation =>
        rw [ha.idle rfl] at hσ
        cases hσ
      | _ => simp_all [Thread.enters]
    · refine .entering (τ := σ) (by rw [ha.move.thread_other heq, hσ]) ?_
      exact ha.temp_kept hs ht hk heq (by simp [Thread.temps_of_enters hσ])
  | pending hk hp =>
    have hth := hs.threads n τ
    cases ha.move with
    | acceptInvitation | createChannel => exact .pending (Table.find_insert_of_present hk _ _) hp
    | insertPending => exact .pending hk (Table.find_insert_of_present hp _ _)
    | rekeyInitial h1 =>
      refine .pending (Table.find_insert_of_present ?_ _ _) hp
      rw [Table.find_erase, if_neg, hk]
      rintro heq
      exact kInitialChannelName_not_mem_names T (heq ▸ ht)
    | @acknowledge t m x y h1 hf =>
      by_cases heq : r.temporaryRemoteNodeName = t
      · subst heq
        rw [hp, Option.some.injEq] at hf
        subst hf
        exact .reserving (τ := τ) (m := m) (x := x) (by simp) hk
      · exact .pending hk (by simpa [heq] using hp)
    | @rekey x t m channel h1 =>
      rw [h1] at hth
      obtain ⟨-, -, hnone⟩ := hth
      refine .pending (Table.find_insert_of_present ?_ _ _) hp
      rw [Table.find_erase, if_neg, hk]
      rintro rfl
      rw [hp] at hnone
      cases hnone
    | _ => exact .pending hk hp
  | @reserving σ m x hσ hk =>
    by_cases heq : σ = τ
    · subst heq
      cases ha.move with
      | @reserve y t m' x' e h1 he =>
        have hth := hs.threads n σ
        rw [h1] at hσ hth
        cases hσ
        obtain ⟨-, hm, -⟩ := hth
        rw [hk, Option.some.injEq] at hm
        exact .rekeying (τ := σ) (m := m) (by simp) hk ⟨_, by simp; rfl, rfl, hm.symm⟩
      | createMessagePipes | sendMessage | bindReceiver | sendInvitation | acceptInvitation =>
        rw [ha.idle rfl] at hσ
        cases hσ
      | _ => simp_all
    · refine .reserving (τ := σ) (m := m) (x := x) (by rw [ha.move.thread_other heq, hσ]) ?_
      exact ha.temp_kept hs ht hk heq (by simp [hσ, Thread.temps])
  | @rekeying σ m hσ hk hx =>
    by_cases heq : σ = τ
    · subst heq
      cases ha.move with
      | @rekey y t m' channel h1 hc =>
        have hth := hs.threads n σ
        rw [h1] at hσ hth
        cases hσ
        obtain ⟨hi, hm, -⟩ := hth
        rw [hk, Option.some.injEq] at hm hc
        subst hm
        subst hc
        refine .settled (hs.find_settled hi) ?_ hx
        have hne : r.temporaryRemoteNodeName ≠ r.channel := by
          intro hne
          exact T.names_fresh _ ht (hne ▸ (T.invites_nodes _ hi).2)
        simp [hne]
      | createMessagePipes | sendMessage | bindReceiver | sendInvitation | acceptInvitation =>
        rw [ha.idle rfl] at hσ
        cases hσ
      | _ => simp_all
    · refine .rekeying (τ := σ) (m := m) (by rw [ha.move.thread_other heq, hσ]) ?_
        (hx.later ha.move.later)
      exact ha.temp_kept hs ht hk heq (by simp [hσ, Thread.temps])
  | settled hk hnone hx =>
    exact .settled (ha.channel_kept hs hk) (ha.temp_gone hs ht hsup hnone) (hx.later ha.move.later)

/-- Where there is a reservation its channel has a key. -/
theorem Reservation.Stage.key {p : Process} (h : r.Stage p) :
    ∃ k, p.nodeChannelMap.find k = some r.channel ∧
      (k = r.temporaryRemoteNodeName ∨ k = r.channel) := by
  cases h with
  | entering _ hk | pending hk | reserving _ hk | rekeying _ hk => exact ⟨_, hk, .inl rfl⟩
  | settled hk => exact ⟨_, hk, .inr rfl⟩

/-- The temporary names that were given out are drawn. -/
theorem Reachable.reservations_drawn (hs : Reachable T s) (n : Identifier) :
    ∀ r ∈ (s.process n).reservations,
      r.temporaryRemoteNodeName ∈ T.names ∧ r.temporaryRemoteNodeName ∉ s.supply := by
  refine Reachable.induct (P := fun s => ∀ n, ∀ r ∈ (s.process n).reservations,
    r.temporaryRemoteNodeName ∈ T.names ∧ r.temporaryRemoteNodeName ∉ s.supply)
    (fun n r hr => ?_) (fun s k τ c o hr hs ha n r hmem => ?_)
    (fun s k ch m rest hr hs hc n r hmem => ?_) hs n
  · cases hr
  · have kept : r ∈ (s.process n).reservations →
        r.temporaryRemoteNodeName ∈ T.names ∧ r.temporaryRemoteNodeName ∉ o.supply := by
      intro hold
      obtain ⟨h1, h2⟩ := hs n r hold
      exact ⟨h1, fun h => h2 (ha.move.suffix.subset h)⟩
    by_cases hn : n = k
    · subst hn
      rw [Network.apply_process, upd₁_apply, if_pos rfl] at hmem
      rcases ha.move.reservations with heq | ⟨channel, l, x, t, -, hsup, heq, -⟩
      · exact kept (heq ▸ hmem)
      · rw [heq, List.mem_append, List.mem_singleton] at hmem
        rcases hmem with hold | rfl
        · exact kept hold
        · have hnodup := hr.supply_nodup
          rw [hsup, List.nodup_cons] at hnodup
          exact ⟨hr.suffix.subset (hsup ▸ List.mem_cons_self), hnodup.1⟩
    · rw [Network.apply_process, upd₁_apply, if_neg hn] at hmem
      exact kept hmem
  · refine hs n r ?_
    by_cases hn : n = k
    · subst hn
      simpa [Network.consume_process] using hmem
    · simpa [hn] using hmem

theorem Process.Books.act (h : (s.process n).Books T n) (hr : Reachable T s) (ha : Act T s n τ c o) :
    o.process.Books T n := by
  have hs := hr.sound.handshake
  have hdrawn := hr.reservations_drawn n
  have hnew := ha.move.reservations
  have hgrow : ∀ {r}, r ∈ (s.process n).reservations → r ∈ o.process.reservations :=
    fun hmem => ha.move.reservations_kept hmem
  -- a channel about to be created is under no key, and its name was never drawn
  have hfresh : ∀ {channel l x t}, (s.process n).thread τ = .creatingChannel channel l x →
      s.supply = t :: o.supply → (n, channel) ∈ T.invites ∧
      channel ∉ (s.process n).reservations.map (·.channel) ∧
      t ∉ (s.process n).reservations.map (·.temporaryRemoteNodeName) ∧
      (s.process n).nodeChannelMap.find t = none := by
    intro channel l x t hτ hsup
    have hth := hs.threads n τ
    rw [hτ] at hth
    refine ⟨hth.1, fun hmem => ?_, fun hmem => ?_, ?_⟩
    · obtain ⟨r, hr', rfl⟩ := List.mem_map.1 hmem
      obtain ⟨k, hk, -⟩ := (h.stages r hr').key
      exact ((hr.channels n).starting τ r.channel (by rw [hτ]; rfl)).2 k hk
    · obtain ⟨r, hr', rfl⟩ := List.mem_map.1 hmem
      exact (hdrawn r hr').2 (hsup ▸ List.mem_cons_self)
    · by_contra hne
      obtain ⟨k, hk⟩ := Option.ne_none_iff_exists'.1 hne
      have hin : t ∈ s.supply := hsup ▸ List.mem_cons_self
      exact ((hs.entries n t k hk).of_name (hr.suffix.subset hin)).1 hin
  -- what is noted or about to be noted keeps its key
  have hkept : ∀ {t x k}, k ∈ (s.process n).nodeChannelMap.find t →
      (s.process n).pendingInvitations.find t = some x → o.process.nodeChannelMap.find t = some k := by
    intro t x k hk hp
    refine (ha.key_stays (hs.pending_drawn n t x hp).1 hk).resolve_right ?_
    rintro ⟨y, m, hτ, -⟩
    have hth := hs.threads n τ
    rw [hτ] at hth
    rw [hth.2.2] at hp
    cases hp
  refine ⟨fun r hmem => ?_, fun r hmem => ?_, ?_, ?_, fun t x hp => ?_, fun σ x t hσ => ?_,
    fun k channel hk hi => ?_⟩
  · rcases hnew with heq | ⟨channel, l, x, t, hτ, hsup, heq, hmap, -, hτ'⟩
    · rw [heq] at hmem
      exact (h.stages r hmem).act hr ha (hdrawn r hmem).1 (hdrawn r hmem).2
    · rw [heq, List.mem_append, List.mem_singleton] at hmem
      rcases hmem with hmem | rfl
      · exact (h.stages r hmem).act hr ha (hdrawn r hmem).1 (hdrawn r hmem).2
      · refine .entering (τ := τ) (by rw [hτ']; rfl) ?_
        rw [hmap, Table.find_insert, if_pos rfl, (hfresh hτ hsup).2.2.2]
        rfl
  · rcases hnew with heq | ⟨channel, l, x, t, hτ, hsup, heq, -⟩
    · exact h.invites r (heq ▸ hmem)
    · rw [heq, List.mem_append, List.mem_singleton] at hmem
      rcases hmem with hmem | rfl
      · exact h.invites r hmem
      · exact (hfresh hτ hsup).1
  · rcases hnew with heq | ⟨channel, l, x, t, hτ, hsup, heq, -⟩ <;> rw [heq]
    · exact h.temps
    · rw [List.map_append]
      exact List.Nodup.append h.temps (List.nodup_singleton _)
        (List.disjoint_singleton.2 (hfresh hτ hsup).2.2.1)
  · rcases hnew with heq | ⟨channel, l, x, t, hτ, hsup, heq, -⟩ <;> rw [heq]
    · exact h.channels
    · rw [List.map_append]
      exact List.Nodup.append h.channels (List.nodup_singleton _)
        (List.disjoint_singleton.2 (hfresh hτ hsup).2.1)
  · rcases ha.move.pending_old hp with hold | ⟨hτ, hmap, hres⟩
    · obtain ⟨k, hmem, hk⟩ := h.pending t x hold
      exact ⟨k, hgrow hmem, hkept hk hold⟩
    · rw [hmap, hres]
      exact h.entering τ x t hτ
  · by_cases heq : σ = τ
    · subst heq
      obtain ⟨channel, l, hτ, hsup, hres, hmap⟩ := ha.move.enters_old ha.idle hσ
      refine ⟨channel, by simp [hres], ?_⟩
      rw [hmap, Table.find_insert, if_pos rfl, (hfresh hτ hsup).2.2.2]
      rfl
    · rw [ha.move.thread_other heq] at hσ
      obtain ⟨k, hmem, hk⟩ := h.entering σ x t hσ
      have htemps : t ∈ ((s.process n).thread σ).temps := by simp [Thread.temps_of_enters hσ]
      have ht := hs.temps_drawn (.hand n σ) t htemps
      exact ⟨k, hgrow hmem, ha.temp_kept hs ht.1 hk heq htemps⟩
  · rcases ha.channel_origin hk with ⟨k', hk'⟩ | ⟨hback, -⟩ | ⟨hstart, hstart'⟩
    · obtain ⟨r, hmem, hr'⟩ := h.keys k' channel hk' hi
      exact ⟨r, hgrow hmem, hr'⟩
    · exact absurd hback (T.invites_asymm _ hi)
    · exact ha.move.starts ha.idle hstart hstart'

theorem Process.Books.receipt (h : (s.process n).Books T n) {channel : Channel} {m : ChannelMessage}
    {rest : List ChannelMessage} (hc : Receipt T s n channel m rest) :
    ((s.process n).goto .io (Process.onReceivedMessage m)).Books T n := by
  have hthread : ∀ σ, ((s.process n).thread σ) ≠ .idle →
      ((s.process n).goto .io (Process.onReceivedMessage m)).thread σ = (s.process n).thread σ := by
    intro σ hσ
    rw [Process.goto_thread, upd₁_apply, if_neg]
    rintro rfl
    exact hσ hc.idle
  refine ⟨fun r hmem => ?_, h.invites, h.temps, h.channels, h.pending, fun σ x t hσ => ?_, h.keys⟩
  · cases h.stages r hmem with
    | @entering σ hσ hk =>
      refine .entering (τ := σ) ?_ hk
      rwa [hthread σ]
      intro hi
      rw [hi] at hσ
      cases hσ
    | pending hk hp => exact .pending hk hp
    | @reserving σ m' x hσ hk =>
      exact .reserving (τ := σ) (by rw [hthread σ (by simp [hσ]), hσ]) hk
    | @rekeying σ m' hσ hk hx =>
      exact .rekeying (τ := σ) (by rw [hthread σ (by simp [hσ]), hσ]) hk hx
    | settled hk hnone hx => exact .settled hk hnone hx
  · by_cases hio : σ = .io
    · subst hio
      cases m <;> simp [Process.onReceivedMessage, Thread.enters] at hσ
    · exact h.entering σ x t (by simpa [hio] using hσ)

theorem Reachable.books (hs : Reachable T s) (n : Identifier) : (s.process n).Books T n := by
  refine Reachable.forall_process (P := fun n p => p.Books T n) (fun n => ?_)
    (fun s n τ c o hr h ha => h.act hr ha) (fun s n ch m rest _ h hc => h.receipt hc) hs n
  refine ⟨?_, ?_, List.nodup_nil, List.nodup_nil, ?_, ?_, ?_⟩
  · rintro r ⟨⟩
  · rintro r ⟨⟩
  · rintro t x ⟨⟩
  · rintro τ x t ⟨⟩
  · rintro k c ⟨⟩

/-- An endpoint that is noted is there, and still queues what is sent to it. -/
theorem Reachable.noted_queueing (hs : Reachable T s) {t x : Identifier}
    (hp : (s.process n).pendingInvitations.find t = some x) :
    ∃ e, (s.process n).localEndpoints.find x = some e ∧ e.state = .kUnboundAndQueueing := by
  have hports := hs.sound.ports
  have htok : .reserved x ∈ s.ports.tokens (.pending n t) := by simp [Network.tokens, hp]
  obtain ⟨m, hm, hreg⟩ := hports.names.ok _ _ htok
  obtain rfl : n = m := by
    rcases hm with ⟨_, hm⟩ | ⟨_, hm⟩ <;> cases hm
    rfl
  obtain ⟨q, hq⟩ := Option.ne_none_iff_exists'.1 hreg
  obtain ⟨e, he, rfl⟩ := Network.port_eq_some.1 hq
  refine ⟨e, he, ?_⟩
  rcases hports.rights.status _ _ htok ⟨n, x⟩ e.port ⟨rfl, rfl⟩ hq with hst | ⟨-, hP⟩
  · cases hstate : e.state <;> simp_all [Endpoint.port, Endpoint.status]
  · cases hP

end

/-- In every reachable state of any network, whatever invitations a node has sent and however far each
    of them is, once no thread of it is between two entries for one: a channel that was created for an
    invitation has exactly one key. It is the temporary name, under which the endpoint that was reserved
    with it is noted and still queues; or the acceptor's name, the note is gone, the endpoint is a proxy
    for one of the acceptor, and the acceptor knows the inviter. All notes and all keys of channels to
    acceptors are accounted for so, and no two invitations share a name. -/
theorem invitations_accounted_for {T : Topology} {s : Network} (hs : Reachable T s) (n : Identifier)
    (hdone : ∀ τ, ((s.process n).thread τ).booking = false) :
    (∀ r ∈ (s.process n).reservations,
      ((∀ k, (s.process n).nodeChannelMap.find k = some r.channel ↔ k = r.temporaryRemoteNodeName) ∧
        (s.process n).pendingInvitations.find r.temporaryRemoteNodeName = some r.remoteEndpoint ∧
        ∃ e, (s.process n).localEndpoints.find r.remoteEndpoint = some e ∧
          e.state = .kUnboundAndQueueing) ∨
      ((∀ k, (s.process n).nodeChannelMap.find k = some r.channel ↔ k = r.channel) ∧
        (s.process n).pendingInvitations.find r.temporaryRemoteNodeName = none ∧
        (s.process n).ProxyTo r.remoteEndpoint r.channel ∧
        (s.process r.channel).nodeChannelMap.find n = some n)) ∧
    (∀ t x, (s.process n).pendingInvitations.find t = some x →
      ∃ c, ⟨c, t, x⟩ ∈ (s.process n).reservations) ∧
    (∀ k c, (s.process n).nodeChannelMap.find k = some c → (n, c) ∈ T.invites →
      ∃ r ∈ (s.process n).reservations, r.channel = c) ∧
    ((s.process n).reservations.map (·.temporaryRemoteNodeName) ++
      (s.process n).reservations.map (·.channel)).Nodup := by
  have h := hs.books n
  have hinj := (hs.channels n).injective
  refine ⟨fun r hr => ?_, fun t x hp => (h.pending t x hp).imp fun _ hc => hc.1, h.keys, ?_⟩
  · have hone : ∀ {j}, (s.process n).nodeChannelMap.find j = some r.channel →
        ∀ k, (s.process n).nodeChannelMap.find k = some r.channel ↔ k = j :=
      fun hj k => ⟨fun hk => hinj k _ _ hk hj, fun heq => heq ▸ hj⟩
    cases h.stages r hr with
    | @entering τ ht =>
      have hbusy := hdone τ
      cases hth : (s.process n).thread τ <;> rw [hth] at ht hbusy <;>
        simp_all [Thread.enters, Thread.booking]
    | pending hk hp => exact .inl ⟨hone hk, hp, hs.noted_queueing hp⟩
    | @reserving τ m x ht | @rekeying τ m ht =>
      have hbusy := hdone τ
      rw [ht] at hbusy
      cases hbusy
    | settled hk hnone hx =>
      refine .inr ⟨hone hk, ?_, hx, hs.agreed.settled n r.channel (h.invites r hr) hk⟩
      by_contra hne
      obtain ⟨x, hp⟩ := Option.ne_none_iff_exists'.1 hne
      obtain ⟨c, -, hc⟩ := h.pending _ x hp
      rw [hnone] at hc
      cases hc
  · refine List.Nodup.append h.temps h.channels fun t ht hc => ?_
    obtain ⟨r, hr, rfl⟩ := List.mem_map.1 ht
    obtain ⟨q, hq, heq⟩ := List.mem_map.1 hc
    refine T.names_fresh _ (hs.reservations_drawn n r hr).1 ?_
    exact heq ▸ (T.invites_nodes _ (h.invites q hq)).2

/-- One of two invitations is accepted. -/
theorem one_of_two_accepted : ∃ s r q, Reachable Sample.fork s ∧
    (s.process Sample.inviter).reservations = [r, q] ∧
    (s.process Sample.inviter).ProxyTo r.remoteEndpoint Sample.acceptor ∧
    (s.process Sample.inviter).pendingInvitations.find q.temporaryRemoteNodeName =
      some q.remoteEndpoint := by
  obtain ⟨s, hs, hres, hio, huser, hfirst, hsecond⟩ := Network.exists_of_follow Sample.fork Orderly
    (Label.calling Sample.inviter (.user 0)
        (.sendInvitationAndGetMessagePipe Sample.acceptor none) 4 ++
      Label.calling Sample.inviter (.user 0)
        (.sendInvitationAndGetMessagePipe Sample.other none) 4 ++
      Sample.acceptance Sample.acceptor)
    (fun s => (s.process Sample.inviter).reservations.map (·.channel) =
        [Sample.acceptor, Sample.other] ∧
      ((s.process Sample.inviter).thread .io).isIdle ∧
      ((s.process Sample.inviter).thread (.user 0)).isIdle ∧
      (s.process Sample.inviter).nodeChannelMap.find Sample.acceptor = some Sample.acceptor ∧
      (s.process Sample.inviter).nodeChannelMap.find Sample.other = none) (by decide +kernel)
  have hr : Reachable Sample.fork s := ReachableBy.reachable hs
  have hdone : ∀ τ, ((s.process Sample.inviter).thread τ).booking = false := by
    intro τ
    have hidle : (s.process Sample.inviter).thread τ = .idle := by
      by_contra hbusy
      rcases ReachableBy.two_threads hs _ τ hbusy with rfl | rfl
      · exact hbusy (Thread.isIdle_iff.1 hio)
      · exact hbusy (Thread.isIdle_iff.1 huser)
    rw [hidle]
    rfl
  obtain ⟨hstages, -, -, -⟩ := invitations_accounted_for hr Sample.inviter hdone
  obtain ⟨r, q, heq⟩ : ∃ r q, (s.process Sample.inviter).reservations = [r, q] := by
    have hlen := congrArg List.length hres
    rw [List.length_map] at hlen
    exact List.length_eq_two.1 hlen
  rw [heq] at hres hstages
  obtain ⟨hrc, hqc⟩ : r.channel = Sample.acceptor ∧ q.channel = Sample.other := by
    simpa using hres
  refine ⟨s, r, q, hr, heq, ?_, ?_⟩
  · rcases hstages r (by simp) with ⟨hkeys, -, -⟩ | ⟨-, -, hx, -⟩
    · have htemp := (hkeys Sample.acceptor).1 (by rw [hfirst, hrc])
      have hdrawn := (hr.reservations_drawn Sample.inviter r (by simp [heq])).1
      exact absurd (htemp ▸ List.mem_cons_of_mem _ List.mem_cons_self)
        (Sample.fork.names_fresh _ hdrawn)
    · exact hrc ▸ hx
  · rcases hstages q (by simp) with ⟨-, hp, -⟩ | ⟨hkeys, -, -, -⟩
    · exact hp
    · have hk := (hkeys q.channel).2 rfl
      rw [hqc, hsecond] at hk
      cases hk

end Mage
