import Mage.Safety.Invitations

/-! Two nodes always reach each other. An endpoint whose peer is in the other node is made by an
    invitation or arrives with a message, and the acceptance of the invitation is ahead of all messages
    of the acceptor; so whoever has such an endpoint has a channel to the peer's node. -/

namespace Mage
open Lib

/-- The acceptor whose acceptance a thread is settling, before its channel has its name. -/
def Thread.admitting : Thread → Option Identifier
  | .acknowledging _ m _ | .reserving _ _ m _ | .rekeying _ _ m => some m
  | _ => none

/-- The endpoint that a thread sends over, until it knows where to. -/
def Thread.carrier : Thread → Option Identifier
  | .populating x _ _ | .checking x _ _ => some x
  | _ => none

/-- The points of `Node::OnReceivedUserMessage`. -/
def Thread.handling : Thread → Bool
  | .receiving _ | .recovering _ _ _ _ | .forwarding _ _ _ _ _ | .releasing _ => true
  | _ => false

/-- Whether a message needs its reader to know the writer. -/
def ChannelMessage.requires : ChannelMessage → Bool
  | .userMessage _ => true
  | _ => false

/-- Whether a message makes its writer known. -/
def ChannelMessage.provides : ChannelMessage → List Bool
  | .acceptInvitation _ _ _ => [true]
  | _ => []

namespace Network

/-- Node `n` has a channel to node `m`, under its name. -/
def Knows (s : Network) (n m : Identifier) : Prop := (s.process n).nodeChannelMap.find m ≠ none

/-- Node `m` knows node `n`, or is about to. -/
def Met (s : Network) (n m : Identifier) : Prop :=
  s.Knows m n ∨ ((s.process m).thread .io).admitting = some n

/-- Node `m` will know node `n` by the time it reads what `n` writes now. -/
def Announced (s : Network) (n m : Identifier) : Prop :=
  s.Met n m ∨ ∃ M ∈ s.wire n m, true ∈ M.provides

end Network

/-- What is sent over is registered, and it is not the endpoint of an invitation that is being accepted. -/
def Process.Carriers (p : Process) : Prop := ∀ τ x, (p.thread τ).carrier = some x →
  p.localEndpoints.find x ≠ none ∧ ∀ σ i t, p.thread σ ≠ .replying i t x

structure Acquainted (T : Topology) (s : Network) : Prop where
  peers : ∀ n ∈ T.nodes, ∀ x e, (s.process n).localEndpoints.find x = some e →
    e.peerAddress.nodeName ≠ n → s.Knows n e.peerAddress.nodeName ∧
      (s.Announced n e.peerAddress.nodeName ∨
        ∃ τ t, (s.process n).thread τ = .replying e.peerAddress.nodeName t x)
  proxies : ∀ n ∈ T.nodes, ∀ x e, (s.process n).localEndpoints.find x = some e →
    e.state = .kUnboundAndProxying → s.Announced n e.proxyTarget.nodeName
  hands : ∀ n ∈ T.nodes, ∀ τ t, ((s.process n).thread τ).destination = some t → s.Announced n t
  wires : ∀ a ∈ T.nodes, ∀ n, Lib.Grounded ChannelMessage.requires ChannelMessage.provides
    (fun b => b = true → s.Met a n) (s.wire a n)
  written : ∀ a n m, .userMessage m ∈ s.wire a n → s.Knows a n
  handling : ∀ n ∈ T.nodes, ((s.process n).thread .io).handling = true → ∀ m ∈ T.nodes, m ≠ n →
    s.Knows n m ∧ s.Knows m n

/-! ### What a move does to it -/

namespace Process.Move
variable {p : Process} {τ : ThreadId} {supply : List Identifier} {c : Option Call} {o : Outcome}

theorem admitting (h : p.Move τ supply c o) (hi : c.isSome → p.thread τ = .idle) {m : Identifier}
    (hm : (p.thread τ).admitting = some m) :
    (o.process.thread τ).admitting = some m ∨ o.process.nodeChannelMap.find m ≠ none := by
  cases h with
  | createMessagePipes | sendMessage | bindReceiver | sendInvitation | acceptInvitation =>
    rw [hi rfl] at hm
    cases hm
  | acknowledge h1 | reserve h1 =>
    rw [h1] at hm
    exact .inl (by simpa [Thread.admitting] using hm)
  | rekey h1 =>
    rw [h1] at hm
    cases hm
    refine .inr ?_
    change (Table.insert _ _ _).find _ ≠ none
    simp [Table.find_insert]
  | _ => simp_all [Thread.admitting]

theorem carrier (h : p.Move τ supply c o) {x : Identifier}
    (hx : (o.process.thread τ).carrier = some x) : (p.thread τ).carrier = some x ∨
      ∃ k id body pipes, c = some (.sendMessage k id body pipes) ∧ p.findHandle k = some x := by
  cases h with
  | createMessagePipes | bindReceiver | acceptInvitation => exact .inl hx
  | sendMessage h1 =>
    simp only [goto_thread, upd₁_apply, if_true, Thread.carrier, Option.some.injEq] at hx
    subst hx
    exact .inr ⟨_, _, _, _, rfl, h1⟩
  | populated h1 | populate h1 | checkSent h1 =>
    rw [h1]
    exact .inl (by simpa [Thread.carrier] using hx)
  | _ => simp [Thread.carrier] at hx

theorem handling (h : p.Move τ supply c o) (ht : (o.process.thread τ).handling = true) :
    (p.thread τ).handling = true := by
  cases h with
  | createMessagePipes | bindReceiver | acceptInvitation => exact ht
  | receive h1 | recover h1 | relay h1 | dispatch h1 | forward h1 | writeForwarded h1 =>
    rw [h1]
    rfl
  | _ => simp [Thread.handling] at ht

theorem replying (h : p.Move τ supply c o) {i t x : Identifier}
    (ht : o.process.thread τ = .replying i t x) : p.thread τ = .replying i t x ∨ x ∈ supply := by
  cases h with
  | createMessagePipes | bindReceiver | acceptInvitation => exact .inl ht
  | accept _ hs =>
    simp only [goto_thread, upd₁_apply, if_true, Thread.replying.injEq] at ht
    rw [hs, ← ht.2.2]
    exact .inr List.mem_cons_self
  | _ => simp at ht

/-- Where an endpoint comes from. -/
theorem newcomer (h : p.Move τ supply c o) {x : Identifier} {e' : Endpoint}
    (he' : o.process.localEndpoints.find x = some e') :
    (∃ e, p.localEndpoints.find x = some e ∧ e.peerAddress = e'.peerAddress) ∨
    (e'.peerAddress.nodeName = p.name ∧ e'.peerAddress.endpointName ∈ supply) ∨
    (∃ y m done d ds, p.thread τ = .recovering y m done (d :: ds) ∧ x = d.crossNodeEndpointName ∧
      e'.peerAddress = d.peerAddress) ∨
    ∃ i t y, p.thread τ = .accepting i t y ∧ o.process.thread τ = .replying i t x ∧
      e'.peerAddress = ⟨i, y⟩ := by
  cases hx : p.localEndpoints.find x with
  | some e =>
    obtain ⟨e'', he'', hl⟩ := h.later x e hx
    rw [he', Option.some.injEq] at he''
    subst he''
    exact .inl ⟨e, rfl, hl.peer.symm⟩
  | none =>
    have written : ∀ {y f} {f' : Endpoint}, p.localEndpoints.find y = some f →
        (p.localEndpoints.set y f').find x ≠ some e' := by
      intro y f f' hy hf
      rw [Table.find_set] at hf
      split_ifs at hf with hxy
      · rw [hxy, hy] at hx
        cases hx
      · rw [hx] at hf
        cases hf
    cases h with
    | @createMessagePipes y z _ hs | @invite channel y z _ _ hs =>
      change ((p.localEndpoints.set y _).set z _).find x = _ at he'
      rw [Table.find_set, Table.find_set] at he'
      split_ifs at he' with h1 h2
      · cases he'
        exact .inr (.inl ⟨rfl, by simp [hs, Endpoint.new]⟩)
      · cases he'
        exact .inr (.inl ⟨rfl, by simp [hs, Endpoint.new]⟩)
      · rw [hx] at he'
        cases he'
    | @recover y m d done ds ht =>
      change (p.localEndpoints.set d.crossNodeEndpointName _).find x = _ at he'
      rw [Table.find_set] at he'
      split_ifs at he' with h1
      · cases he'
        exact .inr (.inr (.inl ⟨_, _, _, _, _, ht, h1, rfl⟩))
      · rw [hx] at he'
        cases he'
    | @accept i t y name rest ht =>
      change (p.localEndpoints.insert name _).find x = _ at he'
      rw [Table.find_insert] at he'
      split_ifs at he' with h1
      · subst h1
        rw [hx] at he'
        cases he'
        exact .inr (.inr (.inr ⟨i, t, y, ht, by simp, rfl⟩))
      · rw [hx] at he'
        cases he'
    | bindReceiver _ hf | deliver _ hf | dispatch _ hf | take _ hf | reserve _ hf | drain _ hf
    | forward _ _ hf => exact absurd he' (written hf)
    | _ =>
      change p.localEndpoints.find x = _ at he'
      rw [hx] at he'
      cases he'

/-- A thread that answers an inviter goes on to, or writes the acceptance. -/
theorem replied (h : p.Move τ supply c o) (hi : c.isSome → p.thread τ = .idle) {i t x : Identifier}
    (ht : p.thread τ = .replying i t x) : ∃ k, o.written = some (k, .acceptInvitation t p.name x) ∧
      p.nodeChannelMap.find i = some k := by
  cases h with
  | createMessagePipes | sendMessage | bindReceiver | sendInvitation | acceptInvitation =>
    rw [hi rfl] at ht
    cases ht
  | reply h1 hc =>
    rw [ht, Thread.replying.injEq] at h1
    obtain ⟨rfl, rfl, rfl⟩ := h1
    exact ⟨_, rfl, hc⟩
  | _ => simp_all

end Process.Move

/-! ### One step -/

section
variable {T : Topology} {s : Network} {n : Identifier} {τ : ThreadId} {c : Option Call} {o : Outcome}
  {a b : Identifier}

theorem Act.sound (ha : Act T s n τ c o) (hr : Reachable T s) : (s.apply n o).Sound T where
  handshake := hr.sound.handshake.act hr hr.sound.fresh ha
  tidy := hr.sound.tidy.act hr.sound.ports hr.sound.routed ha
  ports := hr.sound.ports.effects
    (ha.effects hr.sound.handshake hr.sound.tidy hr.sound.ports hr)

/-- What the embedder sends over is an endpoint that it was handed. -/
theorem Act.carriers (ha : Act T s n τ c o) (hr : Reachable T s) (hp : (s.process n).Carriers) :
    o.process.Carriers := by
  intro σ x hx
  have hs := hr.sound
  have hold : (s.process n).localEndpoints.find x ≠ none ∧
      ∀ σ i t, (s.process n).thread σ ≠ .replying i t x := by
    by_cases hστ : σ = τ
    · subst hστ
      rcases ha.move.carrier hx with hold | ⟨k, id, body, pipes, rfl, hk⟩
      · exact hp σ x hold
      · obtain ⟨hheld, -⟩ := ha.allowed _ rfl
        rw [hk, Option.any_some, decide_eq_true_eq] at hheld
        have hreg := hs.ports.names.ok (.held n) (.right x) (List.mem_map_of_mem hheld)
        obtain ⟨m, hm | ⟨_, hm⟩, hport⟩ := hreg <;> cases hm
        refine ⟨Network.port_ne_none.1 hport, fun ρ i t hρ => ?_⟩
        have hclash := hs.ports.rights.once ⟨n, x⟩ hport (.held n) (.hand n ρ)
          (weigh_pos.2 ⟨.right x, List.mem_map_of_mem hheld, rfl, rfl⟩)
          (weigh_pos.2 ⟨.right x, by simp [Network.tokens, hρ, Thread.tokens], rfl, rfl⟩)
        cases hclash.1
    · rw [ha.move.thread_other hστ] at hx
      exact hp σ x hx
  refine ⟨?_, fun ρ i t hρ => ?_⟩
  · obtain ⟨e, he⟩ := Option.ne_none_iff_exists'.1 hold.1
    obtain ⟨e', he', -⟩ := ha.move.later x e he
    simp [he']
  · by_cases hρτ : ρ = τ
    · subst hρτ
      rcases ha.move.replying hρ with hρ | hx
      · exact hold.2 ρ i t hρ
      · exact hold.1 (hs.fresh x hx n)
    · rw [ha.move.thread_other hρτ] at hρ
      exact hold.2 ρ i t hρ

theorem Reachable.carriers (h : Reachable T s) (n : Identifier) : (s.process n).Carriers := by
  refine Reachable.forall_process (P := fun _ p => p.Carriers) (fun n => ?_)
    (fun s n τ c o hr hp ha => ha.carriers hr hp) (fun s n ch m rest hr hp hc => ?_) h n
  · rintro τ x ⟨⟩
  · intro τ x hx
    by_cases hτ : τ = .io
    · subst hτ
      cases m <;> simp [Process.onReceivedMessage, Thread.carrier] at hx
    · simp only [Process.goto_thread, upd₁_apply, if_neg hτ] at hx
      obtain ⟨h1, h2⟩ := hp τ x hx
      refine ⟨h1, fun σ i t hσ => ?_⟩
      by_cases hio : σ = .io
      · subst hio
        cases m <;> simp [Process.onReceivedMessage] at hσ
      · exact h2 σ i t (by simpa [hio] using hσ)

section
variable (ha : Act T s n τ c o) (hr : Reachable T s)
include ha hr

theorem Act.knows (hb : b ∈ T.nodes) (h : s.Knows a b) : (s.apply n o).Knows a b := by
  rw [Network.Knows, Network.apply_process, upd₁_apply]
  split_ifs with hk
  · subst hk
    exact ha.key_kept hr.sound.handshake hb h
  · exact h

theorem Act.met (hn : a ∈ T.nodes) (h : s.Met a b) : (s.apply n o).Met a b := by
  rcases h with h | h
  · exact .inl (ha.knows hr hn h)
  rcases ha.thread_apply b .io with ⟨rfl, rfl, hth⟩ | hth
  · rcases ha.move.admitting ha.idle h with h | h
    · exact .inr (by rw [hth, h])
    · exact .inl (by simpa [Network.Knows] using h)
  · exact .inr (by rw [hth, h])

theorem Act.announced (hn : a ∈ T.nodes) (h : s.Announced a b) : (s.apply n o).Announced a b := by
  refine h.imp (ha.met hr hn) ?_
  rintro ⟨M, hM, hp⟩
  exact ⟨M, (Network.mem_apply_wire s n o).2 (.inl hM), hp⟩

end

section
variable {channel : Channel} {m : ChannelMessage} {rest : List ChannelMessage}

theorem Receipt.knows : (s.consume n channel m rest).Knows a b ↔ s.Knows a b := by
  rw [Network.Knows, Network.Knows, (Handshake.core_consume a).1]

theorem Receipt.met (hc : Receipt T s n channel m rest) (h : s.Met a b) :
    (s.consume n channel m rest).Met a b := by
  refine h.imp Receipt.knows.2 fun h => ?_
  rcases Receipt.thread_consume s n channel m rest b .io with ⟨rfl, -, -⟩ | hth
  · rw [hc.idle] at h
    cases h
  · rw [hth, h]

/-- Who reads an acceptance is about to know the acceptor. -/
theorem Receipt.met_provided (hr : Reachable T s) (hc : Receipt T s n channel m rest)
    (hm : true ∈ m.provides) : (s.consume n channel m rest).Met channel n := by
  have hsound := hr.sound.handshake.wires channel n m (by simp [hc.head])
  cases m with
  | sendInvitation | userMessage => cases hm
  | acceptInvitation t m x =>
    obtain ⟨rfl, -⟩ := hsound
    exact .inr (by simp [Process.onReceivedMessage, Thread.admitting])

theorem Receipt.announced (hr : Reachable T s) (hc : Receipt T s n channel m rest)
    (h : s.Announced a b) : (s.consume n channel m rest).Announced a b := by
  rcases h with h | ⟨M, hM, hp⟩
  · exact .inl (hc.met h)
  by_cases hw : a = channel ∧ b = n
  · obtain ⟨rfl, rfl⟩ := hw
    rw [hc.head, List.mem_cons] at hM
    rcases hM with rfl | hM
    · exact .inl (hc.met_provided hr hp)
    · exact .inr ⟨M, by simpa using hM, hp⟩
  · refine .inr ⟨M, ?_, hp⟩
    rw [Network.consume_wire, upd_apply, if_neg hw]
    exact hM

end

namespace Acquainted

section
variable (h : Acquainted T s) (hr : Reachable T s) (ha : Act T s n τ c o)
include h hr ha

theorem act_hand {t : Identifier} (ht : (o.process.thread τ).destination = some t) :
    (s.apply n o).Announced n t := by
  refine ha.announced hr ha.node ?_
  rcases ha.move.destination (hr.sound.tidy.threads n τ) ht with hold | ⟨x, m, e, hx, he, rfl, hk⟩ |
    ⟨x, e, he, hq, rfl, -⟩
  · exact h.hands n ha.node τ t hold
  · -- The endpoint that is sent over was handed out, so its acceptance is written.
    have hne : e.peerAddress.nodeName ≠ n := by
      intro heq
      rcases hr.peer_local he with ⟨-, -, hnone⟩ | ⟨hne, -⟩
      · rw [heq] at hk
        exact hk hnone
      · exact hne heq
    refine (h.peers n ha.node x e he hne).2.resolve_right ?_
    rintro ⟨σ, t, hσ⟩
    exact (hr.carriers n τ x (by rw [hx]; rfl)).2 σ _ t hσ
  · exact h.proxies n ha.node x e he hq

theorem act_peer {x : Identifier} {e : Endpoint}
    (he : o.process.localEndpoints.find x = some e) (hne : e.peerAddress.nodeName ≠ n) :
    (s.apply n o).Knows n e.peerAddress.nodeName ∧
      ((s.apply n o).Announced n e.peerAddress.nodeName ∨
        ∃ σ t, o.process.thread σ = .replying e.peerAddress.nodeName t x) := by
  have hnode : e.peerAddress.nodeName ∈ T.nodes :=
    (ha.sound hr).peer_node (n := n) (x := x) (by simpa using he)
  rcases ha.move.newcomer he with ⟨f, hf, heq⟩ | ⟨heq, -⟩ | ⟨y, m, done, d, ds, ht, -, heq⟩ |
    ⟨i, t, y, ht, ht', heq⟩
  · rw [← heq] at hne hnode ⊢
    obtain ⟨hk, hx⟩ := h.peers n ha.node x f hf hne
    refine ⟨ha.knows hr hnode hk, ?_⟩
    rcases hx with hx | ⟨σ, t, hσ⟩
    · exact .inl (ha.announced hr ha.node hx)
    by_cases hστ : σ = τ
    · subst hστ
      obtain ⟨k, hw, hk⟩ := ha.move.replied ha.idle hσ
      obtain rfl := hr.sound.channel_of_answering (by rw [hσ]; rfl) hk
      refine .inl (.inr ⟨_, (Network.mem_apply_wire s n o).2 (.inr ⟨rfl, hw⟩), ?_⟩)
      exact List.mem_cons_self
    · exact .inr ⟨σ, t, by rwa [ha.move.thread_other hστ]⟩
  · exact absurd (heq.trans (hr.name n)) hne
  · obtain rfl : τ = .io := (hr.channels n).io (by rw [ht]; rfl)
    obtain ⟨h1, h2⟩ := h.handling n ha.node (by rw [ht]; rfl) _ hnode hne
    exact ⟨ha.knows hr hnode h1, .inl (ha.announced hr ha.node (.inl (.inl h2)))⟩
  · rw [heq] at hnode ⊢
    refine ⟨ha.knows hr hnode ((hr.keyed n).answering τ i ?_), .inr ⟨τ, t, ht'⟩⟩
    rw [ht]
    rfl

theorem act_proxy {x : Identifier} {e : Endpoint}
    (he : o.process.localEndpoints.find x = some e) (hq : e.state = .kUnboundAndProxying) :
    (s.apply n o).Announced n e.proxyTarget.nodeName := by
  rcases ha.move.proxied he hq with ⟨f, hf, hfq, heq⟩ | hann | ⟨t, k, g, ht, -, heq⟩
  · exact heq ▸ ha.announced hr ha.node (h.proxies n ha.node x f hf hfq)
  · exact h.act_hand hr ha (Thread.destination_of_announcing hann)
  · rw [heq]
    have hth := hr.sound.handshake.threads n τ
    obtain rfl : τ = .io := (hr.channels n).io (by rw [ht]; rfl)
    rw [ht] at hth
    have hk := hr.agreed.answered k n t hth.1 (.inr (.inr (by rw [ht]; rfl)))
    exact ha.announced hr ha.node (.inl (.inl (by simp [Network.Knows, hk])))

/-- The acceptance is ahead of every message of the acceptor. -/
theorem act_wire (hn : a ∈ T.nodes) :
    Lib.Grounded ChannelMessage.requires ChannelMessage.provides
      (fun b' => b' = true → (s.apply n o).Met a b) ((s.apply n o).wire a b) := by
  have hold : Lib.Grounded ChannelMessage.requires ChannelMessage.provides
      (fun b' => b' = true → (s.apply n o).Met a b) (s.wire a b) :=
    (h.wires a hn b).mono fun b' hb hb' => ha.met hr hn (hb hb')
  cases hw : o.written with
  | none => rwa [Network.apply_wire_none s n hw]
  | some w =>
    rw [Network.apply_wire_some s n hw, upd_apply]
    split_ifs with hab
    · obtain ⟨rfl, rfl⟩ := hab
      obtain ⟨k, M⟩ := w
      refine grounded_concat.2 ⟨hold, ?_⟩
      cases M with
      | sendInvitation | acceptInvitation => exact .inl nofun
      | userMessage m =>
        obtain ⟨t, m', rest, -, hd, hk, hl, -⟩ :=
          ha.move.outbox_written (hr.sound.tidy.threads a τ) hw
        obtain rfl := hr.sound.channel_eq hl hk
        rcases h.hands a hn τ k hd with hmet | ⟨M, hM, hp⟩
        · exact .inl fun _ => ha.met hr hn hmet
        · exact .inr ⟨M, hM, hp⟩
    · exact hold

theorem act_written {m : Message} (hm : .userMessage m ∈ (s.apply n o).wire a b) :
    (s.apply n o).Knows a b := by
  rcases (Network.mem_apply_wire s n o).1 hm with hm | ⟨rfl, hw⟩
  · have hl : Linked T a b := hr.sound.handshake.wires a b _ hm
    exact ha.knows hr hl.node (h.written a b m hm)
  · obtain ⟨t, m', rest, -, -, hk, hl, -⟩ := ha.move.outbox_written (hr.sound.tidy.threads a τ) hw
    obtain rfl := hr.sound.channel_eq hl hk
    exact ha.knows hr hl.node (by simp [Network.Knows, hk])

end

theorem act (h : Acquainted T s) (hr : Reachable T s) (ha : Act T s n τ c o) :
    Acquainted T (s.apply n o) where
  peers k hk x e he hne := by
    by_cases hkn : k = n
    · subst hkn
      simpa using h.act_peer hr ha (by simpa using he) hne
    · have hp : (s.apply n o).process k = s.process k := by simp [hkn]
      rw [hp] at he ⊢
      obtain ⟨h1, h2⟩ := h.peers k hk x e he hne
      exact ⟨ha.knows hr (hr.sound.peer_node he) h1, h2.imp_left (ha.announced hr hk)⟩
  proxies k hk x e he hq := by
    by_cases hkn : k = n
    · subst hkn
      exact h.act_proxy hr ha (by simpa using he) hq
    · exact ha.announced hr hk (h.proxies k hk x e (by simpa [hkn] using he) hq)
  hands k hk σ t ht := by
    rcases ha.thread_apply k σ with ⟨rfl, rfl, hth⟩ | hth
    · exact h.act_hand hr ha (hth ▸ ht)
    · exact ha.announced hr hk (h.hands k hk σ t (hth ▸ ht))
  wires a hn b := h.act_wire hr ha hn
  written a b m hm := h.act_written hr ha hm
  handling k hk ht m hm hne := by
    have hold : ((s.process k).thread .io).handling = true := by
      rcases ha.thread_apply k .io with ⟨rfl, rfl, hth⟩ | hth
      · exact ha.move.handling (hth ▸ ht)
      · exact hth ▸ ht
    exact (h.handling k hk hold m hm hne).imp (ha.knows hr hm) (ha.knows hr hk)

/-- Of two nodes, who reads a message knows and is known to the one other node. -/
theorem receipt (hT : ∀ a ∈ T.nodes, ∀ b ∈ T.nodes, ∀ k ∈ T.nodes, a = b ∨ a = k ∨ b = k)
    (h : Acquainted T s) (hr : Reachable T s) {channel : Channel} {m : ChannelMessage}
    {rest : List ChannelMessage} (hc : Receipt T s n channel m rest) :
    Acquainted T (s.consume n channel m rest) := by
  have hs := hr.sound
  have hcore : ∀ k, ((s.consume n channel m rest).process k).toCore = (s.process k).toCore :=
    fun k => (Handshake.core_consume k).1
  have hknows : ∀ {a b}, s.Knows a b → (s.consume n channel m rest).Knows a b := Receipt.knows.2
  have hmem : ∀ {a b M}, M ∈ (s.consume n channel m rest).wire a b → M ∈ s.wire a b := by
    intro a b M hM
    rw [Network.consume_wire, upd_apply] at hM
    split_ifs at hM with hab
    · obtain ⟨rfl, rfl⟩ := hab
      rw [hc.head]
      exact List.mem_cons_of_mem _ hM
    · exact hM
  have hthread := Receipt.thread_consume s n channel m rest
  have hreplying : ∀ {k σ i t x}, (s.process k).thread σ = .replying i t x ↔
      ((s.consume n channel m rest).process k).thread σ = .replying i t x := by
    intro k σ i t x
    rcases hthread k σ with ⟨rfl, rfl, hth⟩ | hth
    · rw [hth, hc.idle]
      cases m <;> simp [Process.onReceivedMessage]
    · rw [hth]
  refine ⟨fun k hk x e he hne => ?_, fun k hk x e he hq => ?_, fun k hk σ t ht => ?_,
    fun a ha b => ?_, fun a b m' hm => hknows (h.written a b m' (hmem hm)),
    fun k hk ht j hj hne => ?_⟩
  · rw [hcore] at he
    obtain ⟨h1, h2⟩ := h.peers k hk x e he hne
    refine ⟨hknows h1, h2.imp (hc.announced hr) ?_⟩
    rintro ⟨σ, t, hσ⟩
    exact ⟨σ, t, hreplying.1 hσ⟩
  · rw [hcore] at he
    exact hc.announced hr (h.proxies k hk x e he hq)
  · rcases hthread k σ with ⟨rfl, rfl, hth⟩ | hth
    · rw [hth] at ht
      cases m <;> cases ht
    · exact hc.announced hr (h.hands k hk σ t (hth ▸ ht))
  · have hold := h.wires a ha b
    rw [Network.consume_wire, upd_apply]
    split_ifs with hab
    · obtain ⟨rfl, rfl⟩ := hab
      rw [hc.head] at hold
      refine Lib.Grounded.tail hold (fun b' hb hb' => hc.met (hb hb')) fun b' hb hb' => ?_
      exact hc.met_provided hr (hb' ▸ hb)
    · exact hold.mono fun b' hb hb' => hc.met (hb hb')
  · rcases hthread k .io with ⟨rfl, -, hth⟩ | hth
    · rw [hth] at ht
      cases m with
      | sendInvitation | acceptInvitation => cases ht
      | userMessage m =>
        have hw : .userMessage m ∈ s.wire channel k := by simp [hc.head]
        have hl : Linked T channel k := hs.handshake.wires channel k _ hw
        have hj : j = channel := by
          rcases hT j hj k hk channel hl.symm.node with h1 | h1 | h1
          · exact absurd h1 hne
          · exact h1
          · exact absurd h1 hl.ne
        subst hj
        have hg := h.wires j hj k
        rw [hc.head] at hg
        refine ⟨hknows ((hg.1 rfl).resolve_right ?_), hknows (h.written j k m hw)⟩
        rw [hc.idle]
        rintro ⟨⟩
    · exact (h.handling k hk (hth ▸ ht) j hj hne).imp hknows hknows

end Acquainted

theorem Reachable.acquainted
    (hT : ∀ a ∈ T.nodes, ∀ b ∈ T.nodes, ∀ k ∈ T.nodes, a = b ∨ a = k ∨ b = k)
    (hs : Reachable T s) : Acquainted T s := by
  refine hs.induct ⟨?_, ?_, ?_, fun _ _ _ => trivial, ?_, ?_⟩
    (fun s n τ c o hr hs ha => hs.act hr ha) fun s n ch m rest hr hs hc => hs.receipt hT hr hc
  · rintro n - x e ⟨⟩
  · rintro n - x e ⟨⟩
  · rintro n - τ t ⟨⟩
  · rintro a n m ⟨⟩
  · rintro n - ⟨⟩

end

/-! ### Two nodes -/

section
variable {T : Topology} {s : Network}
  (hT : ∀ a ∈ T.nodes, ∀ b ∈ T.nodes, ∀ k ∈ T.nodes, a = b ∨ a = k ∨ b = k) (hs : Reachable T s)
include hT hs

/-- The peer of an endpoint is in its own node, or in the other one, to which there is a channel. -/
theorem Reachable.peer_of_two {n x : Identifier} {e : Endpoint} (hn : n ∈ T.nodes)
    (he : (s.process n).localEndpoints.find x = some e) :
    (e.peerAddress.nodeName = n ∧
      (s.process n).localEndpoints.find e.peerAddress.endpointName ≠ none ∧
      (s.process n).nodeChannelMap.find n = none) ∨
    (e.peerAddress.nodeName ≠ n ∧
      (s.process n).localEndpoints.find e.peerAddress.endpointName = none ∧
      (s.process n).nodeChannelMap.find e.peerAddress.nodeName = some e.peerAddress.nodeName) := by
  refine (hs.peer_local he).imp_right ?_
  rintro ⟨hne, hx⟩
  obtain ⟨k, hk⟩ := Option.ne_none_iff_exists'.1 ((hs.acquainted hT).peers n hn x e he hne).1
  refine ⟨hne, hx, ?_⟩
  rw [hk, ((hs.sound.handshake.entries n _ k hk).of_node (hs.sound.peer_node he)).1]

theorem Reachable.routes_of_two {l : Label} (hp : Permitted T s l) :
    s.step l ≠ .error (.check .routing) := by
  intro hl
  obtain ⟨n, τ, x, m, e, rfl, -, he, hne, hk⟩ := (hs.routing_iff l).1 hl
  exact ((hs.acquainted hT).peers n hp x e he hne).1 hk

end

/-- In every reachable state of two nodes, each endpoint has its peer in its own node, which has no
    channel to itself, or it has its peer in the other node, and its own node has the channel there. So
    every message is routed one way, whichever threads send what over which pipes in which order. -/
theorem two_nodes_route {T : Topology} {s : Network}
    (hT : ∀ a ∈ T.nodes, ∀ b ∈ T.nodes, ∀ k ∈ T.nodes, a = b ∨ a = k ∨ b = k)
    (hs : Reachable T s) :
    (∀ n ∈ T.nodes, ∀ x e, (s.process n).localEndpoints.find x = some e →
      (e.peerAddress.nodeName = n ∧
        (s.process n).localEndpoints.find e.peerAddress.endpointName ≠ none ∧
        (s.process n).nodeChannelMap.find n = none) ∨
      (e.peerAddress.nodeName ≠ n ∧
        (s.process n).localEndpoints.find e.peerAddress.endpointName = none ∧
        (s.process n).nodeChannelMap.find e.peerAddress.nodeName = some e.peerAddress.nodeName)) ∧
    ∀ l, Permitted T s l → s.step l ≠ .error (.check .routing) := by
  exact ⟨fun n hn x e => hs.peer_of_two hT hn, fun l => hs.routes_of_two hT⟩

/-- The pipe that the inviter sent leads back to it, over the channel of the invitation. -/
theorem sent_pipe_routes_back : ∃ s x e, Reachable Sample.pair s ∧
    (s.process Sample.acceptor).localEndpoints.find x = some e ∧
    e.peerAddress.nodeName = Sample.inviter ∧
    (s.process Sample.acceptor).nodeChannelMap.find Sample.inviter = some Sample.inviter ∧
    s.step (.run Sample.acceptor (.user 0)) ≠ .error (.check .routing) := by
  obtain ⟨s, hs, x, -, hx⟩ := Network.exists_of_follow Sample.pair (fun _ _ => True)
    (Sample.bound ++ Label.reading Sample.acceptor Sample.inviter 4 ++
      Label.calling Sample.acceptor (.user 0) (.sendMessage 2 9 [3] []) 1)
    (fun s => ∃ x ∈ Sample.names, ((s.process Sample.acceptor).localEndpoints.find x).any fun e =>
      decide (e.peerAddress.nodeName = Sample.inviter ∧
        ((s.process Sample.acceptor).thread (.user 0)).carrier = some x))
    (by decide +kernel)
  obtain ⟨hall, hstep⟩ := two_nodes_route (T := Sample.pair) (by decide) hs
  obtain ⟨e, he, hpeer⟩ := (Option.any_eq_true _ _).1 hx
  have hpeer := (of_decide_eq_true hpeer).1
  refine ⟨s, x, e, hs, he, hpeer, ?_, hstep _ (List.mem_cons_of_mem _ List.mem_cons_self)⟩
  rcases hall Sample.acceptor (by decide) x e he with ⟨heq, -⟩ | ⟨-, -, hk⟩
  · rw [hpeer] at heq
    exact absurd heq (by decide)
  · rwa [hpeer] at hk

/-- In every reachable state of two nodes, each endpoint that is no proxy has its peer in its own node and
    no channel to where it is, or not in its own node and a channel to where it is. A proxy's target is
    in the other node, and there is a channel to it under its name, except while
    `OnReceivedAcceptInvitation` has the proxy locked and has not yet changed the key. So neither of the
    two assertions fails and no channel is missing. -/
theorem two_nodes_decided {T : Topology} {s : Network}
    (hT : ∀ a ∈ T.nodes, ∀ b ∈ T.nodes, ∀ k ∈ T.nodes, a = b ∨ a = k ∨ b = k)
    (hs : Reachable T s) :
    (∀ n ∈ T.nodes, ∀ x e, (s.process n).localEndpoints.find x = some e →
      e.state ≠ .kUnboundAndProxying →
      ((s.process n).localEndpoints.find e.peerAddress.endpointName ≠ none ∧
        (s.process n).nodeChannelMap.find e.peerAddress.nodeName = none) ∨
      ((s.process n).localEndpoints.find e.peerAddress.endpointName = none ∧
        (s.process n).nodeChannelMap.find e.peerAddress.nodeName = some e.peerAddress.nodeName)) ∧
    (∀ n x e, (s.process n).localEndpoints.find x = some e → e.state = .kUnboundAndProxying →
      e.proxyTarget.nodeName ≠ (s.process n).name ∧
      ((s.process n).nodeChannelMap.find e.proxyTarget.nodeName = some e.proxyTarget.nodeName ∨
        ∃ t, (s.process n).thread .io = .rekeying x t e.proxyTarget.nodeName ∧
          (s.process n).lock x = some .io ∧
          (s.process n).nodeChannelMap.find t = some e.proxyTarget.nodeName)) ∧
    ∀ l, Permitted T s l → s.step l ≠ .error (.check .routing) ∧
      s.step l ≠ .error (.check .proxyTargetIsSelf) ∧ s.step l ≠ .error (.check .nullChannel) := by
  refine ⟨fun n hn x e he _ => ?_, fun n x e he hq => ⟨?_, ?_⟩, fun l hp =>
    ⟨hs.routes_of_two hT hp, hs.never_self l, hs.never_nullChannel l⟩⟩
  · rcases hs.peer_of_two hT hn he with ⟨heq, hx, hk⟩ | ⟨-, hx, hk⟩
    · exact .inl ⟨hx, heq ▸ hk⟩
    · exact .inr ⟨hx, hk⟩
  · rw [hs.name n]
    exact (hs.proxy_linked he hq).ne
  · refine (hs.proxy_channel he hq).imp_right ?_
    rintro ⟨t, ht, hk⟩
    refine ⟨t, ht, ((hs.exclusive n .io).2 x).1 ?_, hk⟩
    simp [ht, Thread.locks]

/-- In the middle of the acceptance the proxy is there and the key of its channel is not. -/
theorem proxy_before_its_key : ∃ s x e, Reachable Sample.pair s ∧
    (s.process Sample.inviter).localEndpoints.find x = some e ∧ e.state = .kUnboundAndProxying ∧
    (s.process Sample.inviter).nodeChannelMap.find e.proxyTarget.nodeName = none := by
  obtain ⟨s, hs, x, -, hx⟩ := Network.exists_of_follow Sample.pair (fun _ _ => True) Sample.accepting
    (fun s => ∃ x ∈ Sample.names, ((s.process Sample.inviter).localEndpoints.find x).any fun e =>
      e.state = .kUnboundAndProxying ∧
        (s.process Sample.inviter).nodeChannelMap.find e.proxyTarget.nodeName = none)
    (by decide +kernel)
  obtain ⟨e, he, hx⟩ := (Option.any_eq_true _ _).1 hx
  obtain ⟨hq, hk⟩ := of_decide_eq_true hx
  exact ⟨s, x, e, hs, he, hq, hk⟩

/-- Its channel is there under the temporary name. -/
theorem channel_under_temporary_name : ∃ s x e t, Reachable Sample.pair s ∧
    (s.process Sample.inviter).localEndpoints.find x = some e ∧
    (s.process Sample.inviter).lock x = some .io ∧
    (s.process Sample.inviter).nodeChannelMap.find t = some e.proxyTarget.nodeName := by
  obtain ⟨s, hs, x, -, hx⟩ := Network.exists_of_follow Sample.pair (fun _ _ => True) Sample.accepting
    (fun s => ∃ x ∈ Sample.names, ((s.process Sample.inviter).localEndpoints.find x).any fun e =>
      e.state = .kUnboundAndProxying ∧
        (s.process Sample.inviter).nodeChannelMap.find e.proxyTarget.nodeName = none)
    (by decide +kernel)
  obtain ⟨e, he, hx⟩ := (Option.any_eq_true _ _).1 hx
  obtain ⟨hq, hk⟩ := of_decide_eq_true hx
  obtain ⟨-, hproxy, -⟩ := two_nodes_decided (T := Sample.pair) (by decide) hs
  rcases (hproxy Sample.inviter x e he hq).2 with hk' | ⟨t, -, hl, ht⟩
  · cases hk.symm.trans hk'
  · exact ⟨s, x, e, t, hs, he, hl, ht⟩

end Mage
