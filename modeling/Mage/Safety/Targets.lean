import Mage.Flow.Stock
import Mage.Lib.Grounded
import Mage.Model.Execution
import Mage.Model.Faults

/-! A message never arrives before the endpoint it is for. The name of an endpoint that changes nodes is
    in a descriptor before it is in a header: until that descriptor is written the lock of the new
    proxy is held, or nobody knows of the proxy. So each message in a channel is for an endpoint that
    its reader has, or that a message ahead of it brings. -/

namespace Mage
open Lib

/-! ### What is announced -/

/-- The names that the endpoints of a message will be registered by. -/
def Message.introduces (m : Message) : List Identifier :=
  m.endpointsInMessage.map (·.crossNodeEndpointName)

def ChannelMessage.user? : ChannelMessage → Option Message
  | .userMessage m => some m
  | _ => none

/-- The names that a thread is about to register. -/
def Thread.expecting : Thread → List Identifier
  | .receiving m => m.introduces
  | .recovering _ _ _ rest => rest.map (·.crossNodeEndpointName)
  | _ => []

/-- The process has endpoint `x`, or will have it once it is done with the message it reads. -/
def Process.Expects (p : Process) (x : Identifier) : Prop :=
  p.localEndpoints.find x ≠ none ∨ x ∈ (p.thread .io).expecting

/-- The user messages on their way from node `n` to node `t`. -/
def Network.inbox (s : Network) (n t : Identifier) : List Message :=
  (s.wire n t).filterMap ChannelMessage.user?

/-- A message that node `n` writes now to address `a` will find it. -/
def Network.Promised (s : Network) (n : Identifier) (a : Address) : Prop :=
  (s.process a.nodeName).Expects a.endpointName ∨
    ∃ m ∈ s.inbox n a.nodeName, a.endpointName ∈ m.introduces

/-- The node that a thread is writing to. -/
def Thread.destination : Thread → Option Identifier
  | .sending b _ _ _ | .unlocking b _ => some b.targetNodeName
  | .forwarding _ t _ _ _ => some t
  | _ => none

/-- What it is about to write there. -/
def Thread.outbox : Thread → List Message
  | .sending b m _ _ => m :: b.messagesToSend
  | .unlocking b _ => b.messagesToSend
  | .forwarding _ _ m _ _ => [m]
  | _ => []

/-- The proxies whose targets are in the descriptors that a thread is about to write. -/
def Thread.announcing : Thread → List (Identifier × Address)
  | .sending b _ done _ =>
    done.map fun d => (d.endpointName, ⟨b.targetNodeName, d.crossNodeEndpointName⟩)
  | .forwarding _ t _ done _ => done.map fun d => (d.endpointName, ⟨t, d.crossNodeEndpointName⟩)
  | _ => []

/-- Messages are for endpoints that are there, or that messages ahead of them bring. -/
abbrev Grounded (known : Identifier → Prop) (ms : List Message) : Prop :=
  Lib.Grounded Message.targetEndpoint Message.introduces known ms

structure Targets (s : Network) : Prop where
  wires : ∀ n t, Grounded (s.process t).Expects (s.inbox n t)
  hands : ∀ n τ t, ((s.process n).thread τ).destination = some t →
    Grounded (fun x => s.Promised n ⟨t, x⟩) ((s.process n).thread τ).outbox
  proxies : ∀ n x e, (s.process n).localEndpoints.find x = some e →
    e.state = .kUnboundAndProxying →
      s.Promised n e.proxyTarget ∨ ∃ τ, (x, e.proxyTarget) ∈ ((s.process n).thread τ).announcing
  receiving : ∀ t τ m, (s.process t).thread τ = .receiving m →
    (s.process t).localEndpoints.find m.targetEndpoint ≠ none
  forwarding : ∀ n τ x t m done rest, (s.process n).thread τ = .forwarding x t m done rest →
    ∀ d ∈ done, ∃ b p, s.port b = some ⟨p, .proxying ⟨n, d.endpointName⟩⟩

/-- Thread `τ` has come to endpoint `x` with messages to pass on if it is a proxy. -/
inductive Process.Meets (p : Process) (τ : ThreadId) (x : Identifier) : Prop where
  | delivering {m : Message} (ht : p.thread τ = .delivering x m) (hl : p.lock x = none)
  | recovering {m : Message} {done : List EndpointDescriptor}
      (ht : p.thread τ = .recovering x m done [])
  | draining {channel : Channel} (ht : p.thread τ = .draining x channel)

/-! ### What a move does to it -/

namespace Process.Move
variable {p : Process} {τ : ThreadId} {supply : List Identifier} {c : Option Call} {o : Outcome}

/-- What was expected still is, or is there. -/
theorem expects (h : p.Move τ supply c o) (hi : c.isSome → p.thread τ = .idle) {x : Identifier}
    (hx : p.Expects x) : o.process.Expects x := by
  have hlater : p.localEndpoints.find x ≠ none → o.process.Expects x := by
    intro hx
    obtain ⟨e, he⟩ := Option.ne_none_iff_exists'.1 hx
    obtain ⟨e', he', -⟩ := h.later x e he
    exact .inl (by simp [he'])
  rcases hx with hx | hx
  · exact hlater hx
  by_cases hτ : ThreadId.io = τ
  · subst hτ
    cases h with
    | createMessagePipes | sendMessage | bindReceiver | sendInvitation | acceptInvitation =>
      rw [hi rfl] at hx
      cases hx
    | receive ht =>
      rw [ht] at hx
      exact .inr (by simpa [Thread.expecting, Message.introduces] using hx)
    | recover ht =>
      rw [ht, Thread.expecting, List.map_cons, List.mem_cons] at hx
      rcases hx with rfl | hx
      · exact .inl (by simp)
      · exact .inr (by simpa [Thread.expecting] using hx)
    | _ => simp_all [Thread.expecting]
  · exact .inr (by rwa [h.thread_other hτ])

/-- What a thread announces it goes on to announce, or writes. -/
theorem announcing (h : p.Move τ supply c o) {T : Topology} {n : Identifier}
    (ht : (p.thread τ).Tidy T n p) (hi : c.isSome → p.thread τ = .idle) {w : Identifier × Address}
    (hw : w ∈ (p.thread τ).announcing) : w ∈ (o.process.thread τ).announcing ∨
      ∃ k m, o.written = some (k, .userMessage m) ∧ p.nodeChannelMap.find w.2.nodeName = some k ∧
        Linked T n w.2.nodeName ∧ w.2.endpointName ∈ m.introduces := by
  cases h with
  | createMessagePipes | sendMessage | bindReceiver | sendInvitation | acceptInvitation =>
    rw [hi rfl] at hw
    cases hw
  | take h1 | forward h1 =>
    rw [h1] at hw
    exact .inl (by simp_all [Thread.announcing])
  | @write b m done k h1 hc =>
    rw [h1] at hw ht
    obtain ⟨d, hd, rfl⟩ := List.mem_map.1 hw
    refine .inr ⟨k, m.buffer, rfl, hc, ht.2, List.mem_map.2 ⟨d, ?_, rfl⟩⟩
    simpa [Message.buffer, ht.1] using hd
  | @writeForwarded x t m done k h1 hc =>
    rw [h1] at hw ht
    obtain ⟨d, hd, rfl⟩ := List.mem_map.1 hw
    exact .inr ⟨k, { m with endpointsInMessage := done }.buffer, rfl, hc, ht,
      List.mem_map.2 ⟨d, hd, rfl⟩⟩
  | _ => simp_all [Thread.announcing]

/-- A new proxy is announced, or stands for the endpoint of an accepted invitation. -/
theorem proxied (h : p.Move τ supply c o) {x : Identifier} {e' : Endpoint}
    (he' : o.process.localEndpoints.find x = some e') (hq' : e'.state = .kUnboundAndProxying) :
    (∃ e, p.localEndpoints.find x = some e ∧ e.state = .kUnboundAndProxying ∧
      e.proxyTarget = e'.proxyTarget) ∨
    (x, e'.proxyTarget) ∈ (o.process.thread τ).announcing ∨
    ∃ t k g, p.thread τ = .reserving x t k g ∧ o.process.thread τ = .rekeying x t k ∧
      e'.proxyTarget = ⟨k, g⟩ := by
  have created : ∀ {t : Table Identifier Endpoint} {y : Identifier} {a : Address},
      (t.set y (.new y a)).find x = some e' → t.find x = some e' := by
    intro t y a hx
    rw [Table.find_set] at hx
    split_ifs at hx with hxy
    · cases hx
      cases hq'
    · exact hx
  have accepted : ∀ {y f f'} {m : Message}, p.localEndpoints.find y = some f →
      f.acceptMessage m = .ok f' → (p.localEndpoints.set y f').find x = some e' →
      p.localEndpoints.find x = some e' := by
    intro y f f' m hf ha hx
    rw [Table.find_set] at hx
    split_ifs at hx with hxy
    · cases hx
      exact absurd hq' (Endpoint.acceptMessage_stays ha)
    · exact hx
  have same (hx : p.localEndpoints.find x = some e') : ∃ e, p.localEndpoints.find x = some e ∧
      e.state = .kUnboundAndProxying ∧ e.proxyTarget = e'.proxyTarget := ⟨e', hx, hq', rfl⟩
  cases h with
  | createMessagePipes | invite => exact .inl (same (created (created he')))
  | recover => exact .inl (same (created he'))
  | @accept i t y name =>
    refine .inl (same ?_)
    cases hn : p.localEndpoints.find name with
    | none => exact created (Table.insert_of_absent hn _ ▸ he')
    | some f =>
      change (p.localEndpoints.insert name _).find x = _ at he'
      rwa [Table.insert, hn] at he'
  | deliver _ hf _ _ ha => exact .inl (same (accepted hf ha he'))
  | dispatch _ hf ha => exact .inl (same (accepted hf ha he'))
  | @bindReceiver _ _ _ y f _ hf _ hq =>
    change (p.localEndpoints.set y _).find x = _ at he'
    rw [Table.find_set] at he'
    split_ifs at he' with hxy
    · cases he'
      cases hq'
    · exact .inl (same he')
  | @drain r k f ht hf =>
    change (p.localEndpoints.set r _).find x = _ at he'
    rw [Table.find_set] at he'
    split_ifs at he' with hxy
    · cases he'
      exact .inl ⟨f, hxy ▸ hf, hq', rfl⟩
    · exact .inl (same he')
  | @take b m done ds d f ht hf =>
    change (p.localEndpoints.set d.endpointName _).find x = _ at he'
    rw [Table.find_set] at he'
    split_ifs at he' with hxy
    · cases he'
      exact .inr (.inl (by simp [Thread.announcing, hxy]))
    · exact .inl (same he')
  | @forward y k name m done ds d rest f ht hs hf =>
    change (p.localEndpoints.set d.crossNodeEndpointName _).find x = _ at he'
    rw [Table.find_set] at he'
    split_ifs at he' with hxy
    · cases he'
      exact .inr (.inl (by simp [Thread.announcing, hxy]))
    · exact .inl (same he')
  | @reserve t k g r f ht =>
    change (p.localEndpoints.set r _).find x = _ at he'
    rw [Table.find_set] at he'
    split_ifs at he' with hxy
    · subst hxy
      cases he'
      exact .inr (.inr ⟨t, k, g, ht, by simp, rfl⟩)
    · exact .inl (same he')
  | _ => exact .inl (same he')

/-- Where a descriptor that a thread has prepared to forward comes from. -/
theorem prepared (h : p.Move τ supply c o) {x t : Identifier} {m : Message}
    {done rest : List EndpointDescriptor} (ht : o.process.thread τ = .forwarding x t m done rest)
    {d : EndpointDescriptor} (hd : d ∈ done) :
    (∃ m' done' rest', p.thread τ = .forwarding x t m' done' rest' ∧ d ∈ done') ∨
    ∃ d' ∈ (p.thread τ).recovered, d.endpointName = d'.crossNodeEndpointName := by
  cases h with
  | createMessagePipes | bindReceiver | acceptInvitation => exact .inl ⟨m, done, rest, ht, hd⟩
  | relay =>
    simp only [goto_thread, upd₁_apply, if_true, Thread.forwarding.injEq] at ht
    obtain ⟨-, -, -, rfl, -⟩ := ht
    cases hd
  | forward h1 =>
    simp only [goto_thread, upd₁_apply, if_true, Thread.forwarding.injEq] at ht
    obtain ⟨rfl, rfl, rfl, rfl, rfl⟩ := ht
    rcases List.mem_append.1 hd with hd | hd
    · exact .inl ⟨_, _, _, h1, hd⟩
    · rw [List.mem_singleton.1 hd, h1]
      exact .inr ⟨_, List.mem_cons_self, rfl⟩
  | _ => simp at ht

/-- Nothing but a receipt makes a thread receive. -/
theorem receiving (h : p.Move τ supply c o) {m : Message}
    (ht : o.process.thread τ = .receiving m) : p.thread τ = .receiving m := by
  cases h with
  | createMessagePipes | bindReceiver | acceptInvitation => exact ht
  | _ => simp at ht

/-- A user message that is written is the first that its thread is about to write. -/
theorem outbox_written (h : p.Move τ supply c o) {T : Topology} {n : Identifier}
    (ht : (p.thread τ).Tidy T n p) {k : Channel} {m : Message}
    (hw : o.written = some (k, .userMessage m)) : ∃ t m' rest, (p.thread τ).outbox = m' :: rest ∧
      (p.thread τ).destination = some t ∧ p.nodeChannelMap.find t = some k ∧ Linked T n t ∧
      m.targetEndpoint = m'.targetEndpoint := by
  cases h with
  | @write b m' done k' h1 hc =>
    cases hw
    rw [h1] at ht ⊢
    exact ⟨_, m', _, rfl, rfl, hc, ht.2, rfl⟩
  | @writeForwarded x t m' done k' h1 hc =>
    cases hw
    rw [h1] at ht ⊢
    exact ⟨_, m', _, rfl, rfl, hc, ht, rfl⟩
  | _ => cases hw

/-- What a thread is about to write it was about to write, or takes from the queue of an endpoint whose
    descriptor is ahead, or sends to a peer or through a proxy. -/
theorem outbox (h : p.Move τ supply c o) {T : Topology} {n t : Identifier}
    (hi : c.isSome → p.thread τ = .idle) (ht : (p.thread τ).Tidy T n p)
    (ht' : (o.process.thread τ).destination = some t) {known : Identifier → Prop}
    (hold : (p.thread τ).destination = some t → Grounded known (p.thread τ).outbox)
    (hpeer : ∀ x e, p.localEndpoints.find x = some e → e.peerAddress.nodeName = t →
      known e.peerAddress.endpointName)
    (hproxy : ∀ x e, p.localEndpoints.find x = some e → e.state = .kUnboundAndProxying →
      e.proxyTarget.nodeName = t → p.Meets τ x → known e.proxyTarget.endpointName) :
    Grounded known (o.process.thread τ).outbox ∨
      ∃ m k, Grounded known (m :: (o.process.thread τ).outbox) ∧
        o.written = some (k, .userMessage m.buffer) ∧ p.nodeChannelMap.find t = some k ∧
        Linked T n t := by
  cases h with
  | createMessagePipes | bindReceiver | acceptInvitation => exact .inl (hold ht')
  | routeRemote h1 he =>
    simp only [goto_thread, upd₁_apply, if_true, Thread.destination, Option.some.injEq] at ht'
    exact .inl (by simpa [Thread.outbox, grounded_cons] using hpeer _ _ he ht')
  | deliverToProxy h1 he hl hq =>
    simp only [goto_thread, upd₁_apply, if_true, Thread.destination, Option.some.injEq] at ht'
    exact .inl (by simpa [Thread.outbox, grounded_cons] using hproxy _ _ he hq ht' (.delivering h1 hl))
  | @take b m done ds d e h1 he =>
    simp only [goto_thread, upd₁_apply, if_true, Thread.destination, Option.some.injEq] at ht'
    rw [h1] at hold ht
    simp only [goto_thread, upd₁_apply, if_true, Thread.outbox]
    rw [← List.cons_append]
    refine .inl (grounded_append.2 ⟨hold (congrArg some ht'), ?_⟩)
    refine .of_forall fun m' hm' => .inr ⟨m, List.mem_cons_self, ?_⟩
    obtain ⟨m'', -, rfl⟩ := List.mem_map.1 hm'
    exact List.mem_map.2 ⟨d, by simp [ht.1], rfl⟩
  | @write b m done k h1 hc =>
    simp only [goto_thread, upd₁_apply, if_true, Thread.destination, Option.some.injEq] at ht'
    rw [h1] at hold ht
    refine .inr ⟨m, k, ?_, rfl, ht' ▸ hc, ht' ▸ ht.2⟩
    simpa [Thread.outbox] using hold (congrArg some ht')
  | unlock h1 | forward h1 =>
    simp only [goto_thread, upd₁_apply, if_true, Thread.destination, Option.some.injEq] at ht'
    rw [h1] at hold
    exact .inl (by simpa [Thread.outbox] using hold (congrArg some ht'))
  | @next b m ms h1 hm =>
    simp only [goto_thread, upd₁_apply, if_true, Thread.destination, Option.some.injEq] at ht'
    rw [h1, Thread.outbox, hm] at hold
    exact .inl (by simpa [Thread.outbox] using hold (congrArg some ht'))
  | relay h1 he hq =>
    simp only [goto_thread, upd₁_apply, if_true, Thread.destination, Option.some.injEq] at ht'
    exact .inl (by simpa [Thread.outbox, grounded_cons] using hproxy _ _ he hq ht' (.recovering h1))
  | @drain r channel e h1 he =>
    simp only [goto_thread, upd₁_apply, if_true, Thread.destination, Option.some.injEq] at ht'
    rw [h1] at ht
    obtain ⟨e', he', hq⟩ := ht
    rw [he, Option.some.injEq] at he'
    subst he'
    simp only [goto_thread, upd₁_apply, if_true, Thread.outbox]
    refine .inl (.of_forall fun m' hm' => ?_)
    obtain ⟨m'', -, rfl⟩ := List.mem_map.1 hm'
    exact hproxy _ _ he hq ht' (.draining h1)
  | _ => simp [Thread.destination] at ht'

end Process.Move

/-! ### One step -/

section
variable {T : Topology} {s : Network} {n : Identifier} {τ : ThreadId} {c : Option Call} {o : Outcome}
  {a : Address} {k t : Identifier}

theorem Network.inbox_apply (s : Network) (n : Identifier) (o : Outcome) (k t : Identifier) :
    (s.apply n o).inbox k t = s.inbox k t ++
      match o.written with
      | some w => if k = n ∧ t = w.1 then w.2.user?.toList else []
      | none => [] := by
  cases hw : o.written with
  | none => simp [inbox, apply_wire_none s n hw]
  | some w =>
    simp only [inbox, apply_wire_some s n hw, upd_apply]
    split_ifs with h
    · obtain ⟨rfl, rfl⟩ := h
      cases hu : w.2.user? <;> simp [hu]
    · simp

theorem Act.expects (ha : Act T s n τ c o) {x : Identifier} (hx : (s.process t).Expects x) :
    ((s.apply n o).process t).Expects x := by
  rw [Network.apply_process, upd₁_apply]
  split_ifs with ht
  · subst ht
    exact ha.move.expects ha.idle hx
  · exact hx

theorem Act.promised (ha : Act T s n τ c o) (hp : s.Promised k a) : (s.apply n o).Promised k a := by
  rcases hp with hp | ⟨m, hm, hx⟩
  · exact .inl (ha.expects hp)
  · refine .inr ⟨m, ?_, hx⟩
    rw [Network.inbox_apply]
    exact List.mem_append_left _ hm

/-- What is written is promised from then on. -/
theorem Network.promised_written {m : Message} {x : Identifier}
    (hw : o.written = some (t, .userMessage m)) (hx : x ∈ m.introduces) :
    (s.apply n o).Promised n ⟨t, x⟩ := by
  refine .inr ⟨m, ?_, hx⟩
  rw [inbox_apply, hw]
  simp [ChannelMessage.user?]

/-- The peer of an endpoint is registered. -/
theorem Network.Sound.peer_registered (h : s.Sound T) {x : Identifier} {e : Endpoint}
    (he : (s.process n).localEndpoints.find x = some e) :
    (s.process e.peerAddress.nodeName).localEndpoints.find e.peerAddress.endpointName ≠ none := by
  have hpeer : s.ports.peer ⟨n, x⟩ = some e.peerAddress := by
    simp [Ports.peer, Network.port, he, Endpoint.port]
  obtain ⟨q, hq, -⟩ := h.ports.links.mate _ _ (.port hpeer)
  intro hnone
  simp [Ports.peer, Network.port, hnone] at hq

namespace Targets

/-- The target of a proxy that messages are passed on through is promised. -/
theorem meets (h : Targets s) (hr : Reachable T s) {x : Identifier} {e : Endpoint}
    (he : (s.process n).localEndpoints.find x = some e) (hq : e.state = .kUnboundAndProxying)
    (hm : (s.process n).Meets τ x) : s.Promised n e.proxyTarget := by
  rcases h.proxies n x e he hq with hp | ⟨σ, hσ⟩
  · exact hp
  exfalso
  -- The thread that announces the target has the lock, or made the proxy of an endpoint nobody knows.
  have hio : ∀ {υ}, ((s.process n).thread υ).ioOnly = true → υ = .io := (hr.channels n).io
  have hne : ∀ t, (s.process n).thread σ = t → x ∈ t.locks → False := by
    rintro t rfl hx
    cases hm with
    | delivering ht hl =>
      rw [(hr.exclusive n σ).2, hl] at hx
      cases hx
    | recovering ht | draining ht =>
      obtain rfl := (hr.exclusive n).eq_of_mem (τ := τ) (by rw [ht]; simp [Thread.locks]) hx
      rw [ht] at hσ
      cases hσ
  cases ht : (s.process n).thread σ with
  | sending b m done rest =>
    rw [ht] at hσ
    obtain ⟨d, hd, heq⟩ := List.mem_map.1 hσ
    obtain ⟨rfl, -⟩ := Prod.mk.inj heq
    exact hne _ ht (List.mem_append_left _ (List.mem_map.2 ⟨d, hd, rfl⟩))
  | forwarding y t m done rest =>
    obtain rfl := hio (by rw [ht]; rfl)
    rw [ht] at hσ
    obtain ⟨d, hd, heq⟩ := List.mem_map.1 hσ
    obtain ⟨rfl, -⟩ := Prod.mk.inj heq
    obtain ⟨b, p, hb⟩ := h.forwarding n .io y t m done rest ht d hd
    cases hm with
    | delivering ht' =>
      obtain ⟨z, hz⟩ := hr.untouched.delivering n τ _ _ ht'
      exact hr.sound.ports.links.not_peer hr.sound.ports.names (.proxy hb) z hz
    | recovering ht' | draining ht' =>
      obtain rfl := hio (by rw [ht']; rfl)
      rw [ht] at ht'
      cases ht'
  | _ =>
    rw [ht] at hσ
    cases hσ

section
variable (h : Targets s) (hr : Reachable T s) (ha : Act T s n τ c o)
include h hr ha

/-- What a thread is about to write is for endpoints that are promised. -/
theorem act_hand (ht : (o.process.thread τ).destination = some t) :
    Grounded (fun x => (s.apply n o).Promised n ⟨t, x⟩) (o.process.thread τ).outbox := by
  have hs := hr.sound
  have hmono : ∀ x, s.Promised n ⟨t, x⟩ → (s.apply n o).Promised n ⟨t, x⟩ := fun x => ha.promised
  have hpeer : ∀ x e, (s.process n).localEndpoints.find x = some e → e.peerAddress.nodeName = t →
      s.Promised n ⟨t, e.peerAddress.endpointName⟩ := by
    rintro x e he rfl
    exact .inl (.inl (hs.peer_registered he))
  have hproxy : ∀ x e, (s.process n).localEndpoints.find x = some e →
      e.state = .kUnboundAndProxying → e.proxyTarget.nodeName = t → (s.process n).Meets τ x →
      s.Promised n ⟨t, e.proxyTarget.endpointName⟩ := by
    rintro x e he hq rfl hm
    exact h.meets hr he hq hm
  rcases ha.move.outbox ha.idle (hs.tidy.threads n τ) ht (h.hands n τ t) hpeer hproxy with
    hg | ⟨m, k, hg, hw, hc, hl⟩
  · exact hg.mono hmono
  · obtain rfl := hs.channel_eq hl hc
    exact hg.tail hmono fun x hx => Network.promised_written hw hx

/-- A message is written behind those it depends on. -/
theorem act_wire (k t : Identifier) :
    Grounded ((s.apply n o).process t).Expects ((s.apply n o).inbox k t) := by
  have hold := (h.wires k t).mono fun x hx => ha.expects hx
  rw [Network.inbox_apply]
  cases hw : o.written with
  | none => simpa [hw] using hold
  | some w =>
    obtain ⟨ch, m⟩ := w
    simp only
    split_ifs with hk
    · obtain ⟨rfl, rfl⟩ := hk
      cases m with
      | sendInvitation | acceptInvitation => simpa [ChannelMessage.user?] using hold
      | userMessage m =>
        obtain ⟨t', m', rest, hbox, hdest, hc, hl, htarget⟩ :=
          ha.move.outbox_written (hr.sound.tidy.threads k τ) hw
        obtain rfl := hr.sound.channel_eq hl hc
        have hg := h.hands k τ t hdest
        rw [hbox] at hg
        refine grounded_concat.2 ⟨hold, ?_⟩
        rw [htarget]
        exact hg.1.imp_left ha.expects
    · simpa using hold

/-- The targets of proxies. -/
theorem act_proxy {k x : Identifier} {e : Endpoint}
    (he : ((s.apply n o).process k).localEndpoints.find x = some e)
    (hq : e.state = .kUnboundAndProxying) : (s.apply n o).Promised k e.proxyTarget ∨
      ∃ σ, (x, e.proxyTarget) ∈ (((s.apply n o).process k).thread σ).announcing := by
  have hs := hr.sound
  have hold : ∀ {f : Endpoint}, (s.process k).localEndpoints.find x = some f →
      f.state = .kUnboundAndProxying → f.proxyTarget = e.proxyTarget →
      (s.apply n o).Promised k e.proxyTarget ∨
        ∃ σ, (x, e.proxyTarget) ∈ (((s.apply n o).process k).thread σ).announcing := by
    intro f hf hfq heq
    rcases h.proxies k x f hf hfq with hp | ⟨σ, hσ⟩
    · exact .inl (ha.promised (heq ▸ hp))
    · rw [heq] at hσ
      rcases ha.thread_apply k σ with ⟨rfl, rfl, hth⟩ | hth
      · rcases ha.move.announcing (hs.tidy.threads k σ) ha.idle hσ with hσ | ⟨ch, m, hw, hc, hl, hx⟩
        · exact .inr ⟨σ, by rw [hth]; exact hσ⟩
        · obtain rfl := hs.channel_eq hl hc
          exact .inl (Network.promised_written hw hx)
      · exact .inr ⟨σ, by rw [hth]; exact hσ⟩
  rw [Network.apply_process, upd₁_apply] at he
  split_ifs at he with hk
  · subst hk
    rcases ha.move.proxied he hq with ⟨f, hf, hfq, heq⟩ | hann | ⟨t, m, g, ht, -, heq⟩
    · exact hold hf hfq heq
    · exact .inr ⟨τ, by simpa using hann⟩
    · have hsound := hs.handshake.threads k τ
      rw [ht] at hsound
      obtain ⟨-, -, -, y, -, hg⟩ := hsound
      rw [heq]
      refine .inl (.inl (ha.expects (.inl fun hnone => ?_)))
      simp [Network.peerOf, hnone] at hg
  · exact hold he hq rfl

theorem act_forwarding {x : Identifier} {m : Message} {done rest : List EndpointDescriptor}
    (ht : (o.process.thread τ) = .forwarding x t m done rest) : ∀ d ∈ done,
      ∃ b p, (s.apply n o).port b = some ⟨p, .proxying ⟨n, d.endpointName⟩⟩ := by
  have hg := ha.grows hr
  have hproxy : ∀ {a b : Address} {p : Address}, s.port b = some ⟨p, .proxying a⟩ →
      ∃ b p, (s.apply n o).port b = some ⟨p, .proxying a⟩ := by
    intro a b p hb
    obtain ⟨⟨p', st⟩, hb', -, hst⟩ := hg b _ hb
    obtain rfl := hst a rfl
    exact ⟨b, p', hb'⟩
  intro d hd
  rcases ha.move.prepared ht hd with ⟨m', done', rest', ht', hd'⟩ | ⟨d', hd', heq⟩
  · obtain ⟨b, p, hb⟩ := h.forwarding n τ x t m' done' rest' ht' d hd'
    exact hproxy hb
  · obtain ⟨⟨b, p, hb⟩, -⟩ := hr.untouched.recovered n τ d' hd'
    rw [heq]
    exact hproxy hb

end

theorem act (h : Targets s) (hr : Reachable T s) (ha : Act T s n τ c o) : Targets (s.apply n o) := by
  refine ⟨fun k t => h.act_wire hr ha k t, fun k σ t ht => ?_,
    fun k x e he hq => h.act_proxy hr ha he hq, fun k σ m ht => ?_,
    fun k σ x t m done rest ht => ?_⟩
  · rcases ha.thread_apply k σ with ⟨rfl, rfl, hth⟩ | hth
    · rw [hth] at ht ⊢
      exact h.act_hand hr ha ht
    · rw [hth] at ht ⊢
      exact (h.hands k σ t ht).mono fun x => ha.promised
  · have hlater : (s.process k).thread σ = .receiving m →
        ((s.apply n o).process k).localEndpoints.find m.targetEndpoint ≠ none := fun ht =>
      Network.port_ne_none.1 ((ha.grows hr).ne_none
        (Network.port_ne_none.2 (h.receiving k σ m ht)))
    rcases ha.thread_apply k σ with ⟨rfl, rfl, hth⟩ | hth
    · exact hlater (ha.move.receiving (hth ▸ ht))
    · exact hlater (hth ▸ ht)
  · rcases ha.thread_apply k σ with ⟨rfl, rfl, hth⟩ | hth
    · exact h.act_forwarding hr ha (hth ▸ ht)
    · intro d hd
      obtain ⟨b, p, hb⟩ := h.forwarding k σ x t m done rest (hth ▸ ht) d hd
      obtain ⟨⟨p', st⟩, hb', -, hst⟩ := ha.grows hr b _ hb
      obtain rfl := hst _ rfl
      exact ⟨b, p', hb'⟩

/-- The message that is read has found its target, and brings what it introduces. -/
theorem receipt {channel : Channel} {m : ChannelMessage} {rest : List ChannelMessage}
    (h : Targets s) (hc : Receipt T s n channel m rest) : Targets (s.consume n channel m rest) := by
  have hcore : ∀ k, ((s.consume n channel m rest).process k).toCore = (s.process k).toCore :=
    fun k => (Handshake.core_consume k).1
  have hbox : s.inbox channel n = m.user?.toList ++ (s.consume n channel m rest).inbox channel n := by
    cases hu : m.user? <;> simp [Network.inbox, hc.head, hu]
  have hother : ∀ k t, ¬ (k = channel ∧ t = n) →
      (s.consume n channel m rest).inbox k t = s.inbox k t := by
    intro k t hne
    simp only [Network.inbox, Network.consume_wire, upd_apply]
    rw [if_neg hne]
  have hio : ((s.consume n channel m rest).process n).thread .io = Process.onReceivedMessage m := by
    simp
  have hexpects : ∀ t x, (s.process t).Expects x →
      ((s.consume n channel m rest).process t).Expects x := by
    intro t x hx
    refine hx.imp (fun hx => by rwa [hcore]) fun hx => ?_
    rcases Receipt.thread_consume s n channel m rest t .io with ⟨rfl, -, -⟩ | hth
    · rw [hc.idle] at hx
      cases hx
    · rwa [hth]
  have hbrought : ∀ m' : Message, m.user? = some m' → ∀ x ∈ m'.introduces,
      ((s.consume n channel m rest).process n).Expects x := by
    intro m' hm' x hx
    cases m with
    | sendInvitation | acceptInvitation => cases hm'
    | userMessage m =>
      cases hm'
      refine .inr ?_
      rw [hio]
      exact hx
  have hpromised : ∀ k a, s.Promised k a → (s.consume n channel m rest).Promised k a := by
    rintro k a (hx | ⟨m', hm', hx⟩)
    · exact .inl (hexpects _ _ hx)
    · by_cases hk : k = channel ∧ a.nodeName = n
      · obtain ⟨rfl, hn⟩ := hk
        rw [hn, hbox, List.mem_append, Option.mem_toList] at hm'
        rcases hm' with hm' | hm'
        · exact .inl (hn ▸ hbrought m' hm' _ hx)
        · exact .inr ⟨m', hn ▸ hm', hx⟩
      · exact .inr ⟨m', by rwa [hother k _ hk], hx⟩
  have hthread : ∀ k σ, ((s.consume n channel m rest).process k).thread σ =
      Process.onReceivedMessage m ∨
      ((s.consume n channel m rest).process k).thread σ = (s.process k).thread σ := fun k σ =>
    (Receipt.thread_consume s n channel m rest k σ).imp (·.2.2) id
  refine ⟨fun k t => ?_, fun k σ t ht => ?_, fun k x e he hq => ?_, fun k σ m' ht => ?_,
    fun k σ x t m' done rest' ht => ?_⟩
  · by_cases hk : k = channel ∧ t = n
    · obtain ⟨rfl, rfl⟩ := hk
      have hold := h.wires k t
      rw [hbox] at hold
      cases hu : m.user? with
      | none =>
        rw [hu] at hold
        exact hold.mono (hexpects t)
      | some m' =>
        rw [hu] at hold
        exact Lib.Grounded.tail hold (hexpects t) (hbrought m' hu)
    · rw [hother k t hk]
      exact (h.wires k t).mono (hexpects t)
  · rcases hthread k σ with hth | hth
    · rw [hth] at ht
      cases m <;> cases ht
    · rw [hth] at ht ⊢
      exact (h.hands k σ t ht).mono fun x => hpromised k ⟨t, x⟩
  · rw [hcore] at he
    refine (h.proxies k x e he hq).imp (hpromised k _) ?_
    rintro ⟨σ, hσ⟩
    refine ⟨σ, ?_⟩
    rcases Receipt.thread_consume s n channel m rest k σ with ⟨rfl, rfl, -⟩ | hth
    · rw [hc.idle] at hσ
      cases hσ
    · rwa [hth]
  · rw [hcore]
    rcases Receipt.thread_consume s n channel m rest k σ with ⟨rfl, rfl, hth⟩ | hth
    · rw [hth] at ht
      cases m with
      | sendInvitation | acceptInvitation => cases ht
      | userMessage m =>
        cases ht
        have hold := h.wires channel k
        rw [hbox] at hold
        refine hold.1.resolve_right ?_
        rw [hc.idle]
        exact List.not_mem_nil
    · exact h.receiving k σ m' (hth ▸ ht)
  · rcases hthread k σ with hth | hth
    · rw [hth] at ht
      cases m <;> cases ht
    · intro d hd
      rw [Network.port_consume]
      exact h.forwarding k σ x t m' done rest' (hth ▸ ht) d hd

end Targets

theorem Reachable.targets (hs : Reachable T s) : Targets s := by
  refine hs.induct ⟨fun n t => trivial, fun n τ t ht => ?_, fun n x e he => ?_, fun n τ m ht => ?_,
    fun n τ x t m done rest ht => ?_⟩ (fun s n τ c o hr hs ha => hs.act hr ha)
    fun s n ch m rest hr hs hc => hs.receipt hc
  · cases ht
  · cases he
  · cases ht
  · cases ht

end

/-! ### Every message finds its endpoint -/

/-- A user message is for an endpoint that is there, or that a message ahead of it brings. -/
theorem Targets.ahead {s : Network} (h : Targets s) {a n : Identifier}
    {before after : List ChannelMessage} {m : Message}
    (hw : s.wire a n = before ++ .userMessage m :: after) :
    (s.process n).Expects m.targetEndpoint ∨
      ∃ m', .userMessage m' ∈ before ∧ m.targetEndpoint ∈ m'.introduces := by
  have hg := h.wires a n
  rw [Network.inbox, hw, List.filterMap_append] at hg
  refine (grounded_append.1 hg).2.1.imp_right ?_
  rintro ⟨m', hm', hx⟩
  obtain ⟨M, hM, hu⟩ := List.mem_filterMap.1 hm'
  cases M with
  | sendInvitation | acceptInvitation => cases hu
  | userMessage m'' =>
    cases hu
    exact ⟨_, hM, hx⟩

/-- The message that can be read next has its target. -/
theorem Targets.head {s : Network} (h : Targets s) {a n : Identifier} {m : Message}
    {rest : List ChannelMessage} (hw : s.wire a n = .userMessage m :: rest)
    (hi : (s.process n).thread .io = .idle) :
    (s.process n).localEndpoints.find m.targetEndpoint ≠ none := by
  have hfirst : s.wire a n = [] ++ .userMessage m :: rest := hw
  rcases h.ahead hfirst with hx | ⟨m', hm', -⟩
  · refine hx.resolve_right ?_
    rw [hi]
    exact List.not_mem_nil
  · cases hm'

/-- `CHECK_NE` in `Node::OnReceivedUserMessage` never fires. -/
theorem Reachable.never_missing {T : Topology} {s : Network} (hs : Reachable T s) (l : Label) :
    s.step l ≠ .error (.check .targetNotFound) := by
  intro hl
  rcases Network.step_fault hl with ⟨n, τ, c, rfl, hf⟩ | ⟨n, τ, rfl, hf⟩
  · cases hf with
    | callCreate hs hk hk' => rcases hk' with hk' | hk' <;> cases hk'
  · cases hf with
    | deliver _ _ _ hk | dispatch _ _ _ hk => simpa using Endpoint.acceptMessage_check hk
    | invite _ _ _ hk' => rcases hk' with hk' | hk' <;> cases hk'
    | receive ht hnone => exact hs.targets.receiving n τ _ ht hnone
    | dispatchMissing ht hnone => exact (hs.untouched.target n τ _ _ _ _ ht).1 hnone

/-- In every reachable state of any network, a user message in a channel is for an endpoint that the
    node at its other end has registered, or is about to register for the message it reads, or that a
    message ahead in the channel carries; so when it can be read its target is there, and the lookup
    of `OnReceivedUserMessage` never fails. -/
theorem targets_registered {T : Topology} {s : Network} (hs : Reachable T s) :
    (∀ a n before m after, s.wire a n = before ++ .userMessage m :: after →
      (s.process n).Expects m.targetEndpoint ∨
        ∃ m', .userMessage m' ∈ before ∧ m.targetEndpoint ∈ m'.introduces) ∧
    (∀ a n m rest, s.wire a n = .userMessage m :: rest → (s.process n).thread .io = .idle →
      (s.process n).localEndpoints.find m.targetEndpoint ≠ none) ∧
    ∀ l, s.step l ≠ .error (.check .targetNotFound) := by
  exact ⟨fun a n before m after => hs.targets.ahead, fun a n m rest => hs.targets.head,
    hs.never_missing⟩

/-- An endpoint and a message that was queued on it are in a channel, one behind the other. -/
theorem target_brought_by_message_ahead : ∃ s m m', Reachable Sample.pair s ∧
    s.wire Sample.acceptor Sample.inviter = [.userMessage m, .userMessage m'] ∧
    ¬ (s.process Sample.inviter).Expects m'.targetEndpoint ∧ m'.targetEndpoint ∈ m.introduces := by
  obtain ⟨s, hs, hwire, hboth, hnew⟩ := Network.exists_of_follow Sample.pair (fun _ _ => True)
    (Sample.draining ++ List.replicate 3 (.run Sample.acceptor (.user 0)))
    (fun s => (s.wire Sample.acceptor Sample.inviter).length = 2 ∧
      (s.inbox Sample.acceptor Sample.inviter).length = 2 ∧
      ∀ m' ∈ (s.inbox Sample.acceptor Sample.inviter)[1]?,
        (s.process Sample.inviter).localEndpoints.find m'.targetEndpoint = none ∧
        m'.targetEndpoint ∉ ((s.process Sample.inviter).thread .io).expecting) (by decide +kernel)
  obtain ⟨M, M', heq⟩ := List.length_eq_two.1 hwire
  cases M with
  | sendInvitation | acceptInvitation =>
    simp only [Network.inbox, heq] at hboth
    cases M' <;> cases hboth
  | userMessage m =>
    cases M' with
    | sendInvitation | acceptInvitation =>
      simp only [Network.inbox, heq] at hboth
      cases hboth
    | userMessage m' =>
      rw [Network.inbox, heq] at hnew
      obtain ⟨hfind, hexp⟩ := hnew m' rfl
      have hne : ¬ (s.process Sample.inviter).Expects m'.targetEndpoint := by
        rintro (hx | hx)
        · exact hx hfind
        · exact hexp hx
      refine ⟨s, m, m', hs, heq, hne, ?_⟩
      rcases (targets_registered hs).1 Sample.acceptor Sample.inviter [.userMessage m] m' [] heq with
        hx | ⟨m'', hm'', hx⟩
      · exact absurd hx hne
      · cases List.mem_singleton.1 hm''
        exact hx

/-- In every run of any network: when a user message is written, its target is registered, or the node
    there is about to register it for the message it reads, or a message ahead in the same channel
    brings it. At the head of its channel only the message that is being read may still be ahead of it;
    once that one is dealt with, the target is registered, and so it is when the message is read and
    `OnReceivedUserMessage` looks it up, which never fails. -/
theorem arrives_after_endpoint {T : Topology} {s : Network} (hs : Reachable T s) :
    (∀ n τ a m s', Permitted T s (.run n τ) → s.step (.run n τ) = .ok s' →
      s'.wire n a = s.wire n a ++ [.userMessage m] →
      (s'.process a).Expects m.targetEndpoint ∨
        ∃ m', .userMessage m' ∈ s.wire n a ∧ m.targetEndpoint ∈ m'.introduces) ∧
    (∀ a n m rest, s.wire a n = .userMessage m :: rest → (s.process n).Expects m.targetEndpoint ∧
      ((s.process n).thread .io = .idle →
        (s.process n).localEndpoints.find m.targetEndpoint ≠ none)) ∧
    (∀ n m, (s.process n).thread .io = .receiving m →
      (s.process n).localEndpoints.find m.targetEndpoint ≠ none) ∧
    ∀ l, s.step l ≠ .error (.check .targetNotFound) := by
  refine ⟨fun n τ a m s' hp hstep hw => ?_, fun a n m rest hw => ⟨?_, hs.targets.head hw⟩,
    fun n m => hs.targets.receiving n .io m, hs.never_missing⟩
  · have hs' : Reachable T s' := .step hs ⟨hp, trivial⟩ hstep
    exact hs'.targets.ahead hw
  · have hfirst : s.wire a n = [] ++ .userMessage m :: rest := hw
    rcases hs.targets.ahead hfirst with hx | ⟨m', hm', -⟩
    · exact hx
    · cases hm'

/-- The message that was queued on an endpoint is at the head when the one that brought the endpoint
    has been dealt with. -/
theorem queued_message_after_endpoint : ∃ s m m', Reachable Sample.pair s ∧
    .userMessage m' ∈ s.received Sample.acceptor Sample.inviter ∧
    m.targetEndpoint ∈ m'.introduces ∧
    s.wire Sample.acceptor Sample.inviter = [.userMessage m] ∧
    (s.process Sample.inviter).localEndpoints.find m.targetEndpoint ≠ none := by
  obtain ⟨s, hs, ⟨m, -, hwire, m', hm', hx⟩, hidle⟩ := Network.exists_of_follow Sample.pair
    (fun _ _ => True)
    (Sample.draining ++ List.replicate 3 (.run Sample.acceptor (.user 0)) ++
      Label.reading Sample.inviter Sample.acceptor 4)
    (fun s => (∃ m ∈ (s.inbox Sample.acceptor Sample.inviter)[0]?,
        s.wire Sample.acceptor Sample.inviter = [.userMessage m] ∧
        ∃ m' ∈ (s.received Sample.acceptor Sample.inviter).filterMap ChannelMessage.user?,
          m.targetEndpoint ∈ m'.introduces) ∧
      ((s.process Sample.inviter).thread .io).isIdle)
    (by decide +kernel)
  obtain ⟨M, hM, hu⟩ := List.mem_filterMap.1 hm'
  obtain rfl : M = .userMessage m' := by
    cases M with
    | sendInvitation | acceptInvitation => cases hu
    | userMessage => exact congrArg _ (Option.some.inj hu)
  obtain ⟨-, hhead, -, -⟩ := arrives_after_endpoint hs
  exact ⟨s, m, m', hs, hM, hx, hwire, (hhead _ _ _ _ hwire).2 (Thread.isIdle_iff.1 hidle)⟩

end Mage
