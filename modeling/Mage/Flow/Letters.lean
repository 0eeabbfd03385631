import Mage.Lib.Carriers
import Mage.Ports.Refine

/-! Messages on their way from node to node, as letters: an address and what no node rewrites. What a
    thread is about to write is for somebody's peer or goes through a proxy of its node, and so is
    all that was ever written. -/

namespace Mage
open Lib

/-- A message that goes to node `t`, as a letter. -/
def Message.letter (t : Identifier) (m : Message) : Address × Payload :=
  (⟨t, m.targetEndpoint⟩, m.payload)

def ChannelMessage.letters (t : Identifier) : ChannelMessage → List (Address × Payload)
  | .userMessage m => [m.letter t]
  | _ => []

/-- What a thread is about to write to channels, in order. -/
def Thread.letters : Thread → List (Address × Payload)
  | .sending b m _ _ => m.letter b.targetNodeName :: b.messagesToSend.map (·.letter b.targetNodeName)
  | .unlocking b _ => b.messagesToSend.map (·.letter b.targetNodeName)
  | .forwarding _ t m _ _ => [m.letter t]
  | _ => []

def Caller.passing : Caller → Option Identifier
  | .sendMessageToProxy x => some x
  | _ => none

/-- The endpoint whose proxying a thread serves while it passes one message on. -/
def Thread.passing : Thread → Option Identifier
  | .sending b _ _ _ => b.caller.passing
  | .unlocking b _ => b.caller.passing
  | .forwarding x _ _ _ _ => some x
  | _ => none

/-- The endpoint over which a thread routes its message in its next step. -/
def Thread.routing : Thread → Option Identifier
  | .delivering x _ => some x
  | .recovering x _ _ [] => some x
  | _ => none

namespace Network

/-- All that was ever written from node `n` to node `t`, in order. -/
def transmitted (s : Network) (n t : Identifier) : List (Address × Payload) :=
  (s.received n t ++ s.wire n t).flatMap (·.letters t)

/-- What was written from node `n` to the address `a`. -/
def written (s : Network) (n : Identifier) (a : Address) : List Payload :=
  lane a (s.transmitted n a.nodeName)

/-- What thread `τ` of node `n` is about to write to the address `a`. -/
def box (s : Network) (n : Identifier) (a : Address) (τ : ThreadId) : List Payload :=
  lane a ((s.process n).thread τ).letters

variable {T : Topology} {s : Network} {n : Identifier} {o : Outcome}

/-- What an act writes is added at the end. -/
theorem transmitted_apply (s : Network) (n : Identifier) (o : Outcome) (a t : Identifier) :
    (s.apply n o).transmitted a t = s.transmitted a t ++
      match o.written with
      | some w => if a = n ∧ t = w.1 then w.2.letters t else []
      | none => [] := by
  cases hw : o.written with
  | none => simp [transmitted, apply_wire_none s n hw]
  | some w =>
    simp only [transmitted, apply_received, apply_wire_some s n hw, upd_apply]
    split_ifs with h
    · obtain ⟨rfl, rfl⟩ := h
      simp
    · simp

/-- A receipt only takes a message from the channel. -/
theorem transmitted_consume {channel : Channel} {m : ChannelMessage} {rest : List ChannelMessage}
    (hc : Receipt T s n channel m rest) (a t : Identifier) :
    (s.consume n channel m rest).transmitted a t = s.transmitted a t := by
  simp only [transmitted, consume_received, consume_wire, upd_apply]
  split_ifs with h
  · obtain ⟨rfl, rfl⟩ := h
    rw [hc.head]
    simp
  · rfl

/-- A linked node has its channel under its own name. -/
theorem Sound.channel_eq (h : s.Sound T) {t : Identifier} {channel : Channel} (hl : Linked T n t)
    (hc : (s.process n).nodeChannelMap.find t = some channel) : channel = t :=
  ((h.handshake.entries n t channel hc).of_node hl.node).1.symm

end Network

namespace Process.Move
variable {T : Topology} {n : Identifier} {p : Process} {τ : ThreadId} {supply : List Identifier}
  {c : Option Call} {o : Outcome}

/-- A new letter is for the peer of an endpoint or for the target of a proxy. -/
theorem letter_origin (h : p.Move τ supply c o) (ht : (p.thread τ).Tidy T n p)
    {l : Address × Payload} (hl : l ∈ (o.process.thread τ).letters) :
    l ∈ (p.thread τ).letters ∨
    (∃ x e, p.localEndpoints.find x = some e ∧ l.1 = e.peerAddress) ∨
    ∃ x e, o.process.localEndpoints.find x = some e ∧ e.state = .kUnboundAndProxying ∧
      l.1 = e.proxyTarget := by
  cases h with
  | createMessagePipes | bindReceiver | acceptInvitation => exact .inl hl
  | unlock h1 | next h1 =>
    refine .inl ?_
    simp_all [Thread.letters]
  | write h1 =>
    refine .inl ?_
    simp only [goto_thread, upd₁_apply, if_true, Thread.letters] at hl
    rw [h1, Thread.letters]
    exact List.mem_cons_of_mem _ hl
  | @routeRemote x m e channel h1 he =>
    simp only [goto_thread, upd₁_apply, if_true, Thread.letters, List.map_cons, List.map_nil,
      List.mem_singleton] at hl
    exact .inr (.inl ⟨x, e, he, by rw [hl]; rfl⟩)
  | @deliverToProxy x m e h1 he _ hq =>
    simp only [goto_thread, upd₁_apply, if_true, Thread.letters, List.map_cons, List.map_nil,
      List.mem_singleton] at hl
    exact .inr (.inr ⟨x, e, he, hq, by rw [hl]; rfl⟩)
  | @take b m done ds d e h1 he =>
    simp only [goto_thread, upd₁_apply, if_true, Thread.letters, List.map_append, List.mem_cons,
      List.mem_append, List.map_map] at hl
    rw [h1, Thread.letters, List.mem_cons]
    rcases hl with hl | hl | hl
    · exact .inl (.inl hl)
    · exact .inl (.inr hl)
    · obtain ⟨m', -, rfl⟩ := List.mem_map.1 hl
      exact .inr (.inr ⟨d.endpointName, _, if_pos rfl, rfl, rfl⟩)
  | @relay x m done e h1 he hq =>
    simp only [goto_thread, upd₁_apply, if_true, Thread.letters, List.mem_singleton] at hl
    exact .inr (.inr ⟨x, e, he, hq, by rw [hl]; rfl⟩)
  | @forward x k name m done ds d rest e h1 =>
    refine .inl ?_
    simpa [h1, Thread.letters] using hl
  | @drain r channel e h1 he =>
    rw [h1] at ht
    obtain ⟨e', he', hq⟩ := ht
    rw [he, Option.some.injEq] at he'
    subst he'
    simp only [goto_thread, upd₁_apply, if_true, Thread.letters, List.map_map] at hl
    obtain ⟨m', -, rfl⟩ := List.mem_map.1 hl
    exact .inr (.inr ⟨r, _, if_pos rfl, hq, rfl⟩)
  | _ => simp [Thread.letters] at hl

/-- What a thread writes is the first of its letters. -/
theorem letter_written (h : p.Move τ supply c o) (ht : (p.thread τ).Tidy T n p) {k : Channel}
    {m : Message} (hw : o.written = some (k, .userMessage m)) :
    ∃ t, p.nodeChannelMap.find t = some k ∧ Linked T n t ∧
      (p.thread τ).letters = m.letter t :: (o.process.thread τ).letters := by
  cases h with
  | @write b m done channel h1 hc =>
    cases hw
    rw [h1] at ht
    exact ⟨b.targetNodeName, hc, ht.2, by simp [h1, Thread.letters, Message.letter]⟩
  | @writeForwarded x t m done channel h1 hc =>
    cases hw
    rw [h1] at ht
    exact ⟨t, hc, ht, by simp [h1, Thread.letters, Message.letter, Message.buffer, Message.payload]⟩
  | _ => cases hw

end Process.Move

/-- Every letter is for somebody's peer or goes through a proxy of the node it leaves. -/
structure Addressed (s : Network) : Prop where
  hand : ∀ n τ, ∀ l ∈ ((s.process n).thread τ).letters, s.ports.Aimed n l.1
  wire : ∀ n t, ∀ l ∈ s.transmitted n t, s.ports.Aimed n l.1

theorem Reachable.addressed {T : Topology} {s : Network} (h : Reachable T s) : Addressed s := by
  refine h.induct ⟨fun n τ l hl => (by cases hl), fun n t l hl => (by cases hl)⟩
    (fun s n τ c o hr hs ha => ?_) fun s n ch m rest hr hs hc => ?_
  · have hg := ha.grows hr
    have htidy := hr.sound.tidy.threads n τ
    refine ⟨fun k σ l hl => ?_, fun k t l hl => ?_⟩
    · by_cases hkσ : k = n ∧ σ = τ
      · obtain ⟨rfl, rfl⟩ := hkσ
        simp only [Network.apply_process, upd₁_apply, if_true] at hl
        rcases ha.move.letter_origin htidy hl with hl | ⟨x, e, he, ha'⟩ | ⟨x, e, he, hq, ha'⟩
        · exact hg.aimed (hs.hand k σ l hl)
        · refine hg.aimed (.inl ⟨⟨k, x⟩, ?_⟩)
          simp [Ports.peer, Network.port, he, Endpoint.port, ha']
        · refine .inr ⟨x, e.peerAddress, ?_⟩
          simp [Network.port, he, Endpoint.port, Endpoint.status, hq, ha']
      · refine hg.aimed (hs.hand k σ l ?_)
        by_cases hk : k = n
        · subst hk
          have hσ : σ ≠ τ := fun hσ => hkσ ⟨rfl, hσ⟩
          simpa [ha.move.thread_other hσ] using hl
        · simpa [hk] using hl
    · rw [Network.transmitted_apply, List.mem_append] at hl
      rcases hl with hl | hl
      · exact hg.aimed (hs.wire k t l hl)
      · cases hw : o.written with
        | none => simp [hw] at hl
        | some w =>
          obtain ⟨ch, m⟩ := w
          simp only [hw] at hl
          split_ifs at hl with hkt
          · obtain ⟨rfl, rfl⟩ := hkt
            cases m with
            | userMessage m =>
              obtain ⟨t', hc, hl', hletters⟩ := ha.move.letter_written htidy hw
              obtain rfl := hr.sound.channel_eq hl' hc
              rw [List.mem_singleton.1 hl]
              exact hg.aimed (hs.hand k τ _ (by rw [hletters]; exact List.mem_cons_self))
            | sendInvitation | acceptInvitation => cases hl
          · cases hl
  · have haimed : ∀ k a, s.ports.Aimed k a → (s.consume n ch m rest).ports.Aimed k a := by
      intro k a ha
      simpa [Ports.Aimed, Ports.peer, Network.port_consume] using ha
    refine ⟨fun k σ l hl => haimed k l.1 (hs.hand k σ l ?_), fun k t l hl => ?_⟩
    · by_cases hk : k = n
      · subst hk
        by_cases hσ : σ = .io
        · subst hσ
          cases m <;> simp [Process.onReceivedMessage, Thread.letters] at hl
        · simpa [hσ] using hl
      · simpa [hk] using hl
    · rw [Network.transmitted_consume hc] at hl
      exact haimed k l.1 (hs.wire k t l hl)

end Mage
