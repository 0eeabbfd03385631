import Mage.Safety.Alone
import Mage.Safety.Deadlock
import Mage.Safety.Dependents
import Mage.Safety.Queued
import Mage.Safety.Routing

/-! What can be flushed. In a state that is reached without queueing messages with endpoints on arrival,
    whatever the messages of a node carry along, and what is queued on that, can be moved, and nothing
    is carried twice. So every flush that is under way can be brought to its end. -/

namespace Mage
open Lib

/-! ### Descriptors that wait in one node -/

section
variable {T : Topology} {s : Network} {n : Identifier} {P Q : Place} {d d' : EndpointDescriptor}

/-- Two descriptors that wait and name one endpoint are in one place. -/
theorem Reachable.carried_place (hs : Reachable T s) (hP : P.node = some n) (hQ : Q.node = some n)
    (hd : .described d ∈ s.tokens P) (hd' : .described d' ∈ s.tokens Q)
    (hx : (s.process n).localEndpoints.find d.endpointName ≠ none)
    (heq : d.endpointName = d'.endpointName) : P = Q := by
  have hport : s.ports.port ⟨n, d.endpointName⟩ ≠ none := Network.port_ne_none.2 hx
  exact ((hs.sound.ports.rights.once _ hport).token_eq hd ⟨hP, .inl rfl⟩ hd'
    ⟨hQ, .inl heq.symm⟩).1

/-- They are one descriptor of one message. -/
theorem Reachable.carried_once (hs : Reachable T s) (hP : P.node = some n) {ms : List Message}
    (htok : s.tokens P = ms.flatMap Message.described) {k k' a b : ℕ} {m m' : Message}
    (hm : ms[k]? = some m) (hd : m.endpointsInMessage[a]? = some d)
    (hm' : ms[k']? = some m') (hd' : m'.endpointsInMessage[b]? = some d')
    (hx : (s.process n).localEndpoints.find d.endpointName ≠ none)
    (heq : d.endpointName = d'.endpointName) : k = k' ∧ a = b := by
  have hport : s.ports.port ⟨n, d.endpointName⟩ ≠ none := Network.port_ne_none.2 hx
  have hcount : ((ms.flatMap Message.described).countP (Claims ⟨n, d.endpointName⟩ P ·)) ≤ 1 := by
    rw [← htok]
    exact (hs.sound.ports.rights.once _ hport).le_one P
  exact indices_eq_of_countP hcount hm (u := .described d) (by simp [Message.described, hd])
    (by simp [Claims, hP, Token.Mentions]) hm' (v := .described d')
    (by simp [Message.described, hd']) (by simp [Claims, hP, Token.Mentions, heq])

/-- The messages `ms` wait in place `P` of node `n`, and no descriptor leads to that place. -/
structure Network.Cargo (s : Network) (n : Identifier) (P : Place) (ms : List Message) : Prop where
  node : P.node = some n
  waits : P ≠ .held n
  tokens : s.tokens P = ms.flatMap Message.described
  home : ∀ m ∈ ms, ∀ d ∈ m.endpointsInMessage,
    (s.process n).localEndpoints.find d.endpointName ≠ none
  apart : ∀ Q d, Q.node = some n → .described d ∈ s.tokens Q → .queue n d.endpointName ≠ P

/-- A message to flush is one of those in `P`, or waits in a queue elsewhere. -/
inductive Network.Stored (s : Network) (n : Identifier) (P : Place) (ms : List Message) (i : Item) :
    Prop where
  | given {k : ℕ} (ho : i.origin = .given k) (hm : ms[k]? = some i.message)
  | queued {y : Identifier} {k : ℕ} {m : Message} (hy : .queue n y ≠ P)
    (ho : i.origin = .queued y k) (hm : ((s.process n).queued y)[k]? = some m)
    (hd : i.message.endpointsInMessage = m.endpointsInMessage)

namespace Network.Cargo
variable {ms : List Message} (h : s.Cargo n P ms)
include h

theorem described {m : Message} (hm : m ∈ ms) (hd : d ∈ m.endpointsInMessage) :
    .described d ∈ s.tokens P := by
  rw [h.tokens]
  exact List.mem_flatMap.2 ⟨m, hm, List.mem_map_of_mem hd⟩

/-- Where the descriptors of a message to flush are, and that they name endpoints of the node. -/
theorem place (hs : ReachableBy T KeepsHome s) {i : Item} (hi : s.Stored n P ms i)
    (hd : d ∈ i.message.endpointsInMessage) : ∃ Q, Q.node = some n ∧ Q ≠ .held n ∧
      .described d ∈ s.tokens Q ∧
      (s.process n).localEndpoints.find d.endpointName ≠ none := by
  cases hi with
  | given ho hm =>
    have hm := List.mem_of_getElem? hm
    exact ⟨P, h.node, h.waits, h.described hm hd, h.home _ hm d hd⟩
  | @queued y k m hy ho hm hd' =>
    rw [hd'] at hd
    have hm := List.mem_of_getElem? hm
    refine ⟨.queue n y, rfl, by simp, ?_, (hs.home n).queues y m hm d hd⟩
    exact List.mem_flatMap.2 ⟨m, hm, List.mem_map_of_mem hd⟩

theorem stored (hs : ReachableBy T KeepsHome s) {i : Item}
    (hi : (s.process n).Flushable ms i) : s.Stored n P ms i := by
  induction hi with
  | root hi =>
    obtain ⟨k, m, hm, rfl⟩ := Item.mem_given.1 hi
    exact .given rfl hm
  | child hj hi ih =>
    obtain ⟨a, d, hd, hi⟩ := Core.mem_dependents.1 hi
    obtain ⟨k, m, hm, rfl⟩ := Core.mem_drained.1 hi
    obtain ⟨Q, hQ, -, htok, -⟩ := h.place hs ih (List.mem_of_getElem? hd)
    exact .queued (h.apart Q d hQ htok) rfl hm rfl

/-- All that goes along can be moved, and nothing is carried twice. -/
theorem movable (hs : ReachableBy T KeepsHome s) : (s.process n).Movable ms where
  queueing := by
    intro i hi d hd
    obtain ⟨Q, hQ, hheld, htok, hx⟩ := h.place hs (h.stored hs hi) hd
    obtain ⟨f, hf⟩ := Option.ne_none_iff_exists'.1 hx
    exact ⟨f, hf, (ReachableBy.reachable hs).sound.described_queueing htok hQ hheld hf⟩
  once := by
    intro i j hi hj a b d d' ha hb heq
    have hr : Reachable T s := ReachableBy.reachable hs
    have hi := h.stored hs hi
    have hj := h.stored hs hj
    have hda := List.mem_of_getElem? ha
    have hdb := List.mem_of_getElem? hb
    obtain ⟨-, -, -, -, hx⟩ := h.place hs hi hda
    have queue : ∀ {y : Identifier} {k : ℕ} {m : Message} {c : EndpointDescriptor}, ((s.process n).queued y)[k]? =
        some m → c ∈ m.endpointsInMessage → .described c ∈ s.tokens (.queue n y) := fun hm hc =>
      List.mem_flatMap.2 ⟨_, List.mem_of_getElem? hm, List.mem_map_of_mem hc⟩
    cases hi with
    | given ho hm =>
      cases hj with
      | given ho' hm' =>
        obtain ⟨rfl, rfl⟩ := hr.carried_once h.node h.tokens hm ha hm' hb hx heq
        exact ⟨ho.trans ho'.symm, rfl⟩
      | queued hy _ hm' hd' =>
        exact absurd (hr.carried_place rfl h.node (queue hm' (hd' ▸ hdb))
          (h.described (List.mem_of_getElem? hm) hda) (heq ▸ hx) heq.symm) hy
    | @queued y _ _ hy ho hm hd =>
      rw [hd] at ha
      cases hj with
      | given _ hm' =>
        exact absurd (hr.carried_place rfl h.node (queue hm (List.mem_of_getElem? ha))
          (h.described (List.mem_of_getElem? hm') hdb) hx heq) hy
      | queued hy' ho' hm' hd' =>
        rw [hd'] at hb
        have hplace := hr.carried_place rfl rfl (queue hm (List.mem_of_getElem? ha))
          (queue hm' (List.mem_of_getElem? hb)) hx heq
        cases hplace
        obtain ⟨rfl, rfl⟩ := hr.carried_once (P := .queue n y) rfl rfl hm ha hm' hb hx heq
        exact ⟨ho.trans ho'.symm, rfl⟩

end Network.Cargo
end

/-! ### From between two messages to the end -/

section
variable {T : Topology} {s : Network} {n : Identifier} {τ : ThreadId} {b : Batch}

/-- What is left of a batch is in the hand of its thread. -/
theorem ReachableBy.cargo (hs : ReachableBy T KeepsHome s)
    (ht : (s.process n).thread τ = .unlocking b []) :
    s.Cargo n (.hand n τ) b.messagesToSend where
  node := rfl
  waits := by simp
  tokens := by simp [Network.tokens, ht, Thread.tokens]
  home m hm d hd := (hs.home n).threads τ d (by
    rw [ht]
    exact List.mem_flatMap.2 ⟨m, hm, hd⟩)
  apart := by simp

/-- There is a channel to the target of a batch. -/
theorem Reachable.flush_channel (hs : Reachable T s)
    (ht : (s.process n).thread τ = .unlocking b []) :
    (s.process n).nodeChannelMap.find b.targetNodeName = some b.targetNodeName := by
  have hsound := hs.sound
  have hsome := (hs.keyed n).destination τ b.targetNodeName (by rw [ht]; rfl)
  obtain ⟨c, hc⟩ := Option.ne_none_iff_exists'.1 hsome
  have htidy := hsound.tidy.threads n τ
  rw [ht] at htidy
  obtain ⟨rfl, -⟩ := (hsound.handshake.entries n _ c hc).of_node htidy.node
  exact hc

/-- What goes along is not locked, if no other thread has a lock. -/
theorem Reachable.flush_unlocked (hs : Reachable T s)
    (ht : (s.process n).thread τ = .unlocking b [])
    (hfree : ∀ σ, σ ≠ τ → ((s.process n).thread σ).locks = []) {y : Identifier} {f : Endpoint}
    (hf : (s.process n).localEndpoints.find y = some f) (hq : f.state = .kUnboundAndQueueing) :
    (s.process n).lock y = none := by
  by_contra hne
  obtain ⟨σ, hσ⟩ := Option.ne_none_iff_exists'.1 hne
  have hmem := ((hs.exclusive n σ).2 y).2 hσ
  by_cases hστ : σ = τ
  · subst hστ
    -- the lock that the caller keeps is that of a proxy
    obtain ⟨e, he, hproxy⟩ := hs.locksProxies n σ (by rw [ht]; rfl) y hmem
    rw [hf, Option.some.injEq] at he
    rw [← he, hq] at hproxy
    cases hproxy
  · rw [hfree σ hστ] at hmem
    cases hmem

end

/-- In every state of any network that is reached without queueing messages with endpoints on arrival, a
    flush that is between two messages, whoever called it, runs to its end if no other thread of its node
    has an endpoint locked or steps in between: all that goes along can be moved, what is left of the
    batch is written and then what goes along, each message once, and each endpoint that is carried
    becomes a proxy with nothing queued. -/
theorem flush_completes {T : Topology} {s : Network} (hs : ReachableBy T KeepsHome s) {n : Identifier}
    {τ : ThreadId} {b : Batch} (supply : List Identifier)
    (ht : (s.process n).thread τ = .unlocking b [])
    (hfree : ∀ σ, σ ≠ τ → ((s.process n).thread σ).locks = []) :
    (s.process n).Movable b.messagesToSend ∧
    ∃ k order p', (s.process n).steps τ supply k = .ok (p', order.map fun i =>
        (b.targetNodeName, .userMessage i.message.buffer)) ∧
      p'.thread τ = .unlocking { b with messagesToSend := [] } [] ∧
      Flushed (s.process n) τ b order p' ∧ b.messagesToSend <+: order.map (·.message) := by
  have hr : Reachable T s := ReachableBy.reachable hs
  have hm : (s.process n).Movable b.messagesToSend := (ReachableBy.cargo hs ht).movable hs
  obtain ⟨k, order, hk, hflushed⟩ := Process.flushes supply ht (hr.flush_channel ht) hm
    (hr.undelegated n) fun i hi d hd => by
      obtain ⟨f, hf, hq⟩ := hm.queueing i hi d hd
      exact hr.flush_unlocked ht hfree hf hq
  exact ⟨hm, k, order, _, hk, by simp [Process.flushing], hflushed, hflushed.messages⟩

/-- The batch that a thread is about to go on with. -/
def Thread.goesOn : Thread → Option Batch
  | .unlocking b [] => some b
  | _ => none

theorem Thread.eq_of_goesOn {th : Thread} {b : Batch} (h : th.goesOn = some b) :
    th = .unlocking b [] := by
  unfold goesOn at h
  split at h
  · cases h
    rfl
  · cases h

/-- A message goes through a proxy with an endpoint on which another message is queued. -/
theorem flushed_behind_proxy : ∃ s b k order p', ReachableBy Sample.pair KeepsHome s ∧
    b.messagesToSend.map (fun m => m.endpointsInMessage.map fun d =>
      ((s.process Sample.inviter).queued d.endpointName).length) = [[1]] ∧
    (s.process Sample.inviter).steps (.user 0) s.supply k = .ok (p', order.map fun i =>
      (Sample.acceptor, .userMessage i.message.buffer)) ∧
    Flushed (s.process Sample.inviter) (.user 0) b order p' := by
  obtain ⟨s, hs, hio, b, hb, htarget, hqueued⟩ := Network.exists_of_follow Sample.pair
    (fun s l => Orderly s l ∧ KeepsHome s l)
    (Sample.invitation Sample.acceptor none ++
      Label.calling Sample.inviter (.user 0) .createMessagePipes 0 ++
      Label.calling Sample.inviter (.user 0) (.sendMessage 4 9 [3] []) 3 ++
      Label.calling Sample.inviter (.user 0) (.sendMessage 1 8 [2] [3]) 5)
    (fun s => ((s.process Sample.inviter).thread .io).isIdle ∧
      ∃ b ∈ ((s.process Sample.inviter).thread (.user 0)).goesOn,
        b.targetNodeName = Sample.acceptor ∧
        b.messagesToSend.map (fun m => m.endpointsInMessage.map fun d =>
          ((s.process Sample.inviter).queued d.endpointName).length) = [[1]])
    (by decide +kernel)
  have hhome : ReachableBy Sample.pair KeepsHome s := Reaches.mono (fun _ _ h => ⟨h.1, h.2.2⟩) hs
  have horder : ReachableBy Sample.pair Orderly s := Reaches.mono (fun _ _ h => ⟨h.1, h.2.1⟩) hs
  have hidle : ∀ σ, σ ≠ .user 0 → (s.process Sample.inviter).thread σ = .idle := by
    intro σ hσ
    by_contra hbusy
    rcases horder.two_threads Sample.inviter σ hbusy with rfl | rfl
    · exact hbusy (Thread.isIdle_iff.1 hio)
    · exact hσ rfl
  obtain ⟨-, k, order, p', hsteps, -, hflushed, -⟩ := flush_completes hhome s.supply
    (Thread.eq_of_goesOn hb) fun σ hσ => by
      rw [hidle σ hσ]
      rfl
  rw [htarget] at hsteps
  exact ⟨s, b, k, order, p', hhome, hqueued, hsteps, hflushed⟩

end Mage
