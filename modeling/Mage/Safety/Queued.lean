import Mage.Model.Execution
import Mage.Model.Faults
import Mage.Ports.Refine

/-! What is queued on an unbound endpoint, and whether it can be moved along. A message that arrives
    from another node keeps the names its descriptors had there; when it is queued as it is, and the
    endpoint is passed on later, the sender looks for endpoints it never had. As long as no message
    with endpoints is queued on arrival, every queued descriptor names an endpoint of its own node. -/

namespace Mage
open Lib

/-- Every descriptor queued on an unbound endpoint names a queueing endpoint of the same node. -/
def Network.QueuesHome (s : Network) : Prop :=
  ∀ n x e, (s.process n).localEndpoints.find x = some e → e.state = .kUnboundAndQueueing →
    ∀ m ∈ e.incomingMessageQueue, ∀ d ∈ m.endpointsInMessage,
      ∃ f, (s.process n).localEndpoints.find d.endpointName = some f ∧
        f.state = .kUnboundAndQueueing

/-- The message that a thread is about to dispatch, its endpoints registered, and its target. -/
def Thread.arriving : Thread → Option (Identifier × Message)
  | .recovering x m _ [] => some (x, m)
  | _ => none

/-- The step does not queue a message with endpoints that came from another node. -/
def KeepsHome (s : Network) : Label → Prop
  | .run n τ => ∀ a ∈ ((s.process n).thread τ).arriving,
      ∀ e ∈ (s.process n).localEndpoints.find a.1, e.state = .kUnboundAndQueueing →
        a.2.endpointsInMessage = []
  | .call _ _ _ => True
  | .read _ _ => True

instance (s : Network) (l : Label) : Decidable (KeepsHome s l) :=
  match l with
  | .run n τ => inferInstanceAs (Decidable (∀ a ∈ ((s.process n).thread τ).arriving,
      ∀ e ∈ (s.process n).localEndpoints.find a.1, e.state = .kUnboundAndQueueing →
        a.2.endpointsInMessage = []))
  | .call _ _ _ | .read _ _ => .isTrue trivial

theorem keepsHome_iff {s : Network} {n : Identifier} {τ : ThreadId} : KeepsHome s (.run n τ) ↔
    ∀ x m done e, (s.process n).thread τ = .recovering x m done [] →
      (s.process n).localEndpoints.find x = some e → e.state = .kUnboundAndQueueing →
      m.endpointsInMessage = [] := by
  constructor
  · intro h x m done e ht he hq
    exact h (x, m) (by rw [ht]; rfl) e he hq
  · rintro h ⟨x, m⟩ ha e he hq
    unfold Thread.arriving at ha
    split at ha
    · next ht =>
      cases ha
      exact h _ _ _ e ht he hq
    · cases ha

/-- The descriptors that a thread is sending from its own node. -/
def Thread.homeward : Thread → List EndpointDescriptor
  | .populating _ m _ => m.endpointsInMessage
  | .checking _ m _ => m.endpointsInMessage
  | .delivering _ m => m.endpointsInMessage
  | .sending b _ _ rest => rest ++ b.messagesToSend.flatMap (·.endpointsInMessage)
  | .unlocking b _ => b.messagesToSend.flatMap (·.endpointsInMessage)
  | _ => []

/-- What a process sends and queues names endpoints of its own. -/
structure Process.Home (p : Process) : Prop where
  threads : ∀ τ, ∀ d ∈ (p.thread τ).homeward, p.localEndpoints.find d.endpointName ≠ none
  queues : ∀ x, ∀ m ∈ p.queued x, ∀ d ∈ m.endpointsInMessage,
    p.localEndpoints.find d.endpointName ≠ none

theorem Table.Later.ne_none {t u : Table Identifier Endpoint} (h : Table.Later t u) {x : Identifier}
    (hx : t.find x ≠ none) : u.find x ≠ none := by
  obtain ⟨e, he⟩ := Option.ne_none_iff_exists'.1 hx
  obtain ⟨e', he', -⟩ := h x e he
  simp [he']

namespace Process.Move
variable {p : Process} {τ : ThreadId} {supply : List Identifier} {c : Option Call} {o : Outcome}

/-- A thread takes descriptors from itself, from a queue, or makes them of registered endpoints. -/
theorem home_thread (h : p.Move τ supply c o) (hp : p.Home) (hn : Named p.localEndpoints)
    (d : EndpointDescriptor) (hd : d ∈ (o.process.thread τ).homeward) :
    p.localEndpoints.find d.endpointName ≠ none := by
  have hold := hp.threads τ
  cases h with
  | createMessagePipes | bindReceiver | acceptInvitation => exact hold d hd
  | populated ht | checkSent ht | routeRemote ht | routeLocal ht | deliverToProxy ht | unlock ht
  | next ht =>
    rw [ht] at hold
    refine hold d ?_
    simp_all [Thread.homeward, Message.retarget]
  | write ht =>
    rw [ht] at hold
    refine hold d ?_
    simpa [Thread.homeward] using hd
  | @populate x y name m ys rest e ht hs he =>
    rw [ht] at hold
    simp only [goto_thread, upd₁_apply, if_true, Thread.homeward, List.mem_append,
      List.mem_singleton] at hd
    rcases hd with hd | rfl
    · exact hold d hd
    · rw [hn y e he, he]
      exact Option.some_ne_none e
  | @take b m done ds d' e ht he =>
    rw [ht] at hold
    simp only [goto_thread, upd₁_apply, if_true, Thread.homeward, List.flatMap_append,
      List.mem_append] at hd
    rcases hd with hd | hd | hd
    · exact hold d (List.mem_append_left _ (List.mem_cons_of_mem _ hd))
    · exact hold d (List.mem_append_right _ hd)
    · rw [List.flatMap_map, List.mem_flatMap] at hd
      obtain ⟨m', hm', hd⟩ := hd
      exact hp.queues _ m' (by rwa [Core.queued_of_find he]) d hd
  | @drain r channel e ht he =>
    simp only [goto_thread, upd₁_apply, if_true, Thread.homeward, List.flatMap_map,
      List.mem_flatMap] at hd
    obtain ⟨m', hm', hd⟩ := hd
    exact hp.queues _ m' (by rwa [Core.queued_of_find he]) d hd
  | _ => simp [Thread.homeward] at hd

/-- What is queued was queued before, or comes from the thread that delivers it. -/
theorem home_queue (h : p.Move τ supply c o) (hp : p.Home)
    (hok : ∀ x m done e, c = none → p.thread τ = .recovering x m done [] →
      p.localEndpoints.find x = some e → e.state = .kUnboundAndQueueing → m.endpointsInMessage = [])
    (x : Identifier) (m : Message) (hm : m ∈ o.process.queued x) (d : EndpointDescriptor)
    (hd : d ∈ m.endpointsInMessage) : p.localEndpoints.find d.endpointName ≠ none := by
  have hold := hp.queues
  have hthread := hp.threads τ
  have written : ∀ {y : Identifier} {e e' : Endpoint}, p.localEndpoints.find y = some e →
      o.process.localEndpoints = p.localEndpoints.set y e' →
      (∀ m ∈ e'.incomingMessageQueue, m ∈ e.incomingMessageQueue ∨
        ∀ d ∈ m.endpointsInMessage, p.localEndpoints.find d.endpointName ≠ none) →
      p.localEndpoints.find d.endpointName ≠ none := by
    intro y e e' he hset hq
    rw [Core.queued_set hset] at hm
    split_ifs at hm with hxy
    · rcases hq m hm with hm | hm
      · exact hold y m (by rwa [Core.queued_of_find he]) d hd
      · exact hm d hd
    · exact hold x m hm d hd
  cases h with
  | createMessagePipes _ hx hy hxy | invite _ _ hx hy hxy =>
    have hm : m ∈ ((p.toCore.enroll _ _).enroll _ _).queued x := hm
    rw [Core.queued_enroll_two hx hy hxy] at hm
    exact hold x m hm d hd
  | recover _ hnew =>
    have hm : m ∈ (p.toCore.enroll _ _).queued x := hm
    rw [Core.queued_enroll hnew] at hm
    exact hold x m hm d hd
  | bindReceiver _ he | take _ he | drain _ he =>
    refine written he rfl fun m hm => ?_
    cases hm
  | reserve _ he | forward _ _ he => exact written he rfl fun m hm => .inl hm
  | @deliver y m' e e' pipes ht he _ _ ha =>
    rw [ht] at hthread
    refine written he rfl fun m'' hm'' => ?_
    rcases Endpoint.acceptMessage_eq ha with ⟨-, -, rfl⟩ | ⟨-, -, rfl⟩
    · rcases List.mem_append.1 hm'' with hm'' | hm''
      · exact .inl hm''
      · rw [List.mem_singleton.1 hm'']
        exact .inr hthread
    · exact .inl hm''
  | @dispatch y m' done e e' ht he ha =>
    refine written he rfl fun m'' hm'' => ?_
    rcases Endpoint.acceptMessage_eq ha with ⟨hq, -, rfl⟩ | ⟨-, -, rfl⟩
    · rcases List.mem_append.1 hm'' with hm'' | hm''
      · exact .inl hm''
      · rw [List.mem_singleton.1 hm'', hok y m' done e rfl ht he hq]
        exact .inr (by simp)
    · exact .inl hm''
  | @accept i t y name rest ht hs =>
    refine hold x m ?_ d hd
    simp only [Core.queued, goto_toCore, Table.find_insert] at hm ⊢
    split_ifs at hm with hxy
    · subst hxy
      cases hf : p.localEndpoints.find x with
      | none => simp [hf, Endpoint.new] at hm
      | some e => simpa [hf] using hm
    · exact hm
  | _ => exact hold x m hm d hd

theorem home (h : p.Move τ supply c o) (hp : p.Home) (hn : Named p.localEndpoints)
    (hok : ∀ x m done e, c = none → p.thread τ = .recovering x m done [] →
      p.localEndpoints.find x = some e → e.state = .kUnboundAndQueueing →
      m.endpointsInMessage = []) : o.process.Home where
  threads σ d hd := by
    refine h.later.ne_none ?_
    by_cases hσ : σ = τ
    · subst hσ
      exact h.home_thread hp hn d hd
    · rw [h.thread_other hσ] at hd
      exact hp.threads σ d hd
  queues x m hm d hd := h.later.ne_none (h.home_queue hp hok x m hm d hd)

end Process.Move

/-- When a node queues nothing with endpoints on arrival, all that it queues is its own. -/
theorem ReachableBy.home_of {T : Topology} {ok : Network → Label → Prop} {s : Network}
    (h : ReachableBy T ok s) (n : Identifier)
    (hok : ∀ s τ, ReachableBy T ok s → ok s (.run n τ) → KeepsHome s (.run n τ)) :
    (s.process n).Home := by
  refine h.induct (P := fun s => (s.process n).Home) ⟨?_, ?_⟩
    (fun s k τ c o hr hs ha hrule => ?_) (fun s k ch m rest hr hs hc _ => ?_)
  · intro τ d hd
    cases hd
  · intro x m hm
    cases hm
  · by_cases hn : n = k
    · subst hn
      rw [Network.apply_process, upd₁_apply, if_pos rfl]
      refine ha.move.home hs (hr.reachable.named n) fun x m done e hc ht he hq => ?_
      subst hc
      exact keepsHome_iff.1 (hok s τ hr hrule) x m done e ht he hq
    · simpa [hn] using hs
  · by_cases hn : n = k
    · subst hn
      rw [Network.consume_process, upd₁_apply, if_pos rfl]
      refine ⟨fun σ d hd => ?_, hs.queues⟩
      by_cases hσ : σ = .io
      · subst hσ
        cases m <;> simp [Process.onReceivedMessage, Thread.homeward] at hd
      · simp only [Process.goto_thread, upd₁_apply, if_neg hσ] at hd
        exact hs.threads σ d hd
    · simpa [hn] using hs

/-- When no node does, all that a process queues is its own. -/
theorem ReachableBy.home {T : Topology} {s : Network} (h : ReachableBy T KeepsHome s)
    (n : Identifier) : (s.process n).Home :=
  h.home_of n fun _ _ _ hok => hok

namespace Network.Sound
variable {T : Topology} {s : Network}

/-- A descriptor that waits in its own node names an endpoint that can be moved. -/
theorem described_queueing (h : s.Sound T) {P : Place} {n : Identifier} {d : EndpointDescriptor}
    (hd : .described d ∈ s.ports.tokens P) (hP : P.node = some n) (hne : P ≠ .held n)
    {f : Endpoint} (hf : (s.process n).localEndpoints.find d.endpointName = some f) :
    f.state = .kUnboundAndQueueing := by
  have hport : s.ports.port ⟨n, d.endpointName⟩ = some f.port := by simp [port, hf]
  rcases h.ports.rights.status P _ hd ⟨n, d.endpointName⟩ f.port ⟨hP, .inl rfl⟩ hport with hs | hs
  · cases hq : f.state <;> simp_all [Endpoint.port, Endpoint.status]
  · exact absurd hs.2 hne

theorem queued_token {n x : Identifier} {e : Endpoint}
    (he : (s.process n).localEndpoints.find x = some e) {m : Message}
    (hm : m ∈ e.incomingMessageQueue) {d : EndpointDescriptor} (hd : d ∈ m.endpointsInMessage) :
    .described d ∈ s.ports.tokens (.queue n x) := by
  refine List.mem_flatMap.2 ⟨m, ?_, List.mem_map_of_mem hd⟩
  rwa [Core.queued_of_find he]

end Network.Sound

/-- In every run in which no message with endpoints is queued on arrival, queued descriptors name
    queueing endpoints of their own node, and sending an endpoint along finds all it looks for. -/
theorem queued_descriptors_movable {T : Topology} {s : Network} (hs : ReachableBy T KeepsHome s) :
    s.QueuesHome ∧
    ∀ n τ b m done rest, (s.process n).thread τ = .sending b m done rest →
      s.step (.run n τ) ≠ .error (.check .dependentNotFound) ∧
      s.step (.run n τ) ≠ .error (.check .notQueueing) := by
  have h := hs.reachable.sound
  refine ⟨fun n x e he hq m hm d hd => ?_, fun n τ b m done rest ht => ?_⟩
  · have hfound := (hs.home n).queues x m (by rwa [Core.queued_of_find he]) d hd
    obtain ⟨f, hf⟩ := Option.ne_none_iff_exists'.1 hfound
    exact ⟨f, hf, h.described_queueing (Network.Sound.queued_token he hm hd) rfl (by simp) hf⟩
  · have taken : ∀ d ds, rest = d :: ds →
        (s.process n).localEndpoints.find d.endpointName ≠ none ∧
        .described d ∈ s.ports.tokens (.hand n τ) := by
      rintro d ds rfl
      refine ⟨(hs.home n).threads τ d ?_, ?_⟩
      · rw [ht]
        exact List.mem_append_left _ List.mem_cons_self
      · simp [Network.tokens, ht, Thread.tokens]
    refine ⟨fun herr => ?_, fun herr => ?_⟩
    · rcases Network.step_fault herr with ⟨_, _, _, hl, -⟩ | ⟨_, _, hl, hf⟩ <;> cases hl
      cases hf with
      | takeMissing ht' hf =>
        rw [ht] at ht'
        cases ht'
        exact (taken _ _ rfl).1 hf
      | deliver ht' => simp [ht] at ht'
      | dispatch ht' => simp [ht] at ht'
      | invite ht' => simp [ht] at ht'
    · rcases Network.step_fault herr with ⟨_, _, _, hl, -⟩ | ⟨_, _, hl, hf⟩ <;> cases hl
      cases hf with
      | takeState ht' he hq =>
        rw [ht] at ht'
        cases ht'
        exact hq (h.described_queueing (taken _ _ rfl).2 rfl (by simp) he)
      | _ => simp_all

/-- A message with an endpoint may arrive, for instance, at an endpoint that is bound. Another is queued
    on an unbound one by the node that has them all. -/
theorem bound_pipe_descriptors_movable : ∃ s, ReachableBy Sample.pair KeepsHome s ∧
    (s.received Sample.inviter Sample.acceptor).length = 2 ∧
    ((s.process Sample.inviter).queued (Sample.word 8)).map (·.endpointsInMessage.length) = [1] ∧
    s.QueuesHome := by
  obtain ⟨s, hs, hlen, hqueued⟩ := Network.exists_of_follow Sample.pair KeepsHome
    (Sample.bound ++ Label.reading Sample.acceptor Sample.inviter 4 ++
      Label.calling Sample.inviter (.user 0) .createMessagePipes 0 ++
      Label.calling Sample.inviter (.user 0) .createMessagePipes 0 ++
      Label.calling Sample.inviter (.user 0) (.sendMessage 5 9 [3] [7]) 5)
    (fun s => (s.received Sample.inviter Sample.acceptor).length = 2 ∧
      ((s.process Sample.inviter).queued (Sample.word 8)).map (·.endpointsInMessage.length) = [1])
    (by decide +kernel)
  exact ⟨s, hs, hlen, hqueued, (queued_descriptors_movable hs).1⟩

/-- The rule is exact: to break it is to queue a descriptor whose endpoint this node never had. -/
theorem queued_on_arrival_not_home {T : Topology} {s s' : Network} {l : Label}
    (hs : Reachable T s) (hl : s.step l = .ok s') (hbad : ¬ KeepsHome s l) : ¬ s'.QueuesHome := by
  have h := hs.sound
  cases l with
  | call | read => exact absurd trivial hbad
  | run n τ =>
  simp only [keepsHome_iff, not_forall] at hbad
  obtain ⟨x, m, done, e, ht, he, hq, hne⟩ := hbad
  rcases Network.step_cases hl with ⟨_, _, _, _, h', -⟩ | ⟨_, _, _, _, h', -⟩ | ⟨_, _, o, h', hm, rfl⟩ <;>
    cases h'
  cases hm with
  | @dispatch _ _ _ e₁ e' ht' he' ha =>
    rw [ht] at ht'
    cases ht'
    rw [he] at he'
    cases he'
    obtain ⟨d, hd⟩ := List.exists_mem_of_ne_nil _ hne
    have hdone : d ∈ done := by
      have htidy := h.tidy.threads n τ
      rw [ht] at htidy
      rwa [htidy.1, List.append_nil] at hd
    have htok : .recovered d ∈ s.ports.tokens (.hand n τ) := by
      simp [Network.tokens, ht, Thread.tokens, hdone]
    obtain ⟨k, ⟨σ, hP⟩, hstale⟩ := h.ports.names.ok _ _ htok
    cases hP
    have hnone : (s.process n).localEndpoints.find d.endpointName = none := by
      by_contra hfound
      exact Network.port_ne_none.2 hfound (hstale.not_sender h.ports.names)
    rcases Endpoint.acceptMessage_eq ha with ⟨-, -, rfl⟩ | ⟨hb, -⟩
    · intro hhome
      obtain ⟨f, hf, -⟩ := hhome n x { e with
        incomingMessageQueue := e.incomingMessageQueue ++ [m] } (by simp) hq m (by simp) d hd
      have hdx : d.endpointName ≠ x := by
        rintro rfl
        rw [he] at hnone
        cases hnone
      simp [hdx, hnone] at hf
    · rw [hq] at hb
      cases hb
  | relay ht' he' hq' =>
    rw [ht] at ht'
    cases ht'
    rw [he] at he'
    cases he'
    rw [hq] at hq'
    cases hq'
  | _ => simp_all

/-- The inviter sends a pipe end over a pipe whose other end the acceptor keeps unbound; when the
    acceptor passes that other end on, the process aborts. -/
theorem received_pipe_not_movable :
    (∃ s, Reachable Sample.pair s ∧ ¬ s.QueuesHome) ∧
    ∃ s, Reachable Sample.pair s ∧
      s.step (.run Sample.acceptor (.user 0)) = .error (.check .dependentNotFound) := by
  constructor
  · obtain ⟨s, hs, hf⟩ := Network.exists_of_follow Sample.pair (fun _ _ => True) Sample.queueing
      (fun s => ((s.process Sample.acceptor).localEndpoints.find (Sample.word 6)).any fun e =>
        e.state = .kUnboundAndQueueing ∧ e.incomingMessageQueue.any fun m =>
          m.endpointsInMessage.any fun d =>
            ((s.process Sample.acceptor).localEndpoints.find d.endpointName).isNone)
      (by decide +kernel)
    refine ⟨s, hs, fun hhome => ?_⟩
    obtain ⟨e, he, hq⟩ := (Option.any_eq_true _ _).1 hf
    obtain ⟨hq, hm⟩ := of_decide_eq_true hq
    obtain ⟨m, hm, hd⟩ := List.any_eq_true.1 hm
    obtain ⟨d, hd, hnone⟩ := List.any_eq_true.1 hd
    obtain ⟨f, hf, -⟩ := hhome _ _ e he hq m hm d hd
    rw [hf] at hnone
    cases hnone
  · obtain ⟨s, hs, hstop⟩ := Network.exists_of_follow Sample.pair (fun _ _ => True)
      Sample.passingOn
      (fun s => s.stops (.run Sample.acceptor (.user 0)) = some (.check .dependentNotFound))
      (by decide +kernel)
    exact ⟨s, hs, Network.stops_eq_some.1 hstop⟩

end Mage
