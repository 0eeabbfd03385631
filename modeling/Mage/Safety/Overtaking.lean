import Mage.Flow.Passing
import Mage.Model.Execution

/-! Messages for an endpoint that was sent away. What was queued on it is written by the thread that
    sent it, after the lock of the endpoint was given back; what arrives later is written by whoever
    brings it. A later message overtakes an older one unless its thread waits for the other. -/

namespace Mage
open Lib

/-- The proxy for which a thread is about to write a message, and the address of that message. -/
def Thread.writing : Thread → Option (Identifier × Address)
  | .sending b m _ [] => b.caller.passing.map (·, ⟨b.targetNodeName, m.targetEndpoint⟩)
  | .forwarding x t m _ [] => some (x, ⟨t, m.targetEndpoint⟩)
  | _ => none

/-- No thread routes a message over a proxy while another thread has still to write what it took from
    the proxy. -/
def AfterDrain (s : Network) : Label → Prop
  | .run n τ => ∀ x e, ((s.process n).thread τ).routing = some x →
      (s.process n).localEndpoints.find x = some e → e.state = .kUnboundAndProxying →
        ∀ σ, σ ≠ τ → s.box n e.proxyTarget σ = []
  | _ => True

theorem Thread.writing_eq {t : Thread} {x : Identifier} {a : Address}
    (h : t.writing = some (x, a)) : t.passing = some x ∧ lane a t.letters ≠ [] := by
  cases t with
  | sending b m done rest =>
    cases rest with
    | cons => cases h
    | nil =>
      obtain ⟨y, hy, hya⟩ := Option.map_eq_some_iff.1 h
      cases hya
      exact ⟨hy, by simp [Thread.letters, Message.letter, lane_cons]⟩
  | forwarding y t m done rest =>
    cases rest with
    | cons => cases h
    | nil =>
      cases h
      exact ⟨rfl, by simp [Thread.letters, Message.letter, lane_cons]⟩
  | _ => cases h

/-- A thread that found `x` proxying does not write its message while another thread has a message
    that arrived at `x` and is not written. -/
def InTurn (s : Network) : Label → Prop
  | .run n τ => ∀ x a, ((s.process n).thread τ).writing = some (x, a) →
      ∀ e, (s.process n).localEndpoints.find x = some e → e.proxyTarget = a →
        ∀ σ, σ ≠ τ → s.box n a σ = []
  | _ => True

namespace Process.Move
variable {T : Topology} {n : Identifier} {p : Process} {τ : ThreadId} {supply : List Identifier}
  {c : Option Call} {o : Outcome}

/-- A thread that passes a message on announces what it writes. -/
theorem writing (h : p.Move τ supply c o) (ht : (p.thread τ).Tidy T n p) {k : Channel}
    {m : Message} (hw : o.written = some (k, .userMessage m)) {x : Identifier}
    (hx : (p.thread τ).passing = some x) : ∃ t, p.nodeChannelMap.find t = some k ∧ Linked T n t ∧
      c = none ∧ (p.thread τ).writing = some (x, ⟨t, m.targetEndpoint⟩) := by
  cases h with
  | @write b m done channel h1 hc =>
    cases hw
    rw [h1] at ht hx
    exact ⟨b.targetNodeName, hc, ht.2, rfl, by simp [h1, Thread.writing, show b.caller.passing = _ from hx]⟩
  | @writeForwarded y t m done channel h1 hc =>
    cases hw
    rw [h1] at ht hx
    cases hx
    exact ⟨t, hc, ht, rfl, by simp [h1, Thread.writing, Message.buffer]⟩
  | _ => cases hw

end Process.Move

/-- In a run in which messages are written in turn, every proxy passes them on in order. -/
theorem ReachableBy.passed {T : Topology} {s : Network} (h : ReachableBy T InTurn s)
    {n x : Identifier} {p a : Address} (hx : s.port ⟨n, x⟩ = some ⟨p, .proxying a⟩) :
    s.Passed n x a := by
  refine h.induct (P := fun s => ∀ n x p a, s.port ⟨n, x⟩ = some ⟨p, .proxying a⟩ → s.Passed n x a)
    (fun n x p a hx => (by cases hx)) (fun s k τ c o hr hs ha hok n x p a hx => ?_)
    (fun s k ch m rest hr hs hc _ n x p a hx => ?_) n x p a hx
  · have hr := hr.reachable
    by_cases hk : n = k
    · subst hk
      by_cases hold : s.port ⟨n, x⟩ = some ⟨p, .proxying a⟩
      · refine ha.passed hr hold (hs n x p a hold) fun ch m hw hm hpass => ?_
        obtain ⟨t, hc, hl, rfl, hwr⟩ := ha.move.writing (hr.sound.tidy.threads n τ) hw hpass
        obtain rfl := hr.sound.channel_eq hl hc
        obtain ⟨e, he, -, -, hea⟩ := Network.port_eq_proxying.1 hold
        exact hok x a (hm ▸ hwr) e he hea
      · exact ha.passed_new hr hx hold
    · refine (hs n x p a ?_).away hk
      rwa [Network.port_apply, if_neg hk] at hx
  · refine (hs n x p a ?_).receipt hc
    rwa [Network.port_consume] at hx

/-! ### Routing over drained proxies only -/

/-- A thread that passes a message on found the proxy, or goes on with what it found. -/
theorem Process.Move.passing_old {p : Process} {τ : ThreadId} {supply : List Identifier}
    {c : Option Call} {o : Outcome} (h : p.Move τ supply c o) {x : Identifier}
    (hx : (o.process.thread τ).passing = some x) : (p.thread τ).passing = some x ∨
      ∃ e, p.localEndpoints.find x = some e ∧ e.state = .kUnboundAndProxying := by
  cases h with
  | createMessagePipes | bindReceiver | acceptInvitation => exact .inl hx
  | deliverToProxy _ he _ hq =>
    simp only [goto_thread, upd₁_apply, if_true, Thread.passing, Caller.passing,
      Option.some.injEq] at hx
    exact .inr ⟨_, hx ▸ he, hq⟩
  | relay _ he hq =>
    simp only [goto_thread, upd₁_apply, if_true, Thread.passing, Option.some.injEq] at hx
    exact .inr ⟨_, hx ▸ he, hq⟩
  | take h1 | write h1 | unlock h1 | next h1 | forward h1 =>
    rw [h1]
    simpa [Thread.passing] using Or.inl hx
  | _ => simp [Thread.passing, Caller.passing] at hx

/-- What a thread passes a message on for is a proxy. -/
theorem Reachable.passing_proxying {T : Topology} {s : Network} (h : Reachable T s)
    {n x : Identifier} {τ : ThreadId} (hx : ((s.process n).thread τ).passing = some x) :
    ∃ e, (s.process n).localEndpoints.find x = some e ∧ e.state = .kUnboundAndProxying := by
  refine Reachable.forall_process (P := fun _ p => ∀ τ x, (p.thread τ).passing = some x →
    ∃ e, p.localEndpoints.find x = some e ∧ e.state = .kUnboundAndProxying) (fun n τ x hx => ?_)
    (fun s n τ c o _ hp ha σ x hx => ?_) (fun s n ch m rest _ hp _ σ x hx => ?_) h n τ x hx
  · cases hx
  · have hold : ∃ e, (s.process n).localEndpoints.find x = some e ∧
        e.state = .kUnboundAndProxying := by
      by_cases hσ : σ = τ
      · subst hσ
        exact (ha.move.passing_old hx).elim (hp σ x) id
      · exact hp σ x (ha.move.thread_other hσ ▸ hx)
    obtain ⟨e, he, hq⟩ := hold
    obtain ⟨e', he', hlater⟩ := ha.move.later x e he
    exact ⟨e', he', (hlater.proxy hq).1⟩
  · by_cases hσ : σ = .io
    · subst hσ
      cases m <;> simp [Process.onReceivedMessage, Thread.passing] at hx
    · exact hp σ x (by simpa [hσ] using hx)

/-- No two threads of a node have messages for the target of one proxy. -/
def Network.Solo (s : Network) : Prop := ∀ n x p a, s.port ⟨n, x⟩ = some ⟨p, .proxying a⟩ →
  {τ | s.box n a τ ≠ []}.Subsingleton

section
variable {T : Topology} {s : Network} {n x : Identifier} {p a : Address} {τ : ThreadId}
  {c : Option Call} {o : Outcome}

/-- A step that routes over drained proxies only: a proxy. -/
theorem Act.solo (ha : Act T s n τ c o) (hr : Reachable T s)
    (hx : s.port ⟨n, x⟩ = some ⟨p, .proxying a⟩) (h : {σ | s.box n a σ ≠ []}.Subsingleton)
    (hpassed : s.Passed n x a) (hok : AfterDrain s (.of n τ c)) :
    {σ | (s.apply n o).box n a σ ≠ []}.Subsingleton := by
  refine subsingleton_of_step (i := τ) h (fun σ hσ => ha.box_other hσ a) fun hne => ?_
  rw [Network.box_apply] at hne
  obtain ⟨e, he, -, hq, hea⟩ := Network.port_eq_proxying.1 hx
  rcases ha.move.letters_new ha.idle with ⟨k, m, hw⟩ | ⟨new, hletters, -, hnew⟩
  · obtain ⟨t, -, -, hcons⟩ := ha.move.letter_written (hr.sound.tidy.threads n τ) hw
    rw [Network.box, hcons, lane_cons_append]
    exact .inl fun hnil => hne (List.append_eq_nil_iff.1 hnil).2
  by_cases harr : o.process.arrivals x = (s.process n).arrivals x
  swap
  · obtain ⟨-, -, -, -, -, -, -, -, rfl, hroute⟩ := ha.move.arrived he hq harr
    exact .inr (hea ▸ hok x e hroute he hq)
  by_cases hdrain : ∃ k, (s.process n).thread τ = .draining x k
  · obtain ⟨k, ht⟩ := hdrain
    exact .inr fun σ _ => hpassed.flushing ⟨τ, by simp [ht, Thread.flushing]⟩ σ
  · rw [hletters, lane_append, hr.lane_new hx harr (fun k hk => hdrain ⟨k, hk⟩) hnew,
      List.append_nil] at hne
    exact .inl hne

/-- A step that makes a proxy. -/
theorem Act.solo_new (ha : Act T s n τ c o) (hr : Reachable T s)
    (hx : (s.apply n o).port ⟨n, x⟩ = some ⟨p, .proxying a⟩)
    (hnot : s.port ⟨n, x⟩ ≠ some ⟨p, .proxying a⟩) :
    {σ | (s.apply n o).box n a σ ≠ []}.Subsingleton := by
  obtain ⟨e', he', rfl, hq', rfl⟩ := Network.port_eq_proxying.1 hx
  simp only [Network.apply_process, upd₁_apply, if_true] at he'
  rcases ha.move.becomes he' hq' with ⟨e, he, hp, hq, ht⟩ | ⟨e, he, hq, -, -, hb⟩
  · exact absurd (Network.port_eq_proxying.2 ⟨e, he, hp, hq, ht⟩) hnot
  have hbox := hb.box_nil hr he hq
  refine subsingleton_of_step (i := τ) (fun σ hσ => absurd (hbox σ) hσ)
    (fun σ hσ => ha.box_other hσ _) fun _ => .inr fun σ _ => hbox σ

/-- Where no two threads have messages for one target, whoever writes one is in turn. -/
theorem Network.Solo.inTurn (h : s.Solo) (hr : Reachable T s) (l : Label) : InTurn s l := by
  cases l with
  | call | read => trivial
  | run n τ =>
    intro y b hwr e he hb σ hσ
    obtain ⟨hpass, hbox⟩ := Thread.writing_eq hwr
    obtain ⟨e', he', hq⟩ := hr.passing_proxying hpass
    rw [he, Option.some.injEq] at he'
    subst he'
    by_contra hne
    exact hσ (h n y _ b (Network.port_eq_proxying.2 ⟨e, he, rfl, hq, hb⟩) hne hbox)

end

/-- In a run in which messages are routed over drained proxies only, messages are written in turn. -/
theorem ReachableBy.drained_first {T : Topology} {s : Network} (h : ReachableBy T AfterDrain s) :
    ReachableBy T InTurn s ∧ s.Solo := by
  refine Reaches.invariant (P := fun s => ReachableBy T InTurn s ∧ s.Solo)
    ⟨.init, fun n x p a hx => (by cases hx)⟩ ?_ h
  rintro s l s' - ⟨hs, hsolo⟩ hok hstep
  have hr := hs.reachable
  refine ⟨.step hs ⟨hok.1, hsolo.inTurn hr l⟩ hstep, fun n x p a hx => ?_⟩
  rcases Network.advance hok.1 hstep with ⟨k, τ, c, o, rfl, ha, rfl⟩ | ⟨k, ch, m, rest, rfl, hc, rfl⟩
  · by_cases hk : n = k
    · subst hk
      by_cases hold : s.port ⟨n, x⟩ = some ⟨p, .proxying a⟩
      · exact ha.solo hr hold (hsolo n x p a hold) (hs.passed hold) hok.2
      · exact ha.solo_new hr hx hold
    · rw [Network.port_apply, if_neg hk] at hx
      have hsame : ∀ σ, (s.apply k o).box n a σ = s.box n a σ := fun σ => by simp [Network.box, hk]
      simpa [hsame] using hsolo n x p a hx
  · rw [Network.port_consume] at hx
    simpa [hc.box] using hsolo n x p a hx

/-- As long as no thread routes a message over a proxy while another thread has still to write what it
    took from the proxy, what is written to the endpoint that stands for the proxy elsewhere is what
    arrived at the proxy, from the oldest message on; and it is all of it once no thread has anything
    left to write there. -/
theorem transfer_keeps_order {T : Topology} {s : Network} (h : ReachableBy T AfterDrain s)
    {n x : Identifier} {e : Endpoint} (he : (s.process n).localEndpoints.find x = some e)
    (hq : e.state = .kUnboundAndProxying) :
    s.written n e.proxyTarget <+: (s.process n).arrivals x ∧
    ((∀ τ, s.box n e.proxyTarget τ = []) → e.incomingMessageQueue = [] →
      s.written n e.proxyTarget = (s.process n).arrivals x) := by
  have hp := h.drained_first.1.passed (Network.port_eq_proxying.2 ⟨e, he, rfl, hq, rfl⟩)
  refine ⟨hp.carried.begins, fun hbox hnil => ?_⟩
  have := hp.carried.settled hbox
  rw [Core.queued_of_find he, hnil, List.map_nil, List.append_nil] at this
  exact this.symm

/-! ### Runs of a few threads -/

/-- The steps of the threads of `K`, over proxies for which no other thread of `K` has messages. -/
def DrainedAmong (K : List ThreadId) (s : Network) (l : Label) : Prop :=
  l.thread ∈ K ∧ match l with
  | .run n τ => ∀ x ∈ ((s.process n).thread τ).routing, ∀ e ∈ (s.process n).localEndpoints.find x,
      e.state = .kUnboundAndProxying → ∀ σ ∈ K, σ ≠ τ → s.box n e.proxyTarget σ = []
  | _ => True

instance (K : List ThreadId) (s : Network) (l : Label) : Decidable (DrainedAmong K s l) :=
  match l with
  | .run _ _ | .call _ _ _ | .read _ _ => by unfold DrainedAmong; infer_instance

/-- Threads that make no step are idle. -/
theorem ReachableBy.idle {T : Topology} {s : Network} {K : List ThreadId}
    {ok : Network → Label → Prop} (h : ReachableBy T ok s) (hK : ∀ s l, ok s l → l.thread ∈ K)
    (n : Identifier) {σ : ThreadId} (hσ : σ ∉ K) : (s.process n).thread σ = .idle := by
  refine h.induct (P := fun s => ∀ n, (s.process n).thread σ = .idle) (fun n => rfl)
    (fun s k τ c o _ hs ha hok n => ?_) (fun s k ch m rest _ hs hc hok n => ?_) n
  · rcases ha.thread_apply n σ with ⟨-, rfl, -⟩ | hth
    · cases c <;> exact absurd (hK _ _ hok) hσ
    · rw [hth]
      exact hs n
  · rcases Receipt.thread_consume s k ch m rest n σ with ⟨-, rfl, -⟩ | hth
    · exact absurd (hK _ _ hok) hσ
    · rw [hth]
      exact hs n

theorem ReachableBy.afterDrain {T : Topology} {s : Network} {K : List ThreadId}
    (h : ReachableBy T (DrainedAmong K) s) : ReachableBy T AfterDrain s := by
  refine h.mono_of_reaches fun s l hs hok => ⟨hok.1, ?_⟩
  cases l with
  | call | read => trivial
  | run n τ =>
    intro x e hx he hq σ hσ
    by_cases hmem : σ ∈ K
    · exact hok.2.2 x hx e he hq σ hmem hσ
    · rw [Network.box, ReachableBy.idle hs (fun _ _ h => h.1) n hmem]
      rfl

/-- The later message finds the endpoint proxying, and is written after the one that was queued. -/
theorem drained_endpoint_keeps_order : ∃ s e, ReachableBy Sample.pair AfterDrain s ∧
    (s.process Sample.acceptor).localEndpoints.find (Sample.word 4) = some e ∧
    e.state = .kUnboundAndProxying ∧
    s.written Sample.acceptor e.proxyTarget = [⟨8, [2]⟩, ⟨10, [4]⟩] := by
  obtain ⟨s, hs, e, he, hq, hnil, hbox, harr⟩ := Network.exists_of_follow Sample.pair
    (DrainedAmong [.io, .user 0, .user 1]) Sample.following
    (fun s => ∃ e ∈ (s.process Sample.acceptor).localEndpoints.find (Sample.word 4),
      e.state = .kUnboundAndProxying ∧ e.incomingMessageQueue = [] ∧
      (∀ τ ∈ [ThreadId.io, .user 0, .user 1], s.box Sample.acceptor e.proxyTarget τ = []) ∧
      (s.process Sample.acceptor).arrivals (Sample.word 4) = [⟨8, [2]⟩, ⟨10, [4]⟩])
    (by decide +kernel)
  refine ⟨s, e, hs.afterDrain, he, hq, harr ▸ (transfer_keeps_order hs.afterDrain he hq).2 ?_ hnil⟩
  intro τ
  by_cases hτ : τ ∈ [ThreadId.io, .user 0, .user 1]
  · exact hbox τ hτ
  · rw [Network.box, hs.idle (fun _ _ h => h.1) _ hτ]
    rfl

/-- A message that finds the endpoint proxying is written before the one that was queued on it. -/
theorem later_message_overtakes : ∃ s, Reachable Sample.pair s ∧
    ∃ e ∈ (s.process Sample.acceptor).localEndpoints.find (Sample.word 4),
      e.state = .kUnboundAndProxying ∧
      ¬ s.written Sample.acceptor e.proxyTarget <+:
        (s.process Sample.acceptor).arrivals (Sample.word 4) :=
  Network.exists_of_follow Sample.pair (fun _ _ => True) Sample.overtaking _ (by decide +kernel)

end Mage
