import Mage.Lib.Run
import Mage.Model.Core

/-! The life of one endpoint. Whatever threads do to it, they do in critical sections, each a fixed
    sequence of calls; only the endpoint just re-created from a descriptor is made a proxy without its
    lock. What it accepts is posted, taken or still queued, in this order. -/

namespace Mage
open Lib

/-- The calls on an endpoint, by their `Endpoint` names. -/
inductive Endpoint.Call where
  | acceptMessageOnIOThread (m : Message)
  | acceptMessageOnDelegateThread (core : Core) (m : Message)
  | registerDelegate (delegate delegateTaskRunner : ℕ)
  | takeQueuedMessages
  | setProxying (inNodeName inEndpointName : Identifier)

/-- What a thread does between locking an endpoint and unlocking it. -/
inductive Section where
  /-- `Node::OnReceivedUserMessage`. -/
  | receive (m : Message)
  /-- `Node::SendMessage` to a local peer. -/
  | deliver (core : Core) (m : Message)
  /-- `Core::BindReceiverDelegateToEndpoint`. -/
  | bind (delegate delegateTaskRunner : ℕ)
  /-- `Node::SendMessagesAndRecursiveDependents`. -/
  | transfer (inNodeName inEndpointName : Identifier)
  /-- `Node::OnReceivedAcceptInvitation`. -/
  | acceptInvitation (inNodeName inEndpointName : Identifier)

def Section.calls : Section → List Endpoint.Call
  | receive m => [.acceptMessageOnIOThread m]
  | deliver core m => [.acceptMessageOnDelegateThread core m]
  | bind delegate delegateTaskRunner => [.registerDelegate delegate delegateTaskRunner]
  | transfer n x => [.takeQueuedMessages, .setProxying n x]
  | acceptInvitation n x => [.setProxying n x, .takeQueuedMessages]

/-- An endpoint, the calls that the owner of its lock still makes before it gives the lock back, and
    what the endpoint accepted and gave away so far. -/
structure Life where
  endpoint : Endpoint
  pending : List Endpoint.Call
  accepted : List Message
  taken : List Message

namespace Life

inductive Action where
  | lock (c : Section)
  | call
  /-- `PrepareToForwardUserMessage`. -/
  | forward (inNodeName inEndpointName : Identifier)

/-- The endpoint as constructed. -/
def start (name : Identifier) (peerAddress : Address) : Life := ⟨.new name peerAddress, [], [], []⟩

def perform (l : Life) : Endpoint.Call → Except Stop Life
  | .acceptMessageOnIOThread m => do
    let e ← l.endpoint.acceptMessageOnIOThread m
    return { l with endpoint := e, accepted := l.accepted ++ [m] }
  | .acceptMessageOnDelegateThread core m => do
    let (m, e) ← core.acceptMessageOnDelegateThread l.endpoint m
    return { l with endpoint := e, accepted := l.accepted ++ [m] }
  | .registerDelegate delegate delegateTaskRunner => do
    let e ← l.endpoint.registerDelegate delegate delegateTaskRunner
    return { l with endpoint := e }
  | .takeQueuedMessages => do
    let (ms, e) ← l.endpoint.takeQueuedMessages
    return { l with endpoint := e, taken := l.taken ++ ms }
  | .setProxying n x => do
    let e ← l.endpoint.setProxying n x
    return { l with endpoint := e }

def act (l : Life) : Action → Except Stop Life
  | .lock c => do
    check (l.pending = []) .blocked
    return { l with pending := c.calls }
  | .call =>
    match l.pending with
    | [] => throw .idle
    | c :: rest => { l with pending := rest }.perform c
  | .forward n x => l.perform (.setProxying n x)

/-- Only an endpoint that was just re-created, to which nobody has sent anything yet, is made a proxy
    outside its lock. -/
def Allowed (l : Life) : Action → Prop
  | .forward _ _ => l.accepted = [] ∧ l.pending = []
  | _ => True

/-- What an endpoint can come to, from a state `l`. -/
abbrev Leads (l : Life) : Life → Prop :=
  Reaches (fun l a l' => l.act a = .ok l') Allowed l

/-! ### One call -/

/-- What the calls keep, also while the lock is held. -/
structure Sound (l : Life) : Prop where
  order : l.accepted = l.endpoint.posted ++ l.taken ++ l.endpoint.incomingMessageQueue
  posted : l.endpoint.posted ≠ [] → l.endpoint.state = .kBound
  taken : l.taken ≠ [] → l.endpoint.state = .kUnboundAndProxying ∨ ∃ n x, l.pending = [.setProxying n x]
  queue : l.endpoint.incomingMessageQueue ≠ [] → l.endpoint.state = .kUnboundAndQueueing ∨
    l.pending = [.takeQueuedMessages]
  delegate : l.endpoint.delegate.isSome ↔ l.endpoint.state = .kBound
  runner : l.endpoint.delegateTaskRunner.isSome ↔ l.endpoint.state = .kBound
  transfer : ∀ n x, l.pending = [.setProxying n x] → l.endpoint.incomingMessageQueue = []
  flush : l.pending = [.takeQueuedMessages] → l.endpoint.state = .kUnboundAndProxying
  section_ : ∃ c : Section, l.pending <:+ c.calls

theorem Sound.start (name : Identifier) (peerAddress : Address) : (start name peerAddress).Sound where
  order := rfl
  posted h := absurd rfl h
  taken h := absurd rfl h
  queue h := absurd rfl h
  delegate := by simp [Life.start, Endpoint.new]
  runner := by simp [Life.start, Endpoint.new]
  transfer n x h := by cases h
  flush h := by cases h
  section_ := ⟨.bind 0 0, List.nil_suffix⟩

variable {l l' : Life}

/-- The calls of a section that are still to come. -/
theorem pending_cases {c : Endpoint.Call} {rest : List Endpoint.Call} {s : Section}
    (h : c :: rest <:+ s.calls) : rest = [] ∨ (c = .takeQueuedMessages ∧
      ∃ n x, rest = [.setProxying n x]) ∨ ((∃ n x, c = .setProxying n x) ∧
      rest = [.takeQueuedMessages]) := by
  have one : ∀ {a : Endpoint.Call}, c :: rest <:+ [a] → rest = [] := by
    intro a ha
    rcases List.suffix_cons_iff.1 ha with heq | hnil
    · exact (List.cons.inj heq).2
    · simp at hnil
  cases s with
  | receive | deliver | bind => exact .inl (one h)
  | transfer n x =>
    rcases List.suffix_cons_iff.1 h with heq | hrest
    · obtain ⟨rfl, rfl⟩ := List.cons.inj heq
      exact .inr (.inl ⟨rfl, n, x, rfl⟩)
    · exact .inl (one hrest)
  | acceptInvitation n x =>
    rcases List.suffix_cons_iff.1 h with heq | hrest
    · obtain ⟨rfl, rfl⟩ := List.cons.inj heq
      exact .inr (.inr ⟨⟨n, x, rfl⟩, rfl⟩)
    · exact .inl (one hrest)

/-- A message is posted or queued. -/
theorem Sound.accept (h : l.Sound) {c : Endpoint.Call} {rest : List Endpoint.Call}
    (hp : l.pending = c :: rest) (hc : ∀ n x, c ≠ .setProxying n x) (hc' : c ≠ .takeQueuedMessages)
    {m : Message} {e : Endpoint} (he : l.endpoint.acceptMessage m = .ok e) :
    Sound ⟨e, rest, l.accepted ++ [m], l.taken⟩ := by
  obtain ⟨s, hs⟩ := h.section_
  rw [hp] at hs
  obtain rfl : rest = [] := by
    rcases pending_cases hs with hnil | ⟨hcc, -⟩ | ⟨⟨n, x, hcc⟩, -⟩
    · exact hnil
    · exact absurd hcc hc'
    · exact absurd hcc (hc n x)
  have htaken : l.endpoint.state ≠ .kUnboundAndProxying → l.taken = [] := by
    intro hne
    by_contra ht
    rcases h.taken ht with hq | ⟨n, x, hq⟩
    · exact hne hq
    · rw [hp] at hq
      exact hc n x (List.cons.inj hq).1
  have hqueue : l.endpoint.state ≠ .kUnboundAndQueueing → l.endpoint.incomingMessageQueue = [] := by
    intro hne
    by_contra ht
    rcases h.queue ht with hq | hq
    · exact hne hq
    · rw [hp] at hq
      exact hc' (List.cons.inj hq).1
  have hsec : ∃ c : Section, ([] : List Endpoint.Call) <:+ c.calls := ⟨s, List.nil_suffix⟩
  rcases Endpoint.acceptMessage_eq he with ⟨hq, -, rfl⟩ | ⟨hb, -, rfl⟩
  · refine ⟨?_, h.posted, fun ht => absurd (htaken (by simp [hq])) ht, fun _ => .inl hq, h.delegate,
      h.runner, by simp, by simp, hsec⟩
    rw [h.order, List.append_assoc]
  · refine ⟨?_, fun _ => hb, fun ht => absurd (htaken (by simp [hb])) ht, fun hne => ?_, h.delegate,
      h.runner, by simp, by simp, hsec⟩
    · simp [h.order, htaken (by simp [hb]), hqueue (by simp [hb])]
    · exact absurd (hqueue (by simp [hb])) hne

/-- The endpoint becomes a proxy. -/
theorem Sound.proxy (h : l.Sound) {rest : List Endpoint.Call} {n x : Identifier} {e : Endpoint}
    (hr : rest = [.takeQueuedMessages] ∨ rest = [] ∧ l.endpoint.incomingMessageQueue = [])
    (hs : ∃ c : Section, rest <:+ c.calls) (he : l.endpoint.setProxying n x = .ok e) :
    Sound ⟨e, rest, l.accepted, l.taken⟩ := by
  obtain ⟨hq, rfl⟩ := Endpoint.setProxying_eq he
  have hnone : l.endpoint.delegate.isSome = false ∧ l.endpoint.delegateTaskRunner.isSome = false := by
    rw [← Bool.not_eq_true, ← Bool.not_eq_true, h.delegate, h.runner]
    simp [hq]
  refine ⟨h.order, fun hp => ?_, fun _ => .inl rfl, fun hne => ?_, ?_, ?_, fun n x hx => ?_,
    fun _ => rfl, hs⟩
  · have := h.posted hp
    simp [hq] at this
  · rcases hr with hr | ⟨-, hnil⟩
    · exact .inr hr
    · exact absurd hnil hne
  · simp [hnone.1]
  · simp [hnone.2]
  · rcases hr with rfl | ⟨rfl, -⟩ <;> cases hx

theorem Sound.call (h : l.Sound) {c : Endpoint.Call} {rest : List Endpoint.Call}
    (hp : l.pending = c :: rest) (ha : { l with pending := rest }.perform c = .ok l') : l'.Sound := by
  obtain ⟨s, hs⟩ := h.section_
  rw [hp] at hs
  have hs' : ∃ c : Section, rest <:+ c.calls := ⟨s, (List.suffix_cons c rest).trans hs⟩
  cases c with
  | acceptMessageOnIOThread m =>
    simp only [perform, Endpoint.acceptMessageOnIOThread, bind_eq_ok, pure_eq_ok] at ha
    obtain ⟨e, ⟨_, -, he⟩, rfl⟩ := ha
    exact h.accept hp (by simp) (by simp) he
  | acceptMessageOnDelegateThread core m =>
    simp only [perform, Core.acceptMessageOnDelegateThread, bind_eq_ok, pure_eq_ok, Prod.exists,
      Prod.mk.injEq] at ha
    obtain ⟨m', e, ⟨_, -, m'', -, e', he, rfl, rfl⟩, rfl⟩ := ha
    exact h.accept hp (by simp) (by simp) he
  | registerDelegate d r =>
    simp only [perform, bind_eq_ok, pure_eq_ok] at ha
    obtain ⟨e, he, rfl⟩ := ha
    obtain ⟨hq, -, rfl⟩ := Endpoint.registerDelegate_eq he
    obtain rfl : rest = [] := by
      rcases pending_cases hs with hnil | ⟨hcc, -⟩ | ⟨⟨n, x, hcc⟩, -⟩
      · exact hnil
      · cases hcc
      · cases hcc
    have htaken : l.taken = [] := by
      by_contra ht
      rcases h.taken ht with hq' | ⟨n, x, hq'⟩
      · simp [hq] at hq'
      · simp [hp] at hq'
    have hposted : l.endpoint.posted = [] := by
      by_contra ht
      have := h.posted ht
      simp [hq] at this
    refine ⟨?_, fun _ => rfl, fun ht => absurd htaken ht, fun hne => absurd rfl hne, by simp, by simp,
      by simp, by simp, hs'⟩
    simp [h.order, htaken, hposted]
  | takeQueuedMessages =>
    simp only [perform, bind_eq_ok, pure_eq_ok, Prod.exists] at ha
    obtain ⟨ms, e, he, rfl⟩ := ha
    obtain ⟨hd, rfl, rfl⟩ := Endpoint.takeQueuedMessages_eq he
    have hposted : l.endpoint.posted = [] := by
      by_contra ht
      have := h.delegate.2 (h.posted ht)
      simp [hd] at this
    refine ⟨?_, h.posted, fun ht => ?_, fun hne => absurd rfl hne, h.delegate, h.runner,
      fun _ _ _ => rfl, fun hr => ?_, hs'⟩
    · simp [h.order, hposted]
    · rcases pending_cases hs with hnil | ⟨-, n, x, hr⟩ | ⟨⟨n, x, hcc⟩, -⟩
      · exact .inl (h.flush (by rw [hp, hnil]))
      · exact .inr ⟨n, x, hr⟩
      · cases hcc
    · rcases pending_cases hs with hnil | ⟨-, n, x, hr'⟩ | ⟨⟨n, x, hcc⟩, -⟩
      · simp [hnil] at hr
      · simp [hr'] at hr
      · cases hcc
  | setProxying n x =>
    simp only [perform, bind_eq_ok, pure_eq_ok] at ha
    obtain ⟨e, he, rfl⟩ := ha
    refine h.proxy ?_ hs' he
    rcases pending_cases hs with hnil | ⟨hcc, -⟩ | ⟨-, hr⟩
    · exact .inr ⟨hnil, h.transfer n x (by rw [hp, hnil])⟩
    · cases hcc
    · exact .inl hr

theorem Sound.act (h : l.Sound) {a : Action} (hok : l.Allowed a) (ha : l.act a = .ok l') :
    l'.Sound := by
  cases a with
  | lock c =>
    simp only [Life.act, bind_eq_ok, check_eq_ok, pure_eq_ok] at ha
    obtain ⟨_, hnil, rfl⟩ := ha
    refine ⟨h.order, h.posted, fun ht => ?_, fun hne => ?_, h.delegate, h.runner, fun n x hx => ?_,
      fun hx => ?_, ⟨c, List.suffix_rfl⟩⟩
    · rcases h.taken ht with hq | ⟨n, x, hq⟩
      · exact .inl hq
      · simp [hnil] at hq
    · rcases h.queue hne with hq | hq
      · exact .inl hq
      · simp [hnil] at hq
    · cases c <;> simp [Section.calls] at hx
    · cases c <;> simp [Section.calls] at hx
  | call =>
    rw [Life.act] at ha
    split at ha
    · simp at ha
    · next c rest hp => exact h.call hp ha
  | forward n x =>
    obtain ⟨hacc, hpend⟩ := hok
    simp only [Life.act, perform, bind_eq_ok, pure_eq_ok] at ha
    obtain ⟨e, he, rfl⟩ := ha
    have hnil : l.endpoint.incomingMessageQueue = [] := by
      have := h.order
      rw [hacc] at this
      exact (List.append_eq_nil_iff.1 this.symm).2
    refine h.proxy (.inr ⟨hpend, hnil⟩) ?_ he
    exact h.section_

theorem Sound.leads (h : l.Sound) (hl : l.Leads l') : l'.Sound :=
  hl.invariant h fun _ _ _ _ hs hok ha => hs.act hok ha

/-! ### Whole lives -/

theorem perform_state {c : Endpoint.Call} (h : l.perform c = .ok l')
    (hs : l.endpoint.state ≠ .kUnboundAndQueueing) : l'.endpoint.state = l.endpoint.state := by
  have accepted : ∀ {e e' : Endpoint} {m : Message}, e.acceptMessage m = .ok e' →
      e'.state = e.state := by
    intro e e' m he
    rcases Endpoint.acceptMessage_eq he with ⟨-, -, rfl⟩ | ⟨-, -, rfl⟩ <;> rfl
  cases c with
  | acceptMessageOnIOThread m =>
    simp only [perform, Endpoint.acceptMessageOnIOThread, bind_eq_ok, pure_eq_ok] at h
    obtain ⟨e, ⟨_, -, he⟩, rfl⟩ := h
    exact accepted he
  | acceptMessageOnDelegateThread core m =>
    simp only [perform, Core.acceptMessageOnDelegateThread, bind_eq_ok, pure_eq_ok, Prod.exists,
      Prod.mk.injEq] at h
    obtain ⟨m', e, ⟨_, -, m'', -, e', he, rfl, rfl⟩, rfl⟩ := h
    exact accepted he
  | registerDelegate d r =>
    simp only [perform, bind_eq_ok, pure_eq_ok] at h
    obtain ⟨e, he, rfl⟩ := h
    exact absurd (Endpoint.registerDelegate_eq he).1 hs
  | takeQueuedMessages =>
    simp only [perform, bind_eq_ok, pure_eq_ok, Prod.exists] at h
    obtain ⟨ms, e, he, rfl⟩ := h
    obtain ⟨-, -, rfl⟩ := Endpoint.takeQueuedMessages_eq he
    rfl
  | setProxying n x =>
    simp only [perform, bind_eq_ok, pure_eq_ok] at h
    obtain ⟨e, he, rfl⟩ := h
    exact absurd (Endpoint.setProxying_eq he).1 hs

theorem act_state {a : Action} (h : l.act a = .ok l')
    (hs : l.endpoint.state ≠ .kUnboundAndQueueing) : l'.endpoint.state = l.endpoint.state := by
  cases a with
  | lock c =>
    simp only [Life.act, bind_eq_ok, check_eq_ok, pure_eq_ok] at h
    obtain ⟨_, -, rfl⟩ := h
    rfl
  | call =>
    rw [Life.act] at h
    split at h
    · simp at h
    · next c rest _ => exact perform_state (l := { l with pending := rest }) h hs
  | forward n x =>
    rw [Life.act] at h
    exact perform_state h hs

/-- A bound endpoint stays bound, and a proxy stays a proxy. -/
theorem Leads.state (h : l.Leads l') (hs : l.endpoint.state ≠ .kUnboundAndQueueing) :
    l'.endpoint.state = l.endpoint.state :=
  h.invariant (P := fun l' => l'.endpoint.state = l.endpoint.state) rfl fun _ _ _ _ heq _ ha =>
    (act_state ha (heq ▸ hs)).trans heq

end Life

/-- In any order of critical sections: whenever the lock is free, what the endpoint accepted is what it
    posted, then what was taken from it, then what it still queues; and it is bound or a proxy for
    good. -/
theorem endpoint_keeps_messages {name : Identifier} {peerAddress : Address} {l : Life}
    (h : (Life.start name peerAddress).Leads l) :
    (l.pending = [] →
      l.accepted = l.endpoint.posted ++ l.taken ++ l.endpoint.incomingMessageQueue ∧
      (l.endpoint.posted = [] ∨ l.taken = []) ∧
      (l.endpoint.incomingMessageQueue ≠ [] → l.endpoint.state = .kUnboundAndQueueing) ∧
      (l.endpoint.delegate.isSome ↔ l.endpoint.state = .kBound) ∧
      (l.endpoint.delegateTaskRunner.isSome ↔ l.endpoint.state = .kBound)) ∧
    ∀ l', l.Leads l' → l.endpoint.state ≠ .kUnboundAndQueueing →
      l'.endpoint.state = l.endpoint.state := by
  have hs := (Life.Sound.start name peerAddress).leads h
  refine ⟨fun hfree => ⟨hs.order, ?_, fun hq => ?_, hs.delegate, hs.runner⟩,
    fun l' hl hq => hl.state hq⟩
  · by_contra hboth
    rw [not_or] at hboth
    have hbound := hs.posted hboth.1
    rcases hs.taken hboth.2 with hproxy | ⟨n, x, hp⟩
    · simp [hbound] at hproxy
    · simp [hfree] at hp
  · rcases hs.queue hq with hq | hp
    · exact hq
    · simp [hfree] at hp

/-- One endpoint is transferred with the message queued on it. Another one is bound, has its queue
    posted, and posts what comes later. -/
theorem transferred_and_bound_keep_messages :
    (∃ l, (Life.start [0] ⟨[1], [2]⟩).Leads l ∧ l.taken.length = 1 ∧
      l.endpoint.state = .kUnboundAndProxying ∧
      l.accepted = l.endpoint.posted ++ l.taken ++ l.endpoint.incomingMessageQueue) ∧
    ∃ l l', (Life.start [0] ⟨[1], [2]⟩).Leads l ∧ l.Leads l' ∧ l.endpoint.delegate = some 6 ∧
      l.endpoint.posted.length = 1 ∧ l'.endpoint.posted.length = 2 ∧
      l'.accepted = l'.endpoint.posted ++ l'.taken ++ l'.endpoint.incomingMessageQueue ∧
      l'.endpoint.state = l.endpoint.state := by
  have queueing : ∃ l, (Life.start [0] ⟨[1], [2]⟩).Leads l ∧
      l = ⟨{ Endpoint.new [0] ⟨[1], [2]⟩ with incomingMessageQueue := [⟨7, [0], [], [5], []⟩] }, [],
        [⟨7, [0], [], [5], []⟩], []⟩ :=
    ⟨_, .step (l := .call) (.step (l := .lock (.receive ⟨7, [0], [], [5], []⟩)) .init trivial rfl)
      trivial rfl, rfl⟩
  obtain ⟨l₀, h₀, rfl⟩ := queueing
  constructor
  · have h : ∃ l, (Life.start [0] ⟨[1], [2]⟩).Leads l ∧ l.taken.length = 1 ∧
        l.endpoint.state = .kUnboundAndProxying ∧ l.pending = [] :=
      ⟨_, .step (l := .call) (.step (l := .call) (.step (l := .lock (.transfer [3] [4])) h₀
        trivial rfl) trivial rfl) trivial rfl, rfl, rfl, rfl⟩
    obtain ⟨l, hl, hone, hq, hfree⟩ := h
    exact ⟨l, hl, hone, hq, ((endpoint_keeps_messages hl).1 hfree).1⟩
  · have h : ∃ l, (Life.start [0] ⟨[1], [2]⟩).Leads l ∧ l.endpoint.delegate = some 6 ∧
        l.endpoint.posted.length = 1 ∧ l.endpoint.state ≠ .kUnboundAndQueueing ∧
        ∃ l', l.Leads l' ∧ l'.endpoint.posted.length = 2 ∧ l'.pending = [] := by
      refine ⟨_, .step (l := .call) (.step (l := .lock (.bind 6 0)) h₀ trivial rfl) trivial rfl, rfl,
        rfl, by decide, _, .step (l := .call) (.step (l := .lock (.receive ⟨8, [0], [], [], []⟩)) .init
        trivial rfl) trivial rfl, rfl, rfl⟩
    obtain ⟨l, hl, hdelegate, hone, hq, l', hl', htwo, hfree⟩ := h
    have hlife := (endpoint_keeps_messages hl).2 l' hl' hq
    refine ⟨l, l', hl, hl', hdelegate, hone, htwo, ?_, hlife⟩
    exact ((endpoint_keeps_messages (hl.trans hl')).1 hfree).1

end Mage
