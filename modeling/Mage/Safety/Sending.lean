import Mage.Flow.Passing
import Mage.Safety.Handles

/-! A message from the call that sends it to the first channel it is written to. The thread of the call
    gives it a descriptor for each of its pipes. It is written by that thread, to the node of the peer
    or to where the peer has moved; or it is queued on the peer, and written by whoever sends the peer
    away. Wherever it is, it has the arguments of the call and a descriptor for each of its pipes. -/

namespace Mage
open Lib

/-- Where a node has a message that it has not written yet. -/
inductive Spot where
  /-- The thread whose call sends it. -/
  | preparing (τ : ThreadId)
  /-- The work queue of a thread in `SendMessagesAndRecursiveDependents`, and its front. -/
  | waiting (τ : ThreadId)
  | sending (τ : ThreadId)
  /-- The queue of an endpoint. -/
  | queued (x : Identifier)

namespace Thread

def preparing : Thread → List Message
  | .populating _ m _ | .checking _ m _ | .delivering _ m => [m]
  | _ => []

def waiting : Thread → List Message
  | .sending b _ _ _ | .unlocking b _ => b.messagesToSend
  | _ => []

def front : Thread → List Message
  | .sending _ m _ _ => [m]
  | _ => []

/-- What a call asks to send, as long as a thread has not routed it. -/
def Sends (id : ℤ) (body : List UInt8) : Thread → Prop
  | .populating _ m _ | .checking _ m _ | .delivering _ m => m.userMessageId = id ∧ m.body = body
  | _ => True

end Thread

/-- The messages of a spot, in order. -/
def Process.messagesAt (p : Process) : Spot → List Message
  | .preparing τ => (p.thread τ).preparing
  | .waiting τ => (p.thread τ).waiting
  | .sending τ => (p.thread τ).front
  | .queued x => p.queued x

/-- The message has the arguments of a call, with a descriptor for each of the pipes, in their order. -/
structure Core.Bears (c : Core) (id : ℤ) (body : List UInt8) (pipes : List MessagePipe) (m : Message) :
    Prop where
  userMessageId : m.userMessageId = id
  body : m.body = body
  names : List.Forall₂ (fun h d => c.findHandle h = some d.endpointName) pipes m.endpointsInMessage

section
variable {c c' : Core} {id : ℤ} {body : List UInt8} {pipes : List MessagePipe} {m : Message}

theorem Core.Bears.later (h : c.Bears id body pipes m)
    (hh : ∀ k x, c.findHandle k = some x → c'.findHandle k = some x) : c'.Bears id body pipes m :=
  ⟨h.userMessageId, h.body, h.names.imp fun _ _ => hh _ _⟩

theorem Core.Bears.retarget (h : c.Bears id body pipes m) (x : Identifier) :
    c.Bears id body pipes (m.retarget x) := ⟨h.userMessageId, h.body, h.names⟩

end

namespace Process.Move
variable {p : Process} {τ : ThreadId} {supply : List Identifier} {o : Outcome} {id : ℤ}
  {body : List UInt8} {pipes : List MessagePipe} {m m' : Message}

theorem keeps_sends (h : p.Move τ supply none o) (ht : (p.thread τ).Sends id body) :
    (o.process.thread τ).Sends id body := by
  cases h with
  | populated h1 | populate h1 | checkSent h1 | routeLocal h1 =>
    rw [h1] at ht
    simpa [Thread.Sends, Message.retarget] using ht
  | _ => simp [Thread.Sends]

/-- The message of a call joins the work queue of its own thread. -/
theorem routed (h : p.Move τ supply none o) (hc : (p.thread τ).Carries p.toCore pipes)
    (hs : (p.thread τ).Sends id body) (hm : m ∈ (p.thread τ).preparing)
    (hm' : m' ∈ (o.process.thread τ).waiting) : o.process.toCore.Bears id body pipes m' := by
  cases h with
  | routeRemote h1 =>
    rw [h1] at hc hs
    simp only [goto_thread, upd₁_apply, if_true, Thread.waiting, List.mem_singleton] at hm'
    subst hm'
    exact ⟨hs.1, hs.2, hc.1⟩
  | deliverToProxy h1 =>
    rw [h1] at hc hs
    simp only [goto_thread, upd₁_apply, if_true, Thread.waiting, List.mem_singleton] at hm'
    subst hm'
    exact ⟨hs.1, hs.2, hc⟩
  | take h1 | unlock h1 | next h1 | write h1 | drain h1 =>
    rw [h1] at hm
    cases hm
  | _ => simp [Thread.waiting] at hm'

/-- Or it joins the queue of the peer. -/
theorem enqueued (h : p.Move τ supply none o) (hc : (p.thread τ).Carries p.toCore pipes)
    (hs : (p.thread τ).Sends id body) (hm : m ∈ (p.thread τ).preparing) {x : Identifier}
    (hq : o.process.queued x = p.queued x ++ [m']) : o.process.toCore.Bears id body pipes m' := by
  have same (heq : o.process.queued x = p.queued x) : o.process.toCore.Bears id body pipes m' := by
    rw [heq] at hq
    simp at hq
  cases h with
  | @deliver y m e e' found h1 he hl hr ha =>
    rw [h1] at hc hs
    by_cases hxy : x = y
    swap
    · exact same (by rw [Core.queued_set rfl, if_neg hxy]; rfl)
    subst hxy
    have hq' : e'.incomingMessageQueue = e.incomingMessageQueue ++ [m'] := by
      rwa [Core.queued_set rfl, if_pos rfl, Core.queued_of_find he] at hq
    rcases Endpoint.acceptMessage_eq ha with ⟨-, -, rfl⟩ | ⟨-, -, rfl⟩
    · obtain rfl := (List.cons.inj (List.append_cancel_left hq')).1
      exact ⟨hs.1, hs.2, hc⟩
    · simp at hq'
  | populated | populate | checkSent | routeRemote | routeLocal | deliverToProxy => exact same rfl
  | _ => simp_all [Thread.preparing]

/-- Whoever empties the queue of an endpoint into a work queue changes nothing but targets. -/
theorem taken (h : p.Move τ supply none o) {x : Identifier} {before before' after after' : List Message}
    (hq : p.queued x = before ++ m :: after) (hnil : o.process.queued x = [])
    (hw : (o.process.thread τ).waiting = (p.thread τ).waiting ++ (before' ++ m' :: after'))
    (hlen : before'.length = before.length) : ∃ t, m' = m.retarget t := by
  have moved {f : Message → Message}
      (heq : (before ++ m :: after).map f = before' ++ m' :: after') : m' = f m := by
    rw [List.map_append, List.map_cons] at heq
    exact (List.cons.inj (List.append_inj heq (by rw [List.length_map, hlen])).2).1.symm
  have same (heq : o.process.queued x = p.queued x) : ∃ t, m' = m.retarget t := by
    rw [heq, hq] at hnil
    simp at hnil
  cases h with
  | @take b m₁ done ds d e h1 he =>
    by_cases hx : x = d.endpointName
    swap
    · exact same (by rw [Core.queued_set rfl, if_neg hx]; rfl)
    subst hx
    rw [Core.queued_of_find he] at hq
    refine ⟨_, moved (f := (·.retarget d.crossNodeEndpointName)) ?_⟩
    rw [← hq]
    simpa [h1, Thread.waiting] using hw
  | @drain r channel e h1 he =>
    by_cases hx : x = r
    swap
    · exact same (by rw [Core.queued_set rfl, if_neg hx])
    subst hx
    rw [Core.queued_of_find he] at hq
    refine ⟨_, moved (f := (·.retarget e.proxyTarget.endpointName)) ?_⟩
    rw [← hq]
    simpa [h1, Thread.waiting] using hw
  | routeRemote | deliverToProxy | write | unlock | next => exact same rfl
  | _ => simp [Thread.waiting] at hw

/-- The front of a work queue is the message that was next. -/
theorem taken_up (h : p.Move τ supply none o) {ms : List Message}
    (hw : (p.thread τ).waiting = m :: ms) (hf : (p.thread τ).front = [])
    (hm : m' ∈ (o.process.thread τ).front) : m' = m := by
  cases h with
  | next h1 hms =>
    rw [h1, Thread.waiting, hms] at hw
    simp only [goto_thread, upd₁_apply, if_true, Thread.front, List.mem_singleton] at hm
    exact hm.trans (List.cons.inj hw).1
  | take h1 =>
    rw [h1] at hf
    cases hf
  | _ => simp [Thread.front] at hm

end Process.Move

/-- In state `s` node `n` has not yet written the message that a call with these arguments sends: it is
    at spot `P`, as `m`. -/
inductive Held (T : Topology) (n : Identifier) (id : ℤ) (body : List UInt8)
    (pipes : List MessagePipe) : Network → Spot → Message → Prop where
  | called {s s' : Network} {τ : ThreadId} {h : MessagePipe} {m : Message} (hr : Reachable T s)
      (hp : Permitted T s (.call n τ (.sendMessage h id body pipes)))
      (hs : s.step (.call n τ (.sendMessage h id body pipes)) = .ok s')
      (hm : m ∈ (s'.process n).messagesAt (.preparing τ)) :
      Held T n id body pipes s' (.preparing τ) m
  | prepared {s s' : Network} {τ : ThreadId} {m m' : Message}
      (hh : Held T n id body pipes s (.preparing τ) m)
      (hruns : s.Runs T (fun l => ∀ c, l ≠ .call n τ c) s')
      (hm : m' ∈ (s'.process n).messagesAt (.preparing τ)) :
      Held T n id body pipes s' (.preparing τ) m'
  | routed {s s' : Network} {τ : ThreadId} {m m' : Message}
      (hh : Held T n id body pipes s (.preparing τ) m) (hs : s.step (.run n τ) = .ok s')
      (hm : m' ∈ (s'.process n).messagesAt (.waiting τ)) :
      Held T n id body pipes s' (.waiting τ) m'
  | enqueued {s s' : Network} {τ : ThreadId} {x : Identifier} {m m' : Message}
      (hh : Held T n id body pipes s (.preparing τ) m) (hs : s.step (.run n τ) = .ok s')
      (hq : (s'.process n).queued x = (s.process n).queued x ++ [m']) :
      Held T n id body pipes s' (.queued x) m'
  | taken {s s' : Network} {τ : ThreadId} {x : Identifier} {m m' : Message}
      {before before' after after' : List Message}
      (hh : Held T n id body pipes s (.queued x) m) (hs : s.step (.run n τ) = .ok s')
      (hq : (s.process n).queued x = before ++ m :: after) (hnil : (s'.process n).queued x = [])
      (hw : (s'.process n).messagesAt (.waiting τ) =
        (s.process n).messagesAt (.waiting τ) ++ (before' ++ m' :: after'))
      (hlen : before'.length = before.length) : Held T n id body pipes s' (.waiting τ) m'
  | next {s s' : Network} {τ : ThreadId} {m m' : Message} {ms : List Message}
      (hh : Held T n id body pipes s (.waiting τ) m) (hs : s.step (.run n τ) = .ok s')
      (hw : (s.process n).messagesAt (.waiting τ) = m :: ms)
      (hf : (s.process n).messagesAt (.sending τ) = [])
      (hm : m' ∈ (s'.process n).messagesAt (.sending τ)) :
      Held T n id body pipes s' (.sending τ) m'
  | stays {s s' : Network} {P : Spot} {m : Message} (hh : Held T n id body pipes s P m)
      (hP : ∀ τ, P ≠ .preparing τ) (hruns : s.Runs T (fun _ => True) s')
      (hm : m ∈ (s'.process n).messagesAt P) : Held T n id body pipes s' P m

section
variable {T : Topology} {s s' : Network} {n : Identifier} {τ : ThreadId} {id : ℤ}
  {body : List UInt8} {pipes : List MessagePipe} {P : Spot} {m : Message}

/-- As long as a thread begins no other call, it sends what the last one asked for. -/
theorem Network.Runs.sends (h : s.Runs T (fun l => ∀ c, l ≠ .call n τ c) s') (hr : Reachable T s)
    (hs : ((s.process n).thread τ).Sends id body) : ((s'.process n).thread τ).Sends id body := by
  refine (h.induct hr (P := fun u => ((u.process n).thread τ).Sends id body) hs ?_ ?_).2
  · intro u l σ c o hu hP ha hok
    rcases ha.thread_apply n τ with ⟨rfl, rfl, hth⟩ | hth
    · rw [hth]
      cases c with
      | some c => exact absurd rfl (hok c)
      | none => exact ha.move.keeps_sends hP
    · rwa [hth]
  · intro u l ch msg rest hu hP hc hok
    rcases Receipt.thread_consume u l ch msg rest n τ with ⟨rfl, rfl, hth⟩ | hth
    · rw [hth]
      cases msg <;> trivial
    · rwa [hth]

theorem Network.Runs.bears {ok : Label → Prop} (h : s.Runs T ok s') (hr : Reachable T s)
    (hb : (s.process n).toCore.Bears id body pipes m) :
    Reachable T s' ∧ (s'.process n).toCore.Bears id body pipes m := by
  refine h.induct hr (P := fun u => (u.process n).toCore.Bears id body pipes m) hb ?_ ?_
  · intro u l σ c o hu hP ha hok
    rw [Network.apply_process, upd₁_apply]
    split_ifs with hl
    · subst hl
      exact hP.later fun k x => ha.move.handle
    · exact hP
  · intro u l ch msg rest hu hP hc hok
    rw [(Handshake.core_consume n).1]
    exact hP

/-- What is known of the message of a call at a spot. -/
def Spot.Knows (p : Process) (id : ℤ) (body : List UInt8) (pipes : List MessagePipe) (m : Message) :
    Spot → Prop
  | .preparing τ => (p.thread τ).Carries p.toCore pipes ∧ (p.thread τ).Sends id body
  | _ => p.toCore.Bears id body pipes m

theorem Spot.knows_of_bears {p : Process} (h : p.toCore.Bears id body pipes m)
    (hP : ∀ τ, P ≠ .preparing τ) : P.Knows p id body pipes m := by
  cases P with
  | preparing τ => exact absurd rfl (hP τ)
  | _ => exact h

theorem Spot.bears_of_knows {p : Process} (h : P.Knows p id body pipes m)
    (hP : ∀ τ, P ≠ .preparing τ) : p.toCore.Bears id body pipes m := by
  cases P with
  | preparing τ => exact absurd rfl (hP τ)
  | _ => exact h

/-- Wherever a node holds the message of a call, it is there and is what the call asked for. -/
theorem Held.known (h : Held T n id body pipes s P m) : n ∈ T.nodes ∧ Reachable T s ∧
    m ∈ (s.process n).messagesAt P ∧ P.Knows (s.process n) id body pipes m := by
  have ran : ∀ {s s' : Network} {τ : ThreadId}, n ∈ T.nodes → Reachable T s →
      s.step (.run n τ) = .ok s' → Reachable T s' ∧ ∃ o,
        (s.process n).Move τ s.supply none o ∧ s'.process n = o.process := by
    intro s s' τ hn hr hs
    obtain ⟨o, ha, rfl⟩ := Network.step_run hn hs
    exact ⟨.step (l := .run n τ) hr ⟨hn, trivial⟩ hs, o, ha.move, by simp⟩
  induction h with
  | @called s s' τ h m hr hp hs hm =>
    refine ⟨hp.1, .step hr ⟨hp, trivial⟩ hs, hm, (Network.sendMessage_called hs).1, ?_⟩
    obtain ⟨o, ha, rfl⟩ := Network.step_call hp hs
    have hmove := ha.move
    cases hmove
    simp [Thread.Sends]
  | prepared _ hruns hm ih =>
    obtain ⟨hn, hr, -, hcarries, hsends⟩ := ih
    obtain ⟨hr', hcarries'⟩ := hruns.carries hr hcarries
    exact ⟨hn, hr', hm, hcarries', hruns.sends hr hsends⟩
  | routed _ hs hm ih =>
    obtain ⟨hn, hr, hm₀, hcarries, hsends⟩ := ih
    obtain ⟨hr', o, hmove, ho⟩ := ran hn hr hs
    refine ⟨hn, hr', hm, ?_⟩
    rw [ho] at hm ⊢
    exact hmove.routed hcarries hsends hm₀ hm
  | @enqueued s s' τ x m m' _ hs hq ih =>
    obtain ⟨hn, hr, hm₀, hcarries, hsends⟩ := ih
    obtain ⟨hr', o, hmove, ho⟩ := ran hn hr hs
    refine ⟨hn, hr', by simp [Process.messagesAt, hq], ?_⟩
    rw [ho] at hq ⊢
    exact hmove.enqueued hcarries hsends hm₀ hq
  | @taken s s' τ x m m' _ _ _ _ _ hs hq hnil hw hlen ih =>
    obtain ⟨hn, hr, -, hb⟩ := ih
    obtain ⟨hr', o, hmove, ho⟩ := ran hn hr hs
    refine ⟨hn, hr', by simp [hw], ?_⟩
    rw [ho] at hnil hw ⊢
    obtain ⟨t, rfl⟩ := hmove.taken hq hnil hw hlen
    exact (hb.retarget t).later fun k x => hmove.handle
  | next _ hs hw hf hm ih =>
    obtain ⟨hn, hr, -, hb⟩ := ih
    obtain ⟨hr', o, hmove, ho⟩ := ran hn hr hs
    refine ⟨hn, hr', hm, ?_⟩
    rw [ho] at hm ⊢
    obtain rfl := hmove.taken_up hw hf hm
    exact hb.later fun k x => hmove.handle
  | stays _ hP hruns hm ih =>
    obtain ⟨hn, hr, -, hb⟩ := ih
    obtain ⟨hr', hb'⟩ := hruns.bears hr (Spot.bears_of_knows hb hP)
    exact ⟨hn, hr', hm, Spot.knows_of_bears hb' hP⟩

/-- When `Node::SendMessage` decides where a message goes, the message has a descriptor for each of the
    pipes that were passed, in their order. -/
theorem Reachable.described (hr : Reachable T s) {s₁ s₂ : Network} {h : MessagePipe}
    {x : Identifier} {rest : List EndpointDescriptor}
    (hp : Permitted T s (.call n τ (.sendMessage h id body pipes)))
    (hstep : s.step (.call n τ (.sendMessage h id body pipes)) = .ok s₁)
    (hruns : s₁.Runs T (fun l => ∀ c, l ≠ .call n τ c) s₂)
    (ht : (s₂.process n).thread τ = .checking x m rest) :
    (s₂.process n).toCore.Bears id body pipes m := by
  have hcalled : ∃ m₁, Held T n id body pipes s₁ (.preparing τ) m₁ := by
    obtain ⟨o, ha, rfl⟩ := Network.step_call hp hstep
    have hmove := ha.move
    refine ⟨⟨id, [], [], body, []⟩, .called hr hp hstep ?_⟩
    cases hmove
    simp [Process.messagesAt, Thread.preparing]
  obtain ⟨m₁, hheld⟩ := hcalled
  have hm : m ∈ (s₂.process n).messagesAt (.preparing τ) := by
    simp [Process.messagesAt, ht, Thread.preparing]
  obtain ⟨-, -, -, hcarries, hsends⟩ := (hheld.prepared hruns hm).known
  rw [ht] at hcarries hsends
  exact ⟨hsends.1, hsends.2, hcarries.1⟩

end

end Mage
