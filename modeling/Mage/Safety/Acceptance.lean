import Mage.Safety.Books
import Mage.Safety.Flushing

/-! An acceptance is acknowledged. `OnReceivedAcceptInvitation`, from its first line to its last with no
    other thread in between: the invitation is struck out, its channel gets the acceptor's name, the
    endpoint reserved for it becomes a proxy, and what was queued there is sent on with all that these
    messages carry along. In a reachable state nothing on the way fails. -/

namespace Mage
open Lib

/-- The messages queued on `e`, for the endpoint `x`. -/
def Endpoint.onward (e : Endpoint) (x : Identifier) : List Message :=
  e.incomingMessageQueue.map (·.retarget x)

/-! ### From the first line to the flush -/

namespace Process
variable {p : Process} {τ : ThreadId} {supply : List Identifier} {t m x r : Identifier} {e : Endpoint}

/-- Node `m` has accepted with `x` what was pending under `t`, and `e`, reserved at `r`, is locked. -/
def settling (p : Process) (τ : ThreadId) (t m x r : Identifier) (e : Endpoint) : Process :=
  { p with
    pendingInvitations := p.pendingInvitations.erase t
    nodeChannelMap := (p.nodeChannelMap.erase t).insert m m
    localEndpoints := p.localEndpoints.set r
      { e with
        incomingMessageQueue := [], state := .kUnboundAndProxying, proxyTarget := ⟨m, x⟩ }
    lock := upd₁ p.lock r (some τ) }

/-- The messages that `OnReceivedAcceptInvitation` flushes. -/
def forwarding (m x r : Identifier) (e : Endpoint) : Batch :=
  ⟨m, e.onward x, .onReceivedAcceptInvitation r m⟩

theorem settling_steps (ht : p.thread τ = .acknowledging t m x)
    (hr : p.pendingInvitations.find t = some r) (he : p.localEndpoints.find r = some e)
    (hq : e.state = .kUnboundAndQueueing) (hd : e.delegate = none) (hl : p.lock r = none)
    (hc : p.nodeChannelMap.find t = some m) :
    p.steps τ supply 4 =
      .ok ((p.settling τ t m x r e).goto τ (.unlocking (forwarding m x r e) []), []) := by
  obtain ⟨p₁, hp₁⟩ : ∃ p₁ : Process, p₁ =
      ({ p with pendingInvitations := p.pendingInvitations.erase t } : Process).goto τ
        (.reserving r t m x) := ⟨_, rfl⟩
  obtain ⟨p₂, hp₂⟩ : ∃ p₂ : Process, p₂ = ((p₁.setLock r (some τ)).setEndpoint r
      { e with state := .kUnboundAndProxying, proxyTarget := ⟨m, x⟩ }).goto τ (.rekeying r t m) :=
    ⟨_, rfl⟩
  obtain ⟨p₃, hp₃⟩ : ∃ p₃ : Process, p₃ = ({ p₂ with
      nodeChannelMap := (p.nodeChannelMap.erase t).insert m m } : Process).goto τ
        (.draining r m) := ⟨_, rfl⟩
  have h₁ : p.run τ supply = .ok ⟨p₁, supply, none, none⟩ := by
    simp [run, ht, acknowledge, hr, orFail, bind, Except.bind, pure, Except.pure, hp₁]
  have h₂ : p₁.run τ supply = .ok ⟨p₂, supply, none, none⟩ := by
    simp [run, reserve, Core.endpoint, orFail, acquire, check, Endpoint.setProxying, hp₁, hp₂, he,
      hq, hl, bind, Except.bind, pure, Except.pure]
  have h₃ : p₂.run τ supply = .ok ⟨p₃, supply, none, none⟩ := by
    simp [run, rekey, orFail, hp₁, hp₂, hp₃, hc, setEndpoint, bind, Except.bind, pure, Except.pure]
  have h₄ : p₃.run τ supply = .ok
      ⟨(p.settling τ t m x r e).goto τ (.unlocking (forwarding m x r e) []), supply, none,
        none⟩ := by
    simp [run, drain, Core.endpoint, orFail, check, Endpoint.takeQueuedMessages, hp₁, hp₂, hp₃, hd,
      setEndpoint, bind, Except.bind, pure, Except.pure]
    simp only [goto, settling, forwarding, Endpoint.onward, Table.set_set, upd₁_upd₁, hd]
  exact steps_add (steps_one h₁) (steps_add (steps_one h₂) (steps_add (steps_one h₃)
    (steps_one h₄)))

theorem settling_other {y : Identifier} (hy : y ≠ r) :
    (p.settling τ t m x r e).localEndpoints.find y = p.localEndpoints.find y := by
  simp [settling, hy]

end Process

/-- Endpoint `r` aside all endpoints are the same, and no message to flush carries `r`. -/
structure Core.Spares (c c' : Core) (ms : List Message) (r : Identifier) : Prop where
  other : ∀ y, y ≠ r → c'.localEndpoints.find y = c.localEndpoints.find y
  spared : ∀ i, c.Flushable ms i → ∀ d ∈ i.message.endpointsInMessage, d.endpointName ≠ r

namespace Core.Spares
variable {c c' : Core} {ms : List Message} {r : Identifier} (h : c.Spares c' ms r)
include h

theorem drained {i : Item} (hi : c.Flushable ms i) {d : EndpointDescriptor}
    (hd : d ∈ i.message.endpointsInMessage) : c'.drained d = c.drained d := by
  rw [Core.drained, Core.drained, queued, queued, h.other _ (h.spared i hi d hd)]

theorem flushable (i : Item) : c'.Flushable ms i ↔ c.Flushable ms i :=
  Below.congr fun _ hj => List.flatMap_congr fun _ hd => h.drained hj hd

theorem movable (hm : c.Movable ms) : c'.Movable ms := by
  refine ⟨fun i hi d hd => ?_, fun i j hi hj => ?_⟩
  · have hi := (h.flushable i).1 hi
    rw [h.other _ (h.spared i hi d hd)]
    exact hm.queueing i hi d hd
  · exact hm.once i j ((h.flushable i).1 hi) ((h.flushable j).1 hj)

end Core.Spares

/-- Process `p` has acknowledged that node `m` accepted `t`, and is now `p'`: what was queued on `e`,
    reserved at `r`, is written for the endpoint `x`, and then all that goes along. -/
structure Acknowledged (p : Process) (t m x r : Identifier) (e : Endpoint) (order : List Item)
    (p' : Process) : Prop where
  books : p' = ({ p with
    pendingInvitations := p.pendingInvitations.erase t
    nodeChannelMap := (p.nodeChannelMap.erase t).insert m m
    localEndpoints := p'.localEndpoints } : Process).goto .io (.acknowledged m)
  channel : ∀ k, p'.nodeChannelMap.find k = some m ↔ k = m
  reserved : p'.localEndpoints.find r = some
    { e with
      incomingMessageQueue := [], state := .kUnboundAndProxying, proxyTarget := ⟨m, x⟩ }
  first : e.onward x <+: order.map (·.message)
  once : (order.map (·.origin)).Nodup
  exact : ∀ i, i ∈ order ↔ p.Flushable (e.onward x) i
  drained : ∀ i ∈ order, ∀ d ∈ i.message.endpointsInMessage, (i :: p.drained d).Sublist order
  moved : ∀ i ∈ order, ∀ d ∈ i.message.endpointsInMessage,
    ∃ f, p.localEndpoints.find d.endpointName = some f ∧
      p'.localEndpoints.find d.endpointName = some
        { f with
          incomingMessageQueue := [], state := .kUnboundAndProxying,
          proxyTarget := ⟨m, d.crossNodeEndpointName⟩ }
  others : ∀ y, y ≠ r → (∀ i ∈ order, ∀ d ∈ i.message.endpointsInMessage, d.endpointName ≠ y) →
    p'.localEndpoints.find y = p.localEndpoints.find y

/-- The whole of `OnReceivedAcceptInvitation`, while no endpoint is locked. -/
theorem Process.acknowledges {p : Process} {supply : List Identifier} {t m x r : Identifier}
    {e : Endpoint} (ht : p.thread .io = .acknowledging t m x)
    (hr : p.pendingInvitations.find t = some r) (he : p.localEndpoints.find r = some e)
    (hq : e.state = .kUnboundAndQueueing) (hl : ∀ y, p.lock y = none)
    (hc : p.nodeChannelMap.find t = some m) (hinj : p.nodeChannelMap.Injective)
    (hkey : ((p.nodeChannelMap.erase t).insert m m).find m = some m)
    (hm : p.Movable (e.onward x)) (hu : p.toCore.Undelegated)
    (hne : ∀ i, p.Flushable (e.onward x) i → ∀ d ∈ i.message.endpointsInMessage,
      d.endpointName ≠ r) :
    ∃ k order p', p.steps .io supply k = .ok (p', order.map fun i =>
      (m, .userMessage i.message.buffer)) ∧ Acknowledged p t m x r e order p' := by
  obtain ⟨b, hb⟩ : ∃ b, b = forwarding m x r e := ⟨_, rfl⟩
  obtain ⟨q, hqs⟩ : ∃ q : Process, q = (p.settling .io t m x r e).goto .io (.unlocking b []) :=
    ⟨_, rfl⟩
  have hstart : p.steps .io supply 4 = .ok (q, []) := by
    rw [hqs, hb]
    exact settling_steps ht hr he hq (hu r e he hq) (hl r) hc
  have hbatch : b.messagesToSend = e.onward x := by rw [hb]; rfl
  have htarget : b.targetNodeName = m := by rw [hb]; rfl
  -- the reserved endpoint goes along with nothing, so the flush finds what was there before
  have hspares : p.Spares q.toCore (e.onward x) r := by
    refine ⟨fun y hy => ?_, hne⟩
    rw [hqs]
    exact settling_other (τ := .io) hy
  have hqm : q.Movable b.messagesToSend := hbatch ▸ hspares.movable hm
  have hqt : q.thread .io = .unlocking b [] := by simp [hqs]
  have hqc : q.nodeChannelMap.find b.targetNodeName = some m := by
    rw [hqs, htarget]
    exact hkey
  have hqu : q.toCore.Undelegated := by
    rw [hqs]
    exact hu.set rfl (by simp)
  obtain ⟨k, order, hk, hflushed⟩ := flushes supply hqt hqc hqm hqu fun i hi d hd => by
    rw [hbatch, hspares.flushable] at hi
    simp [hqs, settling, hne i hi d hd, hl]
  have hpre := hflushed.messages
  rw [hbatch] at hpre
  have hexact : ∀ i, i ∈ order ↔ p.Flushable (e.onward x) i := by
    intro i
    rw [hflushed.exact, hbatch, hspares.flushable]
  obtain ⟨p', hp'⟩ : ∃ p' : Process, p' =
      ((q.flushing .io b order []).release r).goto .io (.acknowledged m) := ⟨_, rfl⟩
  have hends : p'.localEndpoints = (q.flushing .io b order []).localEndpoints := by
    rw [hp']
    rfl
  have hlast : (q.flushing .io b order []).run .io supply = .ok ⟨p', supply, none, none⟩ := by
    rw [hp', hb]
    simp only [run, flushing, goto_thread, upd₁_apply, if_true, unlockNext, forwarding,
      List.map_nil]
    rfl
  have hbooks : p' = ({ p with
      pendingInvitations := p.pendingInvitations.erase t
      nodeChannelMap := (p.nodeChannelMap.erase t).insert m m
      localEndpoints := p'.localEndpoints } : Process).goto .io (.acknowledged m) := by
    rw [hends, hp', flushing, moveAll_eq]
    generalize q.moveAll b.targetNodeName _ = moved
    simp only [hqs, settling, goto, setLock, upd₁_upd₁, upd₁_same (hl r)]
  refine ⟨_, order, p', steps_add hstart (steps_add hk (steps_one hlast)) |>.trans (by simp),
    hbooks, fun k => ?_, ?_, hpre, hflushed.once, hexact, fun i hi d hd => ?_,
    fun i hi d hd => ?_, fun y hy hnot => ?_⟩
  · rw [hbooks]
    exact ⟨fun h => hinj.rekey hc m _ _ _ h hkey, fun h => h ▸ hkey⟩
  · rw [hends, hflushed.others r fun i hi => hne i ((hexact i).1 hi), hqs]
    simp [settling]
  · rw [← hspares.drained ((hexact i).1 hi) hd]
    exact hflushed.drained i hi d hd
  · obtain ⟨-, f, hf, hf'⟩ := hflushed.moved i hi d hd
    rw [hspares.other _ (hne i ((hexact i).1 hi) d hd)] at hf
    rw [htarget] at hf'
    exact ⟨f, hf, hends ▸ hf'⟩
  · rw [hends, hflushed.others y hnot, hspares.other y hy]

section
variable {T : Topology} {s : Network} {n t m x r : Identifier} {e : Endpoint}

/-- What is queued on the endpoint that is reserved waits where no descriptor leads. -/
theorem ReachableBy.reserved_cargo (hs : ReachableBy T KeepsHome s)
    (hr : (s.process n).pendingInvitations.find t = some r)
    (he : (s.process n).localEndpoints.find r = some e) :
    s.Cargo n (.queue n r) (e.onward x) where
  node := rfl
  waits := by simp
  tokens := by
    change ((s.process n).queued r).flatMap _ = _
    rw [Core.queued_of_find he, Endpoint.onward, List.flatMap_map]
    rfl
  home m hm d hd := by
    obtain ⟨m, hm, rfl⟩ := List.mem_map.1 hm
    exact (hs.home n).queues r m (by rwa [Core.queued_of_find he]) d hd
  apart Q d hQ hd := by
    rintro ⟨⟩
    have hport : s.ports.port ⟨n, d.endpointName⟩ ≠ none := by simp [Network.port, he]
    have htok : .reserved d.endpointName ∈ s.ports.tokens (.pending n t) := by
      simp [Network.tokens, hr]
    obtain ⟨-, heq⟩ := ((ReachableBy.reachable hs).sound.ports.rights.once _ hport).token_eq htok
      ⟨rfl, rfl⟩ hd ⟨hQ, .inl rfl⟩
    cases heq

/-- While nobody holds a lock no endpoint is locked. -/
theorem Reachable.unlocked (hs : Reachable T s)
    (h : ∀ τ, ((s.process n).thread τ).locks = []) (y : Identifier) :
    (s.process n).lock y = none := by
  by_contra hne
  obtain ⟨τ, hτ⟩ := Option.ne_none_iff_exists'.1 hne
  have hmem := ((hs.exclusive n τ).2 y).2 hτ
  rw [h τ] at hmem
  cases hmem

end

/-- In every state of any network that is reached without queueing messages with endpoints on arrival, an
    acceptance that is read is acknowledged to the end if no other thread of its node has an endpoint
    locked or steps in between: what was pending is struck out, the channel has the acceptor's name and
    no other, the reserved endpoint is a proxy with nothing queued, and on the channel are first the
    messages that were queued there, in order, and then those queued on the endpoints they carry, and so
    on, each once and after the message that carries its endpoint. -/
theorem acceptance_acknowledged {T : Topology} {s : Network} (hs : ReachableBy T KeepsHome s)
    {n t m x : Identifier} (supply : List Identifier)
    (ht : (s.process n).thread .io = .acknowledging t m x)
    (hfree : ∀ σ, σ ≠ .io → ((s.process n).thread σ).locks = []) :
    ∃ r e, (s.process n).pendingInvitations.find t = some r ∧
      (s.process n).localEndpoints.find r = some e ∧
      (s.process n).nodeChannelMap.find t = some m ∧
      ∃ k order p', (s.process n).steps .io supply k = .ok (p', order.map fun i =>
        (m, .userMessage i.message.buffer)) ∧ Acknowledged (s.process n) t m x r e order p' := by
  have hr : Reachable T s := ReachableBy.reachable hs
  have hth := hr.sound.handshake.threads n .io
  rw [ht] at hth
  obtain ⟨hinv, -, ⟨hc, r, hp, -⟩, -⟩ := hth
  obtain ⟨e, he, hq⟩ := hr.noted_queueing hp
  have hcargo : s.Cargo n (.queue n r) (e.onward x) := ReachableBy.reserved_cargo hs hp he
  have hfree : ∀ σ, ((s.process n).thread σ).locks = [] := by
    intro σ
    by_cases hio : σ = .io
    · rw [hio, ht]
      rfl
    · exact hfree σ hio
  refine ⟨r, e, hp, he, hc, Process.acknowledges ht hp he hq (hr.unlocked hfree) hc
    (hr.channels n).injective (hr.sound.handshake.find_settled hinv) (hcargo.movable hs)
    (hr.undelegated n) fun i hi d hd hname => ?_⟩
  obtain ⟨Q, hQ, -, htok, -⟩ := hcargo.place hs (hcargo.stored hs hi) hd
  exact hcargo.apart Q d hQ htok (by rw [hname])

/-- The acceptance that a thread is about to acknowledge. -/
def Thread.acknowledges : Thread → Option (Identifier × Identifier × Identifier)
  | .acknowledging t m x => some (t, m, x)
  | _ => none

theorem Thread.eq_of_acknowledges {th : Thread} {t m x : Identifier}
    (h : th.acknowledges = some (t, m, x)) : th = .acknowledging t m x := by
  cases th <;> cases h
  rfl

/-- A message is queued for the acceptor that carries an endpoint on which another one is queued. -/
theorem acknowledged_with_pipe : ∃ s r e k order p', ReachableBy Sample.pair KeepsHome s ∧
    (s.process Sample.inviter).localEndpoints.find r = some e ∧
    e.incomingMessageQueue.map (·.endpointsInMessage.length) = [1] ∧
    (s.process Sample.inviter).steps .io s.supply k = .ok (p', order.map fun i =>
      (Sample.acceptor, .userMessage i.message.buffer)) ∧
    Acknowledged (s.process Sample.inviter) (Sample.word 2) Sample.acceptor (Sample.word 6) r e order
      p' := by
  obtain ⟨s, hs, hio, huser, hp, f, hf, hlen⟩ := Network.exists_of_follow Sample.pair
    (fun s l => Orderly s l ∧ KeepsHome s l)
    (Label.calling Sample.inviter (.user 0)
        (.sendInvitationAndGetMessagePipe Sample.acceptor none) 4 ++
      Label.calling Sample.inviter (.user 0) .createMessagePipes 0 ++
      Label.calling Sample.inviter (.user 0) (.sendMessage 4 9 [3] []) 3 ++
      Label.calling Sample.inviter (.user 0) (.sendMessage 1 8 [2] [3]) 5 ++
      [.call Sample.acceptor (.user 0) (.acceptInvitation Sample.inviter 0)] ++
      Label.reading Sample.acceptor Sample.inviter 4 ++ Label.reading Sample.inviter
        Sample.acceptor 0)
    (fun s => ((s.process Sample.inviter).thread .io).acknowledges =
        some (Sample.word 2, Sample.acceptor, Sample.word 6) ∧
      ((s.process Sample.inviter).thread (.user 0)).isIdle ∧
      (s.process Sample.inviter).pendingInvitations.find (Sample.word 2) = some (Sample.word 1) ∧
      ∃ f ∈ s.endpointAt ⟨Sample.inviter, Sample.word 1⟩,
        f.incomingMessageQueue.map (·.endpointsInMessage.length) = [1])
    (by decide +kernel)
  have hio := Thread.eq_of_acknowledges hio
  have hhome : ReachableBy Sample.pair KeepsHome s := Reaches.mono (fun _ _ h => ⟨h.1, h.2.2⟩) hs
  have horder : ReachableBy Sample.pair Orderly s := Reaches.mono (fun _ _ h => ⟨h.1, h.2.1⟩) hs
  have hidle : ∀ σ, σ ≠ .io → (s.process Sample.inviter).thread σ = .idle := by
    intro σ hσ
    by_contra hbusy
    rcases horder.two_threads Sample.inviter σ hbusy with rfl | rfl
    · exact hσ rfl
    · exact hbusy (Thread.isIdle_iff.1 huser)
  obtain ⟨r, e, hr, he, -, k, order, p', hsteps, hack⟩ := acceptance_acknowledged hhome s.supply hio
    fun σ hσ => by
      rw [hidle σ hσ]
      rfl
  rw [hp, Option.some.injEq] at hr
  subst hr
  obtain rfl : e = f := Option.some.inj (he.symm.trans hf)
  exact ⟨s, _, e, k, order, p', hhome, he, hlen, hsteps, hack⟩

end Mage
