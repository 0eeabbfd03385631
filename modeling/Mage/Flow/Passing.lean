import Mage.Flow.Stock

/-! What a proxy passes on. All that arrived at a proxy leaves for one address and nothing else does:
    first what was queued when it became a proxy, then what arrived later. The order of arrival is the
    order of writing as long as a thread that passes one message on does not write it while another
    thread still has older ones. -/

namespace Mage
open Lib

/-- What arrived at the proxy `x` of node `n`, and is on its way to the target `a` of the proxy. -/
structure Network.Passed (s : Network) (n x : Identifier) (a : Address) : Prop where
  carried : Carried (s.box n a) (fun τ => ((s.process n).thread τ).passing = some x)
    ((s.process n).arrivals x) (s.written n a) (((s.process n).queued x).map Message.payload)
  flushing : (s.process n).Flushing x → ∀ τ, s.box n a τ = []

namespace Process.Move
variable {p : Process} {τ : ThreadId} {supply : List Identifier} {c : Option Call} {o : Outcome}
  {x : Identifier} {e : Endpoint}

theorem flushing_old (h : p.Move τ supply c o) (hx : o.process.Flushing x) :
    p.Flushing x ∨ ∃ e, p.localEndpoints.find x = some e ∧ e.state = .kUnboundAndQueueing := by
  obtain ⟨σ, hσ⟩ := hx
  by_cases hστ : σ = τ
  · subst hστ
    cases h with
    | createMessagePipes | bindReceiver | acceptInvitation => exact .inl ⟨σ, hσ⟩
    | @reserve t n g r e _ he _ hq =>
      simp only [goto_thread, upd₁_apply, if_true, Thread.flushing, Option.some.injEq] at hσ
      exact .inr ⟨e, hσ ▸ he, hq⟩
    | rekey ht => exact .inl ⟨σ, by simpa [ht, Thread.flushing] using hσ⟩
    | _ => simp [Thread.flushing] at hσ
  · exact .inl ⟨σ, h.thread_other hστ ▸ hσ⟩

/-- The queue of a proxy changes when it is drained. -/
theorem queued_proxy (h : p.Move τ supply c o) (he : p.localEndpoints.find x = some e)
    (hq : e.state = .kUnboundAndProxying) (hne : ∀ k, p.thread τ ≠ .draining x k) :
    o.process.queued x = p.queued x := by
  have away : ∀ {y f}, p.localEndpoints.find y = some f → f.state ≠ .kUnboundAndProxying → x ≠ y := by
    rintro y f hf hs rfl
    rw [he, Option.some.injEq] at hf
    exact hs (hf ▸ hq)
  have set : ∀ {y f}, o.process.localEndpoints = p.localEndpoints.set y f → x ≠ y →
      o.process.queued x = p.queued x := by
    intro y f hf hxy
    rw [Core.queued_set hf, if_neg hxy]
  cases h with
  | createMessagePipes _ hx hy hxy | invite _ _ hx hy hxy => exact Core.queued_enroll_two hx hy hxy x
  | recover _ hd => exact Core.queued_enroll hd x
  | bindReceiver _ hf _ hs => exact set rfl (away hf (by simp [hs]))
  | take _ hf _ _ hs => exact set rfl (away hf (by simp [hs]))
  | reserve _ hf _ hs => exact set rfl (away hf (by simp [hs]))
  | forward _ _ hf hs => exact set rfl (away hf (by simp [hs]))
  | deliver _ hf _ _ ha => exact set rfl (away hf (Endpoint.acceptMessage_unproxied ha))
  | dispatch _ hf ha => exact set rfl (away hf (Endpoint.acceptMessage_unproxied ha))
  | @drain r k f ht hf =>
    refine set rfl ?_
    rintro rfl
    exact hne k ht
  | @accept i t y name rest ht hs =>
    have hsame : (p.localEndpoints.insert name (.new name ⟨i, y⟩)).find x = some e :=
      Table.find_insert_of_present he name _
    simp only [Core.queued, goto_toCore, hsame, he]
  | _ => rfl

/-- What arrives at a proxy is the only thing its thread has to write. -/
theorem arrived (h : p.Move τ supply c o) (he : p.localEndpoints.find x = some e)
    (hq : e.state = .kUnboundAndProxying) (hne : o.process.arrivals x ≠ p.arrivals x) :
    ∃ m : Payload, (p.thread τ).letters = [] ∧
      (o.process.thread τ).letters = [(e.proxyTarget, m)] ∧
      (o.process.thread τ).passing = some x ∧ o.process.arrivals x = p.arrivals x ++ [m] ∧
      o.written = none ∧ (p.thread τ).flushing = none ∧
      (p.lock x = none ∨ x ∈ (p.thread τ).locks) ∧
      c = none ∧ (p.thread τ).routing = some x := by
  have same : ∀ {y f} {l : List Payload}, o.process.arrivals = upd₁ p.arrivals y l →
      p.localEndpoints.find y = some f → x = y ∧ f = e := by
    intro y f l hl hf
    by_cases hxy : x = y
    · subst hxy
      rw [he, Option.some.injEq] at hf
      exact ⟨rfl, hf.symm⟩
    · exact absurd (by rw [hl, upd₁_apply, if_neg hxy]) hne
  cases h with
  | @deliverToProxy y m f ht hf hl =>
    obtain ⟨rfl, rfl⟩ := same rfl hf
    exact ⟨m.payload, by simp [ht, Thread.letters], by simp [Thread.letters, Message.letter],
      by simp [Thread.passing, Caller.passing], by simp, rfl,
      by simp [ht, Thread.flushing], .inl hl, rfl, by simp [ht, Thread.routing]⟩
  | @relay y m done f ht hf =>
    obtain ⟨rfl, rfl⟩ := same rfl hf
    exact ⟨m.payload, by simp [ht, Thread.letters], by simp [Thread.letters, Message.letter],
      by simp [Thread.passing], by simp, rfl, by simp [ht, Thread.flushing],
      .inr (by simp [ht, Thread.locks]), rfl, by simp [ht, Thread.routing]⟩
  | deliver _ hf _ _ ha =>
    obtain ⟨rfl, rfl⟩ := same rfl hf
    exact absurd hq (Endpoint.acceptMessage_unproxied ha)
  | dispatch _ hf ha =>
    obtain ⟨rfl, rfl⟩ := same rfl hf
    exact absurd hq (Endpoint.acceptMessage_unproxied ha)
  | _ => exact absurd rfl hne

/-- Where the new letters of a thread are for. -/
inductive Heading (p : Process) (τ : ThreadId) (o : Outcome) : Address → Prop where
  | peer {y : Identifier} {e : Endpoint} (he : p.localEndpoints.find y = some e) :
      Heading p τ o e.peerAddress
  | arriving {y : Identifier} {e : Endpoint} (he : p.localEndpoints.find y = some e)
      (hq : e.state = .kUnboundAndProxying) (hne : o.process.arrivals y ≠ p.arrivals y) :
      Heading p τ o e.proxyTarget
  | drained {y : Identifier} {e : Endpoint} {k : Channel} (ht : p.thread τ = .draining y k)
      (he : p.localEndpoints.find y = some e) : Heading p τ o e.proxyTarget
  | taken {b : Batch} {m : Message} {done ds : List EndpointDescriptor} {d : EndpointDescriptor}
      {e : Endpoint} (ht : p.thread τ = .sending b m done (d :: ds))
      (he : p.localEndpoints.find d.endpointName = some e) :
      Heading p τ o ⟨b.targetNodeName, d.crossNodeEndpointName⟩

/-- What a thread has to write otherwise: what it had, and something for other addresses. -/
theorem letters_new (h : p.Move τ supply c o) (hi : c.isSome → p.thread τ = .idle) :
    (∃ k m, o.written = some (k, .userMessage m)) ∨
    ∃ new, (o.process.thread τ).letters = (p.thread τ).letters ++ new ∧
      ((p.thread τ).letters ≠ [] → (o.process.thread τ).passing = (p.thread τ).passing) ∧
      ∀ l ∈ new, Heading p τ o l.1 := by
  have same (h1 : (o.process.thread τ).letters = (p.thread τ).letters)
      (h2 : (p.thread τ).letters ≠ [] → (o.process.thread τ).passing = (p.thread τ).passing) :
      ∃ new, (o.process.thread τ).letters = (p.thread τ).letters ++ new ∧
        ((p.thread τ).letters ≠ [] → (o.process.thread τ).passing = (p.thread τ).passing) ∧
        ∀ l ∈ new, Heading p τ o l.1 :=
    ⟨[], by rw [h1, List.append_nil], h2, fun l hl => (by cases hl)⟩
  cases h with
  | write | writeForwarded => exact .inl ⟨_, _, rfl⟩
  | createMessagePipes | bindReceiver | acceptInvitation => exact .inr <| same rfl fun _ => rfl
  | sendMessage | sendInvitation => exact .inr <| same (by simp [hi, Thread.letters]) (by simp [hi, Thread.letters])
  | unlock ht | forward ht =>
    exact .inr <| same (by simp [ht, Thread.letters]) fun _ => by simp [ht, Thread.passing]
  | next ht hm => exact .inr <| same (by simp [ht, hm, Thread.letters]) fun _ => by simp [ht, Thread.passing]
  | sent ht hm | sentToProxy ht hm | drained ht hm =>
    exact .inr <| same (by simp [ht, hm, Thread.letters]) (by simp [ht, hm, Thread.letters])
  | @routeRemote x m e channel ht he =>
    refine .inr ⟨[(e.peerAddress, m.payload)], by simp [ht, Thread.letters, Message.letter],
      by simp [ht, Thread.letters], fun l hl => ?_⟩
    obtain rfl := List.mem_singleton.1 hl
    exact .peer he
  | @deliverToProxy x m e ht he _ hq =>
    refine .inr ⟨[(e.proxyTarget, m.payload)], by simp [ht, Thread.letters, Message.letter],
      by simp [ht, Thread.letters], fun l hl => ?_⟩
    obtain rfl := List.mem_singleton.1 hl
    exact .arriving he hq (by simp)
  | @relay x m done e ht he hq =>
    refine .inr ⟨[(e.proxyTarget, m.payload)], by simp [ht, Thread.letters, Message.letter],
      by simp [ht, Thread.letters], fun l hl => ?_⟩
    obtain rfl := List.mem_singleton.1 hl
    exact .arriving he hq (by simp)
  | @take b m done ds d e ht he =>
    refine .inr ⟨e.incomingMessageQueue.map fun m =>
      (⟨b.targetNodeName, d.crossNodeEndpointName⟩, m.payload), ?_, ?_, fun l hl => ?_⟩
    · simp [ht, Thread.letters, Message.letter, Function.comp_def]
    · simp [ht, Thread.passing]
    · obtain ⟨m', -, rfl⟩ := List.mem_map.1 hl
      exact .taken ht he
  | @drain r k e ht he =>
    refine .inr ⟨e.incomingMessageQueue.map fun m => (e.proxyTarget, m.payload), ?_, ?_,
      fun l hl => ?_⟩
    · simp [ht, Thread.letters, Message.letter, Function.comp_def]
    · simp [ht, Thread.letters]
    · obtain ⟨m', -, rfl⟩ := List.mem_map.1 hl
      exact .drained ht he
  | _ => exact .inr <| same (by simp_all [Thread.letters]) (by simp_all [Thread.letters])

/-- Draining a proxy hands all that waits there to one thread. -/
theorem drains (h : p.Move τ supply c o) (hi : c.isSome → p.thread τ = .idle) {k : Channel}
    (ht : p.thread τ = .draining x k) (he : p.localEndpoints.find x = some e) :
    (o.process.thread τ).letters =
      e.incomingMessageQueue.map (fun m => (e.proxyTarget, m.payload)) ∧
    o.process.queued x = [] ∧ o.process.arrivals = p.arrivals ∧ o.written = none ∧
    (o.process.thread τ).flushing = none := by
  cases h with
  | @drain r k' f h1 hf =>
    rw [ht, Thread.draining.injEq] at h1
    obtain ⟨rfl, rfl⟩ := h1
    rw [he, Option.some.injEq] at hf
    subst hf
    refine ⟨?_, ?_, rfl, rfl, ?_⟩
    · simp [Thread.letters, Message.letter, Function.comp_def]
    · rw [Core.queued_set rfl, if_pos rfl]
    · simp [Thread.flushing]
  | createMessagePipes | bindReceiver | acceptInvitation | sendMessage | sendInvitation =>
    rw [hi rfl] at ht
    cases ht
  | _ => simp_all

/-- A thread that still has something for its proxy goes on serving it. -/
theorem written_passing (h : p.Move τ supply c o) {k : Channel} {m : Message}
    (hw : o.written = some (k, .userMessage m)) (hne : (o.process.thread τ).letters ≠ []) :
    (o.process.thread τ).passing = (p.thread τ).passing := by
  cases h with
  | write ht => simp [ht, Thread.passing]
  | writeForwarded => simp [Thread.letters] at hne
  | _ => cases hw

/-- How endpoint `e`, registered as `x`, becomes the proxy `e'`. -/
inductive Becomes (p : Process) (τ : ThreadId) (supply : List Identifier) (o : Outcome)
    (x : Identifier) (e e' : Endpoint) : Prop where
  | moved {b : Batch} {m : Message} {done ds : List EndpointDescriptor} {d : EndpointDescriptor}
      (ht : p.thread τ = .sending b m done (d :: ds))
      (he : p.localEndpoints.find d.endpointName = some e)
      (ha : e'.proxyTarget = ⟨b.targetNodeName, d.crossNodeEndpointName⟩)
      (hl : (o.process.thread τ).letters = (p.thread τ).letters ++
        e.incomingMessageQueue.map fun m => (e'.proxyTarget, m.payload))
      (hq : o.process.queued x = []) (hf : (o.process.thread τ).flushing = none)
      (hx : x ∈ (o.process.thread τ).locks)
  | forwarded {k name : Identifier} (hn : name ∈ supply) (ha : e'.proxyTarget = ⟨k, name⟩)
      (hl : (o.process.thread τ).letters = (p.thread τ).letters)
      (hq : o.process.queued x = e.incomingMessageQueue)
  | reserved {t k g : Identifier} (ht : p.thread τ = .reserving x t k g)
      (ha : e'.proxyTarget = ⟨k, g⟩) (hl : (o.process.thread τ).letters = (p.thread τ).letters)
      (hq : o.process.queued x = e.incomingMessageQueue)

theorem becomes (h : p.Move τ supply c o) {e' : Endpoint}
    (he' : o.process.localEndpoints.find x = some e') (hq' : e'.state = .kUnboundAndProxying) :
    (∃ e, p.localEndpoints.find x = some e ∧ e.peerAddress = e'.peerAddress ∧
      e.state = .kUnboundAndProxying ∧ e.proxyTarget = e'.proxyTarget) ∨
    ∃ e, p.localEndpoints.find x = some e ∧ e.state = .kUnboundAndQueueing ∧
      o.process.arrivals = p.arrivals ∧ o.written = none ∧ Becomes p τ supply o x e e' := by
  have created : ∀ {t : Table Identifier Endpoint} {y : Identifier} {a : Address},
      (t.set y (.new y a)).find x = some e' → t.find x = some e' := by
    intro t y a hx
    rw [Table.find_set] at hx
    split_ifs at hx with hxy
    · cases hx
      simp [Endpoint.new] at hq'
    · exact hx
  have accepted : ∀ {y f f'} {m : Message}, p.localEndpoints.find y = some f →
      f.acceptMessage m = .ok f' → (p.localEndpoints.set y f').find x = some e' →
      p.localEndpoints.find x = some e' := by
    intro y f f' m hf ha hx
    rw [Table.find_set] at hx
    split_ifs at hx with hxy
    · cases hx
      exact absurd hq' (Endpoint.acceptMessage_stays ha)
    · exact hx
  have same (hx : p.localEndpoints.find x = some e') : ∃ e, p.localEndpoints.find x = some e ∧
      e.peerAddress = e'.peerAddress ∧ e.state = .kUnboundAndProxying ∧
      e.proxyTarget = e'.proxyTarget := ⟨e', hx, rfl, hq', rfl⟩
  cases h with
  | createMessagePipes | invite => exact .inl <| same (created (created he'))
  | recover => exact .inl <| same (created he')
  | @accept i t y name =>
    refine .inl (same ?_)
    cases hn : p.localEndpoints.find name with
    | none => exact created (Table.insert_of_absent hn _ ▸ he')
    | some f =>
      change (p.localEndpoints.insert name _).find x = _ at he'
      rwa [Table.insert, hn] at he'
  | deliver _ hf _ _ ha => exact .inl <| same (accepted hf ha he')
  | dispatch _ hf ha => exact .inl <| same (accepted hf ha he')
  | @bindReceiver _ _ _ y f _ hf _ hq =>
    change (p.localEndpoints.set y _).find x = _ at he'
    rw [Table.find_set] at he'
    split_ifs at he' with hxy
    · cases he'
      cases hq'
    · exact .inl <| same he'
  | @drain r k f ht hf =>
    change (p.localEndpoints.set r _).find x = _ at he'
    rw [Table.find_set] at he'
    split_ifs at he' with hxy
    · cases he'
      exact .inl ⟨f, hxy ▸ hf, rfl, hq', rfl⟩
    · exact .inl <| same he'
  | @take b m done ds d f ht hf hl hd hq =>
    change (p.localEndpoints.set d.endpointName _).find x = _ at he'
    rw [Table.find_set] at he'
    split_ifs at he' with hxy
    · cases he'
      refine .inr ⟨f, hxy ▸ hf, hq, rfl, rfl, .moved ht hf rfl ?_ ?_ ?_ ?_⟩
      · simp [ht, Thread.letters, Message.letter, Function.comp_def]
      · rw [Core.queued_set rfl, if_pos hxy]
      · simp [Thread.flushing]
      · simp [Thread.locks, hxy]
    · exact .inl <| same he'
  | @forward y k name m done ds d rest f ht hs hf hq =>
    change (p.localEndpoints.set d.crossNodeEndpointName _).find x = _ at he'
    rw [Table.find_set] at he'
    split_ifs at he' with hxy
    · cases he'
      refine .inr ⟨f, hxy ▸ hf, hq, rfl, rfl, .forwarded (by simp [hs]) rfl ?_ ?_⟩
      · simp [ht, Thread.letters]
      · rw [Core.queued_set rfl, if_pos hxy]
    · exact .inl <| same he'
  | @reserve t k g r f ht hf hl hq =>
    change (p.localEndpoints.set r _).find x = _ at he'
    rw [Table.find_set] at he'
    split_ifs at he' with hxy
    · subst hxy
      cases he'
      refine .inr ⟨f, hf, hq, rfl, rfl, .reserved ht rfl ?_ ?_⟩
      · simp [ht, Thread.letters]
      · rw [Core.queued_set rfl, if_pos rfl]
    · exact .inl <| same he'
  | _ => exact .inl <| same he'

end Process.Move

/-! ### One step -/

instance : Nontrivial ThreadId := ⟨.io, .user 0, by simp⟩

theorem Thread.locks_of_passing {t : Thread} {x : Identifier} (h : t.passing = some x) :
    x ∈ t.locks := by
  have caller : ∀ {k : Caller}, k.passing = some x → x ∈ k.locks := by
    intro k hk
    cases k <;> simp_all [Caller.passing, Caller.locks]
  cases t with
  | sending b m done rest => exact List.mem_append_right _ (caller h)
  | unlocking b l => exact List.mem_append_right _ (caller h)
  | forwarding y => simpa [Thread.passing, Thread.locks, eq_comm] using h
  | _ => cases h

theorem Thread.locks_of_flushing {t : Thread} {x : Identifier} (h : t.flushing = some x) :
    x ∈ t.locks := by
  cases t <;> simp_all [Thread.flushing, Thread.locks]

theorem Thread.not_flushing {t : Thread} {x y : Identifier} (h : t.passing = some x) :
    t.flushing ≠ some y := by
  cases t <;> simp_all [Thread.passing, Thread.flushing]

theorem Network.ports_peer {s : Network} {a : Address} :
    s.ports.peer a = s.peerOf a.nodeName a.endpointName := by
  simp [Ports.peer, port, peerOf, Function.comp_def, Endpoint.port]

theorem Network.port_eq_proxying {s : Network} {n x : Identifier} {p a : Address} :
    s.port ⟨n, x⟩ = some ⟨p, .proxying a⟩ ↔ ∃ e, (s.process n).localEndpoints.find x = some e ∧
      e.peerAddress = p ∧ e.state = .kUnboundAndProxying ∧ e.proxyTarget = a := by
  rw [port_eq_some]
  refine exists_congr fun e => and_congr_right fun _ => ?_
  cases hs : e.state <;> simp [Endpoint.port, Endpoint.status, hs]

section
variable {T : Topology} {s : Network} {n : Identifier} {τ : ThreadId} {c : Option Call} {o : Outcome}

theorem Act.box_other (ha : Act T s n τ c o) {σ : ThreadId} (hσ : σ ≠ τ) (a : Address) :
    (s.apply n o).box n a σ = s.box n a σ := by
  simp [Network.box, ha.move.thread_other hσ]

theorem Network.box_apply (s : Network) (n : Identifier) (o : Outcome) (a : Address)
    (τ : ThreadId) : (s.apply n o).box n a τ = lane a (o.process.thread τ).letters := by
  simp [box]

/-- Nothing but user messages counts as written. -/
theorem Network.written_apply_none (a : Address)
    (h : ∀ k m, o.written ≠ some (k, .userMessage m)) :
    (s.apply n o).written n a = s.written n a := by
  rw [written, transmitted_apply]
  cases hw : o.written with
  | none => simp [written]
  | some w =>
    obtain ⟨k, m⟩ := w
    cases m with
    | userMessage m => exact absurd hw (h k m)
    | sendInvitation | acceptInvitation => simp [written, ChannelMessage.letters]

theorem Network.written_apply_some (a : Address) {k : Channel} {m : Message}
    (h : o.written = some (k, .userMessage m)) :
    (s.apply n o).written n a = s.written n a ++ lane a [m.letter k] := by
  rw [written, transmitted_apply, h, lane_append]
  by_cases hk : a.nodeName = k
  · simp [hk, written, ChannelMessage.letters]
  · have hne : lane a [m.letter k] = [] := lane_eq_nil.2 fun l hl => by
      rw [List.mem_singleton.1 hl]
      rintro rfl
      exact hk rfl
    simp [hk, written, hne]

variable {x : Identifier} {p a : Address}

theorem Act.flushing_kept (ha : Act T s n τ c o) {e : Endpoint}
    (he : (s.process n).localEndpoints.find x = some e) (hq : e.state = .kUnboundAndProxying)
    (hf : o.process.Flushing x) : (s.process n).Flushing x := by
  rcases ha.move.flushing_old hf with hf | ⟨e', he', hq'⟩
  · exact hf
  · rw [he, Option.some.injEq] at he'
    simp [he', hq'] at hq

theorem Exclusive.not_flushing {q : Process} (h : Exclusive q.thread q.lock) {σ : ThreadId}
    (hσ : (q.thread σ).passing = some x) : ¬ q.Flushing x := by
  rintro ⟨ρ, hρ⟩
  obtain rfl := h.eq_of_mem (Thread.locks_of_passing hσ) (Thread.locks_of_flushing hρ)
  exact Thread.not_flushing hσ hρ

/-- Nothing goes yet to where a thread is about to send an endpoint. -/
theorem Reachable.unaimed_taken (hr : Reachable T s) {b : Batch} {m : Message}
    {done ds : List EndpointDescriptor} {d : EndpointDescriptor} {e : Endpoint}
    (ht : (s.process n).thread τ = .sending b m done (d :: ds))
    (he : (s.process n).localEndpoints.find d.endpointName = some e) :
    ¬ s.ports.Aimed n ⟨b.targetNodeName, d.crossNodeEndpointName⟩ := by
  have hs := hr.sound.ports
  have htok : Token.described d ∈ s.ports.tokens (.hand n τ) := by
    simp [Network.tokens, ht, Thread.tokens]
  have hport : s.ports.port ⟨n, d.endpointName⟩ = some e.port := Network.port_eq_some.2 ⟨e, he, rfl⟩
  obtain ⟨-, hu⟩ := hs.names.local_of_described (hs.names.ok _ _ htok) hport
  exact hs.links.unaimed (Links.free_of_local hs.names htok hu) n

/-- A thread writes what it has to pass on. -/
theorem Act.passed_write (ha : Act T s n τ c o) (hr : Reachable T s)
    (hx : s.port ⟨n, x⟩ = some ⟨p, .proxying a⟩) (h : s.Passed n x a) {k : Channel} {m : Message}
    (hw : o.written = some (k, .userMessage m))
    (hturn : (⟨k, m.targetEndpoint⟩ : Address) = a → ((s.process n).thread τ).passing = some x →
      ∀ σ, σ ≠ τ → s.box n a σ = []) : (s.apply n o).Passed n x a := by
  have hs := hr.sound
  obtain ⟨e, he, -, hq, rfl⟩ := Network.port_eq_proxying.1 hx
  obtain ⟨t, hc, hl, hletters⟩ := ha.move.letter_written (hs.tidy.threads n τ) hw
  obtain rfl := hs.channel_eq hl hc
  have hnodrain : ∀ j, (s.process n).thread τ ≠ .draining x j := fun j hj => by
    simp [hj, Thread.letters] at hletters
  have harr : o.process.arrivals x = (s.process n).arrivals x := by
    by_contra hne
    obtain ⟨_, hnil, -⟩ := ha.move.arrived he hq hne
    simp [hnil] at hletters
  have hbox : s.box n e.proxyTarget τ =
      lane e.proxyTarget [m.letter k] ++ (s.apply n o).box n e.proxyTarget τ := by
    rw [Network.box, hletters, lane_cons_append, Network.box_apply]
  refine ⟨?_, fun hf σ => ?_⟩
  · have hcar : Carried ((s.apply n o).box n e.proxyTarget)
        (fun σ => (((s.apply n o).process n).thread σ).passing = some x) _ _ _ := h.carried.write hbox
      (fun σ hσ => ha.box_other hσ _) (fun σ hne hσ => ?_) fun hne hσ j hj => hturn ?_ hσ j hj
    · simpa [Network.written_apply_some _ hw, harr, ha.move.queued_proxy he hq hnodrain] using hcar
    · rcases ha.thread_apply n σ with ⟨-, rfl, hth⟩ | hth
      · rw [Network.box_apply] at hne
        rw [hth, ha.move.written_passing hw fun hnil => hne (by rw [hnil]; rfl)]
        exact hσ
      · rw [hth]
        exact hσ
    · by_contra haddr
      exact hne (lane_eq_nil.2 fun l hl => by rw [List.mem_singleton.1 hl]; exact haddr)
  · have hold := h.flushing (ha.flushing_kept he hq (by simpa using hf))
    by_cases hσ : σ = τ
    · subst hσ
      have := hold σ
      rw [hbox, List.append_eq_nil_iff] at this
      exact this.2
    · rw [ha.box_other hσ]
      exact hold σ

/-- A message arrives at the proxy and is picked up. -/
theorem Act.passed_arrival (ha : Act T s n τ c o) (hr : Reachable T s)
    (hx : s.port ⟨n, x⟩ = some ⟨p, .proxying a⟩) (h : s.Passed n x a)
    (hne : o.process.arrivals x ≠ (s.process n).arrivals x) : (s.apply n o).Passed n x a := by
  obtain ⟨e, he, -, hq, rfl⟩ := Network.port_eq_proxying.1 hx
  have hex := hr.exclusive n
  obtain ⟨m, hnil, hone, hpass, harr, hw, hflush, hlock, -⟩ := ha.move.arrived he hq hne
  have hnodrain : ∀ j, (s.process n).thread τ ≠ .draining x j := fun j hj => by
    simp [hj, Thread.flushing] at hflush
  have htau : ∀ σ, x ∈ ((s.process n).thread σ).locks → σ = τ := by
    intro σ hσ
    rcases hlock with hl | hl
    · rw [(hex σ).2, hl] at hσ
      cases hσ
    · exact hex.eq_of_mem hσ hl
  have hrest : (s.process n).queued x = [] := by
    rw [Core.queued_of_find he]
    refine (((hr.untouched.stock n).stocked x e he).proxying hq).resolve_right ?_
    rintro ⟨σ, hσ⟩
    obtain rfl := htau σ (Thread.locks_of_flushing hσ)
    rw [hflush] at hσ
    cases hσ
  have hbox : s.box n e.proxyTarget τ = [] := by
    rw [Network.box, hnil]
    rfl
  have hcar := h.carried
  rw [hrest, List.map_nil] at hcar
  refine ⟨?_, fun hf => ?_⟩
  · have : Carried ((s.apply n o).box n e.proxyTarget)
        (fun σ => (((s.apply n o).process n).thread σ).passing = some x) _ _ _ :=
      hcar.pick (x := m) hbox ?_
      (fun σ hσ => ha.box_other hσ _) (fun σ hσ => ?_) ?_
    · rw [Network.written_apply_none _ (by simp [hw])]
      simpa [harr, ha.move.queued_proxy he hq hnodrain, hrest] using this
    · rw [Network.box_apply, hone]
      simp [lane_cons]
    · rw [htau σ (Thread.locks_of_passing hσ), hbox]
    · simpa using hpass
  · have hf : o.process.Flushing x := by simpa using hf
    exact absurd hf ((ha.move.exclusive ha.idle hex).not_flushing hpass)

/-- What waited at a proxy is taken out to be written. -/
theorem Act.passed_drain (ha : Act T s n τ c o) (hr : Reachable T s)
    (hx : s.port ⟨n, x⟩ = some ⟨p, .proxying a⟩) (h : s.Passed n x a) {k : Channel}
    (ht : (s.process n).thread τ = .draining x k) : (s.apply n o).Passed n x a := by
  obtain ⟨e, he, -, hq, rfl⟩ := Network.port_eq_proxying.1 hx
  obtain ⟨hletters, hqueue, harr, hw, hflush⟩ := ha.move.drains ha.idle ht he
  have hnone := h.flushing ⟨τ, by simp [ht, Thread.flushing]⟩
  refine ⟨?_, fun hf => ?_⟩
  · have : Carried ((s.apply n o).box n e.proxyTarget)
        (fun σ => (((s.apply n o).process n).thread σ).passing = some x)
        (s.written n e.proxyTarget ++ ((s.process n).queued x).map Message.payload) _ _ :=
      Carried.pickAll hnone (i := τ) ?_
      fun σ hσ => ha.box_other hσ _
    · rw [Network.written_apply_none _ (by simp [hw])]
      simpa [hqueue, harr, h.carried.settled hnone] using this
    · rw [Network.box_apply, hletters, lane_map, if_pos rfl, Core.queued_of_find he]
  · obtain ⟨σ, hσ⟩ := hf
    rcases ha.thread_apply n σ with ⟨-, rfl, hth⟩ | hth
    · rw [hth, hflush] at hσ
      cases hσ
    · rw [hth] at hσ
      obtain rfl := (hr.exclusive n).eq_of_mem (Thread.locks_of_flushing hσ)
        (Thread.locks_of_flushing (x := x) (t := (s.process n).thread τ)
          (by simp [ht, Thread.flushing]))
      simp only [Network.apply_process, upd₁_apply, if_true] at hth
      rw [← hth, hflush] at hσ
      cases hσ

/-- Whatever else a thread has to write from now on is for other addresses than a proxy's target. -/
theorem Reachable.lane_new (hr : Reachable T s)
    (hx : s.port ⟨n, x⟩ = some ⟨p, .proxying a⟩)
    (harr : o.process.arrivals x = (s.process n).arrivals x)
    (hdrain : ∀ k, (s.process n).thread τ ≠ .draining x k) {new : List (Address × Payload)}
    (hnew : ∀ l ∈ new, Process.Move.Heading (s.process n) τ o l.1) : lane a new = [] := by
  have hs := hr.sound
  have hlink : s.ports.Next ⟨n, x⟩ a := .proxy hx
  refine lane_eq_nil.2 fun l hl haddr => ?_
  have target : ∀ {y f}, (s.process n).localEndpoints.find y = some f →
      f.state = .kUnboundAndProxying → f.proxyTarget = a → y = x := by
    intro y f hf hfq hfa
    have hy : s.port ⟨n, y⟩ = some ⟨f.peerAddress, .proxying a⟩ :=
      Network.port_eq_proxying.2 ⟨f, hf, rfl, hfq, hfa⟩
    simpa using hs.ports.links.inj _ _ _ (.proxy hy) hlink
  have hhead := hnew l hl
  rw [haddr] at hhead
  cases hhead with
  | @peer y f hf =>
    exact hs.ports.links.not_peer hs.ports.names hlink ⟨n, y⟩
      (by simp [Ports.peer, Network.port, hf, Endpoint.port])
  | arriving hf hfq hne => exact hne (target hf hfq rfl ▸ harr)
  | @drained y f k ht hf =>
    have htidy := hs.tidy.threads n τ
    rw [ht] at htidy
    obtain ⟨f', hf', hfq⟩ := htidy
    rw [hf, Option.some.injEq] at hf'
    exact hdrain k (target hf (hf' ▸ hfq) rfl ▸ ht)
  | taken ht hf => exact hr.unaimed_taken ht hf (.inr ⟨x, p, hx⟩)

/-- One step of any thread: what arrived at `x` is passed on in order, if the thread does not write
    a message that arrived late while another thread has older ones. -/
theorem Act.passed (ha : Act T s n τ c o) (hr : Reachable T s)
    (hx : s.port ⟨n, x⟩ = some ⟨p, .proxying a⟩) (h : s.Passed n x a)
    (hturn : ∀ k m, o.written = some (k, .userMessage m) → (⟨k, m.targetEndpoint⟩ : Address) = a →
      ((s.process n).thread τ).passing = some x → ∀ σ, σ ≠ τ → s.box n a σ = []) :
    (s.apply n o).Passed n x a := by
  have hs := hr.sound
  obtain ⟨e, he, -, hq, -⟩ := Network.port_eq_proxying.1 hx
  rcases ha.move.letters_new ha.idle with ⟨k, m, hw⟩ | ⟨new, hletters, hpass, hnew⟩
  · exact ha.passed_write hr hx h hw (hturn k m hw)
  by_cases harr : o.process.arrivals x = (s.process n).arrivals x
  swap
  · exact ha.passed_arrival hr hx h harr
  by_cases hdrain : ∃ k, (s.process n).thread τ = .draining x k
  · obtain ⟨k, ht⟩ := hdrain
    exact ha.passed_drain hr hx h ht
  have hlane := hr.lane_new hx harr (fun k hk => hdrain ⟨k, hk⟩) hnew
  have hlanes : (s.apply n o).box n a τ = s.box n a τ := by
    rw [Network.box_apply, hletters, lane_append, hlane, List.append_nil, Network.box]
  have hbox : ∀ σ, (s.apply n o).box n a σ = s.box n a σ := by
    intro σ
    by_cases hσ : σ = τ
    · rw [hσ, hlanes]
    · exact ha.box_other hσ a
  have hw : ∀ k m, o.written ≠ some (k, .userMessage m) := by
    intro k m hw
    obtain ⟨t, -, -, hcons⟩ := ha.move.letter_written (hs.tidy.threads n τ) hw
    rw [hletters] at hcons
    have := congrArg List.length hcons
    simp at this
    omega
  refine ⟨?_, fun hf σ => ?_⟩
  · have : Carried ((s.apply n o).box n a)
        (fun σ => (((s.apply n o).process n).thread σ).passing = some x) _ _ _ :=
      h.carried.congr hbox fun σ hne hσ => ?_
    · rw [Network.written_apply_none a hw]
      simpa [harr, ha.move.queued_proxy he hq fun k hk => hdrain ⟨k, hk⟩] using this
    · rcases ha.thread_apply n σ with ⟨-, rfl, hth⟩ | hth
      · rw [hth, hpass fun hnil => hne (by rw [Network.box, hnil]; rfl)]
        exact hσ
      · rw [hth]
        exact hσ
  · rw [hbox]
    exact h.flushing (ha.flushing_kept he hq (by simpa using hf)) σ

/-- Nothing goes yet to the target of an endpoint that becomes a proxy. -/
theorem Process.Move.Becomes.unaimed (hr : Reachable T s) {e e' : Endpoint}
    (he : (s.process n).localEndpoints.find x = some e) (hq : e.state = .kUnboundAndQueueing)
    (h : Becomes (s.process n) τ s.supply o x e e') : ¬ s.ports.Aimed n e'.proxyTarget := by
  have hs := hr.sound
  have hlinks := hs.ports.links
  cases h with
  | moved ht hf ha =>
    rw [ha]
    exact hr.unaimed_taken ht hf
  | forwarded hn ha =>
    rw [ha]
    exact hlinks.unaimed (Links.free_of_supply hs.ports.names hn) n
  | @reserved t k g ht ha =>
    have hsound := hs.handshake.threads n τ
    rw [ht] at hsound
    obtain ⟨-, -, -, y, hpair, hg⟩ := hsound
    have hnext : s.ports.Next ⟨n, x⟩ ⟨k, g⟩ :=
      .stand (P := .hand n τ) (h := ⟨n, y⟩) (by simp [Network.tokens, ht, Thread.tokens])
        (Network.ports_peer.trans hg) (Network.ports_peer.trans hpair.1)
    rw [ha]
    rintro (⟨z, hz⟩ | ⟨z, p, hz⟩)
    · exact hlinks.not_peer hs.ports.names hnext z hz
    · obtain rfl : x = z := by simpa using hlinks.inj _ _ _ hnext (.proxy hz)
      obtain ⟨f, hf, -, hfq, -⟩ := Network.port_eq_proxying.1 hz
      rw [he, Option.some.injEq] at hf
      rw [hf, hfq] at hq
      cases hq

/-- Nobody has anything to write there either. -/
theorem Process.Move.Becomes.box_nil (hr : Reachable T s) {e e' : Endpoint}
    (he : (s.process n).localEndpoints.find x = some e) (hq : e.state = .kUnboundAndQueueing)
    (h : Becomes (s.process n) τ s.supply o x e e') (σ : ThreadId) :
    s.box n e'.proxyTarget σ = [] :=
  lane_eq_nil.2 fun l hl hla => h.unaimed hr he hq (hla ▸ hr.addressed.hand n σ l hl)

/-- An endpoint becomes a proxy: nothing went to its target before. -/
theorem Act.passed_new (ha : Act T s n τ c o) (hr : Reachable T s)
    (hx : (s.apply n o).port ⟨n, x⟩ = some ⟨p, .proxying a⟩)
    (hnot : s.port ⟨n, x⟩ ≠ some ⟨p, .proxying a⟩) : (s.apply n o).Passed n x a := by
  obtain ⟨e', he', rfl, hq', rfl⟩ := Network.port_eq_proxying.1 hx
  simp only [Network.apply_process, upd₁_apply, if_true] at he'
  rcases ha.move.becomes he' hq' with ⟨e, he, hp, hq, ht⟩ | ⟨e, he, hq, harr, hw, hb⟩
  · exact absurd (Network.port_eq_proxying.2 ⟨e, he, hp, hq, ht⟩) hnot
  have hun := hb.unaimed hr he hq
  have hbox := hb.box_nil hr he hq
  have hwritten : (s.apply n o).written n e'.proxyTarget = [] := by
    rw [Network.written_apply_none _ (by simp [hw])]
    exact lane_eq_nil.2 fun l hl hla => hun (hla ▸ hr.addressed.wire _ _ l hl)
  have hstock := (hr.untouched.stock n).stocked x e he
  have hqueue : (s.process n).arrivals x = e.incomingMessageQueue.map Message.payload := by
    simpa [hstock.unbound (by simp [hq])] using hstock.live (by simp [hq])
  have kept : (o.process.thread τ).letters = ((s.process n).thread τ).letters →
      o.process.queued x = e.incomingMessageQueue → (s.apply n o).Passed n x e'.proxyTarget := by
    intro hl hq
    have hbox' : ∀ σ, (s.apply n o).box n e'.proxyTarget σ = [] := by
      intro σ
      by_cases hσ : σ = τ
      · rw [hσ, Network.box_apply, hl]
        exact hbox τ
      · rw [ha.box_other hσ, hbox]
    refine ⟨?_, fun _ => hbox'⟩
    have : Carried _ (fun σ => (((s.apply n o).process n).thread σ).passing = some x)
        ([] ++ e.incomingMessageQueue.map Message.payload) _ _ := Carried.idle hbox'
    simpa [hwritten, hq, harr, hqueue] using this
  cases hb with
  | forwarded _ _ hl hq => exact kept hl hq
  | reserved _ _ hl hq => exact kept hl hq
  | moved ht _ ht' hl hq hf hlock =>
    refine ⟨?_, fun ⟨σ, hσ⟩ => ?_⟩
    · have : Carried ((s.apply n o).box n e'.proxyTarget)
          (fun σ => (((s.apply n o).process n).thread σ).passing = some x)
          ([] ++ e.incomingMessageQueue.map Message.payload) _ _ :=
        Carried.pickAll hbox (i := τ) ?_
        fun σ hσ => ha.box_other hσ _
      · simpa [hwritten, hq, harr, hqueue] using this
      · rw [Network.box_apply, hl, lane_append, lane_map, if_pos rfl]
        have := hbox τ
        rw [Network.box] at this
        rw [this, List.nil_append]
    · have hσ : (o.process.thread σ).flushing = some x := by simpa using hσ
      obtain rfl := (ha.move.exclusive ha.idle (hr.exclusive n)).eq_of_mem
        (Thread.locks_of_flushing hσ) hlock
      rw [hf] at hσ
      cases hσ

theorem Receipt.box {k : Identifier} {channel : Channel} {m : ChannelMessage}
    {rest : List ChannelMessage} (hc : Receipt T s k channel m rest) (σ : ThreadId) :
    (s.consume k channel m rest).box n a σ = s.box n a σ := by
  rw [Network.box, Network.box]
  rcases Receipt.thread_consume s k channel m rest n σ with ⟨rfl, rfl, hth⟩ | hth
  · rw [hth, hc.idle]
    cases m <;> rfl
  · rw [hth]

/-- A receipt changes nothing of what is passed on. -/
theorem Network.Passed.receipt (h : s.Passed n x a) {k : Identifier} {channel : Channel}
    {m : ChannelMessage} {rest : List ChannelMessage} (hc : Receipt T s k channel m rest) :
    (s.consume k channel m rest).Passed n x a := by
  have hcore : ((s.consume k channel m rest).process n).toCore = (s.process n).toCore ∧
      ((s.consume k channel m rest).process n).arrivals = (s.process n).arrivals := by
    by_cases hk : n = k
    · subst hk
      simp
    · simp [hk]
  have hread : (Process.onReceivedMessage m).flushing = none := by
    cases m <;> simp [Process.onReceivedMessage, Thread.flushing]
  refine ⟨?_, fun hf ρ => ?_⟩
  · rw [hcore.1, hcore.2, Network.written, Network.transmitted_consume hc]
    refine h.carried.congr hc.box fun σ hne hσ => ?_
    rcases Receipt.thread_consume s k channel m rest n σ with ⟨rfl, rfl, -⟩ | hth
    · rw [hc.idle] at hσ
      cases hσ
    · rwa [hth]
  · obtain ⟨σ, hσ⟩ := hf
    rw [hc.box]
    rcases Receipt.thread_consume s k channel m rest n σ with ⟨rfl, rfl, hth⟩ | hth
    · rw [hth, hread] at hσ
      cases hσ
    · exact h.flushing ⟨σ, hth ▸ hσ⟩ ρ

/-- The acts of other nodes do not matter. -/
theorem Network.Passed.away (h : s.Passed n x a) {k : Identifier} (hk : n ≠ k) :
    (s.apply k o).Passed n x a := by
  have hp : (s.apply k o).process n = s.process n := by simp [hk]
  have hw : (s.apply k o).written n a = s.written n a := by
    rw [Network.written, Network.transmitted_apply]
    cases o.written <;> simp [hk, Network.written]
  have hbox : ∀ σ, (s.apply k o).box n a σ = s.box n a σ := fun σ => by simp [Network.box, hk]
  refine ⟨?_, fun hf σ => ?_⟩
  · rw [hp, hw]
    exact h.carried.congr hbox fun _ _ => id
  · rw [hbox]
    exact h.flushing (hp ▸ hf) σ

end

end Mage
