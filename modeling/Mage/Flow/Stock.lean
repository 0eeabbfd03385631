import Mage.Flow.Letters

/-! What an endpoint still has of what arrived at it. A live endpoint has all of it, posted or queued;
    a proxy has nothing, except while the acceptance of an invitation is being settled. An endpoint
    that was just re-created from a descriptor is known to nobody, so nothing has arrived at it. -/

namespace Mage
open Lib

/-- The reserved endpoint that a thread has made a proxy and not yet drained. -/
def Thread.flushing : Thread → Option Identifier
  | .rekeying r _ _ => some r
  | .draining r _ => some r
  | _ => none

def Process.Flushing (p : Process) (x : Identifier) : Prop := ∃ τ, (p.thread τ).flushing = some x

/-- What endpoint `e` has of the messages that `arrived` at it. -/
structure Endpoint.Stocked (e : Endpoint) (arrived : List Payload) (flushing : Prop) : Prop where
  bound : e.state = .kBound → e.incomingMessageQueue = []
  unbound : e.state ≠ .kBound → e.posted = []
  live : e.state ≠ .kUnboundAndProxying →
    arrived = (e.posted ++ e.incomingMessageQueue).map Message.payload
  proxying : e.state = .kUnboundAndProxying → e.incomingMessageQueue = [] ∨ flushing

structure Process.Stock (p : Process) : Prop where
  absent : ∀ x, p.localEndpoints.find x = none → p.arrivals x = []
  stocked : ∀ x e, p.localEndpoints.find x = some e → e.Stocked (p.arrivals x) (p.Flushing x)

theorem Endpoint.Stocked.new (x : Identifier) (a : Address) (f : Prop) :
    (Endpoint.new x a).Stocked [] f :=
  ⟨fun _ => rfl, fun _ => rfl, fun _ => rfl, fun _ => .inl rfl⟩

theorem Endpoint.Stocked.accept {e e' : Endpoint} {m : Message} {l : List Payload} {f f' : Prop}
    (h : e.Stocked l f) (ha : e.acceptMessage m = .ok e') : e'.Stocked (l ++ [m.payload]) f' := by
  rcases Endpoint.acceptMessage_eq ha with ⟨hq, -, rfl⟩ | ⟨hb, -, rfl⟩
  · refine ⟨fun hb => ?_, h.unbound, fun hne => ?_, fun hp => ?_⟩
    · simp [hq] at hb
    · simp [h.live hne]
    · simp [hq] at hp
  · refine ⟨h.bound, fun hne => absurd hb hne, fun hne => ?_, fun hp => ?_⟩
    · simp [h.live hne, h.bound hb]
    · simp [hb] at hp

namespace Process.Stock
variable {p p' : Process}

theorem same (hp : p.Stock) (he : p'.localEndpoints = p.localEndpoints)
    (ha : p'.arrivals = p.arrivals) (hf : ∀ x, p.Flushing x → p'.Flushing x) : p'.Stock where
  absent x hx := by
    rw [ha]
    exact hp.absent x (he ▸ hx)
  stocked x e hx := by
    obtain ⟨h1, h2, h3, h4⟩ := hp.stocked x e (he ▸ hx)
    exact ⟨h1, h2, ha ▸ h3, fun hq => (h4 hq).imp_right (hf x)⟩

/-- One endpoint is written. -/
theorem write {x : Identifier} {e : Endpoint} (hp : p.Stock)
    (he : p'.localEndpoints = p.localEndpoints.set x e)
    (ha : ∀ y, y ≠ x → p'.arrivals y = p.arrivals y)
    (hf : ∀ y, y ≠ x → p.Flushing y → p'.Flushing y)
    (hx : e.Stocked (p'.arrivals x) (p'.Flushing x)) : p'.Stock where
  absent y hy := by
    rw [he, Table.find_set] at hy
    split_ifs at hy with hyx
    rw [ha y hyx]
    exact hp.absent y hy
  stocked y f hy := by
    rw [he, Table.find_set] at hy
    split_ifs at hy with hyx
    · cases hy
      exact hyx ▸ hx
    · obtain ⟨h1, h2, h3, h4⟩ := hp.stocked y f hy
      exact ⟨h1, h2, ha y hyx ▸ h3, fun hq => (h4 hq).imp_right (hf y hyx)⟩

/-- An arrival at a proxy is recorded there only. -/
theorem passOn {x : Identifier} {e : Endpoint} {l : List Payload} (hp : p.Stock)
    (hx : p.localEndpoints.find x = some e) (hq : e.state = .kUnboundAndProxying)
    (he : p'.localEndpoints = p.localEndpoints) (ha : p'.arrivals = upd₁ p.arrivals x l)
    (hf : ∀ x, p.Flushing x → p'.Flushing x) : p'.Stock where
  absent y hy := by
    have hyx : y ≠ x := by
      rintro rfl
      rw [he, hx] at hy
      cases hy
    rw [ha, upd₁_apply, if_neg hyx]
    exact hp.absent y (he ▸ hy)
  stocked y f hy := by
    obtain ⟨h1, h2, h3, h4⟩ := hp.stocked y f (he ▸ hy)
    refine ⟨h1, h2, fun hne => ?_, fun hq => (h4 hq).imp_right (hf y)⟩
    have hyx : y ≠ x := by
      rintro rfl
      rw [he, hx] at hy
      cases hy
      exact hne hq
    rw [ha, upd₁_apply, if_neg hyx]
    exact h3 hne

end Process.Stock

namespace Process.Move
variable {p : Process} {τ : ThreadId} {supply : List Identifier} {c : Option Call} {o : Outcome}

theorem flushing (h : p.Move τ supply c o) (hi : c.isSome → p.thread τ = .idle) {x : Identifier}
    (hx : p.Flushing x) (hne : ∀ channel, p.thread τ ≠ .draining x channel) :
    o.process.Flushing x := by
  obtain ⟨σ, hσ⟩ := hx
  refine ⟨σ, ?_⟩
  by_cases hστ : σ = τ
  · subst hστ
    cases h with
    | rekey h1 => simpa [h1, Thread.flushing] using hσ
    | drain h1 =>
      rw [h1, Thread.flushing, Option.some.injEq] at hσ
      exact absurd h1 (hσ ▸ hne _)
    | createMessagePipes | bindReceiver | acceptInvitation | sendMessage | sendInvitation =>
      rw [hi rfl] at hσ
      cases hσ
    | _ => simp_all [Thread.flushing]
  · rw [h.thread_other hστ]
    exact hσ

theorem stock {T : Topology} {n : Identifier} (h : p.Move τ supply c o)
    (hi : c.isSome → p.thread τ = .idle) (hp : p.Stock) (htidy : (p.thread τ).Tidy T n p)
    (hnew : ∀ x n m done d ds, p.thread τ = .forwarding x n m done (d :: ds) →
      p.arrivals d.crossNodeEndpointName = []) : o.process.Stock := by
  have hflush : ∀ x, (∀ channel, p.thread τ ≠ .draining x channel) →
      p.Flushing x → o.process.Flushing x := fun x hne hx => h.flushing hi hx hne
  have created : ∀ {p₁ q : Process} {x : Identifier} {a : Address}, p₁.Stock →
      p₁.localEndpoints.find x = none → q.localEndpoints = p₁.localEndpoints.set x (.new x a) →
      q.arrivals = p₁.arrivals → (∀ y, p₁.Flushing y → q.Flushing y) → q.Stock := by
    intro p₁ q x a h₁ hx he ha hf
    refine h₁.write he (fun y _ => by rw [ha]) (fun y _ => hf y) ?_
    rw [ha, h₁.absent x hx]
    exact .new x a _
  cases h with
  | createMessagePipes _ hx hy hxy =>
    refine created (created hp hx (q := p.enroll _ _) rfl rfl fun _ hz => hz) ?_ rfl rfl
      fun _ hz => hz
    simp [hxy.symm, hy]
  | @invite channel x y rest ht _ hx hy hxy =>
    refine created (created hp hx (q := p.enroll _ _) rfl rfl fun _ hz => hz) ?_ rfl rfl
      fun z hz => hflush z (by simp [ht]) hz
    simp [hxy.symm, hy]
  | @recover x m d done ds ht hd =>
    exact created hp hd rfl rfl fun y hy => hflush y (by simp [ht]) hy
  | @accept i t x name rest ht =>
    cases hn : p.localEndpoints.find name with
    | none =>
      exact created hp hn (Table.insert_of_absent hn _) rfl fun y hy => hflush y (by simp [ht]) hy
    | some e =>
      refine hp.same ?_ rfl fun y hy => hflush y (by simp [ht]) hy
      change p.localEndpoints.insert name _ = _
      rw [Table.insert, hn]
  | @bindReceiver _ _ _ x e _ he _ hq =>
    have hx := hp.stocked x e he
    refine hp.write rfl (fun _ _ => rfl) (fun y _ hy => hflush y (by simp [hi rfl]) hy)
      ⟨fun _ => rfl, fun hne => absurd rfl hne, fun _ => ?_, fun hne => (by cases hne)⟩
    simpa using hx.live (by simp [hq])
  | @deliver x m e e' pipes ht he _ _ ha =>
    refine hp.write rfl (fun y hy => by simp [hy]) (fun y _ hy => hflush y (by simp [ht]) hy) ?_
    simpa using (hp.stocked x e he).accept ha
  | @dispatch x m done e e' ht he ha =>
    refine hp.write rfl (fun y hy => by simp [hy]) (fun y _ hy => hflush y (by simp [ht]) hy) ?_
    simpa using (hp.stocked x e he).accept ha
  | deliverToProxy ht he _ hq => exact hp.passOn he hq rfl rfl fun y hy => hflush y (by simp [ht]) hy
  | relay ht he hq => exact hp.passOn he hq rfl rfl fun y hy => hflush y (by simp [ht]) hy
  | @take b m done ds d e ht he _ _ hq =>
    have hx := hp.stocked d.endpointName e he
    refine hp.write rfl (fun _ _ => rfl) (fun y _ hy => hflush y (by simp [ht]) hy)
      ⟨fun _ => rfl, fun _ => hx.unbound (by simp [hq]), fun hne => absurd rfl hne,
        fun _ => .inl rfl⟩
  | @reserve t n x r e ht he _ hq =>
    have hx := hp.stocked r e he
    refine hp.write rfl (fun _ _ => rfl) (fun y _ hy => hflush y (by simp [ht]) hy)
      ⟨fun hb => (by cases hb), fun _ => hx.unbound (by simp [hq]), fun hne => absurd rfl hne,
        fun _ => .inr ⟨τ, by simp [Thread.flushing]⟩⟩
  | @forward x n name m done ds d rest e ht _ he hq =>
    have hx := hp.stocked d.crossNodeEndpointName e he
    have hl := hx.live (by simp [hq])
    rw [hnew x n m done d ds ht] at hl
    have hnil : e.posted ++ e.incomingMessageQueue = [] := List.map_eq_nil_iff.1 hl.symm
    refine hp.write rfl (fun _ _ => rfl) (fun y _ hy => hflush y (by simp [ht]) hy)
      ⟨fun hb => (by cases hb), fun _ => hx.unbound (by simp [hq]), fun hne => absurd rfl hne,
        fun _ => .inl (List.append_eq_nil_iff.1 hnil).2⟩
  | @drain r channel e ht he =>
    have hx := hp.stocked r e he
    rw [ht] at htidy
    obtain ⟨e', he', hq⟩ := htidy
    rw [he, Option.some.injEq] at he'
    subst he'
    refine hp.write rfl (fun _ _ => rfl) (fun y hy hf => hflush y (fun k hk => ?_) hf)
      ⟨fun _ => rfl, hx.unbound, fun hne => absurd hq hne, fun _ => .inl rfl⟩
    rw [ht] at hk
    cases hk
    exact hy rfl
  | _ => exact hp.same rfl rfl fun y hy => hflush y (by simp_all) hy

/-- Only deliveries count as arrivals. -/
theorem arrivals (h : p.Move τ supply c o) {y : Identifier}
    (hne : o.process.arrivals y ≠ p.arrivals y) : (∃ m, p.thread τ = .delivering y m) ∨
    ∃ m done, p.thread τ = .recovering y m done [] := by
  have other : ∀ {x : Identifier} {l : List Payload}, o.process.arrivals = upd₁ p.arrivals x l →
      y = x := by
    intro x l hl
    by_contra hyx
    exact hne (by rw [hl, upd₁_apply, if_neg hyx])
  cases h with
  | deliverToProxy ht | deliver ht => exact .inl ⟨_, other rfl ▸ ht⟩
  | relay ht | dispatch ht => exact .inr ⟨_, _, other rfl ▸ ht⟩
  | _ => exact absurd rfl hne

end Process.Move

/-! ### Endpoints that nobody knows of yet -/

/-- The descriptors whose endpoints a thread has re-created, while it still has them. -/
def Thread.recovered : Thread → List EndpointDescriptor
  | .recovering _ _ done _ => done
  | .forwarding _ _ _ _ rest => rest
  | _ => []

structure Untouched (s : Network) : Prop where
  stock : ∀ n, (s.process n).Stock
  delivering : ∀ n τ x m, (s.process n).thread τ = .delivering x m →
    ∃ y, s.ports.peer y = some ⟨n, x⟩
  target : ∀ n τ x m done rest, (s.process n).thread τ = .recovering x m done rest →
    (s.process n).localEndpoints.find x ≠ none ∧ ∀ d ∈ done, d.crossNodeEndpointName ≠ x
  recovered : ∀ n τ, ∀ d ∈ ((s.process n).thread τ).recovered,
    (∃ b p, s.port b = some ⟨p, .proxying ⟨n, d.crossNodeEndpointName⟩⟩) ∧
    (s.process n).arrivals d.crossNodeEndpointName = []

namespace Process.Move
variable {p : Process} {τ : ThreadId} {supply : List Identifier} {c : Option Call} {o : Outcome}

theorem recovered {T : Topology} {n : Identifier} (h : p.Move τ supply c o)
    (ht : (p.thread τ).Tidy T n p) {d : EndpointDescriptor}
    (hd : d ∈ (o.process.thread τ).recovered) : d ∈ (p.thread τ).recovered ∨
    ∃ x m done ds, p.thread τ = .recovering x m done (d :: ds) ∧
      p.localEndpoints.find d.crossNodeEndpointName = none := by
  cases h with
  | createMessagePipes | bindReceiver | acceptInvitation => exact .inl hd
  | @recover x m d' done ds h1 hnew =>
    simp only [goto_thread, upd₁_apply, if_true, Thread.recovered, List.mem_append,
      List.mem_singleton] at hd
    rcases hd with hd | rfl
    · rw [h1]
      exact .inl hd
    · exact .inr ⟨x, m, done, ds, h1, hnew⟩
  | @relay x m done e h1 =>
    rw [h1] at ht ⊢
    simp only [goto_thread, upd₁_apply, if_true, Thread.recovered, ht.1, List.append_nil] at hd
    exact .inl hd
  | @forward x k name m done ds d' rest e h1 =>
    rw [h1]
    simp only [goto_thread, upd₁_apply, if_true, Thread.recovered] at hd
    exact .inl (List.mem_cons_of_mem _ hd)
  | _ => simp [Thread.recovered] at hd

/-- A message goes to an endpoint of the same node as the peer of another. -/
theorem delivering (h : p.Move τ supply c o) {x : Identifier} {m : Message}
    (ht : o.process.thread τ = .delivering x m) : p.thread τ = .delivering x m ∨
    ∃ y e, p.localEndpoints.find y = some e ∧ e.peerAddress.endpointName = x ∧
      p.localEndpoints.find x ≠ none := by
  cases h with
  | createMessagePipes | bindReceiver | acceptInvitation => exact .inl ht
  | @routeLocal y m' e peer h1 he hp =>
    simp only [goto_thread, upd₁_apply, if_true, Thread.delivering.injEq] at ht
    obtain ⟨rfl, -⟩ := ht
    exact .inr ⟨y, e, he, rfl, by simp [hp]⟩
  | _ => simp at ht

theorem target (h : p.Move τ supply c o) {x : Identifier} {m : Message}
    {done rest : List EndpointDescriptor} (ht : o.process.thread τ = .recovering x m done rest) :
    (p.localEndpoints.find x ≠ none ∧ done = []) ∨
    ∃ m' done' rest', p.thread τ = .recovering x m' done' rest' ∧ ∀ d ∈ done, d ∈ done' ∨
      p.localEndpoints.find d.crossNodeEndpointName = none := by
  cases h with
  | createMessagePipes | bindReceiver | acceptInvitation =>
    exact .inr ⟨m, done, rest, ht, fun d hd => .inl hd⟩
  | receive h1 he =>
    simp only [goto_thread, upd₁_apply, if_true, Thread.recovering.injEq] at ht
    obtain ⟨rfl, -, rfl, -⟩ := ht
    exact .inl ⟨by simp [he], rfl⟩
  | @recover y m' d' done' ds h1 hnew =>
    simp only [goto_thread, upd₁_apply, if_true, Thread.recovering.injEq] at ht
    obtain ⟨rfl, -, rfl, -⟩ := ht
    refine .inr ⟨_, _, _, h1, fun d hd => ?_⟩
    rcases List.mem_append.1 hd with hd | hd
    · exact .inl hd
    · exact .inr (List.mem_singleton.1 hd ▸ hnew)
  | _ => simp at ht

end Process.Move

namespace Untouched
variable {T : Topology} {s : Network} {n : Identifier} {τ : ThreadId} {c : Option Call} {o : Outcome}

theorem initial (T : Topology) : Untouched (.initial T) where
  stock n := ⟨fun _ _ => rfl, fun x e hx => (by cases hx)⟩
  delivering n τ x m ht := by cases ht
  target n τ x m done rest ht := by cases ht
  recovered n τ d hd := by cases hd

/-- An act delivers nothing to an endpoint that a thread has just re-created. -/
theorem kept (h : Untouched s) (hr : Reachable T s) (ha : Act T s n τ c o) {σ : ThreadId}
    {d : EndpointDescriptor} (hd : d ∈ ((s.process n).thread σ).recovered) :
    o.process.arrivals d.crossNodeEndpointName = [] := by
  obtain ⟨⟨b, p, hb⟩, harr⟩ := h.recovered n σ d hd
  by_contra hne
  rcases ha.move.arrivals (fun heq => hne (heq.trans harr)) with ⟨m, ht⟩ | ⟨m, done, ht⟩
  · obtain ⟨y, hy⟩ := h.delivering n τ _ m ht
    exact hr.sound.ports.links.not_peer hr.sound.ports.names (.proxy hb) y hy
  · have hio : ∀ k, ((s.process n).thread (.user k)).ioOnly = false := (hr.channels n).ioOnly
    have hσ : σ = .io := by
      cases σ with
      | io => rfl
      | user k =>
        have := hio k
        cases hth : (s.process n).thread (.user k) <;> simp_all [Thread.recovered, Thread.ioOnly]
    have hτ : τ = .io := by
      cases τ with
      | io => rfl
      | user k => exact absurd (hio k) (by simp [ht, Thread.ioOnly])
    subst hσ hτ
    rw [ht] at hd
    exact (h.target n .io _ m done [] ht).2 d hd rfl

theorem act (h : Untouched s) (hr : Reachable T s) (ha : Act T s n τ c o) :
    Untouched (s.apply n o) := by
  have hs := hr.sound
  have hg := ha.grows hr
  have hproxy : ∀ {a b : Address} {p : Address}, s.port b = some ⟨p, .proxying a⟩ →
      ∃ b p, (s.apply n o).port b = some ⟨p, .proxying a⟩ := by
    intro a b p hb
    obtain ⟨⟨p', st⟩, hb', -, hst⟩ := hg b _ hb
    obtain rfl := hst a rfl
    exact ⟨b, p', hb'⟩
  refine ⟨fun k => ?_, fun k σ x m ht => ?_, fun k σ x m done rest ht => ?_, fun k σ d hd => ?_⟩
  · by_cases hk : k = n
    · subst hk
      rw [Network.apply_process, upd₁_apply, if_pos rfl]
      refine ha.move.stock ha.idle (h.stock k) (hs.tidy.threads k τ) fun x t m done d ds ht => ?_
      exact (h.recovered k τ d (by simp [ht, Thread.recovered])).2
    · simpa [hk] using h.stock k
  · rcases ha.thread_apply k σ with ⟨rfl, rfl, hth⟩ | hth
    · rw [hth] at ht
      rcases ha.move.delivering ht with ht | ⟨y, e, he, rfl, hx⟩
      · obtain ⟨y, hy⟩ := h.delivering k σ x m ht
        exact ⟨y, hg.peer hy⟩
      · have hpeer : s.ports.peer ⟨k, y⟩ = some e.peerAddress := by
          simp [Ports.peer, Network.port, he, Endpoint.port]
        obtain ⟨q, hq, -⟩ := hs.ports.links.mate _ _ (.port hpeer)
        have hnode := hs.ports.names.unique k e.peerAddress.nodeName e.peerAddress.endpointName
          (Network.port_ne_none.2 hx) fun hnone => by simp [Ports.peer, hnone] at hq
        refine ⟨⟨k, y⟩, hg.peer (hpeer.trans ?_)⟩
        rw [hnode]
    · obtain ⟨y, hy⟩ := h.delivering k σ x m (hth ▸ ht)
      exact ⟨y, hg.peer hy⟩
  · have later : ∀ x, (s.process k).localEndpoints.find x ≠ none →
        ((s.apply n o).process k).localEndpoints.find x ≠ none := fun x hx =>
      Network.port_ne_none.1 (hg.ne_none (Network.port_ne_none.2 hx))
    rcases ha.thread_apply k σ with ⟨rfl, rfl, hth⟩ | hth
    · rw [hth] at ht
      rcases ha.move.target ht with ⟨hx, rfl⟩ | ⟨m', done', rest', ht', hdone⟩
      · exact ⟨later x hx, by simp⟩
      · obtain ⟨hx, hne⟩ := h.target k σ x m' done' rest' ht'
        refine ⟨later x hx, fun d hd hdx => ?_⟩
        rcases hdone d hd with hd | hnew
        · exact hne d hd hdx
        · exact hx (hdx ▸ hnew)
    · obtain ⟨hx, hne⟩ := h.target k σ x m done rest (hth ▸ ht)
      exact ⟨later x hx, hne⟩
  · rcases ha.thread_apply k σ with ⟨rfl, rfl, hth⟩ | hth
    · rw [hth] at hd
      rcases ha.move.recovered (hs.tidy.threads k σ) hd with hold | ⟨x, m, done, ds, ht, hnew⟩
      · obtain ⟨⟨b, p, hb⟩, -⟩ := h.recovered k σ d hold
        exact ⟨hproxy hb, by simpa using h.kept hr ha hold⟩
      · have htok : Token.crossing k d ∈ s.ports.tokens (.hand k σ) := by
          simp [Network.tokens, ht, Thread.tokens]
        obtain ⟨n', -, -, -, hport⟩ := hs.ports.names.ok _ _ htok
        refine ⟨hproxy hport, ?_⟩
        have harr := (h.stock k).absent _ hnew
        by_contra hne
        rcases ha.move.arrivals (y := d.crossNodeEndpointName) (by simpa [harr] using hne) with
          ⟨m', ht'⟩ | ⟨m', done', ht'⟩
        · rw [ht] at ht'
          cases ht'
        · rw [ht] at ht'
          cases ht'
    · obtain ⟨⟨b, p, hb⟩, harr⟩ := h.recovered k σ d (hth ▸ hd)
      refine ⟨hproxy hb, ?_⟩
      by_cases hk : k = n
      · subst hk
        simpa using h.kept hr ha (hth ▸ hd)
      · simpa [hk] using harr

theorem receipt {channel : Channel} {m : ChannelMessage} {rest : List ChannelMessage}
    (h : Untouched s) (hc : Receipt T s n channel m rest) :
    Untouched (s.consume n channel m rest) := by
  have hcore : ∀ k, ((s.consume n channel m rest).process k).toCore = (s.process k).toCore :=
    fun k => (Handshake.core_consume k).1
  have harr : ∀ k, ((s.consume n channel m rest).process k).arrivals = (s.process k).arrivals := by
    intro k
    by_cases hk : k = n
    · subst hk
      simp
    · simp [hk]
  refine ⟨fun k => ?_, fun k σ x m' ht => ?_, fun k σ x m' done rest' ht => ?_, fun k σ d hd => ?_⟩
  · refine (h.stock k).same (by rw [hcore]) (harr k) fun x hx => ?_
    obtain ⟨σ, hσ⟩ := hx
    refine ⟨σ, ?_⟩
    rcases Receipt.thread_consume s n channel m rest k σ with ⟨rfl, rfl, -⟩ | hth
    · rw [hc.idle] at hσ
      cases hσ
    · rwa [hth]
  · rcases Receipt.thread_consume s n channel m rest k σ with ⟨rfl, rfl, hth⟩ | hth
    · rw [hth] at ht
      cases m <;> cases ht
    · obtain ⟨y, hy⟩ := h.delivering k σ x m' (hth ▸ ht)
      exact ⟨y, by simpa [Ports.peer, Network.port_consume] using hy⟩
  · rw [hcore]
    rcases Receipt.thread_consume s n channel m rest k σ with ⟨rfl, rfl, hth⟩ | hth
    · rw [hth] at ht
      cases m <;> cases ht
    · exact h.target k σ x m' done rest' (hth ▸ ht)
  · rw [harr, Network.port_consume]
    rcases Receipt.thread_consume s n channel m rest k σ with ⟨rfl, rfl, hth⟩ | hth
    · rw [hth] at hd
      cases m <;> cases hd
    · exact h.recovered k σ d (hth ▸ hd)

end Untouched

theorem Reachable.untouched {T : Topology} {s : Network} (h : Reachable T s) : Untouched s :=
  h.induct (.initial T) (fun _ _ _ _ _ hr hs ha => hs.act hr ha) fun _ _ _ _ _ _ hs hc =>
    hs.receipt hc

end Mage
