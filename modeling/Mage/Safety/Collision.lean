import Mage.Model.Execution
import Mage.Model.Faults
import Mage.Ports.Refine

/-! Recovered endpoints never collide. The name that a descriptor on its way to a node will be
    registered under is registered nowhere and travels nowhere else; every other registration takes
    a name that was just drawn. So no name is registered twice, and `Node::RegisterEndpoint` never
    aborts. -/

namespace Mage
open Lib

/-- The header descriptor array of a message. -/
def ChannelMessage.descriptors : ChannelMessage → List EndpointDescriptor
  | .userMessage m => m.endpointsInMessage
  | _ => []

namespace Network

/-- The descriptors in flight on the channel from node `a` to node `n`. -/
def inFlight (s : Network) (a n : Identifier) : List EndpointDescriptor :=
  (s.wire a n).flatMap ChannelMessage.descriptors

variable {T : Topology} {s : Network}

theorem crossing_mem_wire {a n : Identifier} {d : EndpointDescriptor} :
    .crossing n d ∈ s.ports.tokens (.wire a n) ↔ d ∈ s.inFlight a n := by
  simp only [ports_tokens, tokens, inFlight, List.mem_flatMap]
  refine exists_congr fun m => and_congr_right fun _ => ?_
  cases m <;> simp [ChannelMessage.tokens, ChannelMessage.descriptors]

/-- How often a name travels on a channel. -/
theorem weigh_wire (s : Network) (a n k : Identifier) :
    weigh (fun _ tok => tok.cross = some k) s.ports.tokens (.wire a n) =
      ((s.inFlight a n).map (·.crossNodeEndpointName)).count k := by
  simp only [weigh, ports_tokens, tokens, inFlight]
  induction s.wire a n with
  | nil => rfl
  | cons m rest ih =>
    rw [List.flatMap_cons, List.countP_append, ih, List.flatMap_cons, List.map_append,
      List.count_append]
    congr 1
    cases m with
    | userMessage m =>
      simp only [ChannelMessage.tokens, ChannelMessage.descriptors, List.countP_map, List.count]
      refine List.countP_congr fun d _ => ?_
      simp [Token.cross]
    | sendInvitation | acceptInvitation =>
      simp [ChannelMessage.tokens, ChannelMessage.descriptors, Token.cross]

namespace Sound
variable (h : s.Sound T)
include h

/-- A travelling name is registered nowhere. -/
theorem unregistered {a n : Identifier} {d : EndpointDescriptor} (hd : d ∈ s.inFlight a n) :
    s.ports.Unregistered d.crossNodeEndpointName := by
  obtain ⟨m, -, -, hu, -⟩ := h.ports.names.ok _ _ (crossing_mem_wire.2 hd)
  exact hu

theorem inFlight_once {a n : Identifier} :
    ((s.inFlight a n).map (·.crossNodeEndpointName)).Nodup := by
  rw [List.nodup_iff_count_le_one]
  intro k
  by_cases hk : k ∈ (s.inFlight a n).map (·.crossNodeEndpointName)
  · obtain ⟨d, hd, rfl⟩ := List.mem_map.1 hk
    rw [← weigh_wire]
    exact (h.ports.names.once _ (h.unregistered hd)).le_one _
  · rw [List.count_eq_zero.2 hk]
    exact Nat.zero_le 1

/-- No name travels on two channels. -/
theorem inFlight_apart {a b n m : Identifier} {d d' : EndpointDescriptor}
    (hd : d ∈ s.inFlight a n) (hd' : d' ∈ s.inFlight b m)
    (heq : d.crossNodeEndpointName = d'.crossNodeEndpointName) : a = b ∧ n = m := by
  have honce := h.ports.names.once _ (h.unregistered hd)
  obtain ⟨hP, -⟩ := honce.token_eq (crossing_mem_wire.2 hd) rfl (crossing_mem_wire.2 hd')
    (congrArg some heq.symm)
  cases hP
  exact ⟨rfl, rfl⟩

/-- Two names drawn one after the other are new and different. -/
theorem drawn_two {x y : Identifier} {rest : List Identifier} (hs : s.supply = x :: y :: rest)
    (n : Identifier) : (s.process n).localEndpoints.find x = none ∧
      (s.process n).localEndpoints.find y = none ∧ x ≠ y := by
  have hnd := h.ports.names.supply_nodup
  rw [ports_supply, hs, List.nodup_cons] at hnd
  refine ⟨h.fresh x (by simp [hs]) n, h.fresh y (by simp [hs]) n, ?_⟩
  rintro rfl
  exact hnd.1 List.mem_cons_self

/-- A thread that is about to register an endpoint does so under a new name. -/
theorem recover_new {n : Identifier} {τ : ThreadId} {x : Identifier} {m : Message}
    {done ds : List EndpointDescriptor} {d : EndpointDescriptor}
    (ht : (s.process n).thread τ = .recovering x m done (d :: ds)) :
    (s.process n).localEndpoints.find d.crossNodeEndpointName = none := by
  have htok : .crossing n d ∈ s.ports.tokens (.hand n τ) := by
    simp [tokens, ht, Thread.tokens]
  obtain ⟨m, -, -, hu, -⟩ := h.ports.names.ok _ _ htok
  by_contra hne
  exact port_ne_none.2 hne (hu n)

/-- `CHECK_EQ` in `Node::RegisterEndpoint` never fires. -/
theorem never_in_use (l : Label) : s.step l ≠ .error (.check .endpointInUse) := by
  intro hl
  have created : ∀ {n x y : Identifier} {rest : List Identifier}, s.supply = x :: y :: rest →
      ¬ ((s.process n).localEndpoints.find x ≠ none ∨
        (s.process n).localEndpoints.find y ≠ none ∨ x = y) := by
    intro n x y rest hs
    obtain ⟨hx, hy, hxy⟩ := h.drawn_two hs n
    simp [hx, hy, hxy]
  have accepted : ∀ {e : Endpoint} {m : Message},
      e.acceptMessage m ≠ .error (.check .endpointInUse) := by
    intro e m hm
    rcases Endpoint.acceptMessage_fault hm with ⟨-, -, hk⟩ | ⟨-, -, hk⟩ | ⟨-, -, hk⟩ | ⟨-, hk⟩ <;>
      cases hk
  rcases step_fault hl with ⟨n, τ, c, rfl, hf⟩ | ⟨n, τ, rfl, hf⟩
  · cases hf with
    | callCreate hs hk => exact created hs (hk rfl)
  · cases hf with
    | deliver _ _ _ hk => exact accepted hk
    | dispatch _ _ _ hk => exact accepted hk
    | recover ht hne => exact hne (h.recover_new ht)
    | invite _ hs hk => exact created hs (hk rfl)

/-- The endpoint created by `Node::OnReceivedInvitation`, which is inserted unchecked, is new too. -/
theorem guest_new {n x : Identifier} {rest : List Identifier} (hs : s.supply = x :: rest) :
    (s.process n).localEndpoints.find x = none := h.fresh x (by simp [hs]) n

end Sound

/-- What is registered stays registered. -/
theorem step_registered {s' : Network} {l : Label} (hl : s.step l = .ok s') (n x : Identifier)
    (hx : (s.process n).localEndpoints.find x ≠ none) :
    (s'.process n).localEndpoints.find x ≠ none := by
  have key : ∀ k τ c o, (s.process k).Move τ s.supply c o →
      ((s.apply k o).process n).localEndpoints.find x ≠ none := by
    intro k τ c o hm
    by_cases hk : n = k
    · subst hk
      obtain ⟨e, he⟩ := Option.ne_none_iff_exists'.1 hx
      obtain ⟨e', he', -⟩ := hm.later x e he
      simp [he']
    · simpa [hk] using hx
  rcases step_cases hl with ⟨k, τ, c, o, -, -, hm, rfl⟩ | ⟨k, ch, m, rest, -, -, -, -, rfl⟩ |
    ⟨k, τ, o, -, hm, rfl⟩
  · exact key k τ (some c) o hm
  · by_cases hk : n = k
    · subst hk
      simpa using hx
    · simpa [hk] using hx
  · exact key k τ none o hm

end Network

/-- In every reachable state the names travelling to a node are not registered there and travel to
    it once; a node never unregisters a name, and no registration meets a name in use. -/
theorem recovered_endpoints_never_collide {T : Topology} {s : Network} (hs : Reachable T s) :
    (∀ a n, ∀ d ∈ s.inFlight a n,
      (s.process n).localEndpoints.find d.crossNodeEndpointName = none) ∧
    (∀ a n, ((s.inFlight a n).map (·.crossNodeEndpointName)).Nodup) ∧
    (∀ a b n, ∀ d ∈ s.inFlight a n, ∀ d' ∈ s.inFlight b n,
      d.crossNodeEndpointName = d'.crossNodeEndpointName → a = b) ∧
    (∀ n τ i t x name rest, (s.process n).thread τ = .accepting i t x → s.supply = name :: rest →
      (s.process n).localEndpoints.find name = none) ∧
    (∀ l s', s.step l = .ok s' → ∀ n x, (s.process n).localEndpoints.find x ≠ none →
      (s'.process n).localEndpoints.find x ≠ none) ∧
    ∀ l, s.step l ≠ .error (.check .endpointInUse) := by
  have h := hs.sound
  refine ⟨fun a n d hd => ?_, fun a n => h.inFlight_once, fun a b n d hd d' hd' heq => ?_,
    fun n τ i t x name rest _ hsup => h.guest_new hsup, fun l s' hl => Network.step_registered hl,
    h.never_in_use⟩
  · by_contra hne
    exact Network.port_ne_none.2 hne (h.unregistered hd n)
  · exact (h.inFlight_apart hd hd' heq).1

/-- While a pipe is on its way, for instance. -/
theorem carried_endpoint_never_collides : ∃ s, Reachable Sample.pair s ∧
    (∃ d, d ∈ s.inFlight Sample.inviter Sample.acceptor) ∧
    ∀ l, s.step l ≠ .error (.check .endpointInUse) := by
  obtain ⟨s, hs, hd⟩ := Network.exists_of_follow Sample.pair (fun _ _ => True) Sample.carrying
    (fun s => s.inFlight Sample.inviter Sample.acceptor ≠ []) (by decide +kernel)
  exact ⟨s, hs, List.exists_mem_of_ne_nil _ hd, (recovered_endpoints_never_collide hs).2.2.2.2.2⟩

end Mage
