import Mage.Invariant.Reachable
import Mage.Ports.Links

/-! The view of a network as ports and tokens, and what a step of one process leaves alone in it. -/

namespace Mage
open Lib

def Endpoint.status (e : Endpoint) : Status :=
  match e.state with
  | .kBound => .bound
  | .kUnboundAndQueueing => .queueing
  | .kUnboundAndProxying => .proxying e.proxyTarget

def Endpoint.port (e : Endpoint) : Port := ⟨e.peerAddress, e.status⟩

/-- The descriptors of a message that has not left its node. -/
def Message.described (m : Message) : List Token := m.endpointsInMessage.map .described

/-- What a thread of node `n` has in hand. -/
def Thread.tokens (n : Identifier) : Thread → List Token
  | .populating _ m rest => m.described ++ rest.map .right
  | .checking _ m _ => m.described
  | .delivering _ m => m.described
  | .sending b _ done rest =>
    done.map (.crossing b.targetNodeName) ++ rest.map .described ++
      b.messagesToSend.flatMap Message.described
  | .unlocking b _ => b.messagesToSend.flatMap Message.described
  | .receiving m => m.endpointsInMessage.map (.crossing n)
  | .recovering _ _ done rest => done.map .recovered ++ rest.map (.crossing n)
  | .forwarding _ t _ done rest => done.map (.crossing t) ++ rest.map .recovered
  | .invited i _ x => [.invitation ⟨i, x⟩]
  | .accepting i _ x => [.invitation ⟨i, x⟩]
  | .replying _ _ e => [.right e, .acceptance ⟨n, e⟩]
  | .accepted e => [.right e]
  | .acknowledging _ m e => [.acceptance ⟨m, e⟩]
  | .reserving r _ m e => [.reserved r, .acceptance ⟨m, e⟩]
  | .creatingChannel _ l r => [.right l, .reserved r, .invitation ⟨n, l⟩]
  | .insertingPending l r _ => [.right l, .reserved r, .invitation ⟨n, l⟩]
  | .startingChannel l _ _ => [.right l, .invitation ⟨n, l⟩]
  | _ => []

/-- What a message on its way to node `t` carries. -/
def ChannelMessage.tokens (t : Identifier) : ChannelMessage → List Token
  | .sendInvitation i _ x => [.invitation ⟨i, x⟩]
  | .acceptInvitation _ m e => [.acceptance ⟨m, e⟩]
  | .userMessage m => m.endpointsInMessage.map (.crossing t)

/-- What waits in the queue of endpoint `x`. -/
def Core.queued (c : Core) (x : Identifier) : List Message :=
  match c.localEndpoints.find x with
  | some e => e.incomingMessageQueue
  | none => []

namespace Network

def port (s : Network) (a : Address) : Option Port :=
  ((s.process a.nodeName).localEndpoints.find a.endpointName).map Endpoint.port

def tokens (s : Network) : Place → List Token
  | .held n => (s.process n).held.map .right
  | .hand n τ => ((s.process n).thread τ).tokens n
  | .queue n x => ((s.process n).queued x).flatMap Message.described
  | .pending n t => ((s.process n).pendingInvitations.find t).toList.map .reserved
  | .wire n t => (s.wire n t).flatMap (·.tokens t)

/-- The network seen from far away. -/
def ports (s : Network) : Ports := ⟨s.port, s.tokens, s.supply⟩

@[simp] theorem ports_port (s : Network) : s.ports.port = s.port := rfl
@[simp] theorem ports_tokens (s : Network) : s.ports.tokens = s.tokens := rfl
@[simp] theorem ports_supply (s : Network) : s.ports.supply = s.supply := rfl

theorem port_eq_some {s : Network} {n x : Identifier} {q : Port} : s.port ⟨n, x⟩ = some q ↔
    ∃ e, (s.process n).localEndpoints.find x = some e ∧ e.port = q := by
  simp [port, Option.map_eq_some_iff]

theorem port_ne_none {s : Network} {n x : Identifier} :
    s.port ⟨n, x⟩ ≠ none ↔ (s.process n).localEndpoints.find x ≠ none := by
  simp [port]

/-! ### What a step leaves alone -/

variable {s : Network} {n : Identifier} {o : Outcome}

theorem port_apply (s : Network) (n : Identifier) (o : Outcome) (a : Address) :
    (s.apply n o).port a = if a.nodeName = n then
      (o.process.localEndpoints.find a.endpointName).map Endpoint.port else s.port a := by
  by_cases ha : a.nodeName = n <;> simp [port, ha]

theorem port_apply_same (h : o.process.localEndpoints = (s.process n).localEndpoints) :
    (s.apply n o).port = s.port := by
  funext a
  rw [port_apply]
  split_ifs with ha
  · rw [h, port, ha]
  · rfl

theorem port_apply_set {t : Table Identifier Endpoint} {x : Identifier} {e : Endpoint}
    (h : o.process.localEndpoints = t.set x e) (a : Address) :
    (s.apply n o).port a = if a = ⟨n, x⟩ then some e.port
      else if a.nodeName = n then (t.find a.endpointName).map Endpoint.port else s.port a := by
  rw [port_apply]
  obtain ⟨m, y⟩ := a
  by_cases hm : m = n
  · subst hm
    by_cases hy : y = x
    · simp [h, hy]
    · simp [h, hy]
  · simp [hm]

/-- One endpoint is written. -/
theorem port_apply_write {x : Identifier} {e : Endpoint}
    (h : o.process.localEndpoints = (s.process n).localEndpoints.set x e) :
    (s.apply n o).port = upd₁ s.port ⟨n, x⟩ (some e.port) := by
  funext a
  rw [port_apply_set h, upd₁_apply]
  split_ifs with h1 h2
  · rfl
  · rw [port, h2]
  · rfl

/-- One endpoint is written and looks as before. -/
theorem port_apply_rewrite {x : Identifier} {e e' : Endpoint}
    (he : (s.process n).localEndpoints.find x = some e)
    (h : o.process.localEndpoints = (s.process n).localEndpoints.set x e') (hp : e'.port = e.port) :
    (s.apply n o).port = s.port := by
  rw [port_apply_write h, hp]
  exact upd₁_same (by simp [port, he])

/-- A place keeps its tokens if the field behind it does. -/
theorem tokens_apply {τ : ThreadId} {R : Place} (hR : R ≠ .hand n τ)
    (hth : ∀ σ, σ ≠ τ → o.process.thread σ = (s.process n).thread σ)
    (hheld : R = .held n → o.process.held = (s.process n).held)
    (hqueue : ∀ x, R = .queue n x → o.process.queued x = (s.process n).queued x)
    (hpend : ∀ t, R = .pending n t →
      o.process.pendingInvitations.find t = (s.process n).pendingInvitations.find t)
    (hwire : ∀ b, R = .wire n b → ∀ m, o.written ≠ some (b, m)) :
    (s.apply n o).tokens R = s.tokens R := by
  cases R with
  | held m =>
    by_cases hm : m = n
    · subst hm
      simp [tokens, hheld rfl]
    · simp [tokens, hm]
  | hand m σ =>
    by_cases hm : m = n
    · subst hm
      have hσ : σ ≠ τ := fun hσ => hR (by rw [hσ])
      simp [tokens, hth σ hσ]
    · simp [tokens, hm]
  | queue m x =>
    by_cases hm : m = n
    · subst hm
      simp [tokens, hqueue x rfl]
    · simp [tokens, hm]
  | pending m t =>
    by_cases hm : m = n
    · subst hm
      simp [tokens, hpend t rfl]
    · simp [tokens, hm]
  | wire a b =>
    cases hw : o.written with
    | none => simp [tokens, apply_wire_none s n hw]
    | some w =>
      have hab : ¬ (a = n ∧ b = w.1) := by
        rintro ⟨rfl, rfl⟩
        exact hwire _ rfl w.2 hw
      simp only [tokens, apply_wire_some s n hw, upd_apply]
      rw [if_neg hab]

theorem tokens_hand (s : Network) (n : Identifier) (o : Outcome) (τ : ThreadId) :
    (s.apply n o).tokens (.hand n τ) = (o.process.thread τ).tokens n := by
  simp [tokens]

theorem tokens_held (s : Network) (n : Identifier) (o : Outcome) :
    (s.apply n o).tokens (.held n) = o.process.held.map .right := by
  simp [tokens]

theorem tokens_queue (s : Network) (n : Identifier) (o : Outcome) (x : Identifier) :
    (s.apply n o).tokens (.queue n x) = (o.process.queued x).flatMap Message.described := by
  simp [tokens]

theorem tokens_wire (s : Network) (n : Identifier) {o : Outcome} {b : Identifier}
    {m : ChannelMessage} (h : o.written = some (b, m)) :
    (s.apply n o).tokens (.wire n b) = s.tokens (.wire n b) ++ m.tokens b := by
  simp [tokens, apply_wire_some s n h]

end Network

theorem Core.queued_set {c c' : Core} {x y : Identifier} {e : Endpoint}
    (h : c'.localEndpoints = c.localEndpoints.set x e) :
    c'.queued y = if y = x then e.incomingMessageQueue else c.queued y := by
  rw [queued, h, Table.find_set]
  split_ifs <;> rfl

theorem Core.queued_of_find {c : Core} {x : Identifier} {e : Endpoint}
    (h : c.localEndpoints.find x = some e) : c.queued x = e.incomingMessageQueue := by
  rw [queued, h]

end Mage
