import Mage.Invariant.Growth

/-! Induction over runs. A permitted step is an act of one thread or the receipt of one message; what
    every act and every receipt keeps holds in every reachable state, whatever the interleaving. -/

namespace Mage
open Lib

/-- Thread `τ` of node `n` takes a permitted step: the first of a call `c`, or one under way. -/
structure Act (T : Topology) (s : Network) (n : Identifier) (τ : ThreadId) (c : Option Call)
    (o : Outcome) : Prop where
  node : n ∈ T.nodes
  idle : c.isSome → (s.process n).thread τ = .idle
  allowed : ∀ c', c = some c' → Allowed T n (s.process n) c'
  move : (s.process n).Move τ s.supply c o

/-- Node `n` can read `m` from `channel`, leaving `rest`. -/
structure Receipt (T : Topology) (s : Network) (n : Identifier) (channel : Channel)
    (m : ChannelMessage) (rest : List ChannelMessage) : Prop where
  node : n ∈ T.nodes
  idle : (s.process n).thread .io = .idle
  watched : channel ∈ (s.process n).watchedSockets
  head : s.wire channel n = m :: rest

/-- The network after that receipt. -/
def Network.consume (s : Network) (n : Identifier) (channel : Channel) (m : ChannelMessage)
    (rest : List ChannelMessage) : Network :=
  { s with
    process := upd₁ s.process n ((s.process n).goto .io (Process.onReceivedMessage m))
    wire := upd s.wire channel n rest
    received := upd s.received channel n (s.received channel n ++ [m]) }

namespace Network
variable (s : Network) (n : Identifier) (o : Outcome) (channel : Channel) (m : ChannelMessage)
  (rest : List ChannelMessage)

@[simp] theorem apply_process : (s.apply n o).process = upd₁ s.process n o.process := rfl
@[simp] theorem apply_supply : (s.apply n o).supply = o.supply := rfl
@[simp] theorem apply_received : (s.apply n o).received = s.received := rfl
@[simp] theorem consume_process : (s.consume n channel m rest).process =
    upd₁ s.process n ((s.process n).goto .io (Process.onReceivedMessage m)) := rfl
@[simp] theorem consume_wire : (s.consume n channel m rest).wire = upd s.wire channel n rest := rfl
@[simp] theorem consume_supply : (s.consume n channel m rest).supply = s.supply := rfl
@[simp] theorem consume_sent : (s.consume n channel m rest).sent = s.sent := rfl
@[simp] theorem consume_received : (s.consume n channel m rest).received =
    upd s.received channel n (s.received channel n ++ [m]) := rfl

theorem apply_wire_none {o : Outcome} (h : o.written = none) : (s.apply n o).wire = s.wire := by
  simp [apply, h]

theorem apply_wire_some {o : Outcome} {w : Channel × ChannelMessage} (h : o.written = some w) :
    (s.apply n o).wire = upd s.wire n w.1 (s.wire n w.1 ++ [w.2]) := by
  simp [apply, h]

/-- An act appends what it writes to one channel. -/
theorem mem_apply_wire {a b : Identifier} {x : ChannelMessage} : x ∈ (s.apply n o).wire a b ↔
    x ∈ s.wire a b ∨ (a = n ∧ o.written = some (b, x)) := by
  cases h : o.written with
  | none => simp [apply_wire_none s n h]
  | some w =>
    rw [apply_wire_some s n h, upd_apply]
    by_cases hw : a = n ∧ b = w.1
    · obtain ⟨rfl, rfl⟩ := hw
      cases w
      simp [eq_comm]
    · rw [if_neg hw]
      constructor
      · exact .inl
      · rintro (hx | ⟨rfl, hx⟩)
        · exact hx
        · cases hx
          simp at hw

end Network

section
variable {T : Topology} {s : Network} {n : Identifier} {τ : ThreadId} {c : Option Call} {o : Outcome}

/-- An act changes one thread. -/
theorem Act.thread_apply (ha : Act T s n τ c o) (k : Identifier) (σ : ThreadId) :
    (k = n ∧ σ = τ ∧ ((s.apply n o).process k).thread σ = o.process.thread τ) ∨
    ((s.apply n o).process k).thread σ = (s.process k).thread σ := by
  by_cases hk : k = n
  · subst hk
    rw [Network.apply_process, upd₁_apply, if_pos rfl]
    by_cases hσ : σ = τ
    · exact .inl ⟨rfl, hσ, by rw [hσ]⟩
    · exact .inr (ha.move.thread_other hσ)
  · rw [Network.apply_process, upd₁_apply, if_neg hk]
    exact .inr rfl

/-- A receipt gives the thread that reads the sockets something to do. -/
theorem Receipt.thread_consume (s : Network) (n : Identifier) (channel : Channel)
    (m : ChannelMessage) (rest : List ChannelMessage) (k : Identifier) (σ : ThreadId) :
    (k = n ∧ σ = .io ∧
      ((s.consume n channel m rest).process k).thread σ = Process.onReceivedMessage m) ∨
    ((s.consume n channel m rest).process k).thread σ = (s.process k).thread σ := by
  by_cases hk : k = n
  · subst hk
    rw [Network.consume_process, upd₁_apply, if_pos rfl, Process.goto_thread, upd₁_apply]
    by_cases hσ : σ = .io
    · exact .inl ⟨rfl, hσ, by rw [if_pos hσ]⟩
    · exact .inr (if_neg hσ)
  · rw [Network.consume_process, upd₁_apply, if_neg hk]
    exact .inr rfl

end

theorem Network.advance {T : Topology} {s s' : Network} {l : Label} (hp : Permitted T s l)
    (h : s.step l = .ok s') :
    (∃ n τ c o, l = .of n τ c ∧ Act T s n τ c o ∧ s' = s.apply n o) ∨
    (∃ n channel m rest, l = .read n channel ∧ Receipt T s n channel m rest ∧
      s' = s.consume n channel m rest) := by
  rcases step_cases h with ⟨n, τ, c, o, rfl, hi, hm, rfl⟩ | ⟨n, ch, m, rest, rfl, hi, hw, hh, rfl⟩ |
    ⟨n, τ, o, rfl, hm, rfl⟩
  · refine .inl ⟨n, τ, some c, o, rfl, ⟨hp.1, fun _ => hi, ?_, hm⟩, rfl⟩
    rintro c' ⟨⟩
    exact hp.2
  · exact .inr ⟨n, ch, m, rest, rfl, ⟨hp, hi, hw, hh⟩, rfl⟩
  · exact .inl ⟨n, τ, none, o, rfl, ⟨hp, by simp, by simp, hm⟩, rfl⟩

theorem Network.step_run {T : Topology} {s s' : Network} {n : Identifier} {τ : ThreadId}
    (hn : n ∈ T.nodes) (h : s.step (.run n τ) = .ok s') :
    ∃ o, Act T s n τ none o ∧ s' = s.apply n o := by
  have hp : Permitted T s (.run n τ) := hn
  rcases Network.advance hp h with ⟨m, σ, c, o, hl, ha, rfl⟩ | ⟨_, _, _, _, hl, -⟩
  · cases c with
    | some c => cases hl
    | none =>
      cases hl
      exact ⟨o, ha, rfl⟩
  · cases hl

theorem Network.step_call {T : Topology} {s s' : Network} {n : Identifier} {τ : ThreadId} {c : Call}
    (hp : Permitted T s (.call n τ c)) (h : s.step (.call n τ c) = .ok s') :
    ∃ o, Act T s n τ (some c) o ∧ s' = s.apply n o := by
  rcases Network.advance hp h with ⟨m, σ, c, o, hl, ha, rfl⟩ | ⟨_, _, _, _, hl, -⟩
  · cases c with
    | some c =>
      cases hl
      exact ⟨o, ha, rfl⟩
    | none => cases hl
  · cases hl

namespace ReachableBy
variable {T : Topology} {ok : Network → Label → Prop} {s : Network}

theorem reachable (h : ReachableBy T ok s) : Reachable T s :=
  Reaches.mono (fun _ _ hl => ⟨hl.1, trivial⟩) h

/-- What acts and receipts keep, as long as they obey the rule, holds in every state reached. -/
theorem induct {P : Network → Prop} (init : P (.initial T))
    (act : ∀ s n τ c o, ReachableBy T ok s → P s → Act T s n τ c o → ok s (.of n τ c) →
      P (s.apply n o))
    (receipt : ∀ s n channel m rest, ReachableBy T ok s → P s → Receipt T s n channel m rest →
      ok s (.read n channel) → P (s.consume n channel m rest)) (h : ReachableBy T ok s) : P s := by
  refine Reaches.invariant init ?_ h
  intro s l s' hr hs hok hstep
  rcases Network.advance hok.1 hstep with ⟨n, τ, c, o, rfl, ha, rfl⟩ | ⟨n, ch, m, rest, rfl, hc, rfl⟩
  · exact act s n τ c o hr hs ha hok.2
  · exact receipt s n ch m rest hr hs hc hok.2

end ReachableBy

namespace Reachable
variable {T : Topology} {s : Network}

/-- What all acts and receipts keep is an invariant. -/
theorem induct {P : Network → Prop} (init : P (.initial T))
    (act : ∀ s n τ c o, Reachable T s → P s → Act T s n τ c o → P (s.apply n o))
    (receipt : ∀ s n channel m rest, Reachable T s → P s → Receipt T s n channel m rest →
      P (s.consume n channel m rest)) (h : Reachable T s) : P s :=
  ReachableBy.induct init (fun s n τ c o hr hs ha _ => act s n τ c o hr hs ha)
    (fun s n ch m rest hr hs hc _ => receipt s n ch m rest hr hs hc) h

/-- An invariant of each process on its own. -/
theorem forall_process {P : Identifier → Process → Prop} (init : ∀ n, P n (Network.initialProcess n))
    (act : ∀ s n τ c o, Reachable T s → P n (s.process n) → Act T s n τ c o → P n o.process)
    (receipt : ∀ s n channel m rest, Reachable T s → P n (s.process n) →
      Receipt T s n channel m rest →
      P n ((s.process n).goto .io (Process.onReceivedMessage m)))
    (h : Reachable T s) (n : Identifier) : P n (s.process n) := by
  refine induct (P := fun s => ∀ n, P n (s.process n)) init ?_ ?_ h n
  · intro s n τ c o hr hs ha k
    by_cases hk : k = n
    · subst hk
      simpa [Network.apply] using act s k τ c o hr (hs k) ha
    · simpa [Network.apply, hk] using hs k
  · intro s n ch m rest hr hs hc k
    by_cases hk : k = n
    · subst hk
      simpa [Network.consume] using receipt s k ch m rest hr (hs k) hc
    · simpa [Network.consume, hk] using hs k

/-- Locks exclude each other. -/
theorem exclusive (h : Reachable T s) (n : Identifier) :
    Exclusive (s.process n).thread (s.process n).lock := by
  refine forall_process (P := fun _ p => Exclusive p.thread p.lock) ?_ ?_ ?_ h n
  · intro n τ
    simp [Network.initialProcess, Thread.locks]
  · exact fun s n τ c o _ hp ha => ha.move.exclusive ha.idle hp
  · intro s n ch m rest _ hp hc
    refine hp.same ?_
    rw [hc.idle]
    cases m <;> rfl

theorem named (h : Reachable T s) (n : Identifier) : Named (s.process n).localEndpoints := by
  refine forall_process (P := fun _ p => Named p.localEndpoints) ?_ ?_ ?_ h n
  · intro n x e hx
    simp [Network.initialProcess] at hx
  · exact fun s n τ c o _ hp ha => ha.move.named hp
  · exact fun s n ch m rest _ hp _ => hp

theorem name (h : Reachable T s) (n : Identifier) : (s.process n).name = n := by
  refine forall_process (P := fun n p => p.name = n) ?_ ?_ ?_ h n
  · exact fun n => rfl
  · exact fun s n τ c o _ hp ha => ha.move.name_eq.trans hp
  · exact fun s n ch m rest _ hp _ => hp

/-- The names left are the end of the sequence that `RandomIdentifier` returns. -/
theorem suffix (h : Reachable T s) : s.supply <:+ T.names := by
  refine induct (P := fun s => s.supply <:+ T.names) List.suffix_rfl ?_ ?_ h
  · exact fun s n τ c o _ hs ha => ha.move.suffix.trans hs
  · exact fun s n ch m rest _ hs _ => hs

theorem supply_nodup (h : Reachable T s) : s.supply.Nodup := h.suffix.sublist.nodup T.names_nodup

end Reachable

/-! ### From a reachable state on -/

/-- The states that permitted steps with labels of some kind lead to. -/
abbrev Network.Runs (T : Topology) (ok : Label → Prop) (s : Network) : Network → Prop :=
  Reaches (fun s l s' => s.step l = .ok s') (fun s l => Permitted T s l ∧ ok l) s

theorem Network.Runs.reachable {T : Topology} {ok : Label → Prop} {s s' : Network}
    (h : s.Runs T ok s') (hr : Reachable T s) : Reachable T s' :=
  h.invariant hr fun _ _ _ _ hu hok hstep => .step hu ⟨hok.1, trivial⟩ hstep

/-- In node `n` only thread `τ` makes a step, and none begins another call. -/
def Label.only (n : Identifier) (τ : ThreadId) : Label → Prop
  | .call m _ _ => m ≠ n
  | .read m _ => m ≠ n
  | .run m σ => m = n → σ = τ

theorem Network.Runs.induct {T : Topology} {ok : Label → Prop} {s s' : Network}
    {P : Network → Prop} (h : s.Runs T ok s') (hr : Reachable T s) (init : P s)
    (act : ∀ u n τ c o, Reachable T u → P u → Act T u n τ c o → ok (.of n τ c) → P (u.apply n o))
    (receipt : ∀ u n channel m rest, Reachable T u → P u → Receipt T u n channel m rest →
      ok (.read n channel) → P (u.consume n channel m rest)) : Reachable T s' ∧ P s' := by
  refine h.invariant (P := fun u => Reachable T u ∧ P u) ⟨hr, init⟩ ?_
  rintro u l u' - ⟨hu, hP⟩ hok hstep
  refine ⟨.step hu ⟨hok.1, trivial⟩ hstep, ?_⟩
  rcases Network.advance hok.1 hstep with ⟨n, τ, c, o, rfl, ha, rfl⟩ | ⟨n, ch, m, rest, rfl, hc, rfl⟩
  · exact act u n τ c o hu hP ha hok.2
  · exact receipt u n ch m rest hu hP hc hok.2

/-- What thread `τ` of node `n` keeps, it keeps while the node does nothing else. -/
theorem Network.Runs.only {T : Topology} {s s' : Network} {n : Identifier} {τ : ThreadId}
    {P : Process → Prop} (h : s.Runs T (Label.only n τ) s') (hr : Reachable T s)
    (init : P (s.process n))
    (move : ∀ u o, Reachable T u → P (u.process n) → (u.process n).Move τ u.supply none o →
      P o.process) : Reachable T s' ∧ P (s'.process n) := by
  refine Network.Runs.induct h hr (P := fun u => P (u.process n)) init ?_ ?_
  · intro u m σ c o hu hP ha hok
    by_cases hm : m = n
    · subst hm
      cases c with
      | some c => exact absurd rfl hok
      | none =>
        obtain rfl : σ = τ := hok rfl
        simpa using move u o hu hP ha.move
    · rw [apply_process, upd₁_apply, if_neg (Ne.symm hm)]
      exact hP
  · intro u m ch msg rest hu hP hc hok
    rw [consume_process, upd₁_apply, if_neg (Ne.symm hok)]
    exact hP

end Mage
