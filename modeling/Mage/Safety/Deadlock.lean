import Mage.Model.Locking
import Mage.Safety.Queued

/-! No deadlock. Endpoints that are proxying, other endpoints, and tables are three levels of locks: a
    thread that sends messages on keeps only proxying endpoints locked and waits for queueing ones, a
    thread that keeps any other endpoint locked waits for tables only, and under the lock of a table
    nothing is waited for. -/

namespace Mage
open Lib

/-- In `SendMessagesAndRecursiveDependents`. -/
def Thread.sendsOn : Thread → Bool
  | .sending _ _ _ _ | .unlocking _ _ => true
  | _ => false

def Process.Proxying (p : Process) (x : Identifier) : Prop :=
  ∃ e, p.localEndpoints.find x = some e ∧ e.state = .kUnboundAndProxying

/-- A thread that sends messages on keeps only proxying endpoints locked. -/
def Process.LocksProxies (p : Process) : Prop :=
  ∀ τ, (p.thread τ).sendsOn → ∀ x ∈ (p.thread τ).locks, p.Proxying x

theorem Process.Proxying.later {p p' : Process} {x : Identifier} (h : p.Proxying x)
    (hl : Table.Later p.localEndpoints p'.localEndpoints) : p'.Proxying x := by
  obtain ⟨e, he, hq⟩ := h
  obtain ⟨e', he', hl⟩ := hl x e he
  exact ⟨e', he', (hl.proxy hq).1⟩

theorem Process.Move.locksProxies {T : Topology} {n : Identifier} {p : Process} {τ : ThreadId}
    {supply : List Identifier} {c : Option Call} {o : Outcome} (h : p.Move τ supply c o)
    (ht : (p.thread τ).Tidy T n p) (hp : p.LocksProxies) : o.process.LocksProxies := by
  intro σ hσ x hx
  have hlater := h.later
  by_cases hστ : σ = τ
  · subst hστ
    -- what was locked before is proxying still
    have kept : (p.thread σ).sendsOn → x ∈ (p.thread σ).locks → o.process.Proxying x :=
      fun h1 h2 => (hp σ h1 x h2).later hlater
    cases h with
    | deliverToProxy _ he _ hq =>
      simp only [goto_thread, upd₁_apply, if_true, Thread.locks, Caller.locks, List.nil_append,
        List.mem_singleton] at hx
      subst hx
      exact ⟨_, he, hq⟩
    | @take b m done ds d e h1 =>
      simp only [goto_thread, upd₁_apply, if_true, Thread.locks, List.map_append, List.map_cons,
        List.map_nil, List.mem_append, List.mem_singleton] at hx
      rcases hx with (hx | rfl) | hx
      · exact kept (by simp [h1, Thread.sendsOn]) (by simp only [h1, Thread.locks]; simp [hx])
      · exact ⟨_, by simp; rfl, rfl⟩
      · exact kept (by simp [h1, Thread.sendsOn]) (by simp only [h1, Thread.locks]; simp [hx])
    | write h1 | unlock h1 | next h1 =>
      refine kept (by simp [h1, Thread.sendsOn]) ?_
      simp only [goto_thread, upd₁_apply, if_true, Thread.locks] at hx
      simp only [h1, Thread.locks]
      simp_all
    | @drain r channel e h1 he hd =>
      simp only [goto_thread, upd₁_apply, if_true, Thread.locks, Caller.locks, List.nil_append,
        List.mem_singleton] at hx
      subst hx
      rw [h1] at ht
      exact Proxying.later ht hlater
    | routeRemote => simp [Thread.locks, Caller.locks] at hx
    | _ => simp_all [Thread.sendsOn]
  · rw [h.thread_other hστ] at hσ hx
    exact (hp σ hσ x hx).later hlater

theorem Reachable.locksProxies {T : Topology} {s : Network} (h : Reachable T s) (n : Identifier) :
    (s.process n).LocksProxies := by
  refine h.forall_process (P := fun _ p => p.LocksProxies) ?_ ?_ ?_ n
  · intro n τ hτ
    simp [Network.initialProcess, Thread.sendsOn] at hτ
  · exact fun s n τ c o hr hp ha => ha.move.locksProxies (hr.sound.tidy.threads n τ) hp
  · intro s n ch m rest _ hp hc τ hτ x hx
    by_cases hio : τ = .io
    · subst hio
      cases m <;> simp [Process.onReceivedMessage, Thread.sendsOn] at hτ
    · simp only [Process.goto_thread, upd₁_apply, if_neg hio] at hτ hx
      exact hp τ hτ x hx

/-! ### What a thread holds in the middle of a step -/

/-- Left to do before a step takes effect, with the locks `extra` taken for it so far. -/
inductive Opening (lock : Option Lock) : List Lock → List Op → Prop where
  | effect : Opening lock lock.toList [.effect]
  | last {l : Lock} (h : lock = some l) : Opening lock [] [.lock l, .effect]
  | enter {t : TableLock} {rest : List Op} (h : Opening lock [] rest) :
      Opening lock [] (.lock (.table t) :: .unlock (.table t) :: rest)
  | leave {t : TableLock} {rest : List Op} (h : Opening lock [] rest) :
      Opening lock [.table t] (.unlock (.table t) :: rest)

/-- Left to do after a step took effect, with the locks `extra` still to be given back. -/
inductive Closing : List Lock → List Op → Prop where
  | done : Closing [] []
  | last {l : Lock} : Closing [l] [.unlock l]
  | enter {t : TableLock} {x : Identifier} {rest : List Op} (h : Closing [.endpoint x] rest) :
      Closing [.endpoint x] (.lock (.table t) :: .unlock (.table t) :: rest)
  | leave {t : TableLock} {x : Identifier} {rest : List Op} (h : Closing [.endpoint x] rest) :
      Closing [.table t, .endpoint x] (.unlock (.table t) :: rest)

theorem Plan.opens (π : Plan) : Opening π.lock [] π.opening := by
  rw [opening]
  induction π.before with
  | nil =>
    cases h : π.lock with
    | none => exact .effect
    | some l => exact .last rfl
  | cons t ts ih => exact .enter ih

theorem Plan.closes {π : Plan} (h : π.after ≠ [] → ∃ x, π.unlock = some (.endpoint x)) :
    Closing π.unlock.toList π.closing := by
  rw [closing]
  cases hu : π.unlock with
  | none =>
    have ha : π.after = [] := by
      by_contra hne
      obtain ⟨x, hx⟩ := h hne
      simp [hu] at hx
    rw [ha]
    exact .done
  | some l =>
    induction hts : π.after generalizing π with
    | nil => exact .last
    | cons t ts ih =>
      obtain ⟨x, hx⟩ := h (by simp [hts])
      obtain rfl : l = .endpoint x := by simpa [hu] using hx
      exact .enter (ih (π := { π with after := ts }) (fun _ => ⟨x, hx⟩) hu rfl)

/-- Thread `τ` of a process holds the locks that its program point says, and those that the operations
    it has left to do say. -/
structure Tracks (p : Process) (holder : Lock → Option ThreadId) (τ : ThreadId)
    (calling : Option Call) (todo : List Op) (extra : List Lock) : Prop where
  holds : ∀ l, holder l = some τ ↔ (∃ x ∈ (p.thread τ).locks, l = .endpoint x) ∨ l ∈ extra
  apart : ∀ x, .endpoint x ∈ extra → x ∉ (p.thread τ).locks
  idle : calling.isSome → p.thread τ = .idle
  ops : (∃ π, p.planOf τ calling = .ok π ∧ Opening π.lock extra todo) ∨
    (calling = none ∧ Closing extra todo)

def Locking.Tracked (s : Locking) : Prop := ∀ n τ, ∃ extra,
  Tracks (s.network.process n) (s.holder n) τ (s.calling n τ) (s.todo n τ) extra

/-- Taking effect, a step keeps the locks that its thread has from then on, and leaves one to be given
    back. -/
structure Plan.Settles (π : Plan) (locks locks' : List Identifier) : Prop where
  holds : ∀ l, ((∃ x ∈ locks, l = .endpoint x) ∨ l ∈ π.lock.toList) ↔
    (∃ x ∈ locks', l = .endpoint x) ∨ l ∈ π.unlock.toList
  apart : ∀ x, .endpoint x ∈ π.unlock.toList → x ∉ locks'
  closes : π.after ≠ [] → ∃ x, π.unlock = some (.endpoint x)

namespace Plan.Settles
variable {π : Plan} {locks locks' : List Identifier} {x : Identifier}

theorem same (hu : π.unlock = π.lock) (ha : π.after = [])
    (hapart : ∀ x, .endpoint x ∈ π.lock.toList → x ∉ locks) (hl : locks' = locks) :
    π.Settles locks locks' := by
  subst hl
  exact ⟨fun l => by rw [hu], fun x hx => hapart x (hu ▸ hx), fun hne => absurd ha hne⟩

theorem keep (hl : locks'.Perm (x :: locks)) :
    Plan.Settles { lock := some (.endpoint x) } locks locks' := by
  refine ⟨fun l => ?_, by simp, by simp⟩
  simp only [hl.mem_iff, List.mem_cons, Option.toList_some, Option.toList_none, List.not_mem_nil,
    or_false]
  constructor
  · rintro (⟨y, hy, rfl⟩ | rfl)
    · exact ⟨y, .inr hy, rfl⟩
    · exact ⟨x, .inl rfl, rfl⟩
  · rintro ⟨y, rfl | hy, rfl⟩
    · exact .inr rfl
    · exact .inl ⟨y, hy, rfl⟩

theorem free (hn : locks.Nodup) (hl : locks.Perm (x :: locks')) :
    Plan.Settles { unlock := some (.endpoint x) } locks locks' := by
  refine ⟨fun l => ((keep hl).holds l).symm, fun y hy => ?_, by simp⟩
  obtain rfl : y = x := by simpa using hy
  exact (List.nodup_cons.1 (hl.nodup_iff.1 hn)).1

end Plan.Settles

namespace Process.Move
variable {p : Process} {τ : ThreadId} {supply : List Identifier} {c : Option Call} {o : Outcome}

theorem settles (h : p.Move τ supply c o) {π : Plan} (hπ : p.planOf τ c = .ok π)
    (hidle : c.isSome → p.thread τ = .idle) (hp : Exclusive p.thread p.lock)
    (hapart : ∀ x, .endpoint x ∈ π.lock.toList → x ∉ (p.thread τ).locks) :
    π.Settles (p.thread τ).locks (o.process.thread τ).locks := by
  have hnodup := (hp τ).1
  cases h with
  | createMessagePipes | sendInvitation | acceptInvitation | sendMessage =>
    cases hπ
    exact .same rfl rfl hapart (by simp [hidle, Thread.locks])
  | bindReceiver hx =>
    simp only [planOf, callPlan, hx, orFail, bind_eq_ok, pure_eq_ok] at hπ
    obtain ⟨y, hy, rfl⟩ := hπ
    exact .same rfl rfl hapart (by simp)
  | deliverToProxy h1 he _ hq =>
    simp only [planOf, plan, h1, Core.endpoint, he, orFail, bind_eq_ok] at hπ
    obtain ⟨e, h2, hπ⟩ := hπ
    cases h2
    rw [if_pos hq] at hπ
    cases hπ
    exact .keep (by simp [h1, Thread.locks, Caller.locks])
  | deliver h1 he _ _ ha =>
    simp only [planOf, plan, h1, Core.endpoint, he, orFail, bind_eq_ok] at hπ
    obtain ⟨e, h2, hπ⟩ := hπ
    cases h2
    rw [if_neg (Endpoint.acceptMessage_unproxied ha)] at hπ
    cases hπ
    exact ⟨by simp [h1, Thread.locks], by simp [Thread.locks], fun _ => ⟨_, rfl⟩⟩
  | checkSent h1 he =>
    simp only [planOf, plan, h1, Core.endpoint, he, orFail, bind_eq_ok] at hπ
    obtain ⟨e, h2, hπ⟩ := hπ
    cases hπ
    exact .same rfl rfl hapart (by simp [h1, Thread.locks])
  | take h1 he | receive h1 he | reserve h1 he =>
    simp only [planOf, plan, h1, Core.endpoint, he, orFail, bind_eq_ok] at hπ
    obtain ⟨e, h2, hπ⟩ := hπ
    cases hπ
    exact .keep (by simp [h1, Thread.locks])
  | next h1 hm =>
    simp only [planOf, plan, h1, hm] at hπ
    cases hπ
    exact .same rfl rfl hapart (by simp [h1, Thread.locks])
  | sent h1 hm hb =>
    simp only [planOf, plan, h1, hm, hb] at hπ
    cases hπ
    exact .same rfl rfl hapart (by simp [h1, hb, Thread.locks, Caller.locks])
  | sentToProxy h1 hm hb | drained h1 hm hb =>
    simp only [planOf, plan, h1, hm, hb] at hπ
    cases hπ
    exact .free hnodup (by simp [h1, hb, Thread.locks, Caller.locks])
  | unlock h1 | releaseTarget h1 =>
    rw [planOf, h1] at hπ
    cases hπ
    exact .free hnodup (by simp [h1, Thread.locks])
  | populated h1 | populate h1 | routeRemote h1 | routeLocal h1 | write h1 | recover h1 | relay h1
  | dispatch h1 | forward h1 | writeForwarded h1 | rekeyInitial h1 | accept h1 | reply h1
  | accepted h1 | acknowledge h1 | rekey h1 | drain h1 | acknowledged h1 | invite h1
  | createChannel h1 | insertPending h1 | startChannel h1 =>
    rw [planOf, h1] at hπ
    cases hπ
    exact .same rfl rfl hapart (by simp [h1, Thread.locks, Caller.locks])

end Process.Move

/-- As long as its thread stays where it is, a step keeps the lock under which it takes effect. -/
theorem Process.planOf_later {p p' : Process} {τ : ThreadId} {c : Option Call} {π : Plan}
    (hπ : p.planOf τ c = .ok π) (ht : p'.thread τ = p.thread τ)
    (hl : Table.Later p.localEndpoints p'.localEndpoints)
    (hh : ∀ k x, p.findHandle k = some x → p'.findHandle k = some x) :
    ∃ π', p'.planOf τ c = .ok π' ∧ π'.lock = π.lock := by
  have found : ∀ x k e, p.endpoint x k = .ok e → ∃ e', p'.localEndpoints.find x = some e' := by
    intro x k e he
    obtain ⟨e', he', -⟩ := hl x e (Core.endpoint_eq_ok.1 he)
    exact ⟨e', he'⟩
  cases c with
  | some c =>
    cases c with
    | bindReceiverDelegateToEndpoint k d r =>
      simp only [planOf, callPlan, bind_eq_ok, orFail_eq_ok, pure_eq_ok] at hπ ⊢
      obtain ⟨x, hx, rfl⟩ := hπ
      exact ⟨_, ⟨x, hh k x hx, rfl⟩, rfl⟩
    | _ => exact ⟨π, hπ, rfl⟩
  | none =>
    simp only [planOf, ht] at hπ ⊢
    generalize p.thread τ = t at hπ
    cases t with
    | checking _ _ ds | sending _ _ _ ds =>
      cases ds with
      | nil => exact ⟨π, hπ, rfl⟩
      | cons d ds =>
        simp only [plan, bind_eq_ok, pure_eq_ok] at hπ ⊢
        obtain ⟨e, he, rfl⟩ := hπ
        obtain ⟨e', he'⟩ := found _ _ _ he
        exact ⟨_, ⟨e', Core.endpoint_eq_ok.2 he', rfl⟩, rfl⟩
    | receiving | reserving =>
      simp only [plan, bind_eq_ok, pure_eq_ok] at hπ ⊢
      obtain ⟨e, he, rfl⟩ := hπ
      obtain ⟨e', he'⟩ := found _ _ _ he
      exact ⟨_, ⟨e', Core.endpoint_eq_ok.2 he', rfl⟩, rfl⟩
    | delivering peer m =>
      simp only [plan, bind_eq_ok] at hπ ⊢
      obtain ⟨e, he, hπ⟩ := hπ
      obtain ⟨e', he'⟩ := found _ _ _ he
      have hlock : π.lock = some (.endpoint peer) := by
        split_ifs at hπ <;> cases hπ <;> rfl
      rw [hlock]
      by_cases hq : e'.state = .kUnboundAndProxying
      · exact ⟨_, ⟨e', Core.endpoint_eq_ok.2 he', if_pos hq⟩, rfl⟩
      · exact ⟨_, ⟨e', Core.endpoint_eq_ok.2 he', if_neg hq⟩, rfl⟩
    | populating _ _ ys => cases ys <;> exact ⟨π, hπ, rfl⟩
    | unlocking b xs => cases xs <;> exact ⟨π, hπ, rfl⟩
    | recovering _ _ _ ds | forwarding _ _ _ _ ds => cases ds <;> exact ⟨π, hπ, rfl⟩
    | _ => exact ⟨π, hπ, rfl⟩

namespace Tracks
variable {p p' : Process} {holder holder' : Lock → Option ThreadId} {τ : ThreadId}
  {c : Option Call} {todo : List Op} {extra : List Lock} {l : Lock} {rest : List Op}

/-- What other threads do leaves alone what a thread holds. -/
theorem other (h : Tracks p holder τ c todo extra) (ht : p'.thread τ = p.thread τ)
    (hl : Table.Later p.localEndpoints p'.localEndpoints)
    (hh : ∀ k x, p.findHandle k = some x → p'.findHandle k = some x)
    (hholder : ∀ l, holder' l = some τ ↔ holder l = some τ) :
    Tracks p' holder' τ c todo extra := by
  refine ⟨fun l => ?_, fun x hx => ?_, fun hc => ht.trans (h.idle hc), ?_⟩
  · rw [hholder, h.holds, ht]
  · rw [ht]
    exact h.apart x hx
  · rcases h.ops with ⟨π, hπ, ho⟩ | hc
    · obtain ⟨π', hπ', hlock⟩ := Process.planOf_later hπ ht hl hh
      exact .inl ⟨π', hπ', hlock ▸ ho⟩
    · exact .inr hc

theorem done (h : Tracks p holder τ c [] extra) : c = none ∧ extra = [] := by
  rcases h.ops with ⟨_, _, ho⟩ | ⟨hc, ho⟩
  · cases ho
  · cases ho
    exact ⟨hc, rfl⟩

/-- A step begins. -/
theorem start (h : Tracks p holder τ c [] extra) {c' : Option Call} {π : Plan}
    (hπ : p.planOf τ c' = .ok π) (hidle : c'.isSome → p.thread τ = .idle) :
    Tracks p holder τ c' π.opening [] := by
  obtain ⟨-, rfl⟩ := h.done
  exact ⟨h.holds, h.apart, hidle, .inl ⟨π, hπ, π.opens⟩⟩

theorem lock (h : Tracks p holder τ c (.lock l :: rest) extra) (hl : holder l = none) :
    Tracks p (upd₁ holder l (some τ)) τ c rest (l :: extra) := by
  have hnot : ¬ holder l = some τ := by simp [hl]
  rw [h.holds, not_or] at hnot
  refine ⟨fun k => ?_, fun x hx => ?_, h.idle, ?_⟩
  · by_cases hk : k = l
    · simp [hk]
    · rw [upd₁_apply, if_neg hk, h.holds k, List.mem_cons]
      simp [hk]
  · rcases List.mem_cons.1 hx with rfl | hx
    · exact fun hmem => hnot.1 ⟨x, hmem, rfl⟩
    · exact h.apart x hx
  · rcases h.ops with ⟨π, hπ, ho⟩ | ⟨hc, ho⟩
    · refine .inl ⟨π, hπ, ?_⟩
      cases ho with
      | last hlock =>
        rw [hlock]
        exact .effect
      | enter ho => exact .leave ho
    · refine .inr ⟨hc, ?_⟩
      cases ho with
      | enter ho => exact .leave ho

theorem unlock (h : Tracks p holder τ c (.unlock l :: rest) extra) : holder l = some τ ∧
    ∃ extra', Tracks p (upd₁ holder l none) τ c rest extra' := by
  -- the lock is the first of those taken
  obtain ⟨extra', rfl, hnot, hops⟩ : ∃ extra', extra = l :: extra' ∧ l ∉ extra' ∧
      ((∃ π, p.planOf τ c = .ok π ∧ Opening π.lock extra' rest) ∨
        (c = none ∧ Closing extra' rest)) := by
    rcases h.ops with ⟨π, hπ, ho⟩ | ⟨hc, ho⟩
    · cases ho with
      | leave ho => exact ⟨[], rfl, by simp, .inl ⟨π, hπ, ho⟩⟩
    · cases ho with
      | last => exact ⟨[], rfl, by simp, .inr ⟨hc, .done⟩⟩
      | leave ho => exact ⟨_, rfl, by simp, .inr ⟨hc, ho⟩⟩
  refine ⟨(h.holds l).2 (.inr List.mem_cons_self), extra', fun k => ?_, fun x hx => ?_, h.idle, hops⟩
  · by_cases hk : k = l
    · subst hk
      simp only [upd₁_apply, if_true, reduceCtorEq, false_iff, not_or]
      refine ⟨?_, hnot⟩
      rintro ⟨x, hx, rfl⟩
      exact h.apart x List.mem_cons_self hx
    · rw [upd₁_apply, if_neg hk, h.holds k, List.mem_cons]
      simp [hk]
  · exact h.apart x (List.mem_cons_of_mem _ hx)

theorem effect (h : Tracks p holder τ c (.effect :: rest) extra) {π : Plan}
    (hπ : p.planOf τ c = .ok π) : rest = [] ∧ extra = π.lock.toList := by
  rcases h.ops with ⟨π', hπ', ho⟩ | ⟨-, ho⟩
  · rw [hπ] at hπ'
    cases hπ'
    cases ho
    exact ⟨rfl, rfl⟩
  · cases ho

/-- A step takes effect. -/
theorem move (h : Tracks p holder τ c (.effect :: rest) extra) {π : Plan}
    (hπ : p.planOf τ c = .ok π) {supply : List Identifier} {o : Outcome}
    (hm : p.Move τ supply c o) (hp : Exclusive p.thread p.lock) :
    Tracks o.process holder τ none π.closing π.unlock.toList := by
  obtain ⟨-, rfl⟩ := h.effect hπ
  have hs := hm.settles hπ h.idle hp h.apart
  exact ⟨fun l => (h.holds l).trans (hs.holds l), hs.apart, by simp,
    .inr ⟨rfl, Plan.closes hs.closes⟩⟩

end Tracks

namespace Locking
variable {T : Topology} {s s' : Locking}

/-- The network makes its own steps meanwhile. -/
theorem Reachable.network (h : Locking.Reachable T s) : Mage.Reachable T s.network := by
  refine h.invariant (P := fun s => Mage.Reachable T s.network) .init ?_
  intro s l s' _ hs hl hstep
  cases l with
  | call n τ c =>
    simp only [step, bind_eq_ok, pure_eq_ok] at hstep
    obtain ⟨_, -, π, -, rfl⟩ := hstep
    exact hs
  | read n channel =>
    simp only [step, bind_eq_ok, pure_eq_ok] at hstep
    obtain ⟨_, -, u, hu, rfl⟩ := hstep
    have hl : Mage.Permitted T s.network (.read n channel) := hl
    exact .step hs ⟨hl, trivial⟩ hu
  | run n τ =>
    rw [step] at hstep
    split at hstep
    · simp only [bind_eq_ok, pure_eq_ok] at hstep
      obtain ⟨_, -, π, -, rfl⟩ := hstep
      exact hs
    · simp only [bind_eq_ok, pure_eq_ok] at hstep
      obtain ⟨_, -, rfl⟩ := hstep
      exact hs
    · simp only [bind_eq_ok, pure_eq_ok] at hstep
      obtain ⟨π, -, u, hu, rfl⟩ := hstep
      exact .step hs ⟨hl, trivial⟩ hu
    · rw [pure_eq_ok] at hstep
      exact hstep ▸ hs

/-- A change in one thread leaves alone what the others hold. -/
theorem Tracked.update (h : s.Tracked) {n : Identifier} {τ : ThreadId} {l : List Lock}
    (hprocess : ∀ m, m ≠ n → s'.network.process m = s.network.process m)
    (hthread : ∀ σ, σ ≠ τ →
      (s'.network.process n).thread σ = (s.network.process n).thread σ)
    (hl : Table.Later (s.network.process n).localEndpoints (s'.network.process n).localEndpoints)
    (hh : ∀ k x, (s.network.process n).findHandle k = some x →
      (s'.network.process n).findHandle k = some x)
    (hholder : ∀ m σ l, (m = n → σ ≠ τ) → (s'.holder m l = some σ ↔ s.holder m l = some σ))
    (htodo : ∀ m σ, (m = n → σ ≠ τ) → s'.todo m σ = s.todo m σ)
    (hcalling : ∀ m σ, (m = n → σ ≠ τ) → s'.calling m σ = s.calling m σ)
    (hself : Tracks (s'.network.process n) (s'.holder n) τ (s'.calling n τ) (s'.todo n τ) l) :
    s'.Tracked := by
  intro m σ
  by_cases hmσ : m = n ∧ σ = τ
  · obtain ⟨rfl, rfl⟩ := hmσ
    exact ⟨l, hself⟩
  · have hne : m = n → σ ≠ τ := fun hm hσ => hmσ ⟨hm, hσ⟩
    obtain ⟨extra, ht⟩ := h m σ
    refine ⟨extra, ?_⟩
    rw [htodo m σ hne, hcalling m σ hne]
    by_cases hm : m = n
    · subst hm
      exact ht.other (hthread σ (hne rfl)) hl hh fun l => hholder m σ l hne
    · rw [hprocess m hm]
      exact ht.other rfl (.refl _) (fun _ _ hk => hk) fun l => hholder m σ l hne

theorem tracked_initial (T : Topology) : (initial T).Tracked := by
  intro n τ
  refine ⟨[], fun l => ?_, by simp, by simp [initial], .inr ⟨rfl, .done⟩⟩
  simp [initial, Network.initial, Network.initialProcess, Thread.locks]

/-- Each lock operation is tracked. -/
theorem Tracked.step (h : s.Tracked) (hr : Mage.Reachable T s.network) {l : Label}
    (hs : s.step l = .ok s') : s'.Tracked := by
  cases l with
  | call n τ c =>
    simp only [Locking.step, bind_eq_ok, pure_eq_ok, check_eq_ok, Thread.isIdle_iff] at hs
    obtain ⟨_, ⟨hidle, htodo⟩, π, hπ, rfl⟩ := hs
    obtain ⟨extra, ht⟩ := h n τ
    rw [htodo] at ht
    refine h.update (n := n) (τ := τ) (fun _ _ => rfl) (fun _ _ => rfl) (.refl _)
      (fun _ _ hk => hk) (fun _ _ _ _ => .rfl) (fun m σ hne => upd_other _ _ hne)
      (fun m σ hne => upd_other _ _ hne) (l := []) ?_
    simp only [upd_self]
    exact ht.start hπ fun _ => hidle
  | read n channel =>
    simp only [Locking.step, bind_eq_ok, pure_eq_ok, check_eq_ok] at hs
    obtain ⟨_, htodo, u, hu, rfl⟩ := hs
    rcases Network.step_cases hu with ⟨_, _, _, _, hl, -⟩ | ⟨_, _, m, rest, hl, hio, -, -, rfl⟩ |
      ⟨_, _, _, hl, -⟩ <;> cases hl
    obtain ⟨extra, ht⟩ := h n .io
    rw [htodo] at ht
    obtain ⟨hc, rfl⟩ := ht.done
    refine h.update (n := n) (τ := .io) (fun k hk => ?_) (fun σ hσ => ?_) ?_ ?_
      (fun _ _ _ _ => .rfl) (fun _ _ _ => rfl) (fun _ _ _ => rfl) (l := []) ?_
    · simp [hk]
    · simp [hσ]
    · simpa using Table.Later.refl _
    · simp
    · have hlocks : (Process.onReceivedMessage m).locks = Thread.idle.locks := by cases m <;> rfl
      refine ⟨fun l => ?_, by simp, by simp [hc], .inr ⟨hc, htodo ▸ .done⟩⟩
      have hheld := ht.holds l
      rw [hio] at hheld
      simpa only [upd₁_apply, if_true, Process.goto_thread, hlocks] using hheld
  | run n τ =>
    obtain ⟨extra, ht⟩ := h n τ
    rw [Locking.step] at hs
    split at hs
    · rename_i htodo
      simp only [bind_eq_ok, pure_eq_ok] at hs
      obtain ⟨_, -, π, hπ, rfl⟩ := hs
      rw [htodo] at ht
      refine h.update (n := n) (τ := τ) (fun _ _ => rfl) (fun _ _ => rfl) (.refl _)
        (fun _ _ hk => hk) (fun _ _ _ _ => .rfl) (fun m σ hne => upd_other _ _ hne)
        (fun _ _ _ => rfl) (l := []) ?_
      simp only [upd_self]
      exact ht.start hπ ht.idle
    · rename_i l rest htodo
      simp only [bind_eq_ok, pure_eq_ok, check_eq_ok] at hs
      obtain ⟨_, hfree, rfl⟩ := hs
      rw [htodo] at ht
      refine h.update (n := n) (τ := τ) (fun _ _ => rfl) (fun _ _ => rfl) (.refl _)
        (fun _ _ hk => hk) (fun m σ k hne => ?_) (fun m σ hne => upd_other _ _ hne)
        (fun _ _ _ => rfl) (l := l :: extra) ?_
      · simp only [upd_apply]
        split_ifs with hk
        · obtain ⟨rfl, rfl⟩ := hk
          simp [hfree, Ne.symm (hne rfl)]
        · exact .rfl
      · simp only [upd_self, upd_row]
        exact ht.lock hfree
    · rename_i rest htodo
      simp only [bind_eq_ok, pure_eq_ok] at hs
      obtain ⟨π, hπ, u, hu, rfl⟩ := hs
      rw [htodo] at ht
      obtain ⟨o, hm, rfl⟩ : ∃ o, (s.network.process n).Move τ s.network.supply (s.calling n τ) o ∧
          u = s.network.apply n o := by
        rw [label] at hu
        rcases Network.step_cases hu with ⟨_, _, c, o, hl, -, hm, rfl⟩ | ⟨_, _, _, _, hl, -⟩ |
          ⟨_, _, o, hl, hm, rfl⟩ <;> cases hc : s.calling n τ <;> rw [hc] at hl <;> cases hl
        · exact ⟨o, hm, rfl⟩
        · exact ⟨o, hm, rfl⟩
      refine h.update (n := n) (τ := τ) (fun m hm => ?_) (fun σ hσ => ?_) ?_ ?_
        (fun _ _ _ _ => .rfl) (fun m σ hne => upd_other _ _ hne)
        (fun m σ hne => upd_other _ _ hne) (l := π.unlock.toList) ?_
      · simp [hm]
      · simpa using hm.thread_other hσ
      · simpa using hm.later
      · simpa using fun k x => hm.handle
      · simp only [upd_self, Network.apply_process, upd₁_apply, if_true]
        exact ht.move hπ hm (hr.exclusive n)
    · rename_i l rest htodo
      rw [pure_eq_ok] at hs
      subst hs
      rw [htodo] at ht
      obtain ⟨hheld, extra', ht'⟩ := ht.unlock
      refine h.update (n := n) (τ := τ) (fun _ _ => rfl) (fun _ _ => rfl) (.refl _)
        (fun _ _ hk => hk) (fun m σ k hne => ?_) (fun m σ hne => upd_other _ _ hne)
        (fun _ _ _ => rfl) (l := extra') ?_
      · simp only [upd_apply]
        split_ifs with hk
        · obtain ⟨rfl, rfl⟩ := hk
          simp [hheld, Ne.symm (hne rfl)]
        · exact .rfl
      · simp only [upd_self, upd_row]
        exact ht'

theorem Reachable.tracked (h : Locking.Reachable T s) : s.Tracked :=
  h.invariant (tracked_initial T) fun _ _ _ hr hs _ hstep => hs.step (Reachable.network hr) hstep

end Locking

/-! ### The order of the locks -/

/-- Proxying endpoints, other endpoints, tables. -/
def Process.level (p : Process) : Lock → ℕ
  | .table _ => 2
  | .endpoint x => if (p.localEndpoints.find x).any (·.state = .kUnboundAndProxying) then 0 else 1

theorem Process.level_endpoint (p : Process) (x : Identifier) : p.level (.endpoint x) < 2 := by
  rw [level]
  split_ifs <;> omega

theorem Process.Proxying.level {p : Process} {x : Identifier} (h : p.Proxying x) :
    p.level (.endpoint x) = 0 := by
  obtain ⟨e, he, hq⟩ := h
  simp [Process.level, he, hq]

/-- A thread that is about to lock an endpoint has none locked, or it is sending and the endpoint is
    the next one described. -/
theorem Process.planOf_endpoint {p : Process} {τ : ThreadId} {c : Option Call} {π : Plan}
    {y : Identifier} (hπ : p.planOf τ c = .ok π) (hy : π.lock = some (.endpoint y))
    (hidle : c.isSome → p.thread τ = .idle) : (p.thread τ).locks = [] ∨
      ∃ b m done d rest, p.thread τ = .sending b m done (d :: rest) ∧ y = d.endpointName := by
  cases c with
  | some c => exact .inl (by rw [hidle rfl]; rfl)
  | none =>
    rw [planOf] at hπ
    generalize p.thread τ = t at hπ
    cases t with
    | sending b m done ds =>
      cases ds with
      | nil =>
        cases hπ
        cases hy
      | cons d ds =>
        simp only [plan, bind_eq_ok, pure_eq_ok] at hπ
        obtain ⟨e, -, rfl⟩ := hπ
        cases hy
        exact .inr ⟨b, m, done, d, ds, rfl, rfl⟩
    | unlocking b xs =>
      cases xs with
      | nil =>
        simp only [plan] at hπ
        split at hπ <;> cases hπ <;> cases hy
      | cons x xs =>
        cases hπ
        cases hy
    | recovering _ _ _ ds | forwarding _ _ _ _ ds =>
      cases ds <;> cases hπ <;> cases hy
    | releasing | rekeying | draining =>
      cases hπ
      cases hy
    | _ => exact .inl rfl

/-! ### Nothing else is waited for -/

namespace Process
variable {p : Process} {τ : ThreadId} {supply : List Identifier} {π : Plan}

theorem acquire_blocked {x : Identifier} {s : Stop} :
    p.acquire τ x = .error s ↔ p.lock x ≠ none ∧ .blocked = s := by
  simp only [acquire, bind_eq_error, check_eq_error, pure_ne_error, and_false, exists_false,
    or_false]

theorem randomIdentifier_ne_blocked : randomIdentifier supply ≠ .error .blocked := by
  cases supply <;> simp [randomIdentifier, throw_eq_error, pure_ne_error]

theorem acceptMessage_ne_blocked {e : Endpoint} {m : Message} :
    e.acceptMessage m ≠ .error .blocked := by
  intro h
  rcases Endpoint.acceptMessage_fault h with h | h | h | h <;> simp at h

theorem deliver_blocked {peer : Identifier} {m : Message}
    (h : p.deliver τ supply peer m = .error .blocked) : p.lock peer ≠ none := by
  simp only [deliver, bind_eq_error, endpoint_fault, acquire_blocked, reduceCtorEq, and_false,
    false_or, and_true] at h
  obtain ⟨e, -, hl | ⟨_, -, h⟩⟩ := h
  · exact hl
  · cases hq : e.state <;>
      simp only [hq, Core.acceptMessageOnDelegateThread, bind_eq_error, check_eq_error,
        pure_ne_error, acceptMessage_ne_blocked, reduceCtorEq, and_false, exists_false, or_false,
        false_or] at h
    all_goals
      obtain ⟨_, -, h⟩ := h
      cases (queueExistingPipes_fault h).1

/-- A step that waits does so for an endpoint that is locked by another. -/
theorem run_blocked (h : p.run τ supply = .error .blocked) (hπ : p.planOf τ none = .ok π) :
    ∃ x, π.lock = some (.endpoint x) ∧ p.lock x ≠ none := by
  rw [planOf] at hπ
  cases ht : p.thread τ with
  | idle => simp [run, ht, throw_eq_error] at h
  | populating x m ys =>
    cases ys <;>
      simp [run, ht, populate, Core.populateEndpointDescriptor, bind_eq_error, endpoint_fault,
        pure_ne_error, randomIdentifier_ne_blocked] at h
  | checking x m ds =>
    rw [run, ht] at h
    rw [ht] at hπ
    cases ds with
    | nil =>
      simp only [checkOrRoute, bind_eq_error, endpoint_fault, check_eq_error, reduceCtorEq,
        and_false, false_or] at h
      obtain ⟨_, -, _, -, _, -, h⟩ := h
      split_ifs at h <;> exact absurd h pure_ne_error
    | cons d ds =>
      simp only [checkOrRoute, bind_eq_error, endpoint_fault, acquire_blocked, check_eq_error,
        pure_ne_error, reduceCtorEq, and_false, exists_false, or_false, false_or, and_true] at h
      obtain ⟨e, he, hl⟩ := h
      simp only [plan, bind_eq_ok, pure_eq_ok] at hπ
      obtain ⟨_, -, rfl⟩ := hπ
      exact ⟨_, rfl, hl⟩
  | delivering peer m =>
    rw [run, ht] at h
    rw [ht] at hπ
    refine ⟨peer, ?_, deliver_blocked h⟩
    simp only [plan, bind_eq_ok] at hπ
    obtain ⟨_, -, hπ⟩ := hπ
    split_ifs at hπ <;> cases hπ <;> rfl
  | sending b m done ds =>
    rw [run, ht] at h
    rw [ht] at hπ
    cases ds with
    | nil => simp [sendNext, bind_eq_error, channelTo_fault, pure_ne_error, -bind_pure_comp] at h
    | cons d ds =>
      simp only [sendNext, bind_eq_error, endpoint_fault, acquire_blocked, pure_ne_error,
        reduceCtorEq, and_false, exists_false, or_false, false_or, and_true, Prod.exists] at h
      simp only [plan, bind_eq_ok, pure_eq_ok] at hπ
      obtain ⟨_, -, rfl⟩ := hπ
      obtain ⟨e, he, hl | ⟨_, -, h | ⟨_, _, -, h⟩⟩⟩ := h
      · exact ⟨_, rfl, hl⟩
      · cases (Endpoint.takeQueuedMessages_fault h).2
      · cases (Endpoint.setProxying_fault h).2
  | unlocking b xs =>
    rw [run, ht] at h
    cases xs with
    | cons x xs => exact absurd h pure_ne_error
    | nil =>
      simp only [unlockNext] at h
      split at h
      · exact absurd h pure_ne_error
      · split at h <;> exact absurd h pure_ne_error
  | receiving m =>
    rw [ht] at hπ
    simp only [run, ht, receive, bind_eq_error, endpoint_fault, acquire_blocked, pure_ne_error,
      reduceCtorEq, and_false, exists_false, or_false, false_or, and_true] at h
    obtain ⟨e, he, hl⟩ := h
    simp only [plan, bind_eq_ok, pure_eq_ok] at hπ
    obtain ⟨_, -, rfl⟩ := hπ
    exact ⟨_, rfl, hl⟩
  | reserving r t n x =>
    rw [ht] at hπ
    simp only [run, ht, reserve, bind_eq_error, endpoint_fault, acquire_blocked, pure_ne_error,
      reduceCtorEq, and_false, exists_false, or_false, false_or, and_true] at h
    simp only [plan, bind_eq_ok, pure_eq_ok] at hπ
    obtain ⟨_, -, rfl⟩ := hπ
    obtain ⟨e, he, hl | ⟨_, -, h⟩⟩ := h
    · exact ⟨_, rfl, hl⟩
    · cases (Endpoint.setProxying_fault h).2
  | recovering x m done ds =>
    rw [run, ht] at h
    cases ds with
    | nil =>
      simp only [recoverNext, bind_eq_error, endpoint_fault, reduceCtorEq, and_false,
        false_or] at h
      obtain ⟨e, -, h⟩ := h
      cases hq : e.state <;>
        simp [hq, Endpoint.acceptMessageOnIOThread, bind_eq_error, pure_ne_error,
          acceptMessage_ne_blocked, -bind_pure_comp] at h
    | cons d ds =>
      simp only [recoverNext, Core.recoverNewMessagePipeFromEndpointDescriptor,
        Core.getNextMessagePipe, bind_eq_error, pure_ne_error, and_false, exists_false,
        or_false] at h
      rcases register_fault h with hk | ⟨hk, -⟩ <;> cases hk
  | forwarding x n m done ds =>
    rw [run, ht] at h
    cases ds with
    | nil => simp [forwardNext, bind_eq_error, channelTo_fault, pure_ne_error, -bind_pure_comp] at h
    | cons d ds =>
      simp only [forwardNext, bind_eq_error, endpoint_fault, randomIdentifier_ne_blocked,
        pure_ne_error, reduceCtorEq, and_false, exists_false, or_false, false_or, Prod.exists] at h
      obtain ⟨e, -, _, _, -, h⟩ := h
      cases (Endpoint.setProxying_fault h).2
  | draining r channel =>
    simp only [run, ht, drain, bind_eq_error, endpoint_fault, pure_ne_error, reduceCtorEq,
      and_false, exists_false, or_false, false_or] at h
    obtain ⟨e, -, h⟩ := h
    cases (Endpoint.takeQueuedMessages_fault h).2
  | inviting channel =>
    simp only [run, ht, invite, bind_eq_error, randomIdentifier_ne_blocked, pure_ne_error, false_or,
      and_false, exists_false, or_false, Prod.exists] at h
    obtain ⟨x, _, -, y, rest, -, h⟩ := h
    rcases create_fault h with hk | ⟨hk, -⟩ <;> cases hk
  | releasing | acknowledged | insertingPending =>
    simp only [run, ht] at h
    exact absurd h pure_ne_error
  | accepted x =>
    simp only [run, ht, onReceivedInvitation, Core.getNextMessagePipe, bind_eq_error,
      pure_ne_error, and_false, exists_false, or_false] at h
    cases (check_eq_error.1 h).2
  | _ =>
    simp [run, ht, rekeyInitial, accept, reply, acknowledge, rekey, createChannel, startChannel, bind_eq_error, endpoint_fault,
      channelTo_fault, pure_ne_error, randomIdentifier_ne_blocked, -bind_pure_comp] at h

/-- Making a plan fails at an assertion or not at all. -/
theorem planOf_ne_blocked {c : Option Call} : p.planOf τ c ≠ .error .blocked := by
  intro h
  cases c with
  | some c => cases c <;> simp [planOf, callPlan, bind_eq_error, pure_ne_error, -bind_pure_comp] at h
  | none =>
    rw [planOf, plan.eq_def] at h
    split at h
    case h_4 =>
      simp only [bind_eq_error, endpoint_fault, reduceCtorEq, and_false, false_or] at h
      obtain ⟨_, -, h⟩ := h
      split_ifs at h <;> exact absurd h pure_ne_error
    case h_8 => split at h <;> exact absurd h pure_ne_error
    all_goals
      first
      | exact absurd h pure_ne_error
      | simp [bind_eq_error, endpoint_fault, pure_ne_error, -bind_pure_comp] at h

theorem start_blocked {c : Call} (h : p.start τ supply c = .error .blocked)
    (hπ : p.planOf τ (some c) = .ok π) : ∃ x, π.lock = some (.endpoint x) ∧ p.lock x ≠ none := by
  cases c with
  | createMessagePipes =>
    simp only [start, createMessagePipes, bind_eq_error, randomIdentifier_ne_blocked,
      check_eq_error, pure_ne_error, false_or, reduceCtorEq, and_false, exists_false, or_false,
      Prod.exists] at h
    obtain ⟨x, _, -, y, rest, -, h⟩ := h
    rcases create_fault h with hk | ⟨hk, -⟩ <;> cases hk
  | bindReceiverDelegateToEndpoint k d r =>
    simp only [planOf, callPlan, bind_eq_ok, orFail_eq_ok, pure_eq_ok] at hπ
    obtain ⟨y, hy, rfl⟩ := hπ
    simp only [start, bindReceiverDelegateToEndpoint, bind_eq_error, orFail_eq_error, orFail_eq_ok,
      endpoint_fault, acquire_blocked, pure_ne_error, reduceCtorEq, and_false, exists_false,
      or_false, false_or, and_true] at h
    obtain ⟨x, hx, e, -, hl | ⟨_, -, h⟩⟩ := h
    · rw [hy] at hx
      cases hx
      exact ⟨_, rfl, hl⟩
    · rcases Endpoint.registerDelegate_fault h with ⟨-, hk⟩ | ⟨-, hk⟩ | ⟨-, hk⟩ <;> cases hk
  | _ =>
    simp [start, sendMessage, sendInvitationAndGetMessagePipe, acceptInvitation, bind_eq_error,
      pure_ne_error, -bind_pure_comp] at h

end Process

namespace Locking
variable {T : Topology} {s : Locking}

/-- What a thread wants is above what it holds. -/
theorem Reachable.order (h : Locking.Reachable T s) (n : Identifier) (τ : ThreadId) (l k : Lock)
    (hl : s.Wants n τ l) (hk : s.holder n k = some τ) :
    (s.network.process n).level k < (s.network.process n).level l := by
  obtain ⟨extra, ht⟩ := h.tracked n τ
  obtain ⟨rest, htodo⟩ := hl
  rw [htodo] at ht
  rcases ht.ops with ⟨π, hπ, ho⟩ | ⟨-, ho⟩
  · cases ho with
    | enter ho =>
      obtain ⟨x, -, rfl⟩ | hk := (ht.holds k).1 hk
      · exact Process.level_endpoint _ x
      · cases hk
    | last hlock =>
      obtain ⟨x, hx, rfl⟩ | hk := (ht.holds k).1 hk
      · cases l with
        | table t => exact Process.level_endpoint _ x
        | endpoint y =>
          rcases Process.planOf_endpoint hπ hlock ht.idle with hnone | ⟨b, m, done, d, ds, hs, rfl⟩
          · rw [hnone] at hx
            cases hx
          · have htok : Token.described d ∈ s.network.ports.tokens (.hand n τ) := by
              simp [Network.tokens, hs, Thread.tokens]
            rw [(h.network.locksProxies n τ (by rw [hs]; rfl) x hx).level, Process.level]
            cases hf : (s.network.process n).localEndpoints.find d.endpointName with
            | none => simp
            | some e =>
              have hq := h.network.sound.described_queueing htok rfl (by simp) hf
              simp [hq]
      · cases hk
  · cases ho with
    | enter ho =>
      obtain ⟨x, -, rfl⟩ | hk := (ht.holds k).1 hk
      · exact Process.level_endpoint _ x
      · cases List.mem_singleton.1 hk
        exact Process.level_endpoint _ _

/-- In no state of any interleaving does a thread wait, directly or through others, for itself; and a
    thread that cannot take its next step because it has to wait does wait for a lock of another. -/
theorem never_deadlocked (h : Locking.Reachable T s) (n : Identifier) (τ : ThreadId) :
    ¬ Relation.TransGen (s.Waits n) τ τ ∧
    (s.step (.run n τ) = .error .blocked → ∃ σ, σ ≠ τ ∧ s.Waits n τ σ) := by
  have hacyclic := WaitsFor.acyclic (h.order n)
  refine ⟨hacyclic τ, fun hb => ?_⟩
  obtain ⟨σ, hσ⟩ : ∃ σ, s.Waits n τ σ := by
    obtain ⟨extra, ht⟩ := h.tracked n τ
    rw [step] at hb
    split at hb
    · simp [bind_eq_error, pure_ne_error, -bind_pure_comp] at hb
      exact absurd hb.2 Process.planOf_ne_blocked
    · rename_i l rest htodo
      simp only [bind_eq_error, check_eq_error, pure_ne_error, and_false, exists_false, or_false,
        and_true] at hb
      obtain ⟨σ, hσ⟩ := Option.ne_none_iff_exists'.1 hb
      exact ⟨σ, l, ⟨rest, htodo⟩, hσ⟩
    · rename_i rest htodo
      rw [htodo] at ht
      simp only [bind_eq_error, pure_ne_error, and_false, exists_false, or_false] at hb
      obtain hb | ⟨π, hπ, hb⟩ := hb
      · exact absurd hb Process.planOf_ne_blocked
      obtain ⟨x, hx, hl⟩ : ∃ x, π.lock = some (.endpoint x) ∧
          (s.network.process n).lock x ≠ none := by
        rw [label] at hb
        rw [plan] at hπ
        cases hc : s.calling n τ with
        | none =>
          rw [hc] at hb hπ
          simp only [Label.of, Network.step, bind_eq_error, pure_ne_error, and_false, exists_false,
            or_false] at hb
          exact Process.run_blocked hb hπ
        | some c =>
          have hidle := ht.idle (by rw [hc]; rfl)
          rw [hc] at hb hπ
          simp only [Label.of, Network.step, bind_eq_error, pure_ne_error, and_false, exists_false,
            or_false, check_eq_error, Thread.isIdle_iff, hidle, not_true_eq_false, false_and,
            false_or] at hb
          obtain ⟨_, -, hb⟩ := hb
          exact Process.start_blocked hb hπ
      obtain ⟨σ, hσ⟩ := Option.ne_none_iff_exists'.1 hl
      -- the thread itself holds the lock that its step takes, and it had not had it before
      obtain ⟨-, rfl⟩ := ht.effect hπ
      have hmine : s.holder n (.endpoint x) = some τ := (ht.holds _).2 (.inr (by simp [hx]))
      obtain ⟨extra', ht'⟩ := h.tracked n σ
      have hmem : x ∈ ((s.network.process n).thread σ).locks :=
        ((h.network.exclusive n σ).2 x).2 hσ
      have htheirs : s.holder n (.endpoint x) = some σ := (ht'.holds _).2 (.inl ⟨x, hmem, rfl⟩)
      rw [hmine, Option.some.injEq] at htheirs
      subst htheirs
      exact absurd hmem (ht.apart x (by simp [hx]))
    · exact absurd hb pure_ne_error
  refine ⟨σ, ?_, hσ⟩
  rintro rfl
  exact hacyclic σ (.single hσ)

instance (T : Topology) (s : Locking) (l : Label) : Decidable (Permitted T s l) :=
  match l with
  | .run n τ => inferInstanceAs (Decidable (Mage.Permitted T s.network (s.label n τ)))
  | .call n τ c => inferInstanceAs (Decidable (Mage.Permitted T s.network (.call n τ c)))
  | .read n k => inferInstanceAs (Decidable (Mage.Permitted T s.network (.read n k)))

instance (s : Locking) (n : Identifier) (τ : ThreadId) (l : Lock) : Decidable (s.Wants n τ l) :=
  decidable_of_iff ((s.todo n τ).head? = some (.lock l)) (by
    rw [Wants]
    cases s.todo n τ <;> simp)

/-- Two threads create pipes, and one of them waits for the other. -/
theorem waiting_not_deadlocked : ∃ s : Locking,
    s.Waits Sample.inviter (.user 1) (.user 0) ∧
    ∀ τ, ¬ Relation.TransGen (s.Waits Sample.inviter) τ τ := by
  obtain ⟨s, hs, hP⟩ := (Option.any_eq_true
    (fun s : Locking => s.Wants Sample.inviter (.user 1) (.table .nextAvailableHandleLock) ∧
      s.holder Sample.inviter (.table .nextAvailableHandleLock) = some (.user 0)) _).1
    (show (Reaches.follow step (Permitted Sample.pair) (initial Sample.pair)
      [.call Sample.inviter (.user 0) .createMessagePipes, .run Sample.inviter (.user 0),
        .call Sample.inviter (.user 1) .createMessagePipes]).any _ = true by decide +kernel)
  obtain ⟨hw, hh⟩ := of_decide_eq_true hP
  exact ⟨s, ⟨_, hw, hh⟩, fun τ =>
    (never_deadlocked (Reaches.of_follow .init hs) Sample.inviter τ).1⟩

end Locking

end Mage
