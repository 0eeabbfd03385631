import Mage.Model.Moves

/-! Mutual exclusion. Each point a thread can be at holds a fixed list of endpoint locks; in every
    reachable state a lock is owned by exactly the thread whose list it is in. -/

namespace Mage
open Lib

/-- The lock that the caller of `SendMessagesAndRecursiveDependents` holds throughout. -/
def Caller.locks : Caller → List Identifier
  | .sendMessage => []
  | .sendMessageToProxy x => [x]
  | .onReceivedAcceptInvitation r _ => [r]

/-- The endpoints whose locks a thread holds. -/
def Thread.locks : Thread → List Identifier
  | .sending b _ done _ => done.map (·.endpointName) ++ b.caller.locks
  | .unlocking b locked => locked ++ b.caller.locks
  | .recovering x _ _ _ => [x]
  | .forwarding x _ _ _ _ => [x]
  | .releasing x => [x]
  | .rekeying r _ _ => [r]
  | .draining r _ => [r]
  | _ => []

/-- Each thread owns the locks on its list, each once, and no others. -/
def Exclusive (thread : ThreadId → Thread) (lock : Identifier → Option ThreadId) : Prop :=
  ∀ τ, (thread τ).locks.Nodup ∧ ∀ x, x ∈ (thread τ).locks ↔ lock x = some τ

namespace Exclusive
variable {thread : ThreadId → Thread} {lock : Identifier → Option ThreadId} {τ : ThreadId}
  {t : Thread} {x : Identifier}

theorem same (h : Exclusive thread lock) (ht : t.locks = (thread τ).locks) :
    Exclusive (upd₁ thread τ t) lock := by
  intro σ
  by_cases hσ : σ = τ
  · subst hσ
    simpa [ht] using h σ
  · simpa [hσ] using h σ

theorem acquire (h : Exclusive thread lock) (hx : lock x = none)
    (ht : t.locks.Perm (x :: (thread τ).locks)) :
    Exclusive (upd₁ thread τ t) (upd₁ lock x (some τ)) := by
  intro σ
  by_cases hσ : σ = τ
  · subst hσ
    have hxt : x ∉ (thread σ).locks := by simp [(h σ).2, hx]
    refine ⟨by simpa [ht.nodup_iff, hxt] using (h σ).1, fun y => ?_⟩
    by_cases hy : y = x <;> simp [ht.mem_iff, hy, (h σ).2]
  · refine ⟨by simpa [hσ] using (h σ).1, fun y => ?_⟩
    by_cases hy : y = x
    · subst hy
      simp [hσ, (h σ).2, hx, Ne.symm hσ]
    · simp [hσ, hy, (h σ).2]

theorem release (h : Exclusive thread lock) (ht : (thread τ).locks.Perm (x :: t.locks)) :
    Exclusive (upd₁ thread τ t) (upd₁ lock x none) := by
  have hnd : (x :: t.locks).Nodup := ht.nodup_iff.1 (h τ).1
  have hx : lock x = some τ := (h τ).2 x |>.1 (ht.mem_iff.2 (by simp))
  intro σ
  by_cases hσ : σ = τ
  · subst hσ
    refine ⟨by simpa using hnd.of_cons, fun y => ?_⟩
    by_cases hy : y = x
    · subst hy
      simp [(List.nodup_cons.1 hnd).1]
    · have := (h σ).2 y
      simp only [ht.mem_iff, List.mem_cons, hy, false_or] at this
      simp [hy, this]
  · refine ⟨by simpa [hσ] using (h σ).1, fun y => ?_⟩
    by_cases hy : y = x
    · subst hy
      simp [hσ, (h σ).2, hx, Ne.symm hσ]
    · simp [hσ, hy, (h σ).2]

/-- A lock taken and given back within one step. -/
theorem passing (h : Exclusive thread lock) (hx : lock x = none) (o : Option ThreadId) :
    Exclusive thread (upd₁ (upd₁ lock x o) x none) := by
  have hsame : upd₁ (upd₁ lock x o) x none = lock := by
    funext y
    by_cases hy : y = x <;> simp [hy, hx]
  rwa [hsame]

/-- Two threads never own one lock. -/
theorem eq_of_mem (h : Exclusive thread lock) {σ : ThreadId} (hτ : x ∈ (thread τ).locks)
    (hσ : x ∈ (thread σ).locks) : τ = σ := by
  have h1 := ((h τ).2 x).1 hτ
  have h2 := ((h σ).2 x).1 hσ
  simpa [h1] using h2

end Exclusive

/-- One step of a thread keeps the locks exclusive. -/
theorem Process.Move.exclusive {p : Process} {τ : ThreadId} {supply : List Identifier}
    {c : Option Call} {o : Outcome} (h : p.Move τ supply c o) (hi : c.isSome → p.thread τ = .idle)
    (hp : Exclusive p.thread p.lock) : Exclusive o.process.thread o.process.lock := by
  cases h with
  | createMessagePipes => exact hp
  | acceptInvitation => exact hp
  | sendMessage | sendInvitation => exact hp.same (by simp [Thread.locks, hi])
  | bindReceiver _ _ hl => exact hp.passing hl _
  | checkSent ht _ hl | deliver ht _ hl =>
    exact (hp.same (by simp [Thread.locks, ht])).passing hl _
  | deliverToProxy ht _ hl => exact hp.acquire hl (by simp [Thread.locks, Caller.locks, ht])
  | take ht _ hl =>
    refine hp.acquire hl ?_
    simp [Thread.locks, ht]
  | receive ht _ hl => exact hp.acquire hl (by simp [Thread.locks, ht])
  | reserve ht _ hl => exact hp.acquire hl (by simp [Thread.locks, ht])
  | unlock ht => exact hp.release (by simp [Thread.locks, ht])
  | sentToProxy ht _ hb => exact hp.release (by simp [Thread.locks, Caller.locks, ht, hb])
  | drained ht _ hb => exact hp.release (by simp [Thread.locks, Caller.locks, ht, hb])
  | releaseTarget ht => exact hp.release (by simp [Thread.locks, ht])
  | sent ht _ hb => exact hp.same (by simp [Thread.locks, Caller.locks, ht, hb])
  | next ht hm => exact hp.same (by simp [Thread.locks, ht])
  | write ht => exact hp.same (by simp [Thread.locks, ht])
  | drain ht => exact hp.same (by simp [Thread.locks, Caller.locks, ht])
  | routeRemote ht => exact hp.same (by simp [Thread.locks, Caller.locks, ht])
  | populated ht | populate ht | routeLocal ht | recover ht | relay ht | dispatch ht | forward ht
  | writeForwarded ht | rekeyInitial ht | accept ht | reply ht | accepted ht | acknowledge ht
  | rekey ht | acknowledged ht | invite ht | createChannel ht | insertPending ht
  | startChannel ht => exact hp.same (by simp [Thread.locks, ht])

end Mage
