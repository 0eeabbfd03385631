import Mathlib.Algebra.Group.Nat.Defs
import Mage.Ports.Refine

/-! The handle table and the endpoint table of one process. Handles are numbered from one on, and as
    long as the numbers last every endpoint gets one when it is registered; only the endpoint that
    accepts an invitation waits for its handle until the acceptance is written. -/

namespace Mage
open Lib

/-- The endpoint that a thread registered and has not given a handle yet. -/
def Thread.unhandled : Thread → Option Identifier
  | .replying _ _ x => some x
  | .accepted x => some x
  | _ => none

def Process.Unhandled (p : Process) (x : Identifier) : Prop :=
  ∃ τ, (p.thread τ).unhandled = some x

/-- Fewer handles are in use than there are numbers for, zero and the last one apart. -/
def Core.Roomy (c : Core) : Prop := c.handleTable.length < 2 ^ 32 - 1

/-- The endpoints that have a handle. -/
def Core.handled (c : Core) : List Identifier := c.handleTable.map Prod.snd

structure Core.Handles (c : Core) (unhandled : Identifier → Prop) : Prop where
  counted : c.nextAvailableHandle.toNat = c.handleTable.length + 1
  allocated : ∀ entry ∈ c.handleTable, entry.1 ≠ 0 ∧ entry.1.toNat ≤ c.handleTable.length
  once : c.handled.Nodup
  registered : ∀ x, c.localEndpoints.find x ≠ none ↔ x ∈ c.handled ∨ unhandled x
  apart : ∀ x, unhandled x → x ∉ c.handled

namespace Core

theorem placeHandle_perm (h : MessagePipe) (x : Identifier)
    (table : List (MessagePipe × Identifier)) : (placeHandle h x table).Perm ((h, x) :: table) := by
  induction table with
  | nil => exact .refl _
  | cons entry table ih =>
    obtain ⟨k, y⟩ := entry
    rw [placeHandle]
    split_ifs
    · exact .refl _
    · exact (ih.cons _).trans (.swap _ _ _)

namespace Handles
variable {c c' : Core} {U U' : Identifier → Prop} {x : Identifier}

theorem fresh (h : c.Handles U) : c.handleTable.lookup c.nextAvailableHandle = none := by
  rw [lookup_eq_none_iff]
  intro hmem
  obtain ⟨entry, hentry, heq⟩ := List.mem_map.1 hmem
  have h1 := (h.allocated entry hentry).2
  have h2 := h.counted
  rw [heq] at h1
  omega

/-- The next handle goes to an endpoint without one. -/
theorem add (h : c.Handles U)
    (ht : c'.handleTable = insertHandle c.nextAvailableHandle x c.handleTable)
    (hn : c'.nextAvailableHandle = c.nextAvailableHandle + 1) (hroom : c'.Roomy)
    (hx : x ∉ c.handled)
    (hreg : ∀ y, c'.localEndpoints.find y ≠ none ↔ c.localEndpoints.find y ≠ none ∨ y = x)
    (hU : ∀ y, U' y ↔ U y ∧ y ≠ x) : c'.Handles U' := by
  have hperm : c'.handleTable.Perm ((c.nextAvailableHandle, x) :: c.handleTable) := by
    rw [ht, insertHandle, h.fresh]
    exact placeHandle_perm _ _ _
  have hhandled : c'.handled.Perm (x :: c.handled) := hperm.map Prod.snd
  have hlen := hperm.length_eq
  rw [List.length_cons] at hlen
  have hnext : c.nextAvailableHandle.toNat = c.handleTable.length + 1 := h.counted
  rw [Roomy, hlen] at hroom
  refine ⟨?_, fun entry hentry => ?_, ?_, fun y => ?_, fun y hy => ?_⟩
  · rw [hn, UInt32.toNat_add, hnext, hlen]
    simp only [UInt32.reduceToNat]
    omega
  · rcases List.mem_cons.1 (hperm.mem_iff.1 hentry) with rfl | hold
    · refine ⟨fun hzero => ?_, by simp only; omega⟩
      have hzero : c.nextAvailableHandle = 0 := hzero
      rw [hzero] at hnext
      simp at hnext
    · obtain ⟨h1, h2⟩ := h.allocated entry hold
      exact ⟨h1, by omega⟩
  · exact hhandled.nodup_iff.2 (List.nodup_cons.2 ⟨hx, h.once⟩)
  · rw [hreg, h.registered, hhandled.mem_iff, List.mem_cons, hU]
    tauto
  · rw [hhandled.mem_iff, List.mem_cons, not_or]
    exact ⟨((hU y).1 hy).2, h.apart y ((hU y).1 hy).1⟩

theorem enroll (h : c.Handles U) (hx : c.localEndpoints.find x = none) (a : Address)
    (hroom : (c.enroll x a).Roomy) : (c.enroll x a).Handles U := by
  have hnot : ¬ (x ∈ c.handled ∨ U x) := fun hor => (h.registered x).2 hor hx
  rw [not_or] at hnot
  refine h.add (x := x) rfl rfl hroom hnot.1 (fun y => ?_) fun y => ?_
  · rw [enroll_localEndpoints, Table.find_set]
    split_ifs with hy <;> simp [hy]
  · exact ⟨fun hy => ⟨hy, fun hyx => hnot.2 (hyx ▸ hy)⟩, fun hy => hy.1⟩

/-- An endpoint is registered that has to wait for its handle. -/
theorem await (h : c.Handles U) (ht : c'.handleTable = c.handleTable)
    (hn : c'.nextAvailableHandle = c.nextAvailableHandle) (hx : c.localEndpoints.find x = none)
    (hreg : ∀ y, c'.localEndpoints.find y ≠ none ↔ c.localEndpoints.find y ≠ none ∨ y = x)
    (hU : ∀ y, U' y ↔ U y ∨ y = x) : c'.Handles U' := by
  have hnot : x ∉ c.handled := fun hmem => (h.registered x).2 (.inl hmem) hx
  refine ⟨by rw [hn, ht, h.counted], fun entry hentry => ?_, ?_, fun y => ?_, fun y hy => ?_⟩
  · rw [ht] at hentry ⊢
    exact h.allocated entry hentry
  · rw [handled, ht]
    exact h.once
  · rw [hreg, h.registered, hU, handled, handled, ht]
    tauto
  · rw [handled, ht]
    rcases (hU y).1 hy with hy | rfl
    · exact h.apart y hy
    · exact hnot

theorem same (h : c.Handles U) (ht : c'.handleTable = c.handleTable)
    (hn : c'.nextAvailableHandle = c.nextAvailableHandle)
    (hreg : ∀ y, c'.localEndpoints.find y ≠ none ↔ c.localEndpoints.find y ≠ none)
    (hU : ∀ y, U' y ↔ U y) : c'.Handles U' := by
  refine ⟨by rw [hn, ht, h.counted], fun entry hentry => ?_, ?_, fun y => ?_, fun y hy => ?_⟩
  · rw [ht] at hentry ⊢
    exact h.allocated entry hentry
  · rw [handled, ht]
    exact h.once
  · rw [hreg, h.registered, hU, handled, handled, ht]
  · rw [handled, ht]
    exact h.apart y ((hU y).1 hy)

end Handles

theorem Roomy.of_enroll {c : Core} {x : Identifier} {a : Address} (h : (c.enroll x a).Roomy) :
    c.Roomy := by
  have hle : c.handleTable.length ≤ (c.enroll x a).handleTable.length := by
    rw [enroll_handleTable, insertHandle]
    split
    · exact Nat.le_refl _
    · rw [(placeHandle_perm _ _ _).length_eq]
      exact Nat.le_succ _
  exact Nat.lt_of_le_of_lt hle h

end Core

namespace Process.Move
variable {p : Process} {τ : ThreadId} {supply : List Identifier} {c : Option Call} {o : Outcome}

theorem unhandled_same (h : p.Move τ supply c o)
    (ht : (o.process.thread τ).unhandled = (p.thread τ).unhandled) (x : Identifier) :
    o.process.Unhandled x ↔ p.Unhandled x := by
  refine exists_congr fun σ => ?_
  by_cases hσ : σ = τ
  · rw [hσ, ht]
  · rw [h.thread_other hσ]

/-- Only the thread that reads the sockets registers an endpoint without a handle. -/
theorem unhandled_io (hio : ∀ k, (p.thread (.user k)).ioOnly = false) {x : Identifier}
    (hτ : (p.thread τ).unhandled = some x) : τ = .io := by
  cases τ with
  | io => rfl
  | user k =>
    have := hio k
    cases hth : p.thread (.user k) <;> simp_all [Thread.unhandled, Thread.ioOnly]

/-- Which endpoints are registered after a step that writes one of them. -/
theorem registered_set {t : Table Identifier Endpoint} {x : Identifier} {e : Endpoint}
    (he : t.find x = some e) (e' : Endpoint) (y : Identifier) : (t.set x e').find y ≠ none ↔ t.find y ≠ none := by
  rw [Table.find_set]
  split_ifs with hy
  · simp [hy, he]
  · rfl

theorem handles (h : p.Move τ supply c o) (hi : c.isSome → p.thread τ = .idle)
    (hio : ∀ k, (p.thread (.user k)).ioOnly = false)
    (hnew : ∀ x ∈ supply, p.localEndpoints.find x = none)
    (hp : p.Roomy → p.toCore.Handles p.Unhandled) (hroom : o.process.Roomy) :
    o.process.toCore.Handles o.process.Unhandled := by
  have hU := fun ht => h.unhandled_same ht
  cases h with
  | createMessagePipes hs hx hy hxy =>
    have hroom₁ : (p.toCore.enroll _ _).Roomy := Core.Roomy.of_enroll hroom
    exact ((hp (Core.Roomy.of_enroll hroom₁)).enroll hx _ hroom₁).enroll
      (by simp [hxy.symm, hy]) _ hroom
  | invite ht hs hx hy hxy =>
    have hroom₁ : (p.toCore.enroll _ _).Roomy := Core.Roomy.of_enroll hroom
    exact (((hp (Core.Roomy.of_enroll hroom₁)).enroll hx _ hroom₁).enroll
      (by simp [hxy.symm, hy]) _ hroom).same rfl rfl (fun _ => .rfl)
      (hU (by simp [ht, Thread.unhandled]))
  | recover ht hd =>
    exact ((hp (Core.Roomy.of_enroll hroom)).enroll hd _ hroom).same rfl rfl (fun _ => .rfl)
      (hU (by simp [ht, Thread.unhandled]))
  | @accept i t x name rest ht hs =>
    have hname := hnew name (by simp [hs])
    refine (hp hroom).await rfl rfl hname (fun y => ?_) fun y => ?_
    · simp only [goto_toCore, Table.insert_of_absent hname, Table.find_set]
      split_ifs with hy <;> simp [hy]
    · constructor
      · rintro ⟨σ, hσ⟩
        by_cases hστ : σ = τ
        · simp only [hστ, goto_thread, upd₁_apply, if_true, Thread.unhandled,
            Option.some.injEq] at hσ
          exact .inr hσ.symm
        · exact .inl ⟨σ, by simpa [hστ] using hσ⟩
      · rintro (⟨σ, hσ⟩ | rfl)
        · have hστ : σ ≠ τ := by
            rintro rfl
            simp [ht, Thread.unhandled] at hσ
          exact ⟨σ, by simpa [hστ] using hσ⟩
        · exact ⟨τ, by simp [Thread.unhandled]⟩
  | @accepted x ht hc =>
    have hroom₁ : p.Roomy := by
      refine Core.Roomy.of_enroll (x := x) (a := ⟨[], []⟩) ?_
      exact hroom
    have hold := hp hroom₁
    have only : ∀ {σ y}, (p.thread σ).unhandled = some y → σ = τ := fun hσ =>
      (unhandled_io hio hσ).trans (unhandled_io hio (τ := τ) (x := x) (by simp [ht, Thread.unhandled])).symm
    have hx : p.Unhandled x := ⟨τ, by simp [ht, Thread.unhandled]⟩
    refine hold.add (x := x) rfl rfl hroom (hold.apart x hx) (fun y => ?_) fun y => ?_
    · constructor
      · exact .inl
      · rintro (hy | rfl)
        · exact hy
        · exact (hold.registered y).2 (.inr hx)
    · constructor
      · rintro ⟨σ, hσ⟩
        by_cases hστ : σ = τ
        · simp [hστ, Thread.unhandled] at hσ
        · exact absurd (only (σ := σ) (y := y) (by simpa [hστ] using hσ)) hστ
      · rintro ⟨⟨σ, hσ⟩, hne⟩
        obtain rfl := only hσ
        simp only [ht, Thread.unhandled, Option.some.injEq] at hσ
        exact absurd hσ.symm hne
  | bindReceiver _ he =>
    exact (hp hroom).same rfl rfl (registered_set he _) (hU (by simp [hi]))
  | take ht he | reserve ht he | drain ht he =>
    exact (hp hroom).same rfl rfl (registered_set he _) (hU (by simp [ht, Thread.unhandled]))
  | forward ht _ he =>
    exact (hp hroom).same rfl rfl (registered_set he _) (hU (by simp [ht, Thread.unhandled]))
  | deliver ht he | dispatch ht he =>
    exact (hp hroom).same rfl rfl (registered_set he _) (hU (by simp [ht, Thread.unhandled]))
  | reply ht => exact (hp hroom).same rfl rfl (fun _ => .rfl) (hU (by simp [ht, Thread.unhandled]))
  | acceptInvitation => exact (hp hroom).same rfl rfl (fun _ => .rfl) (hU rfl)
  | sendMessage | sendInvitation =>
    exact (hp hroom).same rfl rfl (fun _ => .rfl) (hU (by simp [hi, Thread.unhandled]))
  | _ => exact (hp hroom).same rfl rfl (fun _ => .rfl) (hU (by simp_all [Thread.unhandled]))

end Process.Move

theorem Reachable.handles {T : Topology} {s : Network} (h : Reachable T s) (n : Identifier)
    (hroom : (s.process n).Roomy) : (s.process n).toCore.Handles (s.process n).Unhandled := by
  revert hroom
  refine Reachable.forall_process (P := fun _ p => p.Roomy → p.toCore.Handles p.Unhandled)
    (fun n hroom => ?_) (fun s n τ c o hr hp ha => ?_) (fun s n ch m rest hr hp hc hroom => ?_) h n
  · refine ⟨rfl, fun entry hentry => (by cases hentry), List.nodup_nil, fun x => ?_, fun x hx => ?_⟩
    · simp [Network.initialProcess, Core.handled, Process.Unhandled, Thread.unhandled]
    · obtain ⟨τ, hτ⟩ := hx
      cases hτ
  · exact ha.move.handles ha.idle (hr.channels n).ioOnly (fun x hx => hr.sound.fresh x hx n) hp
  · refine (hp hroom).same rfl rfl (fun _ => .rfl) fun x => exists_congr fun σ => ?_
    by_cases hσ : σ = .io
    · subst hσ
      rw [hc.idle]
      cases m <;> simp [Process.onReceivedMessage, Thread.unhandled]
    · simp [hσ]

/-! ### However many handles there are -/

/-- No endpoint has two handles, even once their numbers begin anew. -/
structure Core.Single (c : Core) (unhandled : Identifier → Prop) : Prop where
  once : c.handled.Nodup
  registered : ∀ x, x ∈ c.handled ∨ unhandled x → c.localEndpoints.find x ≠ none
  apart : ∀ x, unhandled x → x ∉ c.handled

theorem Core.handled_insertHandle (h : MessagePipe) (x : Identifier)
    (table : List (MessagePipe × Identifier)) :
    (insertHandle h x table).map Prod.snd = table.map Prod.snd ∨
      ((insertHandle h x table).map Prod.snd).Perm (x :: table.map Prod.snd) := by
  rw [insertHandle]
  split
  · exact .inl rfl
  · exact .inr ((placeHandle_perm h x table).map Prod.snd)

namespace Core.Single
variable {c c' : Core} {U U' : Identifier → Prop} {x : Identifier}

/-- The next handle is for an endpoint without one, if it is for any. -/
theorem add (h : c.Single U)
    (ht : c'.handleTable = insertHandle c.nextAvailableHandle x c.handleTable)
    (hx : x ∉ c.handled) (hxc : c'.localEndpoints.find x ≠ none)
    (hreg : ∀ y, c.localEndpoints.find y ≠ none → c'.localEndpoints.find y ≠ none)
    (hU : ∀ y, U' y → U y ∧ y ≠ x) : c'.Single U' := by
  have hhandled : c'.handled = c.handled ∨ c'.handled.Perm (x :: c.handled) := by
    rw [handled, ht]
    exact handled_insertHandle _ _ _
  have hmem : ∀ y, y ∈ c'.handled → y = x ∨ y ∈ c.handled := by
    intro y hy
    rcases hhandled with heq | hperm
    · exact .inr (heq ▸ hy)
    · exact List.mem_cons.1 (hperm.mem_iff.1 hy)
  refine ⟨?_, fun y hy => ?_, fun y hy hin => ?_⟩
  · rcases hhandled with heq | hperm
    · exact heq ▸ h.once
    · exact hperm.nodup_iff.2 (List.nodup_cons.2 ⟨hx, h.once⟩)
  · rcases hy with hy | hy
    · rcases hmem y hy with rfl | hy
      · exact hxc
      · exact hreg y (h.registered y (.inl hy))
    · exact hreg y (h.registered y (.inr (hU y hy).1))
  · rcases hmem y hin with rfl | hin
    · exact (hU y hy).2 rfl
    · exact h.apart y (hU y hy).1 hin

theorem enroll (h : c.Single U) (hx : c.localEndpoints.find x = none) (a : Address) :
    (c.enroll x a).Single U := by
  refine h.add (x := x) rfl (fun hmem => h.registered x (.inl hmem) hx) (by simp) (fun y hy => ?_)
    fun y hy => ⟨hy, ?_⟩
  · rw [enroll_localEndpoints, Table.find_set]
    split_ifs
    · exact Option.some_ne_none _
    · exact hy
  · rintro rfl
    exact h.registered y (.inr hy) hx

theorem same (h : c.Single U) (ht : c'.handleTable = c.handleTable)
    (hreg : ∀ y, c.localEndpoints.find y ≠ none → c'.localEndpoints.find y ≠ none)
    (hU : ∀ y, U' y → U y ∨ (c'.localEndpoints.find y ≠ none ∧ y ∉ c.handled)) : c'.Single U' := by
  have hhandled : c'.handled = c.handled := by rw [handled, ht]; rfl
  refine ⟨hhandled ▸ h.once, fun y hy => ?_, fun y hy => ?_⟩
  · rw [hhandled] at hy
    rcases hy with hy | hy
    · exact hreg y (h.registered y (.inl hy))
    · rcases hU y hy with hy | hy
      · exact hreg y (h.registered y (.inr hy))
      · exact hy.1
  · rw [hhandled]
    rcases hU y hy with hy | hy
    · exact h.apart y hy
    · exact hy.2

end Core.Single

theorem Process.Move.single {p : Process} {τ : ThreadId} {supply : List Identifier}
    {c : Option Call} {o : Outcome} (h : p.Move τ supply c o)
    (hi : c.isSome → p.thread τ = .idle) (hio : ∀ k, (p.thread (.user k)).ioOnly = false)
    (hnew : ∀ x ∈ supply, p.localEndpoints.find x = none)
    (hp : p.toCore.Single p.Unhandled) : o.process.toCore.Single o.process.Unhandled := by
  have hU := fun ht => h.unhandled_same ht
  have hreg : ∀ y, p.localEndpoints.find y ≠ none → o.process.localEndpoints.find y ≠ none := by
    intro y hy
    obtain ⟨e, he⟩ := Option.ne_none_iff_exists'.1 hy
    obtain ⟨e', he', -⟩ := h.later y e he
    rw [he']
    exact Option.some_ne_none e'
  cases h with
  | createMessagePipes hs hx hy hxy => exact (hp.enroll hx _).enroll (by simp [hxy.symm, hy]) _
  | invite ht hs hx hy hxy =>
    exact ((hp.enroll hx _).enroll (by simp [hxy.symm, hy]) _).same rfl (fun _ h => h)
      fun z hz => .inl ((hU (by simp [ht, Thread.unhandled]) z).1 hz)
  | recover ht hd =>
    exact (hp.enroll hd _).same rfl (fun _ h => h)
      fun z hz => .inl ((hU (by simp [ht, Thread.unhandled]) z).1 hz)
  | @accept i t x name rest ht hs =>
    have hname := hnew name (by simp [hs])
    refine hp.same rfl hreg fun y hy => ?_
    obtain ⟨σ, hσ⟩ := hy
    by_cases hστ : σ = τ
    · simp only [hστ, goto_thread, upd₁_apply, if_true, Thread.unhandled, Option.some.injEq] at hσ
      subst hσ
      refine .inr ⟨?_, fun hin => hp.registered name (.inl hin) hname⟩
      simp [Table.insert_of_absent hname]
    · exact .inl ⟨σ, by simpa [hστ] using hσ⟩
  | @accepted x ht hc =>
    have hx : p.Unhandled x := ⟨τ, by simp [ht, Thread.unhandled]⟩
    refine hp.add (x := x) rfl (hp.apart x hx) (hp.registered x (.inr hx)) hreg fun y hy => ?_
    obtain ⟨σ, hσ⟩ := hy
    by_cases hστ : σ = τ
    · simp [hστ, Thread.unhandled] at hσ
    · have hσ : (p.thread σ).unhandled = some y := by simpa [hστ] using hσ
      have hτ : (p.thread τ).unhandled = some x := by simp [ht, Thread.unhandled]
      exact absurd ((unhandled_io hio hσ).trans (unhandled_io hio hτ).symm) hστ
  | bindReceiver | acceptInvitation | sendMessage | sendInvitation =>
    exact hp.same rfl hreg fun y hy => .inl ((hU (by simp [hi, Thread.unhandled]) y).1 hy)
  | take ht | reserve ht | drain ht | deliver ht | dispatch ht | forward ht | reply ht =>
    exact hp.same rfl hreg fun y hy => .inl ((hU (by simp [ht, Thread.unhandled]) y).1 hy)
  | _ => exact hp.same rfl hreg fun y hy => .inl ((hU (by simp_all [Thread.unhandled]) y).1 hy)

theorem Reachable.single {T : Topology} {s : Network} (h : Reachable T s) (n : Identifier) :
    (s.process n).toCore.Single (s.process n).Unhandled := by
  refine Reachable.forall_process (P := fun _ p => p.toCore.Single p.Unhandled)
    (fun n => ?_) (fun s n τ c o hr hp ha => ?_) (fun s n ch m rest hr hp hc => ?_) h n
  · refine ⟨List.nodup_nil, fun x hx => ?_, fun x hx => ?_⟩
    · simp [Network.initialProcess, Core.handled, Process.Unhandled, Thread.unhandled] at hx
    · obtain ⟨τ, hτ⟩ := hx
      cases hτ
  · exact ha.move.single ha.idle (hr.channels n).ioOnly (fun x hx => hr.sound.fresh x hx n) hp
  · refine hp.same rfl (fun _ hy => hy) fun x hx => .inl ?_
    obtain ⟨σ, hσ⟩ := hx
    by_cases hio : σ = .io
    · subst hio
      cases m <;> simp [Process.onReceivedMessage, Thread.unhandled] at hσ
    · exact ⟨σ, by simpa [hio] using hσ⟩

end Mage
