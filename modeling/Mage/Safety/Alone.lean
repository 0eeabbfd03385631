import Mage.Safety.Journeys
import Mage.Safety.Neighbours

/-! Nodes that do one thing at a time: while a thread of a node is under way, the node begins no other
    call and reads nothing. The nodes still take their steps in any order. Then messages are written in
    turn, and what is sent over stays where it is until its message is under way. -/

namespace Mage
open Lib

/-- A node begins a call or reads a message when no thread of it is under way. -/
def OneAtATime (s : Network) : Label → Prop
  | .call n _ _ | .read n _ => ∀ τ, (s.process n).thread τ = .idle
  | .run _ _ => True

/-- At most one thread of a node is under way. -/
def Network.Lone (s : Network) : Prop := ∀ n τ σ, (s.process n).thread τ ≠ .idle →
  (s.process n).thread σ ≠ .idle → τ = σ

section
variable {T : Topology} {s : Network} {n : Identifier} {τ : ThreadId} {c : Option Call} {o : Outcome}

/-- When a thread acts, all others of its node are idle. -/
theorem Act.alone (ha : Act T s n τ c o) (hl : s.Lone) (hok : OneAtATime s (.of n τ c))
    {σ : ThreadId} (hσ : σ ≠ τ) : (s.process n).thread σ = .idle := by
  cases c with
  | some c => exact hok σ
  | none =>
    by_contra hbusy
    exact hσ (hl n σ τ hbusy ha.move.not_idle)

/-- One node is left with one thread under way. -/
theorem Network.Lone.step {s' : Network} (hl : s.Lone)
    (hone : ∀ k σ, (s'.process k).thread σ ≠ .idle →
      (k = n ∧ σ = τ) ∨ k ≠ n ∧ (s.process k).thread σ ≠ .idle) : s'.Lone := by
  intro k σ ρ hσ hρ
  rcases hone k σ hσ with ⟨rfl, rfl⟩ | ⟨hk, hσ⟩
  · rcases hone k ρ hρ with ⟨-, rfl⟩ | ⟨hk, -⟩
    · rfl
    · exact absurd rfl hk
  · rcases hone k ρ hρ with ⟨rfl, -⟩ | ⟨-, hρ⟩
    · exact absurd rfl hk
    · exact hl k σ ρ hσ hρ

theorem ReachableBy.lone (hs : ReachableBy T OneAtATime s) : s.Lone := by
  refine hs.induct (fun n τ σ h => absurd rfl h) (fun s n τ c o hr hl ha hok => ?_)
    fun s n ch m rest hr hl hc hok => ?_
  · refine hl.step (n := n) (τ := τ) fun k σ hσ => ?_
    rcases ha.thread_apply k σ with ⟨hk, hστ, -⟩ | hth
    · exact .inl ⟨hk, hστ⟩
    · rw [hth] at hσ
      by_cases hk : k = n
      · subst hk
        by_contra hne
        exact hσ (ha.alone hl hok fun h => hne (.inl ⟨rfl, h⟩))
      · exact .inr ⟨hk, hσ⟩
  · refine hl.step (n := n) (τ := .io) fun k σ hσ => ?_
    rcases Receipt.thread_consume s n ch m rest k σ with ⟨hk, hio, -⟩ | hth
    · exact .inl ⟨hk, hio⟩
    · rw [hth] at hσ
      by_cases hk : k = n
      · subst hk
        exact absurd (hok σ) hσ
      · exact .inr ⟨hk, hσ⟩

/-- Then whatever a thread writes, no other thread of its node has anything to write. -/
theorem ReachableBy.inTurn (hs : ReachableBy T OneAtATime s) : ReachableBy T InTurn s := by
  refine hs.mono_of_reaches fun s l hs hok => ⟨hok.1, ?_⟩
  cases l with
  | call | read => trivial
  | run n τ =>
    intro x a hw e he ha σ hσ
    have hτ : (s.process n).thread τ ≠ .idle := by
      intro hi
      rw [hi] at hw
      cases hw
    have hidle : (s.process n).thread σ = .idle := by
      by_contra hbusy
      exact hσ (ReachableBy.lone hs n σ τ hbusy hτ)
    rw [Network.box, hidle]
    rfl

end

/-- All calls come from one thread, and nothing begins while that thread or the IO thread is under
    way. -/
def Orderly (s : Network) : Label → Prop
  | .call n τ _ => τ = .user 0 ∧ ((s.process n).thread .io).isIdle ∧
      ((s.process n).thread (.user 0)).isIdle
  | .read n _ => ((s.process n).thread .io).isIdle ∧ ((s.process n).thread (.user 0)).isIdle
  | .run _ _ => True

instance (s : Network) (l : Label) : Decidable (Orderly s l) :=
  match l with
  | .call n τ _ => inferInstanceAs (Decidable (τ = .user 0 ∧ ((s.process n).thread .io).isIdle ∧
      ((s.process n).thread (.user 0)).isIdle))
  | .read n _ => inferInstanceAs (Decidable (((s.process n).thread .io).isIdle ∧
      ((s.process n).thread (.user 0)).isIdle))
  | .run _ _ => .isTrue trivial

section
variable {T : Topology} {s : Network}

/-- Then no other thread is ever under way. -/
theorem ReachableBy.two_threads (hs : ReachableBy T Orderly s) (n : Identifier) (τ : ThreadId)
    (hτ : (s.process n).thread τ ≠ .idle) : τ = .io ∨ τ = .user 0 := by
  refine hs.induct (P := fun s => ∀ n τ, (s.process n).thread τ ≠ .idle → τ = .io ∨ τ = .user 0)
    (fun n τ h => absurd rfl h) (fun s n τ c o hr hs ha hok k σ hσ => ?_)
    (fun s n ch m rest hr hs hc hok k σ hσ => ?_) n τ hτ
  · rcases ha.thread_apply k σ with ⟨rfl, rfl, -⟩ | hth
    · cases c with
      | some c => exact .inr hok.1
      | none => exact hs k σ ha.move.not_idle
    · exact hs k σ (hth ▸ hσ)
  · rcases Receipt.thread_consume s n ch m rest k σ with ⟨-, rfl, -⟩ | hth
    · exact .inl rfl
    · exact hs k σ (hth ▸ hσ)

/-- So whatever begins finds the whole node idle. -/
theorem Orderly.oneAtATime {l : Label} (hs : ReachableBy T Orderly s) (hok : Orderly s l) :
    OneAtATime s l := by
  have idle : ∀ {n}, ((s.process n).thread .io).isIdle → ((s.process n).thread (.user 0)).isIdle →
      ∀ τ, (s.process n).thread τ = .idle := by
    intro n hio huser τ
    by_contra hbusy
    rcases hs.two_threads n τ hbusy with rfl | rfl
    · exact hbusy (Thread.isIdle_iff.1 hio)
    · exact hbusy (Thread.isIdle_iff.1 huser)
  cases l with
  | call n τ c => exact idle hok.2.1 hok.2.2
  | read n ch => exact idle hok.1 hok.2
  | run => trivial

theorem ReachableBy.oneAtATime (hs : ReachableBy T Orderly s) : ReachableBy T OneAtATime s :=
  Reaches.mono_of_reaches (fun _ _ hs hok => ⟨hok.1, hok.2.oneAtATime hs⟩) hs

end

/-! ### What is sent over -/

/-- The endpoints that the message of a call takes along. -/
def Thread.bearing : Thread → List Identifier
  | .populating _ m rest => m.endpointsInMessage.map (·.endpointName) ++ rest
  | .checking _ m _ => m.endpointsInMessage.map (·.endpointName)
  | _ => []

theorem Process.Move.bearing {p : Process} {τ : ThreadId} {supply : List Identifier}
    {c : Option Call} {o : Outcome} (h : p.Move τ supply c o) (hi : c.isSome → p.thread τ = .idle)
    (hn : Named p.localEndpoints) {x : Identifier} (hx : (o.process.thread τ).carrier = some x) :
    (∃ k id body pipes, c = some (.sendMessage k id body pipes) ∧ p.findHandle k = some x ∧
      ∀ y ∈ p.held, y ∈ o.process.held ∨ y ∈ (o.process.thread τ).bearing) ∨
    (p.thread τ).carrier = some x ∧ o.process.held = p.held ∧
      ∀ y ∈ (p.thread τ).bearing, y ∈ (o.process.thread τ).bearing := by
  cases h with
  | createMessagePipes | bindReceiver | acceptInvitation =>
    change (p.thread τ).carrier = _ at hx
    rw [hi rfl] at hx
    cases hx
  | @sendMessage k id body pipes y xs h1 h2 =>
    simp only [goto_thread, upd₁_apply, if_true, Thread.carrier, Option.some.injEq] at hx
    subst hx
    refine .inl ⟨_, _, _, _, rfl, h1, fun z hz => ?_⟩
    by_cases hzs : z ∈ xs
    · exact .inr (by simp [Thread.bearing, hzs])
    · exact .inl (by simp [hz, hzs])
  | populated h1 | checkSent h1 =>
    rw [h1]
    exact .inr ⟨by simpa [Thread.carrier] using hx, rfl, by simp [Thread.bearing]⟩
  | @populate y z name m ys rest e h1 hs he =>
    rw [h1]
    refine .inr ⟨by simpa [Thread.carrier] using hx, rfl, fun w hw => ?_⟩
    have hname := hn z e he
    simp only [Thread.bearing, List.mem_append, List.mem_cons] at hw
    simp only [goto_thread, upd₁_apply, if_true, Thread.bearing, List.map_append, List.mem_append,
      List.map_cons, List.map_nil, List.mem_singleton]
    rcases hw with hw | rfl | hw
    · exact .inl (.inl hw)
    · exact .inl (.inr hname.symm)
    · exact .inr hw
  | _ => simp [Thread.carrier] at hx

section
variable {T : Topology} {s : Network} {n : Identifier} {τ : ThreadId}

/-- What a thread sends over is still the embedder's, or goes along with the message. -/
theorem ReachableBy.bearing (hs : ReachableBy T OneAtATime s) {x : Identifier}
    (hx : ((s.process n).thread τ).carrier = some x) :
    x ∈ (s.process n).held ∨ x ∈ ((s.process n).thread τ).bearing := by
  refine hs.induct (P := fun s => ∀ n τ x, ((s.process n).thread τ).carrier = some x →
    x ∈ (s.process n).held ∨ x ∈ ((s.process n).thread τ).bearing)
    (fun n τ x hx => (by cases hx)) (fun s n τ c o hr hs ha hok k σ x hx => ?_)
    (fun s n ch m rest hr hs hc hok k σ x hx => ?_) n τ x hx
  · simp only [Network.apply_process, upd₁_apply] at hx ⊢
    by_cases hk : k = n
    · subst hk
      simp only [if_true] at hx ⊢
      by_cases hσ : σ = τ
      · subst hσ
        rcases ha.move.bearing ha.idle (hr.reachable.named k) hx with
          ⟨h, id, body, pipes, rfl, hk, hheld⟩ | ⟨hold, hheld, hbear⟩
        · obtain ⟨hp, -⟩ := ha.allowed _ rfl
          rw [hk, Option.any_some, decide_eq_true_eq] at hp
          exact hheld x hp
        · rw [hheld]
          exact (hs k σ x hold).imp_right (hbear x)
      · rw [ha.move.thread_other hσ, ha.alone hr.lone hok hσ] at hx
        cases hx
    · simp only [if_neg hk] at hx ⊢
      exact hs k σ x hx
  · simp only [Network.consume_process, upd₁_apply] at hx ⊢
    by_cases hk : k = n
    · subst hk
      simp only [if_true, Process.goto_thread, upd₁_apply] at hx
      split_ifs at hx with hσ
      · cases m <;> cases hx
      · rw [hok σ] at hx
        cases hx
    · simp only [if_neg hk] at hx ⊢
      exact hs k σ x hx

/-- What the embedder or a thread holds the right to is linked to nothing. -/
theorem Reachable.unlinked (hs : Reachable T s) {P : Place} {tok : Token} {a b : Address}
    (htok : tok ∈ s.ports.tokens P) (hc : Claims a P tok) (hne : ∀ x, tok ≠ .reserved x) :
    ¬ s.ports.Next a b := by
  have hports := hs.sound.ports
  intro hab
  rcases hs.next_cases hab with ⟨p, hp⟩ | ⟨⟨p, hp⟩, Q, hQ, hn⟩
  · exact hports.rights.not_proxying htok hc hp
  · have hreg : s.ports.port a ≠ none := by simp [hp]
    obtain ⟨-, heq⟩ := (hports.rights.once a hreg).token_eq htok hc hQ ⟨hn, rfl⟩
    exact hne _ heq

/-- What a thread sends over is linked to nothing. -/
theorem ReachableBy.carrier_unlinked (hs : ReachableBy T OneAtATime s) {x : Identifier}
    (hx : ((s.process n).thread τ).carrier = some x) (b : Address) :
    ¬ s.ports.Next ⟨n, x⟩ b := by
  have hr := hs.reachable
  rcases hs.bearing hx with hheld | hbear
  · have htok : .right x ∈ s.ports.tokens (.held n) := List.mem_map_of_mem hheld
    exact hr.unlinked htok ⟨rfl, rfl⟩ (by simp)
  cases ht : (s.process n).thread τ with
  | populating y m rest =>
    rw [ht, Thread.bearing, List.mem_append] at hbear
    rcases hbear with hbear | hrest
    · obtain ⟨d, hd, rfl⟩ := List.mem_map.1 hbear
      have htok : .described d ∈ s.ports.tokens (.hand n τ) := by
        simpa [Network.tokens, ht, Thread.tokens, Message.described] using hd
      exact hr.unlinked htok ⟨rfl, .inl rfl⟩ (by simp)
    · have htok : .right x ∈ s.ports.tokens (.hand n τ) := by
        simpa [Network.tokens, ht, Thread.tokens, Message.described] using hrest
      exact hr.unlinked htok ⟨rfl, rfl⟩ (by simp)
  | checking y m rest =>
    rw [ht, Thread.bearing] at hbear
    obtain ⟨d, hd, rfl⟩ := List.mem_map.1 hbear
    have htok : .described d ∈ s.ports.tokens (.hand n τ) := by
      simpa [Network.tokens, ht, Thread.tokens, Message.described] using hd
    exact hr.unlinked htok ⟨rfl, .inl rfl⟩ (by simp)
  | _ => simp [ht, Thread.bearing] at hbear

end

end Mage
