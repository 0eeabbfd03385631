import Mage.Model.Execution
import Mage.Ports.Refine

/-! The callbacks of invitations. `Core` has one member for the callback of whichever invitation was
    sent last, and every acceptance takes what it finds there. An acceptance posts the callback of
    its own invitation exactly if nothing that happened in between put another one there. -/

namespace Mage
open Lib

/-- What the member of `Core` holds after the last of these events. -/
def heldCallback (log : List InvitationEvent) : Option Callback :=
  match log.getLast? with
  | some (.sent _ callback) => callback
  | _ => none

/-- Before the acceptance on channel `c`, the last event is a call with the same callback as the
    invitation on `c` (that call itself, for instance); or the invitation on `c` came without a
    callback, and the last event is an acceptance. -/
def Timely (before : List InvitationEvent) (c : Channel) : Prop :=
  ∃ callback, .sent c callback ∈ before ∧
    ((∃ c', before.getLast? = some (.sent c' callback)) ∨
      (callback = none ∧ ∃ c' posted, before.getLast? = some (.accepted c' posted)))

/-- Every acceptance comes after its invitation, once, and posts what `Core` held then. -/
def Recorded (log : List InvitationEvent) : Prop :=
  ∀ before c posted after, log = before ++ .accepted c posted :: after →
    some c ∈ before.map InvitationEvent.invited ∧ some c ∉ before.map InvitationEvent.settled ∧
    posted = heldCallback before

theorem split_snoc {α : Type} {l before after : List α} {e x : α}
    (h : l ++ [e] = before ++ x :: after) :
    (l = before ∧ e = x) ∨ ∃ after', l = before ++ x :: after' := by
  rcases List.eq_nil_or_concat after with rfl | ⟨after', y, rfl⟩
  · obtain ⟨h1, h2⟩ := List.append_inj' h rfl
    exact .inl ⟨h1, by simpa using h2⟩
  · have h' : l ++ [e] = (before ++ x :: after') ++ [y] := by simpa using h
    exact .inr ⟨after', (List.append_inj' h' rfl).1⟩

theorem Recorded.sent {log : List InvitationEvent} (h : Recorded log) (c : Channel)
    (callback : Option Callback) : Recorded (log ++ [.sent c callback]) := by
  intro before c' posted after heq
  rcases split_snoc heq with ⟨-, hne⟩ | ⟨after', hlog⟩
  · cases hne
  · exact h before c' posted after' hlog

theorem Recorded.accepted {log : List InvitationEvent} (h : Recorded log) {c : Channel}
    (hsent : some c ∈ log.map InvitationEvent.invited)
    (hnew : some c ∉ log.map InvitationEvent.settled) :
    Recorded (log ++ [.accepted c (heldCallback log)]) := by
  intro before c' posted after heq
  rcases split_snoc heq with ⟨rfl, hlast⟩ | ⟨after', hlog⟩
  · cases hlast
    exact ⟨hsent, hnew, rfl⟩
  · exact h before c' posted after' hlog

theorem Reachable.recorded {T : Topology} {s : Network} (h : Reachable T s) (n : Identifier) :
    (s.process n).remoteHasAcceptedInvitationCallback = heldCallback (s.process n).invitations ∧
    Recorded (s.process n).invitations := by
  refine Reachable.forall_process (P := fun _ p =>
    p.remoteHasAcceptedInvitationCallback = heldCallback p.invitations ∧ Recorded p.invitations)
    (fun n => ⟨rfl, ?_⟩) (fun s n τ c o hr hp ha => ?_) (fun s n ch m rest hr hp hc => hp) h n
  · intro before c posted after heq
    simp [Network.initialProcess] at heq
  · rcases ha.move.history with ⟨heq, hcb⟩ | ⟨fd, callback, -, heq, hcb⟩ | ⟨ch, ht, heq, hcb⟩ <;>
      rw [heq, hcb]
    · exact hp
    · exact ⟨by simp [heldCallback], hp.2.sent fd callback⟩
    · obtain ⟨-, hsent, hnew⟩ := (hr.channels n).settling τ ch (by rw [ht]; rfl)
      rw [hp.1]
      exact ⟨by simp [heldCallback], hp.2.accepted hsent hnew⟩

/-- A channel is invited over once, with one callback. -/
theorem sent_unique {log : List InvitationEvent} {c : Channel}
    (h : (log.map InvitationEvent.invited).count (some c) ≤ 1) {a b : Option Callback}
    (ha : .sent c a ∈ log) (hb : .sent c b ∈ log) : a = b := by
  induction log with
  | nil => cases ha
  | cons e log ih =>
    rw [List.map_cons, List.count_cons] at h
    have other : ∀ {x : Option Callback}, .sent c x ∈ log →
        0 < (log.map InvitationEvent.invited).count (some c) := fun hx =>
      List.count_pos_iff.2 (List.mem_map.2 ⟨_, hx, rfl⟩)
    have first : ∀ {x : Option Callback}, .sent c x ∈ log → e.invited ≠ some c := by
      intro x hx he
      have := other hx
      rw [he, beq_self_eq_true, if_pos rfl] at h
      omega
    rcases List.mem_cons.1 ha with ha' | ha' <;> rcases List.mem_cons.1 hb with hb' | hb'
    · rw [← ha'] at hb'
      cases hb'
      rfl
    · exact absurd (ha' ▸ rfl) (first hb')
    · exact absurd (hb' ▸ rfl) (first ha')
    · exact ih (by omega) ha' hb'

theorem timely_iff {before : List InvitationEvent} {c : Channel}
    (hsent : some c ∈ before.map InvitationEvent.invited) :
    .sent c (heldCallback before) ∈ before ↔ Timely before c := by
  constructor
  · intro hown
    refine ⟨_, hown, ?_⟩
    cases hlast : before.getLast? with
    | none =>
      rw [List.getLast?_eq_none_iff.1 hlast] at hsent
      cases hsent
    | some e =>
      rw [heldCallback, hlast]
      cases e with
      | sent c' callback => exact .inl ⟨c', rfl⟩
      | accepted c' posted => exact .inr ⟨rfl, c', posted, rfl⟩
  · rintro ⟨callback, hmem, ⟨c', hlast⟩ | ⟨rfl, c', posted, hlast⟩⟩
    · rwa [heldCallback, hlast]
    · rwa [heldCallback, hlast]

/-- In every reachable state, an acceptance recorded by a node follows the one call that sent its
    invitation, happens once, and posts the callback of that call exactly if it is timely. -/
theorem acceptance_posts_own_iff_timely {T : Topology} {s : Network} (hs : Reachable T s)
    (n : Identifier) (before after : List InvitationEvent) (c : Channel) (posted : Option Callback)
    (hlog : (s.process n).invitations = before ++ .accepted c posted :: after) :
    (∃ callback, .sent c callback ∈ before ∧
      ∀ callback', .sent c callback' ∈ (s.process n).invitations → callback' = callback) ∧
    (∀ posted', .accepted c posted' ∉ before ++ after) ∧
    (.sent c posted ∈ before ↔ Timely before c) := by
  obtain ⟨-, hrec⟩ := hs.recorded n
  obtain ⟨hsent, hnew, rfl⟩ := hrec before c posted after hlog
  have hone := (hs.channels n).invited_once c
  refine ⟨?_, fun posted' hmem => ?_, timely_iff hsent⟩
  · obtain ⟨e, he, heq⟩ := List.mem_map.1 hsent
    cases e with
    | accepted => cases heq
    | sent c' callback =>
      cases heq
      refine ⟨callback, he, fun callback' h' => sent_unique hone h' ?_⟩
      rw [hlog]
      exact List.mem_append_left _ he
  · rcases List.mem_append.1 hmem with hmem | hmem
    · exact hnew (List.mem_map.2 ⟨_, hmem, rfl⟩)
    · obtain ⟨mid, rest, rfl⟩ := List.append_of_mem hmem
      obtain ⟨-, hnew', -⟩ := hrec (before ++ .accepted c (heldCallback before) :: mid) c posted' rest
        (by simpa using hlog)
      exact hnew' (by simp [InvitationEvent.settled])

/-- Where the second invitation is sent after the first was accepted, each reports its own acceptance. -/
theorem consecutive_acceptances_post_own : ∃ s, Reachable Sample.fork s ∧
    (s.process Sample.inviter).invitations =
      [.sent Sample.acceptor (some 7), .accepted Sample.acceptor (some 7),
        .sent Sample.other (some 8), .accepted Sample.other (some 8)] ∧
    Timely [.sent Sample.acceptor (some 7)] Sample.acceptor ∧
    Timely [.sent Sample.acceptor (some 7), .accepted Sample.acceptor (some 7),
      .sent Sample.other (some 8)] Sample.other := by
  obtain ⟨s, hs, hlog⟩ := Network.exists_of_follow Sample.fork (fun _ _ => True)
    (Sample.invitation Sample.acceptor (some 7) ++ Sample.invitation Sample.other (some 8))
    (fun s => (s.process Sample.inviter).invitations =
      [.sent Sample.acceptor (some 7), .accepted Sample.acceptor (some 7),
        .sent Sample.other (some 8), .accepted Sample.other (some 8)]) (by decide +kernel)
  have hfirst := acceptance_posts_own_iff_timely hs Sample.inviter [.sent Sample.acceptor (some 7)]
    [.sent Sample.other (some 8), .accepted Sample.other (some 8)] Sample.acceptor (some 7) hlog
  have hsecond := acceptance_posts_own_iff_timely hs Sample.inviter
    [.sent Sample.acceptor (some 7), .accepted Sample.acceptor (some 7), .sent Sample.other (some 8)]
    [] Sample.other (some 8) hlog
  exact ⟨s, hs, hlog, hfirst.2.2.1 (by simp), hsecond.2.2.1 (by simp)⟩

/-- With two invitations outstanding, the first acceptance posts the callback of the second one, and
    the second posts nothing. -/
theorem outstanding_invitations_swap_callbacks : ∃ s, Reachable Sample.fork s ∧
    (s.process Sample.inviter).invitations =
      [.sent Sample.acceptor (some 7), .sent Sample.other (some 8),
        .accepted Sample.acceptor (some 8), .accepted Sample.other none] ∧
    ¬ ∀ before c posted after, (s.process Sample.inviter).invitations =
      before ++ .accepted c posted :: after → .sent c posted ∈ before := by
  obtain ⟨s, hs, hlog⟩ := Network.exists_of_follow Sample.fork (fun _ _ => True)
    Sample.outstanding (fun s => (s.process Sample.inviter).invitations =
      [.sent Sample.acceptor (some 7), .sent Sample.other (some 8),
        .accepted Sample.acceptor (some 8), .accepted Sample.other none]) (by decide +kernel)
  refine ⟨s, hs, hlog, fun hown => ?_⟩
  have h := hown [.sent Sample.acceptor (some 7), .sent Sample.other (some 8)] Sample.acceptor
    (some 8) [.accepted Sample.other none] hlog
  exact absurd h (by decide)

end Mage
