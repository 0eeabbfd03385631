import Mage.Invariant.Reachable
import Mage.Ports.State

/-! Invitations. The temporary name an inviter draws travels from the inviting thread to the channel,
    through the acceptor and back, and is in one place at a time; wherever it is, the maps of the
    inviter still agree with it. The keys of `nodeChannelMap` follow: the name of a linked node, a
    temporary name, or the placeholder of an invitation to come. -/

namespace Mage
open Lib

/-- The temporary names that a thread is working for. -/
def Thread.temps : Thread → List Identifier
  | .insertingPending _ _ t | .startingChannel _ _ t => [t]
  | .invited _ t _ | .accepting _ t _ | .replying _ t _ => [t]
  | .acknowledging t _ _ | .reserving _ t _ _ | .rekeying _ t _ => [t]
  | _ => []

def ChannelMessage.temps : ChannelMessage → List Identifier
  | .sendInvitation _ t _ => [t]
  | .acceptInvitation t _ _ => [t]
  | .userMessage _ => []

namespace Network

def temps (s : Network) : Place → List Identifier
  | .hand n τ => ((s.process n).thread τ).temps
  | .wire n m => (s.wire n m).flatMap ChannelMessage.temps
  | _ => []

/-- The peer of endpoint `x` of node `n`. -/
def peerOf (s : Network) (n x : Identifier) : Option Address :=
  ((s.process n).localEndpoints.find x).map (·.peerAddress)

/-- `x` and `y` were created together in node `n`. -/
def Pair (s : Network) (n x y : Identifier) : Prop :=
  s.peerOf n x = some ⟨n, y⟩ ∧ s.peerOf n y = some ⟨n, x⟩

/-- Node `i` still waits for the acceptance of `t` by node `n`; `x` is its own end of the pipe. -/
def Waiting (s : Network) (i n t x : Identifier) : Prop :=
  (s.process i).nodeChannelMap.find t = some n ∧
  ∃ r, (s.process i).pendingInvitations.find t = some r ∧ s.Pair i x r

/-- Node `n` created `x` to accept an invitation of node `i`, made out to the endpoint `r`. -/
def Guest (s : Network) (i r n x : Identifier) : Prop :=
  ∃ y, s.Pair i y r ∧ s.peerOf n x = some ⟨i, y⟩

end Network

/-- What a thread that handles an invitation can rely on. -/
def Thread.Sound (T : Topology) (s : Network) (n : Identifier) : Thread → Prop
  | .inviting c => (n, c) ∈ T.invites
  | .creatingChannel c x r => (n, c) ∈ T.invites ∧ s.Pair n x r
  | .insertingPending x r t => (s.process n).nodeChannelMap.find t ≠ none ∧
      (s.process n).pendingInvitations.find t = none ∧ s.Pair n x r
  | .startingChannel x r t => (s.process n).nodeChannelMap.find t ≠ none ∧
      (s.process n).pendingInvitations.find t = some r ∧ s.Pair n x r
  | .invited i t x => (i, n) ∈ T.invites ∧ i ∈ (s.process n).watchedSockets ∧ s.Waiting i n t x
  | .accepting i t x => (i, n) ∈ T.invites ∧ s.Waiting i n t x
  | .replying i t e => (i, n) ∈ T.invites ∧
      ∃ x, s.Waiting i n t x ∧ s.peerOf n e = some ⟨i, x⟩
  | .acknowledging t m e => (n, m) ∈ T.invites ∧
      ∃ x, s.Waiting n m t x ∧ s.peerOf m e = some ⟨n, x⟩
  | .reserving r t m e => (n, m) ∈ T.invites ∧ (s.process n).nodeChannelMap.find t = some m ∧
      (s.process n).pendingInvitations.find t = none ∧ s.Guest n r m e
  | .rekeying _ t m => (n, m) ∈ T.invites ∧ (s.process n).nodeChannelMap.find t = some m ∧
      (s.process n).pendingInvitations.find t = none
  | _ => True

/-- What the receiver of a message from node `a` to node `b` can rely on. -/
def ChannelMessage.Sound (T : Topology) (s : Network) (a b : Identifier) : ChannelMessage → Prop
  | .sendInvitation i t x => i = a ∧ (a, b) ∈ T.invites ∧ s.Waiting a b t x
  | .acceptInvitation t m e => m = a ∧ (b, a) ∈ T.invites ∧
      ∃ x, s.Waiting b a t x ∧ s.peerOf a e = some ⟨b, x⟩
  | .userMessage _ => Linked T a b

/-- A key of `nodeChannelMap` and the channel under it. -/
def Entry (T : Topology) (s : Network) (n k : Identifier) (c : Channel) : Prop :=
  (k = c ∧ Linked T n c) ∨ (k ∈ T.names ∧ k ∉ s.supply ∧ (n, c) ∈ T.invites) ∨
  (k = kInitialChannelName ∧ (c, n) ∈ T.invites)

structure Handshake (T : Topology) (s : Network) : Prop where
  temps_drawn : ∀ P t, t ∈ s.temps P → t ∈ T.names ∧ t ∉ s.supply
  temps_once : ∀ t, AtMostOnce fun P => (s.temps P).count t
  pending_drawn : ∀ n t r, (s.process n).pendingInvitations.find t = some r →
    t ∈ T.names ∧ t ∉ s.supply
  entries : ∀ n k c, (s.process n).nodeChannelMap.find k = some c → Entry T s n k c
  threads : ∀ n τ, ((s.process n).thread τ).Sound T s n
  wires : ∀ a b, ∀ m ∈ s.wire a b, m.Sound T s a b
  watched : ∀ n, ∀ c ∈ (s.process n).watchedSockets, Linked T n c
  initial : ∀ n c, (s.process n).nodeChannelMap.find kInitialChannelName = some c →
    c ∈ (s.process n).watchedSockets ∧ (c, n) ∈ T.invites
  single : ∀ n, ∀ c ∈ (s.process n).watchedSockets, ∀ c' ∈ (s.process n).watchedSockets,
    (c, n) ∈ T.invites → (c', n) ∈ T.invites → c = c'
  unaccepted : ∀ n, (s.process n).hasAcceptedInvitation = false →
    ∀ c ∈ (s.process n).watchedSockets, (c, n) ∉ T.invites

theorem kInitialChannelName_not_mem_names (T : Topology) : kInitialChannelName ∉ T.names :=
  fun h => by simpa [kInitialChannelName, kIdentifierSize] using T.names_length _ h

theorem kInitialChannelName_not_mem_nodes (T : Topology) : kInitialChannelName ∉ T.nodes :=
  fun h => by simpa [kInitialChannelName, kIdentifierSize] using T.node_length _ h

namespace Entry
variable {T : Topology} {s : Network} {n k : Identifier} {c : Channel}

/-- The channel under a node's name leads to that node. -/
theorem of_node (h : Entry T s n k c) (hk : k ∈ T.nodes) : k = c ∧ Linked T n c := by
  rcases h with h | ⟨h, -, -⟩ | ⟨rfl, -⟩
  · exact h
  · exact absurd hk (T.names_fresh _ h)
  · exact absurd hk (kInitialChannelName_not_mem_nodes T)

theorem of_name (h : Entry T s n k c) (hk : k ∈ T.names) : k ∉ s.supply ∧ (n, c) ∈ T.invites := by
  rcases h with ⟨rfl, h⟩ | h | ⟨rfl, -⟩
  · exact absurd h.node (T.names_fresh _ hk)
  · exact h.2
  · exact absurd hk (kInitialChannelName_not_mem_names T)

theorem linked (h : Entry T s n k c) : Linked T n c := by
  rcases h with ⟨-, h⟩ | ⟨-, -, h⟩ | ⟨-, h⟩
  · exact h
  · exact .inl h
  · exact .inr h

theorem mono {s' : Network} (h : Entry T s n k c) (hs : ∀ x ∈ s'.supply, x ∈ s.supply) :
    Entry T s' n k c := by
  rcases h with h | ⟨h1, h2, h3⟩ | h
  · exact .inl h
  · exact .inr (.inl ⟨h1, fun hk => h2 (hs _ hk), h3⟩)
  · exact .inr (.inr h)

end Entry

/-! ### What an act leaves alone -/

section Frame
variable {T : Topology} {s s' : Network}

/-- `s'` agrees with `s` about the temporary name `t`. -/
def Undisturbed (s s' : Network) (t : Identifier) : Prop := ∀ i,
  (s'.process i).nodeChannelMap.find t = (s.process i).nodeChannelMap.find t ∧
  (s'.process i).pendingInvitations.find t = (s.process i).pendingInvitations.find t

/-- Peers and watched sockets of `s` are still there in `s'`. -/
structure Onward (s s' : Network) : Prop where
  peer : ∀ n x a, s.peerOf n x = some a → s'.peerOf n x = some a
  watched : ∀ n, ∀ c ∈ (s.process n).watchedSockets, c ∈ (s'.process n).watchedSockets

namespace Onward
variable (h : Onward s s')
include h

theorem pair {n x y : Identifier} (hp : s.Pair n x y) : s'.Pair n x y :=
  ⟨h.peer _ _ _ hp.1, h.peer _ _ _ hp.2⟩

theorem waiting {i n t x : Identifier} (ht : Undisturbed s s' t) (hw : s.Waiting i n t x) :
    s'.Waiting i n t x := by
  obtain ⟨h1, r, h2, h3⟩ := hw
  exact ⟨by rw [(ht i).1, h1], r, by rw [(ht i).2, h2], h.pair h3⟩

theorem guest {i r n x : Identifier} (hg : s.Guest i r n x) : s'.Guest i r n x := by
  obtain ⟨y, h1, h2⟩ := hg
  exact ⟨y, h.pair h1, h.peer _ _ _ h2⟩

theorem thread {n : Identifier} {th : Thread} (ht : ∀ t ∈ th.temps, Undisturbed s s' t)
    (hs : th.Sound T s n) : th.Sound T s' n := by
  cases th with
  | creatingChannel => exact ⟨hs.1, h.pair hs.2⟩
  | insertingPending x r t =>
    have hu := ht t (by simp [Thread.temps]) n
    exact ⟨by rw [hu.1]; exact hs.1, by rw [hu.2]; exact hs.2.1, h.pair hs.2.2⟩
  | startingChannel x r t =>
    have hu := ht t (by simp [Thread.temps]) n
    exact ⟨by rw [hu.1]; exact hs.1, by rw [hu.2]; exact hs.2.1, h.pair hs.2.2⟩
  | invited i t x =>
    exact ⟨hs.1, h.watched _ _ hs.2.1, h.waiting (ht t (by simp [Thread.temps])) hs.2.2⟩
  | accepting i t x => exact ⟨hs.1, h.waiting (ht t (by simp [Thread.temps])) hs.2⟩
  | replying i t e =>
    obtain ⟨h1, x, h2, h3⟩ := hs
    exact ⟨h1, x, h.waiting (ht t (by simp [Thread.temps])) h2, h.peer _ _ _ h3⟩
  | acknowledging t m e =>
    obtain ⟨h1, x, h2, h3⟩ := hs
    exact ⟨h1, x, h.waiting (ht t (by simp [Thread.temps])) h2, h.peer _ _ _ h3⟩
  | reserving r t m e =>
    have hu := ht t (by simp [Thread.temps]) n
    exact ⟨hs.1, by rw [hu.1]; exact hs.2.1, by rw [hu.2]; exact hs.2.2.1, h.guest hs.2.2.2⟩
  | rekeying r t m =>
    have hu := ht t (by simp [Thread.temps]) n
    exact ⟨hs.1, by rw [hu.1]; exact hs.2.1, by rw [hu.2]; exact hs.2.2⟩
  | _ => exact hs

theorem message {a b : Identifier} {m : ChannelMessage} (ht : ∀ t ∈ m.temps, Undisturbed s s' t)
    (hs : m.Sound T s a b) : m.Sound T s' a b := by
  cases m with
  | sendInvitation i t x =>
    exact ⟨hs.1, hs.2.1, h.waiting (ht t (by simp [ChannelMessage.temps])) hs.2.2⟩
  | acceptInvitation t m e =>
    obtain ⟨h1, h2, x, h3, h4⟩ := hs
    exact ⟨h1, h2, x, h.waiting (ht t (by simp [ChannelMessage.temps])) h3, h.peer _ _ _ h4⟩
  | userMessage => exact hs

end Onward
end Frame

/-! ### Acts keep the handshake -/

theorem Act.onward {T : Topology} {s : Network} {n : Identifier} {τ : ThreadId} {c : Option Call}
    {o : Outcome} (ha : Act T s n τ c o) : Onward s (s.apply n o) where
  peer k x a hk := by
    by_cases hn : k = n
    · subst hn
      simp only [Network.peerOf, Network.apply_process, upd₁_apply, if_true] at hk ⊢
      obtain ⟨e, he, rfl⟩ := Option.map_eq_some_iff.1 hk
      obtain ⟨e', he', hl⟩ := ha.move.later _ _ he
      simp [he', hl.peer]
    · simpa [Network.peerOf, hn] using hk
  watched k ch hk := by
    by_cases hn : k = n
    · subst hn
      simpa using ha.move.watched hk
    · simpa [hn] using hk

def Outcome.temps (o : Outcome) : List Identifier :=
  match o.written with
  | some w => w.2.temps
  | none => []

namespace Process.Move
variable {p : Process} {τ : ThreadId} {supply : List Identifier} {c : Option Call} {o : Outcome}

/-- A move invents no temporary name but the one it draws. -/
theorem temps (h : p.Move τ supply c o) {t : Identifier} (ht : t ∉ supply) :
    (o.process.thread τ).temps.count t + o.temps.count t ≤ (p.thread τ).temps.count t := by
  cases h with
  | createMessagePipes | bindReceiver | acceptInvitation => exact Nat.le_refl _
  | createChannel _ hs =>
    have : ¬ t = _ := fun h => ht (hs ▸ h ▸ List.mem_cons_self)
    simp [Thread.temps, Outcome.temps, Ne.symm this]
  | insertPending h | startChannel h | rekeyInitial h | accept h | reply h | acknowledge h
  | reserve h | rekey h => simp [Thread.temps, Outcome.temps, ChannelMessage.temps, h]
  | _ => simp [Thread.temps, Outcome.temps, ChannelMessage.temps]

/-- A name that was still to be drawn is at most in the hand that drew it. -/
theorem temps_drawn (h : p.Move τ supply c o) (hn : supply.Nodup) {t : Identifier}
    (_ : t ∈ supply) (hp : t ∉ (p.thread τ).temps) :
    (o.process.thread τ).temps.count t ≤ 1 ∧ o.temps.count t = 0 ∧
    (t ∈ (o.process.thread τ).temps → t ∉ o.supply) := by
  cases h with
  | createMessagePipes | bindReceiver | acceptInvitation =>
    exact ⟨by simp [List.count_eq_zero_of_not_mem hp], by simp [Outcome.temps],
      fun h => absurd h hp⟩
  | createChannel _ hs =>
    refine ⟨List.count_le_length.trans (by simp [Thread.temps]), rfl, fun h => ?_⟩
    rw [hs, List.nodup_cons] at hn
    simp only [goto_thread, upd₁_apply, if_true, Thread.temps, List.mem_singleton] at h
    exact h ▸ hn.1
  | insertPending h | startChannel h | rekeyInitial h | accept h | reply h | acknowledge h
  | reserve h | rekey h =>
    simp only [Thread.temps, h, List.mem_singleton] at hp
    simp [Thread.temps, Outcome.temps, ChannelMessage.temps, hp, Ne.symm hp]
  | _ => simp [Thread.temps, Outcome.temps, ChannelMessage.temps]

end Process.Move

namespace Network
variable {T : Topology} {s : Network} {n : Identifier} {τ : ThreadId} {c : Option Call} {o : Outcome}

/-- An act touches the hand of its thread and the wire it writes to. -/
theorem temps_apply (h : (s.process n).Move τ s.supply c o) (P : Place) :
    (P = .hand n τ ∧ (s.apply n o).temps P = (o.process.thread τ).temps) ∨
    (∃ w, o.written = some w ∧ P = .wire n w.1 ∧ (s.apply n o).temps P = s.temps P ++ o.temps) ∨
    (P ≠ .hand n τ ∧ (s.apply n o).temps P = s.temps P) := by
  cases P with
  | hand k σ =>
    by_cases hk : k = n
    · subst hk
      by_cases hσ : σ = τ
      · subst hσ
        exact .inl ⟨rfl, by simp [temps]⟩
      · exact .inr (.inr ⟨by simpa using hσ, by simp [temps, h.thread_other hσ]⟩)
    · exact .inr (.inr ⟨by simp [hk], by simp [temps, hk]⟩)
  | wire a b =>
    cases hw : o.written with
    | none => exact .inr (.inr ⟨by simp, by simp [temps, apply_wire_none s n hw]⟩)
    | some w =>
      by_cases hab : a = n ∧ b = w.1
      · obtain ⟨rfl, rfl⟩ := hab
        refine .inr (.inl ⟨w, rfl, rfl, ?_⟩)
        simp [temps, apply_wire_some s a hw, Outcome.temps, hw]
      · refine .inr (.inr ⟨by simp, ?_⟩)
        simp only [temps, apply_wire_some s n hw, upd_apply]
        rw [if_neg hab]
  | held | queue | pending => exact .inr (.inr ⟨by simp, rfl⟩)

end Network

namespace Handshake
variable {T : Topology} {s : Network} {n : Identifier} {τ : ThreadId} {c : Option Call} {o : Outcome}

theorem act_temps_once (h : Handshake T s) (hr : Reachable T s) (ha : Act T s n τ c o)
    (t : Identifier) : AtMostOnce fun P => ((s.apply n o).temps P).count t := by
  by_cases ht : t ∈ s.supply
  · have hold : ∀ P, (s.temps P).count t = 0 := fun P =>
      List.count_eq_zero.2 fun hP => (h.temps_drawn P t hP).2 ht
    obtain ⟨h1, h2, -⟩ :=
      ha.move.temps_drawn hr.supply_nodup ht (List.count_eq_zero.1 (hold (.hand n τ)))
    refine AtMostOnce.fresh (.hand n τ) (fun P hP => ?_) (by simpa [Network.temps] using h1)
    rcases Network.temps_apply ha.move P with ⟨rfl, -⟩ | ⟨w, -, -, heq⟩ | ⟨-, heq⟩
    · exact absurd rfl hP
    · rw [heq, List.count_append, hold, h2]
    · rw [heq, hold]
  · have hle : _ ≤ (s.temps (.hand n τ)).count t := ha.move.temps ht
    cases hw : o.written with
    | none =>
      refine (h.temps_once t).mono fun P => ?_
      rcases Network.temps_apply ha.move P with ⟨rfl, heq⟩ | ⟨w, hw', -⟩ | ⟨-, heq⟩
      · rw [heq]
        exact (Nat.le_add_right _ _).trans hle
      · rw [hw] at hw'
        cases hw'
      · rw [heq]
    | some w =>
      refine (h.temps_once t).transfer (.hand n τ) (.wire n w.1) (by simp) (fun P hP hP' => ?_) ?_
      · rcases Network.temps_apply ha.move P with ⟨rfl, -⟩ | ⟨w', hw', rfl, -⟩ | ⟨-, heq⟩
        · exact absurd rfl hP
        · rw [hw] at hw'
          cases hw'
          exact absurd rfl hP'
        · rw [heq]
      · have hwire : (s.apply n o).temps (.wire n w.1) = s.temps (.wire n w.1) ++ o.temps := by
          simp [Network.temps, Network.apply_wire_some s n hw, Outcome.temps, hw]
        have hhand : (s.apply n o).temps (.hand n τ) = (o.process.thread τ).temps := by
          simp [Network.temps]
        simp only [hwire, hhand, List.count_append]
        omega

theorem act_temps_drawn (h : Handshake T s) (hr : Reachable T s) (ha : Act T s n τ c o)
    (P : Place) (t : Identifier) (ht : t ∈ (s.apply n o).temps P) :
    t ∈ T.names ∧ t ∉ (s.apply n o).supply := by
  have hsuf : ∀ x ∈ o.supply, x ∈ s.supply := fun x hx => ha.move.suffix.subset hx
  have source : t ∈ s.temps P ∨ t ∈ (o.process.thread τ).temps ∨ t ∈ o.temps := by
    rcases Network.temps_apply ha.move P with ⟨-, heq⟩ | ⟨w, -, -, heq⟩ | ⟨-, heq⟩ <;>
      rw [heq] at ht
    · exact .inr (.inl ht)
    · rcases List.mem_append.1 ht with ht | ht
      · exact .inl ht
      · exact .inr (.inr ht)
    · exact .inl ht
  by_cases hs : t ∈ s.supply
  · have hold : ∀ P, t ∉ s.temps P := fun P hP => (h.temps_drawn P t hP).2 hs
    obtain ⟨-, h2, h3⟩ := ha.move.temps_drawn hr.supply_nodup hs (hold (.hand n τ))
    refine ⟨hr.suffix.subset hs, h3 ?_⟩
    rcases source with ht | ht | ht
    · exact absurd ht (hold P)
    · exact ht
    · exact absurd ht (List.count_eq_zero.1 h2)
  · refine ⟨?_, fun hx => hs (hsuf _ hx)⟩
    have hle : _ ≤ (s.temps (.hand n τ)).count t := ha.move.temps hs
    have hand : 0 < (s.temps (.hand n τ)).count t → t ∈ T.names :=
      fun hx => (h.temps_drawn (.hand n τ) t (List.count_pos_iff.1 hx)).1
    rcases source with ht | ht | ht
    · exact (h.temps_drawn P t ht).1
    · have := List.count_pos_iff.2 ht
      exact hand (by omega)
    · have := List.count_pos_iff.2 ht
      exact hand (by omega)

/-- The maps of a node change only under the names its threads work for. -/
theorem act_undisturbed (h : Handshake T s) (ha : Act T s n τ c o) {t : Identifier}
    (ht : t ∈ T.names) (hs : t ∉ s.supply) (htemps : t ∉ ((s.process n).thread τ).temps) :
    Undisturbed s (s.apply n o) t := by
  have hnode : ∀ k, k ∈ T.nodes → t ≠ k := by
    rintro k hk rfl
    exact T.names_fresh _ ht hk
  have hinit : t ≠ kInitialChannelName := by
    rintro rfl
    exact kInitialChannelName_not_mem_names T ht
  have hsound := h.threads n τ
  intro i
  by_cases hi : i = n
  · subst hi
    simp only [Network.apply_process, upd₁_apply, if_true]
    cases ha.move with
    | acceptInvitation => simp [hinit]
    | createChannel _ hsup =>
      have : t ≠ _ := fun htk => hs (hsup ▸ htk ▸ List.mem_cons_self)
      simp [this]
    | insertPending hth | acknowledge hth =>
      simp only [hth, Thread.temps, List.mem_singleton] at htemps
      simp [htemps]
    | rekeyInitial hth =>
      rw [hth] at hsound
      have := hnode _ (T.invites_nodes _ hsound.1).1
      simp [this, hinit]
    | rekey hth =>
      rw [hth] at hsound
      simp only [hth, Thread.temps, List.mem_singleton] at htemps
      have := hnode _ (T.invites_nodes _ hsound.1).2
      simp [this, htemps]
    | _ => exact ⟨rfl, rfl⟩
  · simp [hi]

/-! ### The maps and the sockets of the node that acts -/

theorem act_pending_drawn (h : Handshake T s) (ha : Act T s n τ c o) {k t r : Identifier}
    (ht : ((s.apply n o).process k).pendingInvitations.find t = some r) :
    t ∈ T.names ∧ t ∉ (s.apply n o).supply := by
  have later : t ∈ T.names ∧ t ∉ s.supply → t ∈ T.names ∧ t ∉ (s.apply n o).supply :=
    fun hs => ⟨hs.1, fun hx => hs.2 (ha.move.suffix.subset hx)⟩
  by_cases hk : k = n
  · subst hk
    simp only [Network.apply_process, upd₁_apply, if_true] at ht
    have hold := fun ht => later (h.pending_drawn k t r ht)
    cases ha.move with
    | @insertPending l r' t' hth =>
      by_cases htt : t = t'
      · exact later (h.temps_drawn (.hand k τ) t (by simp [Network.temps, hth, Thread.temps, htt]))
      · exact hold (by simpa [htt] using ht)
    | @acknowledge t' m x r' hth =>
      by_cases htt : t = t'
      · simp [htt] at ht
      · exact hold (by simpa [htt] using ht)
    | _ => exact hold ht
  · exact later (h.pending_drawn k t r (by simpa [hk] using ht))

theorem act_entries (h : Handshake T s) (hr : Reachable T s) (ha : Act T s n τ c o)
    {m k : Identifier} {channel : Channel}
    (hk : ((s.apply n o).process m).nodeChannelMap.find k = some channel) :
    Entry T (s.apply n o) m k channel := by
  have later : Entry T s m k channel → Entry T (s.apply n o) m k channel :=
    fun he => he.mono fun x hx => ha.move.suffix.subset hx
  have hsound := h.threads n τ
  by_cases hm : m = n
  · subst hm
    simp only [Network.apply_process, upd₁_apply, if_true] at hk
    have hold := fun hk => later (h.entries m k channel hk)
    cases ha.move with
    | @acceptInvitation fd callback hacc =>
      by_cases hki : k = kInitialChannelName
      · subst hki
        cases hf : (s.process m).nodeChannelMap.find kInitialChannelName with
        | some c' => exact hold (by simpa [hf] using hk)
        | none =>
          have hfd : fd = channel := by simpa [hf] using hk
          exact .inr (.inr ⟨rfl, hfd ▸ ha.allowed _ rfl⟩)
      · exact hold (by simpa [hki] using hk)
    | @createChannel ch l r t rest hth hs =>
      rw [hth] at hsound
      by_cases hkt : k = t
      · subst hkt
        have hnone : (s.process m).nodeChannelMap.find k = none := by
          by_contra hne
          obtain ⟨c', hc'⟩ := Option.ne_none_iff_exists'.1 hne
          have := (h.entries m k c' hc').of_name (hr.suffix.subset (by simp [hs]))
          exact this.1 (by simp [hs])
        have hch : ch = channel := by simpa [hnone] using hk
        have hnd := hs ▸ hr.supply_nodup
        exact .inr (.inl ⟨hr.suffix.subset (by simp [hs]), (List.nodup_cons.1 hnd).1,
          hch ▸ hsound.1⟩)
      · exact hold (by simpa [hkt] using hk)
    | @rekeyInitial i t x ch hth hc =>
      rw [hth] at hsound
      by_cases hki : k = i
      · subst hki
        have hne : k ≠ kInitialChannelName := by
          rintro rfl
          exact kInitialChannelName_not_mem_nodes T (T.invites_nodes _ hsound.1).1
        obtain ⟨hw, hin⟩ := h.initial m ch hc
        have hck : ch = k := h.single m ch hw k hsound.2.1 hin hsound.1
        cases hf : (s.process m).nodeChannelMap.find k with
        | some c' => exact hold (by simpa [hf, hne] using hk)
        | none =>
          have hch : ch = channel := by simpa [hf, hne] using hk
          exact .inl ⟨hck.symm.trans hch, .inr (hch ▸ hin)⟩
      · by_cases hkn : k = kInitialChannelName
        · simp [hkn ▸ hki, hkn] at hk
        · exact hold (by simpa [hki, hkn] using hk)
    | @rekey r t m' ch hth hc =>
      rw [hth] at hsound
      by_cases hkm : k = m'
      · subst hkm
        have hne : k ≠ t := by
          rintro rfl
          have := (h.temps_drawn (.hand m τ) k (by simp [Network.temps, hth, Thread.temps])).1
          exact T.names_fresh _ this (T.invites_nodes _ hsound.1).2
        have hck : ch = k := by
          have := hsound.2.1
          rw [hc, Option.some.injEq] at this
          exact this
        cases hf : (s.process m).nodeChannelMap.find k with
        | some c' => exact hold (by simpa [hf, hne] using hk)
        | none =>
          have hch : ch = channel := by simpa [hf, hne] using hk
          exact .inl ⟨hck.symm.trans hch, .inl (hch ▸ hck ▸ hsound.1)⟩
      · by_cases hkt : k = t
        · simp [hkt ▸ hkm, hkt] at hk
        · exact hold (by simpa [hkm, hkt] using hk)
    | _ => exact hold hk
  · exact later (h.entries m k channel (by simpa [hm] using hk))

/-- A node starts to watch the socket of an invitation it sent or is about to accept. -/
theorem act_new_socket (h : Handshake T s) (ha : Act T s n τ c o) {k : Channel}
    (hk : k ∈ o.process.watchedSockets) : k ∈ (s.process n).watchedSockets ∨
    (n, k) ∈ T.invites ∨ ∃ callback, c = some (.acceptInvitation k callback) ∧
      (k, n) ∈ T.invites ∧ (s.process n).hasAcceptedInvitation = false ∧
      o.process.hasAcceptedInvitation = true := by
  have hsound := h.threads n τ
  cases ha.move with
  | @acceptInvitation fd callback hacc =>
    rcases List.mem_cons.1 hk with rfl | hk
    · exact .inr (.inr ⟨callback, rfl, ha.allowed _ rfl, hacc, rfl⟩)
    · exact .inl hk
  | @startChannel l r t channel e hth hc =>
    rcases List.mem_cons.1 hk with rfl | hk
    · have htemp := h.temps_drawn (.hand n τ) t (by simp [Network.temps, hth, Thread.temps])
      exact .inr (.inl ((h.entries n t k hc).of_name htemp.1).2)
    · exact .inl hk
  | _ => exact .inl hk

theorem act_accepted (ha : Act T s n τ c o) (hf : o.process.hasAcceptedInvitation = false) :
    (s.process n).hasAcceptedInvitation = false := by
  cases ha.move with
  | acceptInvitation => cases hf
  | _ => exact hf

theorem act_initial (h : Handshake T s) (hr : Reachable T s) (ha : Act T s n τ c o)
    {channel : Channel} (hc : o.process.nodeChannelMap.find kInitialChannelName = some channel) :
    channel ∈ o.process.watchedSockets ∧ (channel, n) ∈ T.invites := by
  have hold := fun hc => (h.initial n channel hc).imp_left ha.move.watched
  have hsound := h.threads n τ
  have hnode : ∀ k, k ∈ T.nodes → kInitialChannelName ≠ k := by
    rintro k hk rfl
    exact kInitialChannelName_not_mem_nodes T hk
  cases ha.move with
  | @acceptInvitation fd callback hacc =>
    cases hf : (s.process n).nodeChannelMap.find kInitialChannelName with
    | some c' => exact hold (by simpa [hf] using hc)
    | none =>
      have hfd : fd = channel := by simpa [hf] using hc
      exact ⟨by simp [hfd], hfd ▸ ha.allowed _ rfl⟩
  | @createChannel ch l r t rest hth hs =>
    have hne : kInitialChannelName ≠ t := by
      rintro rfl
      exact kInitialChannelName_not_mem_names T (hr.suffix.subset (by simp [hs]))
    exact hold (by simpa [hne] using hc)
  | @rekeyInitial i t x ch hth hc' =>
    rw [hth] at hsound
    simp [hnode i (T.invites_nodes _ hsound.1).1] at hc
  | @rekey r t m ch hth hc' =>
    rw [hth] at hsound
    have hne := hnode m (T.invites_nodes _ hsound.1).2
    by_cases hkt : kInitialChannelName = t
    · simp [hne, ← hkt] at hc
    · exact hold (by simpa [hne, hkt] using hc)
  | _ => exact hold hc

/-! ### What the thread that acts and the message it writes say -/

theorem waiting_apply {i m t x : Identifier} (hi : i ≠ n) :
    (s.apply n o).Waiting i m t x ↔ s.Waiting i m t x := by
  simp [Network.Waiting, Network.Pair, Network.peerOf, hi]

theorem act_thread (h : Handshake T s) (hr : Reachable T s)
    (hfresh : ∀ x ∈ s.supply, (s.process n).localEndpoints.find x = none)
    (ha : Act T s n τ c o) : (o.process.thread τ).Sound T (s.apply n o) n := by
  have hsound := h.threads n τ
  have on := ha.onward
  have hname : (s.process n).name = n := hr.name n
  have hidle := ha.idle
  cases ha.move with
  | createMessagePipes | bindReceiver | acceptInvitation => simp [hidle, Thread.Sound]
  | sendInvitation =>
    have := ha.allowed _ rfl
    simpa [Thread.Sound] using this.1
  | @invite channel x y rest hth hs hx hy hxy =>
    rw [hth] at hsound
    simp only [Process.goto_thread, upd₁_apply, if_true]
    refine ⟨hsound, ?_⟩
    simp [Network.Pair, Network.peerOf, hxy, hname, Endpoint.new]
  | @createChannel channel l r t rest hth hs =>
    rw [hth] at hsound
    simp only [Process.goto_thread, upd₁_apply, if_true]
    refine ⟨by simp, ?_, on.pair hsound.2⟩
    rw [Network.apply_process, upd₁_apply, if_pos rfl]
    by_contra hne
    obtain ⟨r', hr'⟩ := Option.ne_none_iff_exists'.1 hne
    exact (h.pending_drawn n t r' hr').2 (by simp [hs])
  | @insertPending l r t hth =>
    rw [hth] at hsound
    simp only [Process.goto_thread, upd₁_apply, if_true]
    exact ⟨by simpa using hsound.1, by simp [hsound.2.1], on.pair hsound.2.2⟩
  | @rekeyInitial i t x channel hth hc =>
    rw [hth] at hsound
    simp only [Process.goto_thread, upd₁_apply, if_true]
    exact ⟨hsound.1, (waiting_apply (T.invites_irrefl _ hsound.1)).2 hsound.2.2⟩
  | @accept i t x name rest hth hs =>
    rw [hth] at hsound
    simp only [Process.goto_thread, upd₁_apply, if_true]
    refine ⟨hsound.1, x, (waiting_apply (T.invites_irrefl _ hsound.1)).2 hsound.2, ?_⟩
    have hnone := hfresh name (by simp [hs])
    simp [Network.peerOf, hnone, Endpoint.new]
  | @acknowledge t m x r hth hp =>
    rw [hth] at hsound
    obtain ⟨hin, y, ⟨hc, r', hp', hpair⟩, hpeer⟩ := hsound
    rw [hp, Option.some.injEq] at hp'
    subst hp'
    simp only [Process.goto_thread, upd₁_apply, if_true]
    exact ⟨hin, by simpa using hc, by simp, y, on.pair hpair, on.peer _ _ _ hpeer⟩
  | @reserve t m x r e hth =>
    rw [hth] at hsound
    simp only [Process.goto_thread, upd₁_apply, if_true]
    exact ⟨hsound.1, by simpa using hsound.2.1, by simpa using hsound.2.2.1⟩
  | _ => simp [Thread.Sound]

theorem act_written (h : Handshake T s) (hr : Reachable T s) (ha : Act T s n τ c o)
    {k : Channel} {m : ChannelMessage} (hw : o.written = some (k, m)) :
    m.Sound T (s.apply n o) n k := by
  have hsound := h.threads n τ
  have on := ha.onward
  cases ha.move with
  | write hth hc =>
    cases hw
    exact (h.entries n _ _ hc).linked
  | writeForwarded hth hc =>
    cases hw
    exact (h.entries n _ _ hc).linked
  | @reply i t x channel hth hc =>
    cases hw
    rw [hth] at hsound
    obtain ⟨hin, y, hwait, hpeer⟩ := hsound
    obtain ⟨rfl, -⟩ := (h.entries n i k hc).of_node (T.invites_nodes _ hin).1
    exact ⟨hr.name n, hin, y, (waiting_apply (T.invites_irrefl _ hin)).2 hwait, on.peer _ _ _ hpeer⟩
  | @startChannel l r t channel e hth hc he =>
    cases hw
    rw [hth] at hsound
    obtain ⟨-, hp, hpair⟩ := hsound
    have htemp := h.temps_drawn (.hand n τ) t (by simp [Network.temps, hth, Thread.temps])
    have hpeer : e.peerAddress = ⟨n, l⟩ := by
      have := hpair.2
      simpa [Network.peerOf, he] using this
    refine ⟨hr.name n, ((h.entries n t k hc).of_name htemp.1).2, by simpa using hc, r,
      by simpa using hp, ?_⟩
    rw [hpeer]
    exact on.pair hpair
  | _ => cases hw

theorem act (h : Handshake T s) (hr : Reachable T s)
    (hfresh : ∀ x ∈ s.supply, ∀ m, (s.process m).localEndpoints.find x = none)
    (ha : Act T s n τ c o) : Handshake T (s.apply n o) where
  temps_drawn := h.act_temps_drawn hr ha
  temps_once := h.act_temps_once hr ha
  pending_drawn _ _ _ ht := h.act_pending_drawn ha ht
  entries _ _ _ hk := h.act_entries hr ha hk
  threads m σ := by
    by_cases hm : (⟨m, σ⟩ : Identifier × ThreadId) = ⟨n, τ⟩
    · obtain ⟨rfl, rfl⟩ := Prod.mk.inj hm
      simpa using h.act_thread hr (fun x hx => hfresh x hx m) ha
    · have hth : ((s.apply n o).process m).thread σ = (s.process m).thread σ := by
        by_cases hmn : m = n
        · subst hmn
          simpa using ha.move.thread_other fun hσ => hm (by rw [hσ])
        · simp [hmn]
      rw [hth]
      refine ha.onward.thread (fun t ht => ?_) (h.threads m σ)
      have hdrawn := h.temps_drawn (.hand m σ) t ht
      refine h.act_undisturbed ha hdrawn.1 hdrawn.2 fun ht' => hm ?_
      have := (h.temps_once t (.hand m σ) (.hand n τ) (List.count_pos_iff.2 ht)
        (List.count_pos_iff.2 ht')).1
      simpa using this
  wires a b m hm := by
    rcases (Network.mem_apply_wire _ _ _).1 hm with hm | ⟨rfl, hw⟩
    · refine ha.onward.message (fun t ht => ?_) (h.wires a b m hm)
      have hmem : t ∈ s.temps (.wire a b) := List.mem_flatMap.2 ⟨m, hm, ht⟩
      have hdrawn := h.temps_drawn (.wire a b) t hmem
      refine h.act_undisturbed ha hdrawn.1 hdrawn.2 fun ht' => ?_
      have := (h.temps_once t (.wire a b) (.hand n τ) (List.count_pos_iff.2 hmem)
        (List.count_pos_iff.2 ht')).1
      simp at this
    · exact h.act_written hr ha hw
  watched m k hk := by
    by_cases hm : m = n
    · subst hm
      rcases h.act_new_socket ha (by simpa using hk) with hk | hk | ⟨-, -, hk, -⟩
      · exact h.watched m k hk
      · exact .inl hk
      · exact .inr hk
    · exact h.watched m k (by simpa [hm] using hk)
  initial m k hk := by
    by_cases hm : m = n
    · subst hm
      simpa using h.act_initial hr ha (by simpa using hk)
    · simpa [hm] using h.initial m k (by simpa [hm] using hk)
  single m k hk k' hk' hin hin' := by
    by_cases hm : m = n
    · subst hm
      simp only [Network.apply_process, upd₁_apply, if_true] at hk hk'
      rcases h.act_new_socket ha hk with hk | hk | ⟨_, hc, -, hf, -⟩
      · rcases h.act_new_socket ha hk' with hk' | hk' | ⟨-, -, -, hf, -⟩
        · exact h.single m k hk k' hk' hin hin'
        · exact absurd hin' (T.invites_asymm _ hk')
        · exact absurd hin (h.unaccepted m hf k hk)
      · exact absurd hin (T.invites_asymm _ hk)
      · rcases h.act_new_socket ha hk' with hk' | hk' | ⟨_, hc', -⟩
        · exact absurd hin' (h.unaccepted m hf k' hk')
        · exact absurd hin' (T.invites_asymm _ hk')
        · rw [hc] at hc'
          cases hc'
          rfl
    · exact h.single m k (by simpa [hm] using hk) k' (by simpa [hm] using hk') hin hin'
  unaccepted m hf k hk hin := by
    by_cases hm : m = n
    · subst hm
      simp only [Network.apply_process, upd₁_apply, if_true] at hf hk
      have hf' := act_accepted ha hf
      rcases h.act_new_socket ha hk with hk | hk | ⟨-, -, -, -, ht⟩
      · exact h.unaccepted m hf' k hk hin
      · exact T.invites_asymm _ hk hin
      · rw [hf] at ht
        cases ht
    · exact h.unaccepted m (by simpa [hm] using hf) k (by simpa [hm] using hk) hin

/-! ### Receipts keep the handshake -/

section
variable {channel : Channel} {m : ChannelMessage} {rest : List ChannelMessage}

theorem onward_consume : Onward s (s.consume n channel m rest) where
  peer k x a hk := by
    by_cases hn : k = n
    · subst hn
      simpa [Network.peerOf] using hk
    · simpa [Network.peerOf, hn] using hk
  watched k ch hk := by
    by_cases hn : k = n
    · subst hn
      simpa using hk
    · simpa [hn] using hk

theorem core_consume (k : Identifier) :
    ((s.consume n channel m rest).process k).toCore = (s.process k).toCore ∧
    ((s.consume n channel m rest).process k).watchedSockets = (s.process k).watchedSockets := by
  by_cases hk : k = n
  · subst hk
    simp
  · simp [hk]

theorem undisturbed_consume (t : Identifier) : Undisturbed s (s.consume n channel m rest) t :=
  fun i => by simp only [core_consume, and_self]

theorem temps_consume (hc : Receipt T s n channel m rest) (P : Place) :
    (P = .hand n .io ∧ (s.consume n channel m rest).temps P = m.temps ∧ s.temps P = []) ∨
    (P = .wire channel n ∧ s.temps P = m.temps ++ (s.consume n channel m rest).temps P) ∨
    (P ≠ .hand n .io ∧ P ≠ .wire channel n ∧ (s.consume n channel m rest).temps P = s.temps P) := by
  cases P with
  | hand k σ =>
    by_cases hk : (⟨k, σ⟩ : Identifier × ThreadId) = ⟨n, .io⟩
    · obtain ⟨rfl, rfl⟩ := Prod.mk.inj hk
      refine .inl ⟨rfl, ?_, by simp [Network.temps, hc.idle, Thread.temps]⟩
      cases m <;> simp [Network.temps, Process.onReceivedMessage, Thread.temps, ChannelMessage.temps]
    · refine .inr (.inr ⟨by simpa using hk, by simp, ?_⟩)
      by_cases hkn : k = n
      · subst hkn
        have hσ : σ ≠ .io := fun hσ => hk (by rw [hσ])
        simp [Network.temps, hσ]
      · simp [Network.temps, hkn]
  | wire a b =>
    by_cases hab : a = channel ∧ b = n
    · obtain ⟨rfl, rfl⟩ := hab
      exact .inr (.inl ⟨rfl, by simp [Network.temps, hc.head]⟩)
    · refine .inr (.inr ⟨by simp, by simpa using hab, ?_⟩)
      simp only [Network.temps, Network.consume_wire, upd_apply]
      rw [if_neg hab]
  | held | queue | pending => exact .inr (.inr ⟨by simp, by simp, rfl⟩)

theorem receipt (h : Handshake T s) (hc : Receipt T s n channel m rest) :
    Handshake T (s.consume n channel m rest) where
  temps_drawn P t ht := by
    rcases temps_consume hc P with ⟨-, heq, -⟩ | ⟨-, heq⟩ | ⟨-, -, heq⟩
    · rw [heq] at ht
      exact h.temps_drawn (.wire channel n) t (by simp [Network.temps, hc.head, ht])
    · exact h.temps_drawn P t (heq ▸ List.mem_append_right _ ht)
    · exact h.temps_drawn P t (heq ▸ ht)
  temps_once t := by
    refine (h.temps_once t).transfer (.wire channel n) (.hand n .io) (by simp) (fun P hw hh => ?_) ?_
    · rcases temps_consume hc P with ⟨rfl, -⟩ | ⟨rfl, -⟩ | ⟨-, -, heq⟩
      · exact absurd rfl hh
      · exact absurd rfl hw
      · rw [heq]
    · rcases temps_consume hc (.hand n .io) with ⟨-, h1, h2⟩ | ⟨hP, -⟩ | ⟨hP, -⟩
      · rcases temps_consume hc (.wire channel n) with ⟨hP, -⟩ | ⟨-, h3⟩ | ⟨-, hP, -⟩
        · cases hP
        · rw [h1, h2, h3, List.count_append]
          omega
        · exact absurd rfl hP
      · cases hP
      · exact absurd rfl hP
  pending_drawn k t r ht := h.pending_drawn k t r (by rwa [(core_consume k).1] at ht)
  entries k x c' hx := (h.entries k x c' (by rwa [(core_consume k).1] at hx)).mono fun _ hy => hy
  threads k σ := by
    have hu : ∀ t, Undisturbed s (s.consume n channel m rest) t := undisturbed_consume
    by_cases hk : (⟨k, σ⟩ : Identifier × ThreadId) = ⟨n, .io⟩
    · obtain ⟨rfl, rfl⟩ := Prod.mk.inj hk
      have hm := onward_consume.message (fun t _ => hu t) (h.wires channel k m (by simp [hc.head]))
      simp only [Network.consume_process, upd₁_apply, if_true, Process.goto_thread]
      cases m with
      | sendInvitation i t x =>
        obtain ⟨rfl, hin, hwait⟩ := hm
        exact ⟨hin, by rw [(core_consume k).2]; exact hc.watched, hwait⟩
      | acceptInvitation t j e =>
        obtain ⟨rfl, hin, y, hwait, hpeer⟩ := hm
        exact ⟨hin, y, hwait, hpeer⟩
      | userMessage => trivial
    · have hth : ((s.consume n channel m rest).process k).thread σ = (s.process k).thread σ := by
        by_cases hkn : k = n
        · subst hkn
          have hσ : σ ≠ .io := fun hσ => hk (by rw [hσ])
          simp [hσ]
        · simp [hkn]
      rw [hth]
      exact onward_consume.thread (fun t _ => hu t) (h.threads k σ)
  wires a b m' hm' := by
    refine onward_consume.message (fun t _ => undisturbed_consume t) (h.wires a b m' ?_)
    rw [Network.consume_wire, upd_apply] at hm'
    split_ifs at hm' with hab
    · rw [hab.1, hab.2, hc.head]
      exact List.mem_cons_of_mem _ hm'
    · exact hm'
  watched k ch hk := h.watched k ch (by rwa [(core_consume k).2] at hk)
  initial k ch hk := by
    rw [(core_consume k).1] at hk
    rw [(core_consume k).2]
    exact h.initial k ch hk
  single k ch hk ch' hk' := by
    rw [(core_consume k).2] at hk hk'
    exact h.single k ch hk ch' hk'
  unaccepted k hf ch hk := by
    rw [(core_consume k).1] at hf
    rw [(core_consume k).2] at hk
    exact h.unaccepted k hf ch hk

end

theorem start : Handshake T (.initial T) where
  temps_drawn P t ht := by cases P <;> cases ht
  temps_once t := .zero fun P => by cases P <;> rfl
  pending_drawn n t r ht := by cases ht
  entries n k c hk := by cases hk
  threads n τ := trivial
  wires a b m hm := by cases hm
  watched n c hc := by cases hc
  initial n c hc := by cases hc
  single n c hc := by cases hc
  unaccepted n _ c hc := by cases hc

end Handshake
end Mage
