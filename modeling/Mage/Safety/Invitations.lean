import Mage.Safety.Routing

/-! Invitations from both ends. The acceptor keeps the placeholder of its channel until it reads the
    invitation, and once the channel has the inviter's name the inviter keeps its own end under the
    temporary name until the acceptance is back. So whichever end is ahead, the other one can follow,
    and the maps of the inviter add up. -/

namespace Mage
open Lib

/-- The points of `Node::OnReceivedInvitation`. -/
def Thread.joining : Thread → Bool
  | .invited _ _ _ | .accepting _ _ _ | .replying _ _ _ | .accepted _ => true
  | _ => false

/-- The inviter that a thread is about to answer, and the temporary name it was told. -/
def Thread.answers : Thread → Option (Identifier × Identifier)
  | .accepting i t _ | .replying i t _ => some (i, t)
  | _ => none

/-- The temporary name that a thread is about to replace, and the acceptor. -/
def Thread.settles : Thread → Option (Identifier × Identifier)
  | .acknowledging t m _ | .reserving _ t m _ | .rekeying _ t m => some (t, m)
  | _ => none

/-- Who reads an invitation has accepted one. -/
structure Process.Joined (p : Process) : Prop where
  callback : p.hasAcceptedInvitation = true → p.finishedAcceptingInvitationCallback.isSome
  threads : ∀ τ, (p.thread τ).joining = true → p.hasAcceptedInvitation = true

/-- Node `n` answers the invitation of node `i` that is kept under `t`. -/
def Network.Answers (s : Network) (n i t : Identifier) : Prop :=
  ((s.process n).thread .io).answers = some (i, t) ∨
  (∃ x, .acceptInvitation t n x ∈ s.wire n i) ∨
  ((s.process i).thread .io).settles = some (t, n)

structure Agreed (T : Topology) (s : Network) : Prop where
  joined : ∀ n, (s.process n).hasAcceptedInvitation = true →
    (s.process n).nodeChannelMap.find kInitialChannelName ≠ none ∨
      ∃ i ∈ (s.process n).watchedSockets, (i, n) ∈ T.invites ∧
        (s.process n).nodeChannelMap.find i = some i
  kept : ∀ i n, (i, n) ∈ T.invites → (s.process n).nodeChannelMap.find i = some i →
    ∃ k, (s.process i).nodeChannelMap.find k = some n ∧ (k = n ∨ s.Answers n i k)
  answered : ∀ n i t, (i, n) ∈ T.invites → s.Answers n i t →
    (s.process n).nodeChannelMap.find i = some i
  settled : ∀ i n, (i, n) ∈ T.invites → (s.process i).nodeChannelMap.find n = some n →
    (s.process n).nodeChannelMap.find i = some i

/-! ### What a move does to it -/

namespace Process.Move
variable {p : Process} {τ : ThreadId} {supply : List Identifier} {c : Option Call} {o : Outcome}

theorem joined (h : p.Move τ supply c o) (hi : c.isSome → p.thread τ = .idle) (hp : p.Joined) :
    o.process.Joined := by
  have hgrows : p.hasAcceptedInvitation = true → o.process.hasAcceptedInvitation = true := by
    intro ha
    cases h with
    | acceptInvitation => rfl
    | _ => exact ha
  have hold : (o.process.thread τ).joining = true → (p.thread τ).joining = true := by
    intro ht
    cases h with
    | createMessagePipes | bindReceiver | acceptInvitation => exact ht
    | rekeyInitial h1 | accept h1 | reply h1 => rw [h1]; rfl
    | _ => simp [Thread.joining] at ht
  refine ⟨fun ha => ?_, fun σ hσ => hgrows ?_⟩
  · cases h with
    | acceptInvitation => rfl
    | _ => exact hp.callback ha
  · by_cases hστ : σ = τ
    · subst hστ
      exact hp.threads σ (hold hσ)
    · rw [h.thread_other hστ] at hσ
      exact hp.threads σ hσ

/-- An answer is on its way until it is written. -/
theorem answers_kept (h : p.Move τ supply c o) (hi : c.isSome → p.thread τ = .idle)
    {i t : Identifier} (ht : (p.thread τ).answers = some (i, t)) :
    (o.process.thread τ).answers = some (i, t) ∨
      ∃ k x, o.written = some (k, .acceptInvitation t p.name x) ∧
        p.nodeChannelMap.find i = some k := by
  cases h with
  | createMessagePipes | sendMessage | bindReceiver | sendInvitation | acceptInvitation =>
    rw [hi rfl] at ht
    cases ht
  | accept h1 =>
    rw [h1] at ht
    exact .inl (by simpa [Thread.answers] using ht)
  | reply h1 hc =>
    rw [h1] at ht
    cases ht
    exact .inr ⟨_, _, rfl, hc⟩
  | _ => simp_all [Thread.answers]

/-- An acceptance is settled once the channel has its final key. -/
theorem settles_kept (h : p.Move τ supply c o) (hi : c.isSome → p.thread τ = .idle)
    {t m : Identifier} (ht : (p.thread τ).settles = some (t, m)) :
    (o.process.thread τ).settles = some (t, m) ∨
      ∃ channel, p.nodeChannelMap.find t = some channel ∧
        o.process.nodeChannelMap = (p.nodeChannelMap.erase t).insert m channel := by
  cases h with
  | createMessagePipes | sendMessage | bindReceiver | sendInvitation | acceptInvitation =>
    rw [hi rfl] at ht
    cases ht
  | acknowledge h1 | reserve h1 =>
    rw [h1] at ht
    exact .inl (by simpa [Thread.settles] using ht)
  | rekey h1 hc =>
    rw [h1] at ht
    cases ht
    exact .inr ⟨_, hc, rfl⟩
  | _ => simp_all [Thread.settles]

theorem acceptance_written (h : p.Move τ supply c o) {k : Channel} {t m x : Identifier}
    (hw : o.written = some (k, .acceptInvitation t m x)) :
    ∃ i, p.thread τ = .replying i t x ∧ p.nodeChannelMap.find i = some k := by
  cases h with
  | reply h1 hc =>
    cases hw
    exact ⟨_, h1, hc⟩
  | _ => cases hw

/-- Who is about to answer read the invitation. -/
theorem answers_old (h : p.Move τ supply c o) {i t : Identifier}
    (ht : (o.process.thread τ).answers = some (i, t)) :
    (p.thread τ).answers = some (i, t) ∨
      ∃ x, p.thread τ = .invited i t x ∧ o.process.thread τ = .accepting i t x := by
  cases h with
  | createMessagePipes | bindReceiver | acceptInvitation => exact .inl ht
  | rekeyInitial h1 =>
    simp only [goto_thread, upd₁_apply, if_true, Thread.answers, Option.some.injEq,
      Prod.mk.injEq] at ht
    obtain ⟨rfl, rfl⟩ := ht
    exact .inr ⟨_, h1, by simp⟩
  | accept h1 =>
    rw [h1]
    exact .inl (by simpa [Thread.answers] using ht)
  | _ => simp [Thread.answers] at ht

/-- Nothing but a receipt makes a thread settle an acceptance. -/
theorem settles_old (h : p.Move τ supply c o) {t m : Identifier}
    (ht : (o.process.thread τ).settles = some (t, m)) : (p.thread τ).settles = some (t, m) := by
  cases h with
  | createMessagePipes | bindReceiver | acceptInvitation => exact ht
  | acknowledge h1 | reserve h1 =>
    rw [h1]
    simpa [Thread.settles] using ht
  | _ => simp [Thread.settles] at ht

/-- Where a channel gets a new key. -/
theorem new_key (h : p.Move τ supply c o) {k : Identifier} {v : Channel}
    (hk : o.process.nodeChannelMap.find k = some v) (hnew : p.nodeChannelMap.find k ≠ some v) :
    k = kInitialChannelName ∨ k ∈ supply ∨
    (∃ t x, p.thread τ = .invited k t x ∧ o.process.thread τ = .accepting k t x) ∨
    ∃ r t, p.thread τ = .rekeying r t k := by
  have inserted : ∀ {t : Table Identifier Channel} {j : Identifier} {w : Channel},
      (t.insert j w).find k = some v → k = j ∨ t.find k = some v := by
    intro t j w hf
    rw [Table.find_insert] at hf
    split_ifs at hf with hj
    · exact .inl hj
    · exact .inr hf
  have erased : ∀ {j : Identifier}, (p.nodeChannelMap.erase j).find k = some v → False := by
    intro j hf
    rw [Table.find_erase] at hf
    split_ifs at hf
    exact hnew hf
  cases h with
  | acceptInvitation => exact .inl ((inserted hk).resolve_right hnew)
  | createChannel ht hs =>
    obtain rfl := (inserted hk).resolve_right hnew
    exact .inr (.inl (by rw [hs]; exact List.mem_cons_self))
  | rekeyInitial ht =>
    obtain rfl := (inserted hk).resolve_right erased
    exact .inr (.inr (.inl ⟨_, _, ht, by simp⟩))
  | rekey ht =>
    obtain rfl := (inserted hk).resolve_right erased
    exact .inr (.inr (.inr ⟨_, _, ht⟩))
  | _ => exact absurd hk hnew

end Process.Move

theorem Thread.temps_of_answers {t : Thread} {i k : Identifier} (h : t.answers = some (i, k)) :
    t.temps = [k] := by
  cases t <;> cases h <;> rfl

theorem Thread.temps_of_settles {t : Thread} {k m : Identifier} (h : t.settles = some (k, m)) :
    t.temps = [k] := by
  cases t <;> cases h <;> rfl

section
variable {T : Topology} {s : Network}

/-- The place of the temporary name of an answer. -/
theorem Network.Answers.place {n i t : Identifier} (h : s.Answers n i t) : ∃ P, t ∈ s.temps P ∧
    (P = .hand n .io ∨ P = .wire n i ∨
      (P = .hand i .io ∧ ((s.process i).thread .io).settles = some (t, n))) := by
  rcases h with h | ⟨x, h⟩ | h
  · exact ⟨_, by simp [temps, Thread.temps_of_answers h], .inl rfl⟩
  · exact ⟨_, List.mem_flatMap.2 ⟨_, h, by simp [ChannelMessage.temps]⟩, .inr (.inl rfl)⟩
  · exact ⟨_, by simp [temps, Thread.temps_of_settles h], .inr (.inr ⟨rfl, h⟩)⟩

/-- A temporary name is in one place. -/
theorem Handshake.temps_eq (h : Handshake T s) {P Q : Place} {t : Identifier} (hP : t ∈ s.temps P)
    (hQ : t ∈ s.temps Q) : P = Q :=
  (h.temps_once t P Q (List.count_pos_iff.2 hP) (List.count_pos_iff.2 hQ)).1

end

/-! ### One step -/

section
variable {T : Topology} {s : Network} {a : Identifier} {τ : ThreadId} {c : Option Call} {o : Outcome}
  {n i t : Identifier}

theorem Network.Sound.channel_of_answering (h : s.Sound T) {i : Identifier} {k : Channel}
    (ht : ((s.process n).thread τ).answering = some i)
    (hk : (s.process n).nodeChannelMap.find i = some k) : k = i := by
  have hth := h.handshake.threads n τ
  refine h.channel_eq (t := i) ?_ hk
  cases hs : (s.process n).thread τ <;> rw [hs] at hth ht <;> cases ht
  · exact .inr hth.1
  · exact .inr hth.1

/-- An answer stays on its way until the inviter gives the channel the acceptor's name. -/
theorem Act.answers (ha : Act T s a τ c o) (hr : Reachable T s) (hi : (i, n) ∈ T.invites)
    (h : s.Answers n i t) : (s.apply a o).Answers n i t ∨ (a = i ∧
      ∃ channel, (s.process i).nodeChannelMap.find t = some channel ∧
        o.process.nodeChannelMap = ((s.process i).nodeChannelMap.erase t).insert n channel) := by
  rcases h with h | ⟨x, h⟩ | h
  · rcases ha.thread_apply n .io with ⟨rfl, rfl, hth⟩ | hth
    · rcases ha.move.answers_kept ha.idle h with h | ⟨k, x, hw, hk⟩
      · exact .inl (.inl (by rw [hth, h]))
      · obtain rfl := hr.sound.channel_eq (.inr hi) hk
        rw [hr.name n] at hw
        exact .inl (.inr (.inl ⟨x, (Network.mem_apply_wire s n o).2 (.inr ⟨rfl, hw⟩)⟩))
    · exact .inl (.inl (by rw [hth, h]))
  · exact .inl (.inr (.inl ⟨x, (Network.mem_apply_wire s a o).2 (.inl h)⟩))
  · rcases ha.thread_apply i .io with ⟨rfl, rfl, hth⟩ | hth
    · rcases ha.move.settles_kept ha.idle h with h | hk
      · exact .inl (.inr (.inr (by rw [hth, h])))
      · exact .inr ⟨rfl, hk⟩
    · exact .inl (.inr (.inr (by rw [hth, h])))

/-- The channel of an acceptance that is settled has the acceptor's name. -/
theorem Handshake.find_settled (h : Handshake T s) (hi : (i, n) ∈ T.invites) :
    (((s.process i).nodeChannelMap.erase t).insert n n).find n = some n := by
  rw [Table.find_insert, if_pos rfl]
  cases hf : ((s.process i).nodeChannelMap.erase t).find n with
  | none => rfl
  | some u =>
    rw [Table.find_erase] at hf
    split_ifs at hf
    rw [((h.entries i n u hf).of_node (T.invites_nodes _ hi).2).1]
    rfl

/-- A key stays until its channel is given another one. -/
theorem Act.key_stays (ha : Act T s a τ c o) (hn : t ∈ T.names)
    (hk : (s.process a).nodeChannelMap.find t = some n) :
    o.process.nodeChannelMap.find t = some n ∨ ∃ r m, (s.process a).thread τ = .rekeying r t m ∧
      o.process.nodeChannelMap = ((s.process a).nodeChannelMap.erase t).insert m n := by
  rcases ha.move.channels_same with heq | ⟨_, _, _, _, heq, _⟩ | ⟨_, _, _, _, _, _, _, heq⟩ |
    ⟨_, _, _, _, _, _, heq⟩ | ⟨r, t', m, channel, ht, hc, heq⟩
  · exact .inl (by rw [heq, hk])
  · exact .inl (by rw [heq]; exact Table.find_insert_of_present hk _ _)
  · exact .inl (by rw [heq]; exact Table.find_insert_of_present hk _ _)
  · refine .inl ?_
    rw [heq]
    refine Table.find_insert_of_present ?_ _ _
    rw [Table.find_erase, if_neg, hk]
    rintro rfl
    exact kInitialChannelName_not_mem_names T hn
  · by_cases htt : t = t'
    · subst htt
      rw [hk, Option.some.injEq] at hc
      subst hc
      exact .inr ⟨r, m, ht, heq⟩
    · refine .inl ?_
      rw [heq]
      refine Table.find_insert_of_present ?_ _ _
      rw [Table.find_erase, if_neg htt, hk]

/-- What the inviter keeps for the acceptor, it keeps under the temporary name or the acceptor's. -/
theorem Act.kept_channel (ha : Act T s a τ c o) (hr : Reachable T s) (hi : (i, n) ∈ T.invites)
    (hk : (s.process i).nodeChannelMap.find t = some n) (h : t = n ∨ s.Answers n i t) :
    ∃ k, ((s.apply a o).process i).nodeChannelMap.find k = some n ∧
      (k = n ∨ (s.apply a o).Answers n i k) := by
  have hs := hr.sound.handshake
  by_cases hai : a = i
  · subst hai
    simp only [Network.apply_process, upd₁_apply, if_true]
    rcases h with rfl | h
    · exact ⟨t, ha.channel_kept hs hk, .inl rfl⟩
    obtain ⟨P, hP, hplace⟩ := h.place
    rcases ha.answers hr hi h with h | ⟨-, channel, hc, heq⟩
    · rcases ha.key_stays (hs.temps_drawn P t hP).1 hk with hk | ⟨r, m, ht, heq⟩
      · exact ⟨t, hk, .inr h⟩
      · -- The temporary name is in the hand of this thread, so it settles this answer.
        obtain rfl : τ = .io := (hr.channels a).io (by rw [ht]; rfl)
        obtain rfl := hs.temps_eq hP
          (show t ∈ s.temps (.hand a .io) by simp [Network.temps, ht, Thread.temps])
        rcases hplace with h1 | h1 | ⟨-, h1⟩
        · cases h1
          exact absurd rfl (T.invites_irrefl _ hi)
        · cases h1
        · rw [ht] at h1
          cases h1
          exact ⟨n, by rw [heq, hs.find_settled hi], .inl rfl⟩
    · rw [hk, Option.some.injEq] at hc
      subst hc
      exact ⟨n, by rw [heq, hs.find_settled hi], .inl rfl⟩
  · refine ⟨t, by simpa [Ne.symm hai] using hk, h.imp_right fun h => ?_⟩
    exact (ha.answers hr hi h).resolve_right fun h => hai h.1

/-- The channel of an invitation that is read has the inviter's name. -/
theorem Handshake.find_answered (h : Handshake T s) {x : Identifier} {channel : Channel}
    (ht : (s.process a).thread τ = .invited i t x)
    (hc : (s.process a).nodeChannelMap.find kInitialChannelName = some channel) :
    (((s.process a).nodeChannelMap.erase kInitialChannelName).insert i channel).find i = some i := by
  have hth := h.threads a τ
  rw [ht] at hth
  obtain ⟨hi, hw, -⟩ := hth
  obtain ⟨hcw, hci⟩ := h.initial a channel hc
  obtain rfl := h.single a channel hcw i hw hci hi
  rw [Table.find_insert, if_pos rfl]
  cases hf : ((s.process a).nodeChannelMap.erase kInitialChannelName).find channel with
  | none => rfl
  | some u =>
    rw [Table.find_erase] at hf
    split_ifs at hf
    rw [((h.entries a channel u hf).of_node (T.invites_nodes _ hi).1).1]
    rfl

/-- The placeholder of a channel gives way to the name of the inviter. -/
theorem Act.placeholder (ha : Act T s a τ c o) (hs : Handshake T s)
    (hk : (s.process a).nodeChannelMap.find kInitialChannelName ≠ none) :
    o.process.nodeChannelMap.find kInitialChannelName ≠ none ∨
      ∃ i ∈ o.process.watchedSockets, (i, a) ∈ T.invites ∧
        o.process.nodeChannelMap.find i = some i := by
  obtain ⟨k, hk⟩ := Option.ne_none_iff_exists'.1 hk
  have hth := hs.threads a τ
  rcases ha.move.channels_same with heq | ⟨_, _, _, _, heq, _⟩ | ⟨_, _, _, _, _, _, _, heq⟩ |
    ⟨i, t, x, channel, ht, hc, heq⟩ | ⟨r, t, m, channel, ht, -, heq⟩ <;> rw [heq]
  · exact .inl (by rw [hk]; exact Option.some_ne_none k)
  · exact .inl (by rw [Table.find_insert_of_present hk]; exact Option.some_ne_none k)
  · exact .inl (by rw [Table.find_insert_of_present hk]; exact Option.some_ne_none k)
  · rw [ht] at hth
    exact .inr ⟨i, ha.move.watched hth.2.1, hth.1, hs.find_answered ht hc⟩
  · rw [ht] at hth
    obtain ⟨htn, -⟩ := hs.temps_drawn (.hand a τ) t (by simp [Network.temps, ht, Thread.temps])
    refine .inl ?_
    rw [Table.find_insert_of_present (w := k)]
    · exact Option.some_ne_none k
    · rw [Table.find_erase, if_neg, hk]
      rintro rfl
      exact kInitialChannelName_not_mem_names T htn

theorem Agreed.act (h : Agreed T s) (hr : Reachable T s) (ha : Act T s a τ c o) :
    Agreed T (s.apply a o) where
  joined n hn := by
    by_cases hna : n = a
    · subst hna
      simp only [Network.apply_process, upd₁_apply, if_true] at hn ⊢
      have hold : (s.process n).hasAcceptedInvitation = true →
          o.process.nodeChannelMap.find kInitialChannelName ≠ none ∨
            ∃ i ∈ o.process.watchedSockets, (i, n) ∈ T.invites ∧
              o.process.nodeChannelMap.find i = some i := by
        intro hold
        rcases h.joined n hold with hk | ⟨i, hw, hi, hk⟩
        · exact ha.placeholder hr.sound.handshake hk
        · exact .inr ⟨i, ha.move.watched hw, hi, ha.channel_kept hr.sound.handshake hk⟩
      cases hmove : ha.move with
      | acceptInvitation =>
        refine .inl ?_
        change (Table.insert _ _ _).find _ ≠ none
        simp [Table.find_insert]
      | _ => exact hold hn
    · simpa [hna] using h.joined n (by simpa [hna] using hn)
  kept i n hi hk := by
    have hs := hr.sound.handshake
    have hne : i ≠ n := T.invites_irrefl _ hi
    have hnode := (T.invites_nodes _ hi).1
    by_cases hold : (s.process n).nodeChannelMap.find i = some i
    · obtain ⟨k, hk, hor⟩ := h.kept i n hi hold
      exact ha.kept_channel hr hi hk hor
    by_cases hna : n = a
    · subst hna
      simp only [Network.apply_process, upd₁_apply, if_true] at hk
      have hth := hs.threads n τ
      rcases ha.move.new_key hk hold with rfl | hsup | ⟨t, x, ht, ht'⟩ | ⟨r, t, ht⟩
      · exact absurd hnode (kInitialChannelName_not_mem_nodes T)
      · exact absurd hnode (T.names_fresh _ (hr.suffix.subset hsup))
      · obtain rfl : τ = .io := (hr.channels n).io (by rw [ht]; rfl)
        rw [ht] at hth
        obtain ⟨-, -, hwait, -⟩ := hth
        exact ⟨t, by simpa [hne] using hwait, .inr (.inl (by simp [ht', Thread.answers]))⟩
      · rw [ht] at hth
        exact absurd hth.1 (T.invites_asymm _ hi)
    · exact absurd (by simpa [hna] using hk) hold
  answered n i t hi h' := by
    have hs := hr.sound
    have hkept : s.Answers n i t →
        ((s.apply a o).process n).nodeChannelMap.find i = some i := by
      intro hold
      have hk := h.answered n i t hi hold
      by_cases hna : n = a
      · subst hna
        simpa using ha.channel_kept hs.handshake hk
      · simpa [hna] using hk
    rcases h' with h' | ⟨x, h'⟩ | h'
    · rcases ha.thread_apply n .io with ⟨rfl, rfl, hth⟩ | hth
      · rcases ha.move.answers_old (hth ▸ h') with hold | ⟨x, ht, -⟩
        · exact hkept (.inl hold)
        · cases hmove : ha.move with
          | rekeyInitial h1 hc =>
            rw [ht, Thread.invited.injEq] at h1
            obtain ⟨rfl, rfl, rfl⟩ := h1
            simpa using hs.handshake.find_answered ht hc
          | _ => simp_all [Thread.answers]
      · exact hkept (.inl (hth ▸ h'))
    · rcases (Network.mem_apply_wire s a o).1 h' with h' | ⟨rfl, hw⟩
      · exact hkept (.inr (.inl ⟨x, h'⟩))
      · obtain ⟨j, ht, hk⟩ := ha.move.acceptance_written hw
        obtain rfl := hs.channel_of_answering (by rw [ht]; rfl) hk
        obtain rfl : τ = .io := (hr.channels n).io (by rw [ht]; rfl)
        exact hkept (.inl (by rw [ht]; rfl))
    · rcases ha.thread_apply i .io with ⟨rfl, rfl, hth⟩ | hth
      · exact hkept (.inr (.inr (ha.move.settles_old (hth ▸ h'))))
      · exact hkept (.inr (.inr (hth ▸ h')))
  settled i n hi hk := by
    have hs := hr.sound.handshake
    have hne : i ≠ n := T.invites_irrefl _ hi
    have hnode := (T.invites_nodes _ hi).2
    have hkept : (s.process n).nodeChannelMap.find i = some i →
        ((s.apply a o).process n).nodeChannelMap.find i = some i := by
      intro hfind
      by_cases hna : n = a
      · subst hna
        simpa using ha.channel_kept hs hfind
      · simpa [hna] using hfind
    by_cases hold : (s.process i).nodeChannelMap.find n = some n
    · exact hkept (h.settled i n hi hold)
    by_cases hia : i = a
    · subst hia
      simp only [Network.apply_process, upd₁_apply, if_true] at hk
      have hth := hs.threads i τ
      rcases ha.move.new_key hk hold with rfl | hsup | ⟨t, x, ht, -⟩ | ⟨r, t, ht⟩
      · exact absurd hnode (kInitialChannelName_not_mem_nodes T)
      · exact absurd hnode (T.names_fresh _ (hr.suffix.subset hsup))
      · rw [ht] at hth
        exact absurd hth.1 (T.invites_asymm _ hi)
      · obtain rfl : τ = .io := (hr.channels i).io (by rw [ht]; rfl)
        exact hkept (h.answered n i t hi (.inr (.inr (by rw [ht]; rfl))))
    · exact absurd (by simpa [hia] using hk) hold

theorem Agreed.receipt {channel : Channel} {m : ChannelMessage} {rest : List ChannelMessage}
    (h : Agreed T s) (hr : Reachable T s) (hc : Receipt T s a channel m rest) :
    Agreed T (s.consume a channel m rest) := by
  have hs := hr.sound
  have hcore : ∀ k, ((s.consume a channel m rest).process k).toCore = (s.process k).toCore :=
    fun k => (Handshake.core_consume k).1
  have hanswers : ∀ {n i t}, s.Answers n i t → (s.consume a channel m rest).Answers n i t := by
    intro n i t h
    have hidle : ∀ {k}, ((s.process k).thread .io) ≠ .idle →
        ((s.consume a channel m rest).process k).thread .io = (s.process k).thread .io := by
      intro k hk
      rcases Receipt.thread_consume s a channel m rest k .io with ⟨rfl, -, -⟩ | hth
      · exact absurd hc.idle hk
      · exact hth
    rcases h with h | ⟨x, h⟩ | h
    · refine .inl ?_
      rw [hidle, h]
      intro hi
      rw [hi] at h
      cases h
    · by_cases hw : n = channel ∧ i = a
      · obtain ⟨rfl, rfl⟩ := hw
        rw [hc.head, List.mem_cons] at h
        rcases h with rfl | h
        · exact .inr (.inr (by simp [Process.onReceivedMessage, Thread.settles]))
        · exact .inr (.inl ⟨x, by simpa using h⟩)
      · refine .inr (.inl ⟨x, ?_⟩)
        rw [Network.consume_wire, upd_apply, if_neg hw]
        exact h
    · refine .inr (.inr ?_)
      rw [hidle, h]
      intro hi
      rw [hi] at h
      cases h
  have hold : ∀ {n i t}, (s.consume a channel m rest).Answers n i t → s.Answers n i t := by
    intro n i t h
    rcases h with h | ⟨x, h⟩ | h
    · rcases Receipt.thread_consume s a channel m rest n .io with ⟨rfl, -, hth⟩ | hth
      · rw [hth] at h
        cases m <;> cases h
      · exact .inl (hth ▸ h)
    · refine .inr (.inl ⟨x, ?_⟩)
      rw [Network.consume_wire, upd_apply] at h
      split_ifs at h with hw
      · obtain ⟨rfl, rfl⟩ := hw
        rw [hc.head]
        exact List.mem_cons_of_mem _ h
      · exact h
    · rcases Receipt.thread_consume s a channel m rest i .io with ⟨rfl, -, hth⟩ | hth
      · rw [hth] at h
        cases m with
        | sendInvitation | userMessage => cases h
        | acceptInvitation t' n' x =>
          cases h
          have hw : .acceptInvitation t n x ∈ s.wire channel i := by simp [hc.head]
          obtain ⟨rfl, -⟩ := hs.handshake.wires channel i _ hw
          exact .inr (.inl ⟨x, hw⟩)
      · exact .inr (.inr (hth ▸ h))
  have hwatched : ∀ n, ((s.consume a channel m rest).process n).watchedSockets =
      (s.process n).watchedSockets := fun n => (Handshake.core_consume n).2
  refine ⟨fun n hn => ?_, fun i n hi hk => ?_, fun n i t hi ht => ?_, fun i n hi hk => ?_⟩
  · rw [hcore] at hn ⊢
    rw [hwatched]
    exact h.joined n hn
  · rw [hcore] at hk ⊢
    obtain ⟨k, hk, hor⟩ := h.kept i n hi hk
    exact ⟨k, hk, hor.imp_right hanswers⟩
  · rw [hcore]
    exact h.answered n i t hi (hold ht)
  · rw [hcore] at hk ⊢
    exact h.settled i n hi hk

theorem Reachable.agreed (h : Reachable T s) : Agreed T s := by
  refine h.induct ⟨fun n hn => ?_, fun i n _ hk => ?_, fun n i t _ ht => ?_, fun i n _ hk => ?_⟩
    (fun s n τ c o hr hs ha => hs.act hr ha) fun s n ch m rest hr hs hc => hs.receipt hr hc
  · cases hn
  · cases hk
  · rcases ht with ht | ⟨x, hx⟩ | ht
    · cases ht
    · cases hx
    · cases ht
  · cases hk

theorem Reachable.joined (h : Reachable T s) (n : Identifier) : (s.process n).Joined := by
  refine Reachable.forall_process (P := fun _ p => p.Joined) (fun n => ⟨?_, ?_⟩)
    (fun s n τ c o hr hp ha => ha.move.joined ha.idle hp) (fun s n ch m rest hr hp hc => ?_) h n
  · rintro ⟨⟩
  · rintro τ ⟨⟩
  · refine ⟨hp.callback, fun τ hτ => ?_⟩
    by_cases hio : τ = .io
    · subst hio
      cases m with
      | acceptInvitation | userMessage => simp [Process.onReceivedMessage, Thread.joining] at hτ
      | sendInvitation i t x =>
        obtain ⟨rfl, hi, -⟩ := hr.sound.handshake.wires ch n (.sendInvitation i t x) (by simp [hc.head])
        by_contra hnot
        have hnot : (s.process n).hasAcceptedInvitation = false := by simpa using hnot
        exact hr.sound.handshake.unaccepted n hnot _ hc.watched hi
    · exact hp.threads τ (by simpa [hio] using hτ)

/-! ### Whichever end is ahead -/

/-- While an invitation is read its channel has its placeholder. -/
theorem Reachable.placeholder (h : Reachable T s) {x : Identifier}
    (ht : (s.process n).thread τ = .invited i t x) :
    (s.process n).nodeChannelMap.find kInitialChannelName = some i := by
  have hs := h.sound.handshake
  have hth := hs.threads n τ
  rw [ht] at hth
  obtain ⟨hi, hw, hwait, -⟩ := hth
  rcases h.agreed.joined n ((h.joined n).threads τ (by rw [ht]; rfl)) with hk | ⟨j, hjw, hj, hk⟩
  · obtain ⟨k, hk⟩ := Option.ne_none_iff_exists'.1 hk
    obtain ⟨hkw, hki⟩ := hs.initial n k hk
    rw [hk, hs.single n k hkw i hw hki hi]
  exfalso
  obtain rfl := hs.single n j hjw i hw hj hi
  have hP : t ∈ s.temps (.hand n τ) := by simp [Network.temps, ht, Thread.temps]
  obtain ⟨k, hki, hor⟩ := h.agreed.kept j n hi hk
  obtain rfl := (h.channels j).injective k t n hki hwait
  rcases hor with rfl | hans | ⟨y, hy⟩ | hset
  · exact T.names_fresh _ (hs.temps_drawn _ _ hP).1 (T.invites_nodes _ hi).2
  · obtain rfl : τ = .io := (h.channels n).io (by rw [ht]; rfl)
    rw [ht] at hans
    cases hans
  · have hQ : k ∈ s.temps (.wire n j) :=
      List.mem_flatMap.2 ⟨_, hy, by simp [ChannelMessage.temps]⟩
    cases hs.temps_eq hP hQ
  · have hQ : k ∈ s.temps (.hand j .io) := by simp [Network.temps, Thread.temps_of_settles hset]
    cases hs.temps_eq hP hQ
    exact T.invites_irrefl _ hi rfl

/-- An acceptor that reads an invitation does not know the inviter yet. -/
theorem Reachable.not_known (h : Reachable T s) {x : Identifier}
    (ht : (s.process n).thread τ = .invited i t x) : (s.process n).nodeChannelMap.find i = none := by
  have hk := h.placeholder ht
  have hi := (h.sound.handshake.initial n i hk).2
  by_contra hne
  obtain ⟨c, hc⟩ := Option.ne_none_iff_exists'.1 hne
  obtain ⟨rfl, -⟩ := (h.sound.handshake.entries n i c hc).of_node (T.invites_nodes _ hi).1
  have heq := (h.channels n).injective _ _ _ hk hc
  exact kInitialChannelName_not_mem_nodes T (heq ▸ (T.invites_nodes _ hi).1)

/-- No lookup of the handshake fails. -/
theorem Reachable.handshake_checks (hs : Reachable T s) {l : Label} {k : Check}
    (hl : s.step l = .error (.check k)) : k ≠ .noInitialChannel ∧ k ≠ .noPendingInvitation ∧
      k ≠ .noTemporaryChannel ∧ k ≠ .noFinishedAcceptingCallback ∧ k ≠ .reservedEndpointNotFound := by
  have hsound := hs.sound
  have accepted : ∀ {e : Endpoint} {m : Message}, e.acceptMessage m = .error (.check k) →
      k ≠ .noInitialChannel ∧ k ≠ .noPendingInvitation ∧ k ≠ .noTemporaryChannel ∧
      k ≠ .noFinishedAcceptingCallback ∧ k ≠ .reservedEndpointNotFound := by
    intro e m hm
    rcases Endpoint.acceptMessage_check hm with rfl | rfl | rfl | rfl <;> simp
  rcases Network.step_fault hl with ⟨n, τ, c, rfl, hf⟩ | ⟨n, τ, rfl, hf⟩
  · cases hf with
    | callCreate _ _ hk => rcases hk with rfl | rfl <;> simp
    | _ => simp
  · have hth := hsound.handshake.threads n τ
    have htidy := hsound.tidy.threads n τ
    cases hf with
    | deliver _ _ _ hk | dispatch _ _ _ hk => exact accepted hk
    | invite _ _ _ hk => rcases hk with rfl | rfl <;> simp
    | rekeyInitial ht hnone =>
      rw [hs.placeholder ht] at hnone
      cases hnone
    | accepted ht hnone =>
      have hj := hs.joined n
      have hsome := hj.callback (hj.threads τ (by rw [ht]; rfl))
      rw [hnone] at hsome
      cases hsome
    | acknowledge ht hnone =>
      rw [ht] at hth
      obtain ⟨-, x, ⟨-, r, hr, -⟩, -⟩ := hth
      rw [hnone] at hr
      cases hr
    | reserveMissing ht hnone =>
      rw [ht] at hth
      obtain ⟨-, -, -, y, ⟨-, hpeer⟩, -⟩ := hth
      simp [Network.peerOf, hnone] at hpeer
    | rekey ht hnone =>
      rw [ht] at hth
      rw [hth.2.1] at hnone
      cases hnone
    | drainMissing ht hnone =>
      rw [ht] at htidy
      obtain ⟨e, he, -⟩ := htidy
      rw [hnone] at he
      cases he
    | _ => simp

end

/-- In every reachable state of any network, the two ends of an invitation agree however far each has
    come: once the acceptor knows the inviter, the inviter has its channel under exactly one name, its
    own or the temporary one that the answer brings; an inviter that knows the acceptor is known to it;
    and whoever reads an invitation has the placeholder. No lookup of the handshake fails. -/
theorem invitation_ends_agree {T : Topology} {s : Network} (hs : Reachable T s) :
    (∀ i n, (i, n) ∈ T.invites → (s.process n).nodeChannelMap.find i ≠ none →
      ∃ k, (∀ j, (s.process i).nodeChannelMap.find j = some n ↔ j = k) ∧
        (k = n ∨ s.Answers n i k)) ∧
    (∀ i n, (i, n) ∈ T.invites → (s.process i).nodeChannelMap.find n ≠ none →
      (s.process n).nodeChannelMap.find i = some i) ∧
    (∀ n τ i t x, (s.process n).thread τ = .invited i t x →
      (s.process n).nodeChannelMap.find kInitialChannelName = some i ∧
      (s.process n).nodeChannelMap.find i = none) ∧
    ∀ l k, s.step l = .error (.check k) → k ≠ .noInitialChannel ∧ k ≠ .noPendingInvitation ∧
      k ≠ .noTemporaryChannel ∧ k ≠ .noFinishedAcceptingCallback ∧ k ≠ .reservedEndpointNotFound := by
  have hsound := hs.sound
  have hnode : ∀ a b c, b ∈ T.nodes → (s.process a).nodeChannelMap.find b = some c → c = b :=
    fun a b c hb hc => ((hsound.handshake.entries a b c hc).of_node hb).1.symm
  refine ⟨fun i n hi hk => ?_, fun i n hi hk => ?_,
    fun n τ i t x ht => ⟨hs.placeholder ht, hs.not_known ht⟩, fun l k hl => hs.handshake_checks hl⟩
  · obtain ⟨c, hc⟩ := Option.ne_none_iff_exists'.1 hk
    obtain rfl := hnode n i c (T.invites_nodes _ hi).1 hc
    obtain ⟨k, hk, hor⟩ := hs.agreed.kept c n hi hc
    refine ⟨k, fun j => ⟨fun hj => (hs.channels c).injective j k n hj hk, ?_⟩, hor⟩
    rintro rfl
    exact hk
  · obtain ⟨c, hc⟩ := Option.ne_none_iff_exists'.1 hk
    obtain rfl := hnode i n c (T.invites_nodes _ hi).2 hc
    exact hs.agreed.settled i c hi hc

/-- The acceptor is ahead: its answer is in the channel. -/
theorem answer_on_its_way : ∃ s k, Reachable Sample.pair s ∧
    (s.process Sample.acceptor).nodeChannelMap.find Sample.inviter ≠ none ∧
    (s.process Sample.inviter).nodeChannelMap.find Sample.acceptor = none ∧
    (s.process Sample.inviter).nodeChannelMap.find k = some Sample.acceptor ∧
    s.Answers Sample.acceptor Sample.inviter k := by
  obtain ⟨s, hs, hk, hnone⟩ := Network.exists_of_follow Sample.pair (fun _ _ => True)
    (Label.calling Sample.inviter (.user 0)
        (.sendInvitationAndGetMessagePipe Sample.acceptor none) 4 ++
      [.call Sample.acceptor (.user 0) (.acceptInvitation Sample.inviter 0)] ++
      Label.reading Sample.acceptor Sample.inviter 4)
    (fun s => (s.process Sample.acceptor).nodeChannelMap.find Sample.inviter ≠ none ∧
      (s.process Sample.inviter).nodeChannelMap.find Sample.acceptor = none) (by decide +kernel)
  obtain ⟨k, hkeys, hor⟩ := (invitation_ends_agree hs).1 Sample.inviter Sample.acceptor
    (by decide) hk
  have hfind := (hkeys k).2 rfl
  refine ⟨s, k, hs, hk, hnone, hfind, hor.resolve_left ?_⟩
  rintro rfl
  rw [hnone] at hfind
  cases hfind

end Mage
