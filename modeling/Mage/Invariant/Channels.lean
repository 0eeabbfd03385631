import Mage.Invariant.Handshake

/-! The channels of one node. A channel is created by the call that invites over it or by the call
    that accepts over it, is stored under one key from then on, and its invitation is settled once,
    by the thread that reads the sockets. -/

namespace Mage
open Lib

/-- The channel that a thread is about to create. -/
def Thread.starting : Thread → Option Channel
  | .inviting c => some c
  | .creatingChannel c _ _ => some c
  | _ => none

def Caller.settling : Caller → Option Channel
  | .onReceivedAcceptInvitation _ c => some c
  | _ => none

/-- The channel whose invitation a thread settles, once the channel has its final key. -/
def Thread.settling : Thread → Option Channel
  | .sending b _ _ _ => b.caller.settling
  | .unlocking b _ => b.caller.settling
  | .draining _ c => some c
  | .acknowledged c => some c
  | _ => none

/-- The points that only the thread that reads the sockets can be at. -/
def Thread.ioOnly : Thread → Bool
  | .sending b _ _ _ => b.caller.settling.isSome
  | .unlocking b _ => b.caller.settling.isSome
  | .receiving _ | .recovering _ _ _ _ | .forwarding _ _ _ _ _ | .releasing _ => true
  | .invited _ _ _ | .accepting _ _ _ | .replying _ _ _ | .accepted _ => true
  | .acknowledging _ _ _ | .reserving _ _ _ _ | .rekeying _ _ _ | .draining _ _ => true
  | .acknowledged _ => true
  | _ => false

/-- The channel of a call to `SendInvitationAndGetMessagePipe`. -/
def InvitationEvent.invited : InvitationEvent → Option Channel
  | .sent c _ => some c
  | .accepted _ _ => none

/-- The channel of an acceptance. -/
def InvitationEvent.settled : InvitationEvent → Option Channel
  | .sent _ _ => none
  | .accepted c _ => some c

structure Channels (T : Topology) (n : Identifier) (p : Process) : Prop where
  ioOnly : ∀ k, (p.thread (.user k)).ioOnly = false
  injective : ∀ k k' c, p.nodeChannelMap.find k = some c → p.nodeChannelMap.find k' = some c → k = k'
  invited : ∀ k c, p.nodeChannelMap.find k = some c → (n, c) ∈ T.invites →
    some c ∈ p.invitations.map InvitationEvent.invited
  starting : ∀ τ c, (p.thread τ).starting = some c →
    some c ∈ p.invitations.map InvitationEvent.invited ∧ ∀ k, p.nodeChannelMap.find k ≠ some c
  starting_once : ∀ τ σ c, (p.thread τ).starting = some c → (p.thread σ).starting = some c → τ = σ
  watched : ∀ k c, p.nodeChannelMap.find k = some c → (c, n) ∈ T.invites → c ∈ p.watchedSockets
  settling : ∀ τ c, (p.thread τ).settling = some c → p.nodeChannelMap.find c = some c ∧
    some c ∈ p.invitations.map InvitationEvent.invited ∧
    some c ∉ p.invitations.map InvitationEvent.settled
  settled : ∀ c, some c ∈ p.invitations.map InvitationEvent.settled →
    p.nodeChannelMap.find c = some c
  invited_once : ∀ c, (p.invitations.map InvitationEvent.invited).count (some c) ≤ 1

namespace Process.Move
variable {p : Process} {τ : ThreadId} {supply : List Identifier} {c : Option Call} {o : Outcome}

theorem ioOnly (h : p.Move τ supply c o) (hi : c.isSome → p.thread τ = .idle)
    (ht : (p.thread τ).ioOnly = false) : (o.process.thread τ).ioOnly = false := by
  cases h with
  | createMessagePipes | bindReceiver | acceptInvitation => exact ht
  | take h | write h | unlock h | next h => simpa [h, Thread.ioOnly] using ht
  | drained h _ hb => simp [h, Thread.ioOnly, hb, Caller.settling] at ht
  | receive h | recover h | relay h | dispatch h | forward h | writeForwarded h | rekeyInitial h
  | accept h | reply h | acknowledge h | reserve h | rekey h | drain h =>
    simp [h, Thread.ioOnly] at ht
  | _ => simp [Thread.ioOnly, Caller.settling]

/-- Apart from the four moves that change it, the channel map stays. -/
theorem channels_same (h : p.Move τ supply c o) :
    o.process.nodeChannelMap = p.nodeChannelMap ∨
    (∃ fd callback, c = some (.acceptInvitation fd callback) ∧ p.hasAcceptedInvitation = false ∧
      o.process.nodeChannelMap = p.nodeChannelMap.insert kInitialChannelName fd ∧
      fd ∈ o.process.watchedSockets) ∨
    (∃ channel l r t rest, p.thread τ = .creatingChannel channel l r ∧ supply = t :: rest ∧
      o.process.nodeChannelMap = p.nodeChannelMap.insert t channel) ∨
    (∃ i t x channel, p.thread τ = .invited i t x ∧
      p.nodeChannelMap.find kInitialChannelName = some channel ∧
      o.process.nodeChannelMap = (p.nodeChannelMap.erase kInitialChannelName).insert i channel) ∨
    (∃ r t m channel, p.thread τ = .rekeying r t m ∧ p.nodeChannelMap.find t = some channel ∧
      o.process.nodeChannelMap = (p.nodeChannelMap.erase t).insert m channel) := by
  cases h with
  | acceptInvitation ha => exact .inr (.inl ⟨_, _, rfl, ha, rfl, List.mem_cons_self⟩)
  | createChannel ht hs => exact .inr (.inr (.inl ⟨_, _, _, _, _, ht, hs, rfl⟩))
  | rekeyInitial ht hc => exact .inr (.inr (.inr (.inl ⟨_, _, _, _, ht, hc, rfl⟩)))
  | rekey ht hc => exact .inr (.inr (.inr (.inr ⟨_, _, _, _, ht, hc, rfl⟩)))
  | _ => exact .inl rfl

/-- Apart from the two moves that record an event, the invitation history and the callback stay. -/
theorem history (h : p.Move τ supply c o) :
    (o.process.invitations = p.invitations ∧
      o.process.remoteHasAcceptedInvitationCallback = p.remoteHasAcceptedInvitationCallback) ∨
    (∃ fd callback, c = some (.sendInvitationAndGetMessagePipe fd callback) ∧
      o.process.invitations = p.invitations ++ [.sent fd callback] ∧
      o.process.remoteHasAcceptedInvitationCallback = callback) ∨
    (∃ channel, p.thread τ = .acknowledged channel ∧ o.process.invitations =
      p.invitations ++ [.accepted channel p.remoteHasAcceptedInvitationCallback] ∧
      o.process.remoteHasAcceptedInvitationCallback = none) := by
  cases h with
  | sendInvitation => exact .inr (.inl ⟨_, _, rfl, rfl, rfl⟩)
  | acknowledged ht => exact .inr (.inr ⟨_, ht, rfl, rfl⟩)
  | _ => exact .inl ⟨rfl, rfl⟩

/-- A thread starts on a channel with the call of its invitation. -/
theorem starting_same (h : p.Move τ supply c o) (hi : c.isSome → p.thread τ = .idle)
    {channel : Channel} (ht : (o.process.thread τ).starting = some channel) :
    o.process.nodeChannelMap = p.nodeChannelMap ∧
    (((p.thread τ).starting = some channel ∧ o.process.invitations = p.invitations) ∨
      ∃ callback, c = some (.sendInvitationAndGetMessagePipe channel callback) ∧
        o.process.invitations = p.invitations ++ [.sent channel callback]) := by
  cases h with
  | createMessagePipes | bindReceiver | acceptInvitation =>
    have ht : (p.thread τ).starting = some channel := ht
    rw [hi rfl] at ht
    cases ht
  | sendInvitation =>
    simp only [goto_thread, upd₁_apply, if_true, Thread.starting, Option.some.injEq] at ht
    subst ht
    exact ⟨rfl, .inr ⟨_, rfl, rfl⟩⟩
  | invite h1 =>
    refine ⟨rfl, .inl ⟨?_, rfl⟩⟩
    simpa [h1, Thread.starting] using ht
  | _ => simp [Thread.starting] at ht

/-- A thread settles an invitation once it has given the channel its final key. -/
theorem settling_same (h : p.Move τ supply c o) (hi : c.isSome → p.thread τ = .idle)
    {channel : Channel} (ht : (o.process.thread τ).settling = some channel) :
    o.process.invitations = p.invitations ∧
    ((p.thread τ).settling = some channel ∨
      ∃ r t m, p.thread τ = .rekeying r t m ∧ p.nodeChannelMap.find t = some channel ∧
        o.process.nodeChannelMap = (p.nodeChannelMap.erase t).insert m channel) := by
  cases h with
  | createMessagePipes | bindReceiver | acceptInvitation =>
    have ht : (p.thread τ).settling = some channel := ht
    rw [hi rfl] at ht
    cases ht
  | take h1 | write h1 | unlock h1 | next h1 =>
    exact ⟨rfl, .inl (by simpa [h1, Thread.settling] using ht)⟩
  | drained h1 _ hb => exact ⟨rfl, .inl (by simpa [h1, hb, Thread.settling, Caller.settling] using ht)⟩
  | drain h1 => exact ⟨rfl, .inl (by simpa [h1, Thread.settling, Caller.settling] using ht)⟩
  | rekey h1 hc =>
    simp only [goto_thread, upd₁_apply, if_true, Thread.settling, Option.some.injEq] at ht
    subst ht
    exact ⟨rfl, .inr ⟨_, _, _, h1, hc, rfl⟩⟩
  | _ => simp [Thread.settling, Caller.settling] at ht

end Process.Move

section
variable {T : Topology} {s : Network} {n : Identifier} {τ : ThreadId} {c : Option Call} {o : Outcome}

/-- A channel stored under the name of its own node stays there. -/
theorem Act.channel_kept (h : Handshake T s) (ha : Act T s n τ c o) {k : Identifier}
    (hk : (s.process n).nodeChannelMap.find k = some k) : o.process.nodeChannelMap.find k = some k := by
  have hnode := (h.entries n k k hk).linked.node
  have hth := h.threads n τ
  rcases ha.move.channels_same with heq | ⟨_, _, _, _, heq, _⟩ | ⟨_, _, _, _, _, _, _, heq⟩ |
    ⟨i, t, x, channel, ht, -, heq⟩ | ⟨r, t, m, channel, ht, -, heq⟩ <;> rw [heq]
  · exact hk
  · exact Table.find_insert_of_present hk _ _
  · exact Table.find_insert_of_present hk _ _
  · refine Table.find_insert_of_present ?_ _ _
    rw [Table.find_erase, if_neg, hk]
    rintro rfl
    exact kInitialChannelName_not_mem_nodes T hnode
  · refine Table.find_insert_of_present ?_ _ _
    rw [ht] at hth
    rw [Table.find_erase, if_neg, hk]
    rintro rfl
    obtain ⟨hkt, -⟩ := h.temps_drawn (.hand n τ) k (by simp [Network.temps, ht, Thread.temps])
    exact T.names_fresh _ hkt hnode

/-- What an act stores in the channel map was there, or is new to it. -/
theorem Act.channel_origin (ha : Act T s n τ c o) {k ch : Identifier}
    (hk : o.process.nodeChannelMap.find k = some ch) :
    (∃ k', (s.process n).nodeChannelMap.find k' = some ch) ∨
    ((ch, n) ∈ T.invites ∧ ch ∈ o.process.watchedSockets) ∨
    (((s.process n).thread τ).starting = some ch ∧ (o.process.thread τ).starting = none) := by
  have inserted : ∀ {t : Table Identifier Channel} {j v : Identifier},
      (t.insert j v).find k = some ch → (∃ k', t.find k' = some ch) ∨ ch = v := by
    intro t j v hf
    rw [Table.find_insert] at hf
    split_ifs at hf with hj
    · cases hold : t.find j with
      | none => exact .inr (by simpa [hold] using hf.symm)
      | some w => exact .inl ⟨j, by simpa [hold] using hf⟩
    · exact .inl ⟨k, hf⟩
  cases ha.move with
  | @acceptInvitation fd callback hacc =>
    rcases inserted hk with hold | rfl
    · exact .inl hold
    · exact .inr (.inl ⟨ha.allowed _ rfl, List.mem_cons_self⟩)
  | @createChannel channel l r t rest ht hs =>
    rcases inserted hk with hold | rfl
    · exact .inl hold
    · exact .inr (.inr ⟨by rw [ht]; rfl, by simp [Thread.starting]⟩)
  | rekeyInitial ht hc | rekey ht hc =>
    rcases Table.find_rekey hk with hold | ⟨-, rfl⟩
    · exact .inl ⟨_, hold⟩
    · exact .inl ⟨_, hc⟩
  | _ => exact .inl ⟨k, hk⟩

/-- The node that a thread is about to create a channel to. -/
theorem Handshake.starting_invited (h : Handshake T s) {ch : Channel}
    (ht : ((s.process n).thread τ).starting = some ch) : (n, ch) ∈ T.invites := by
  have hth := h.threads n τ
  cases hs : (s.process n).thread τ <;> simp [hs, Thread.starting] at ht
  all_goals
    subst ht
    rw [hs] at hth
  · exact hth
  · exact hth.1

theorem Act.channels_injective (h : Handshake T s) (hp : Channels T n (s.process n))
    (ha : Act T s n τ c o) : o.process.nodeChannelMap.Injective := by
  have hth := h.threads n τ
  have hinj : (s.process n).nodeChannelMap.Injective := hp.injective
  rcases ha.move.channels_same with heq | ⟨fd, callback, rfl, hacc, heq, -⟩ |
    ⟨channel, l, r, t, rest, ht, -, heq⟩ | ⟨i, t, x, channel, -, hc, heq⟩ |
    ⟨r, t, m, channel, -, hc, heq⟩ <;> rw [heq]
  · exact hinj
  · refine hinj.insert fun j hj => ?_
    have hfd : (fd, n) ∈ T.invites := ha.allowed _ rfl
    exact h.unaccepted n hacc fd (hp.watched j fd hj hfd) hfd
  · exact hinj.insert (hp.starting τ channel (by rw [ht]; rfl)).2
  · exact hinj.rekey hc _
  · exact hinj.rekey hc _

theorem Act.invited_grows (ha : Act T s n τ c o) {x : Option Channel}
    (hx : x ∈ (s.process n).invitations.map InvitationEvent.invited) :
    x ∈ o.process.invitations.map InvitationEvent.invited := by
  rcases ha.move.history with ⟨heq, -⟩ | ⟨_, _, _, heq, -⟩ | ⟨_, _, heq, -⟩ <;> rw [heq]
  · exact hx
  all_goals
    rw [List.map_append]
    exact List.mem_append_left _ hx

/-- A call invites over a channel that no call invited over before. -/
theorem Act.not_invited (ha : Act T s n τ c o) {fd : Channel} {callback : Option Callback}
    (hc : c = some (.sendInvitationAndGetMessagePipe fd callback)) :
    some fd ∉ (s.process n).invitations.map InvitationEvent.invited := by
  intro hmem
  obtain ⟨e, he, heq⟩ := List.mem_map.1 hmem
  obtain ⟨-, hnew⟩ := ha.allowed _ hc
  cases e with
  | sent ch cb =>
    cases heq
    exact hnew _ he cb rfl
  | accepted => cases heq

theorem Channels.io (hp : Channels T n (s.process n))
    (ht : ((s.process n).thread τ).ioOnly = true) : τ = .io := by
  cases τ with
  | io => rfl
  | user k =>
    rw [hp.ioOnly k] at ht
    cases ht

theorem Thread.ioOnly_of_settling {t : Thread} {ch : Channel} (h : t.settling = some ch) :
    t.ioOnly = true := by
  cases t <;> simp_all [Thread.settling, Thread.ioOnly]

theorem Act.channels (h : Handshake T s) (hp : Channels T n (s.process n)) (ha : Act T s n τ c o) :
    Channels T n o.process where
  ioOnly k := by
    by_cases hk : .user k = τ
    · subst hk
      exact ha.move.ioOnly ha.idle (hp.ioOnly k)
    · rw [ha.move.thread_other hk]
      exact hp.ioOnly k
  injective := ha.channels_injective h hp
  invited k ch hk hch := by
    refine ha.invited_grows ?_
    rcases ha.channel_origin hk with ⟨k', hold⟩ | ⟨hacc, -⟩ | ⟨hst, -⟩
    · exact hp.invited k' ch hold hch
    · exact absurd hacc (T.invites_asymm _ hch)
    · exact (hp.starting τ ch hst).1
  starting σ ch hσ := by
    by_cases hστ : σ = τ
    · subst hστ
      obtain ⟨hmap, ⟨hst, hinv⟩ | ⟨callback, hc, hinv⟩⟩ := ha.move.starting_same ha.idle hσ
      · rw [hmap, hinv]
        exact hp.starting σ ch hst
      · rw [hmap, hinv]
        refine ⟨by simp [InvitationEvent.invited], fun k hk => ?_⟩
        exact ha.not_invited hc (hp.invited k ch hk (ha.allowed _ hc).1)
    · rw [ha.move.thread_other hστ] at hσ
      obtain ⟨hinv, hmap⟩ := hp.starting σ ch hσ
      refine ⟨ha.invited_grows hinv, fun k hk => ?_⟩
      rcases ha.channel_origin hk with ⟨k', hold⟩ | ⟨hacc, -⟩ | ⟨hst, -⟩
      · exact hmap k' hold
      · exact T.invites_asymm _ (h.starting_invited hσ) hacc
      · exact hστ (hp.starting_once σ τ ch hσ hst)
  starting_once σ ρ ch hσ hρ := by
    have old : ∀ ω, (o.process.thread ω).starting = some ch →
        ((s.process n).thread ω).starting = some ch ∨
        (ω = τ ∧ some ch ∉ (s.process n).invitations.map InvitationEvent.invited) := by
      intro ω hω
      by_cases hωτ : ω = τ
      · subst hωτ
        obtain ⟨-, ⟨hst, -⟩ | ⟨callback, hc, -⟩⟩ := ha.move.starting_same ha.idle hω
        · exact .inl hst
        · exact .inr ⟨rfl, ha.not_invited hc⟩
      · rw [ha.move.thread_other hωτ] at hω
        exact .inl hω
    rcases old σ hσ with h1 | ⟨rfl, h1⟩ <;> rcases old ρ hρ with h2 | ⟨h2, h3⟩
    · exact hp.starting_once σ ρ ch h1 h2
    · exact absurd (hp.starting σ ch h1).1 h3
    · exact absurd (hp.starting ρ ch h2).1 h1
    · exact h2.symm
  watched k ch hk hch := by
    rcases ha.channel_origin hk with ⟨k', hold⟩ | ⟨-, hw⟩ | ⟨hst, -⟩
    · exact ha.move.watched (hp.watched k' ch hold hch)
    · exact hw
    · exact absurd hch (T.invites_asymm _ (h.starting_invited hst))
  settling σ ch hσ := by
    by_cases hστ : σ = τ
    · subst hστ
      obtain ⟨hinv, hst | ⟨r, t, m, ht, hc, hmap⟩⟩ := ha.move.settling_same ha.idle hσ
      · rw [hinv]
        obtain ⟨h1, h2, h3⟩ := hp.settling σ ch hst
        exact ⟨ha.channel_kept h h1, h2, h3⟩
      · have hth := h.threads n σ
        rw [ht] at hth
        obtain ⟨hinvites, htm, -⟩ := hth
        rw [htm, Option.some.injEq] at hc
        subst hc
        rw [hinv, hmap]
        refine ⟨?_, hp.invited t m htm hinvites, fun hset => ?_⟩
        · rw [Table.find_insert, if_pos rfl]
          cases hf : ((s.process n).nodeChannelMap.erase t).find m with
          | none => rfl
          | some u =>
            rw [Table.find_erase] at hf
            split_ifs at hf
            rw [((h.entries n m u hf).of_node (T.invites_nodes _ hinvites).2).1]
            rfl
        · have htm' := hp.injective t m m htm (hp.settled m hset)
          obtain ⟨hname, -⟩ :=
            h.temps_drawn (.hand n σ) t (by simp [Network.temps, ht, Thread.temps])
          exact T.names_fresh _ hname (htm' ▸ (T.invites_nodes _ hinvites).2)
    · rw [ha.move.thread_other hστ] at hσ
      obtain ⟨h1, h2, h3⟩ := hp.settling σ ch hσ
      refine ⟨ha.channel_kept h h1, ha.invited_grows h2, ?_⟩
      rcases ha.move.history with ⟨heq, -⟩ | ⟨_, _, _, heq, -⟩ | ⟨_, ht, -⟩
      · rwa [heq]
      · rw [heq]
        simpa [InvitationEvent.settled] using h3
      · have hσio := hp.io (Thread.ioOnly_of_settling hσ)
        have hτio := hp.io (τ := τ) (by rw [ht]; rfl)
        exact absurd (hσio.trans hτio.symm) hστ
  settled ch hch := by
    refine ha.channel_kept h ?_
    rcases ha.move.history with ⟨heq, -⟩ | ⟨_, _, _, heq, -⟩ | ⟨channel, ht, heq, -⟩ <;>
      rw [heq] at hch
    · exact hp.settled ch hch
    · exact hp.settled ch (by simpa [InvitationEvent.settled] using hch)
    · rw [List.map_append, List.mem_append] at hch
      rcases hch with hch | hch
      · exact hp.settled ch hch
      · have hch : ch = channel := by simpa [InvitationEvent.settled] using hch
        subst hch
        exact (hp.settling τ ch (by rw [ht]; rfl)).1
  invited_once ch := by
    have hold := hp.invited_once ch
    rcases ha.move.history with ⟨heq, -⟩ | ⟨fd, callback, hc, heq, -⟩ | ⟨channel, ht, heq, -⟩ <;>
      rw [heq]
    · exact hold
    · rw [List.map_append, List.count_append]
      by_cases hfd : fd = ch
      · subst hfd
        rw [List.count_eq_zero.2 (ha.not_invited hc)]
        simp [InvitationEvent.invited]
      · simpa [InvitationEvent.invited, hfd] using hold
    · simpa [InvitationEvent.invited] using hold

end

theorem Channels.initial (T : Topology) (n : Identifier) :
    Channels T n (Network.initialProcess n) where
  ioOnly k := rfl
  injective k k' c hk := by cases hk
  invited k c hk := by cases hk
  starting τ c hτ := by cases hτ
  starting_once τ σ c hτ := by cases hτ
  watched k c hk := by cases hk
  settling τ c hτ := by cases hτ
  settled c hc := by cases hc
  invited_once c := Nat.zero_le 1

theorem Channels.receipt {T : Topology} {s : Network} {n : Identifier} {channel : Channel}
    {m : ChannelMessage} {rest : List ChannelMessage} (hc : Receipt T s n channel m rest)
    (hp : Channels T n (s.process n)) :
    Channels T n ((s.process n).goto .io (Process.onReceivedMessage m)) := by
  have hst : ∀ σ, (((s.process n).goto .io (Process.onReceivedMessage m)).thread σ).starting =
      ((s.process n).thread σ).starting := by
    intro σ
    by_cases hσ : σ = .io
    · subst hσ
      rw [hc.idle]
      cases m <;> simp [Process.onReceivedMessage, Thread.starting]
    · simp [hσ]
  have hset : ∀ σ, (((s.process n).goto .io (Process.onReceivedMessage m)).thread σ).settling =
      ((s.process n).thread σ).settling := by
    intro σ
    by_cases hσ : σ = .io
    · subst hσ
      rw [hc.idle]
      cases m <;> simp [Process.onReceivedMessage, Thread.settling]
    · simp [hσ]
  refine ⟨fun k => ?_, hp.injective, hp.invited, ?_, ?_, hp.watched, ?_, hp.settled,
    hp.invited_once⟩
  · simpa using hp.ioOnly k
  · intro τ c hτ
    exact hp.starting τ c (hst τ ▸ hτ)
  · intro τ σ c hτ hσ
    exact hp.starting_once τ σ c (hst τ ▸ hτ) (hst σ ▸ hσ)
  · intro τ c hτ
    exact hp.settling τ c (hset τ ▸ hτ)

end Mage
