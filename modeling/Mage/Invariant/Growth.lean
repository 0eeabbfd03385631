import Mage.Invariant.Locks

/-! What never changes. An endpoint once registered stays registered under its own name with the peer
    it was created with, and once it is proxying it keeps its target; a handle keeps its endpoint; a
    node keeps its name; drawn names do not come back. -/

namespace Mage
open Lib

/-- What an endpoint keeps from one state to the next. -/
structure Endpoint.Later (e e' : Endpoint) : Prop where
  name : e'.name = e.name
  peer : e'.peerAddress = e.peerAddress
  proxy : e.state = .kUnboundAndProxying → e'.state = .kUnboundAndProxying ∧
    e'.proxyTarget = e.proxyTarget
  bound : e.state = .kBound → e'.state = .kBound

theorem Endpoint.Later.refl (e : Endpoint) : e.Later e := ⟨rfl, rfl, fun h => ⟨h, rfl⟩, id⟩

theorem Endpoint.acceptMessage_later {e e' : Endpoint} {m : Message}
    (h : e.acceptMessage m = .ok e') : e.Later e' := by
  rcases acceptMessage_eq h with ⟨-, -, rfl⟩ | ⟨-, -, rfl⟩
  · exact ⟨rfl, rfl, fun h => ⟨h, rfl⟩, id⟩
  · exact ⟨rfl, rfl, fun h => ⟨h, rfl⟩, id⟩

/-- Every endpoint of `t` is in `u`, later. -/
def Table.Later (t u : Table Identifier Endpoint) : Prop :=
  ∀ x e, t.find x = some e → ∃ e', u.find x = some e' ∧ e.Later e'

namespace Table.Later
variable {t u v : Table Identifier Endpoint}

theorem refl (t : Table Identifier Endpoint) : Table.Later t t := fun _ e h => ⟨e, h, .refl e⟩

theorem trans (h₁ : Table.Later t u) (h₂ : Table.Later u v) : Table.Later t v := by
  intro x e h
  obtain ⟨e', h', l⟩ := h₁ x e h
  obtain ⟨e'', h'', l'⟩ := h₂ x e' h'
  refine ⟨e'', h'', l'.name.trans l.name, l'.peer.trans l.peer, fun hp => ?_,
    fun hb => l'.bound (l.bound hb)⟩
  obtain ⟨h1, h2⟩ := l.proxy hp
  obtain ⟨h3, h4⟩ := l'.proxy h1
  exact ⟨h3, h4.trans h2⟩

theorem set_new {x : Identifier} (h : t.find x = none) (e : Endpoint) :
    Table.Later t (t.set x e) := by
  intro y f hy
  have hyx : y ≠ x := by
    rintro rfl
    simp [h] at hy
  exact ⟨f, by simpa [hyx] using hy, .refl f⟩

theorem set_later {x : Identifier} {e e' : Endpoint} (h : t.find x = some e) (hl : e.Later e') :
    Table.Later t (t.set x e') := by
  intro y f hy
  by_cases hyx : y = x
  · subst hyx
    rw [h] at hy
    cases hy
    exact ⟨e', by simp, hl⟩
  · exact ⟨f, by simpa [hyx] using hy, .refl f⟩

theorem insert (x : Identifier) (e : Endpoint) : Table.Later t (t.insert x e) := by
  cases h : t.find x with
  | none => rw [Table.insert_of_absent h]; exact set_new h e
  | some f => rw [Table.insert, h]; exact refl t

end Table.Later

namespace Process.Move
variable {p : Process} {τ : ThreadId} {supply : List Identifier} {c : Option Call} {o : Outcome}

theorem later (h : p.Move τ supply c o) :
    Table.Later p.localEndpoints o.process.localEndpoints := by
  cases h with
  | createMessagePipes _ hx hy hxy =>
    exact (Table.Later.set_new hx _).trans (.set_new (by simpa [hxy.symm] using hy) _)
  | invite _ _ hx hy hxy =>
    exact (Table.Later.set_new hx _).trans (.set_new (by simpa [hxy.symm] using hy) _)
  | bindReceiver _ he _ hq => exact .set_later he ⟨rfl, rfl, by simp [hq], by simp⟩
  | deliver _ he _ _ ha => exact .set_later he (Endpoint.acceptMessage_later ha)
  | dispatch _ he ha => exact .set_later he (Endpoint.acceptMessage_later ha)
  | take _ he _ _ hq => exact .set_later he ⟨rfl, rfl, by simp [hq], by simp [hq]⟩
  | reserve _ he _ hq => exact .set_later he ⟨rfl, rfl, by simp [hq], by simp [hq]⟩
  | forward _ _ he hq => exact .set_later he ⟨rfl, rfl, by simp [hq], by simp [hq]⟩
  | drain _ he => exact .set_later he ⟨rfl, rfl, fun h => ⟨h, rfl⟩, id⟩
  | recover _ hd => exact .set_new hd _
  | accept => exact .insert _ _
  | _ => exact .refl _

theorem name_eq (h : p.Move τ supply c o) : o.process.name = p.name := by
  cases h <;> rfl

theorem suffix (h : p.Move τ supply c o) : o.supply <:+ supply := by
  cases h with
  | createMessagePipes hs | invite _ hs => exact hs ▸ List.suffix_append [_, _] _
  | populate _ hs | forward _ hs | accept _ hs | createChannel _ hs =>
    exact hs ▸ List.suffix_cons _ _
  | _ => exact List.suffix_rfl

theorem thread_other (h : p.Move τ supply c o) {σ : ThreadId} (hσ : σ ≠ τ) :
    o.process.thread σ = p.thread σ := by
  cases h with
  | createMessagePipes | bindReceiver | acceptInvitation => rfl
  | _ => simp [hσ]

theorem watched (h : p.Move τ supply c o) {k : Channel} (hk : k ∈ p.watchedSockets) :
    k ∈ o.process.watchedSockets := by
  cases h with
  | acceptInvitation | startChannel => exact List.mem_cons_of_mem _ hk
  | _ => exact hk

theorem handle (h : p.Move τ supply c o) {k : MessagePipe} {x : Identifier}
    (hk : p.findHandle k = some x) : o.process.findHandle k = some x := by
  have enrolled : ∀ (c : Core) (y : Identifier) (a : Address), c.findHandle k = some x →
      (c.enroll y a).findHandle k = some x := by
    intro c y a hc
    rw [Core.findHandle, Core.enroll_handleTable, Core.lookup_insertHandle]
    split_ifs with h1
    · subst h1
      rw [Core.findHandle] at hc
      simp [hc]
    · exact hc
  cases h with
  | createMessagePipes | invite => exact enrolled _ _ _ (enrolled _ _ _ hk)
  | recover => exact enrolled _ _ _ hk
  | accepted => exact enrolled _ _ ⟨[], []⟩ hk
  | _ => exact hk

end Process.Move

/-- Endpoints are stored under their own names. -/
def Named (t : Table Identifier Endpoint) : Prop := ∀ x e, t.find x = some e → e.name = x

theorem Named.set {t : Table Identifier Endpoint} (h : Named t) {x : Identifier} {e : Endpoint}
    (he : e.name = x) : Named (t.set x e) := by
  intro y f hf
  by_cases hy : y = x
  · simp only [Table.find_set, hy, if_true, Option.some.injEq] at hf
    rw [← hf, he, hy]
  · exact h y f (by simpa [hy] using hf)

theorem Named.later {t : Table Identifier Endpoint} (h : Named t) {x : Identifier} {e e' : Endpoint}
    (he : t.find x = some e) (hl : e'.name = e.name) : Named (t.set x e') :=
  h.set (hl.trans (h x e he))

theorem Named.new {t : Table Identifier Endpoint} (h : Named t) (x : Identifier) (a : Address) :
    Named (t.set x (.new x a)) := h.set rfl

theorem Process.Move.named {p : Process} {τ : ThreadId} {supply : List Identifier}
    {c : Option Call} {o : Outcome} (h : p.Move τ supply c o) (hp : Named p.localEndpoints) :
    Named o.process.localEndpoints := by
  cases h with
  | createMessagePipes | invite => exact (hp.new _ _).new _ _
  | bindReceiver _ he | take _ he | reserve _ he | drain _ he | forward _ _ he =>
    exact hp.later he rfl
  | deliver _ he _ _ ha | dispatch _ he ha =>
    exact hp.later he (Endpoint.acceptMessage_later ha).name
  | recover => exact hp.new _ _
  | @accept _ _ _ name _ _ _ =>
    cases hn : p.localEndpoints.find name with
    | none =>
      change Named (p.localEndpoints.insert name _)
      rw [Table.insert_of_absent hn]
      exact hp.new _ _
    | some e =>
      change Named (p.localEndpoints.insert name _)
      rw [Table.insert, hn]
      exact hp
  | _ => exact hp

end Mage
