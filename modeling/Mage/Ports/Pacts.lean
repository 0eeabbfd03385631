import Mage.Ports.Rights

/-! Pacts. An invitation, and the acceptance that answers it, speaks for one of the two ends the
    inviter created; the other end is set aside until the acceptance is acknowledged. -/

namespace Mage
open Lib

namespace Ports

/-- The peer of an endpoint that exists. -/
def peer (v : Ports) (a : Address) : Option Address := (v.port a).map (·.peer)

/-- Each is the other's peer. -/
def Entangled (v : Ports) (a b : Address) : Prop := v.peer a = some b ∧ v.peer b = some a

theorem peer_of_port {v : Ports} {a p : Address} {st : Status} (h : v.port a = some ⟨p, st⟩) :
    v.peer a = some p := by simp [peer, h]

theorem Grows.peer {v v' : Ports} (h : v.Grows v') {a p : Address} (ha : v.peer a = some p) :
    v'.peer a = some p := by
  obtain ⟨q, hq, rfl⟩ := Option.map_eq_some_iff.1 ha
  obtain ⟨q', hq', hpeer, -⟩ := h a q hq
  simp [Ports.peer, hq', hpeer]

theorem Grows.entangled {v v' : Ports} (h : v.Grows v') {a b : Address} (hab : v.Entangled a b) :
    v'.Entangled a b := ⟨h.peer hab.1, h.peer hab.2⟩

end Ports

/-- The inviter's own end that an invitation or an acceptance is about. -/
def Token.host (v : Ports) : Token → Option Address
  | .invitation h => some h
  | .acceptance g => v.peer g
  | _ => none

/-- Tokens that have nothing to do with invitations. -/
def Token.Plain : Token → Prop
  | .reserved _ => False
  | .invitation _ => False
  | .acceptance _ => False
  | _ => True

theorem Token.Plain.host_eq {tok : Token} (h : tok.Plain) (v : Ports) : tok.host v = none := by
  cases tok <;> first | rfl | cases h

theorem Token.host_of_grows {T : Topology} {v v' : Ports} (hg : v.Grows v') {P : Place}
    {tok : Token} (hok : tok.Ok T v P) : tok.host v' = tok.host v := by
  cases tok with
  | acceptance g =>
    obtain ⟨q, hq⟩ := Option.ne_none_iff_exists'.1 hok
    have hp : v.peer g = some q.peer := by simp [Ports.peer, hq]
    simp [Token.host, hp, hg.peer hp]
  | _ => rfl

theorem Passes.host_eq {v : Ports} {P Q : Place} {x y : Token} (h : Passes v P Q x y)
    (w : Ports) : y.host w = x.host w := by
  cases h <;> rfl

/-- A reserved endpoint stays in its node. -/
theorem Passes.reserved {v : Ports} {P Q : Place} {x y : Token} (h : Passes v P Q x y)
    {z : Identifier} (hz : x = .reserved z ∨ y = .reserved z) : x = y ∧ P.node = Q.node := by
  cases h with
  | reserve | claim => exact ⟨rfl, rfl⟩
  | _ => rcases hz with hz | hz <;> cases hz

structure Pacts (v : Ports) : Prop where
  entangled : ∀ P x n, .reserved x ∈ v.tokens P → P.node = some n →
    ∃ h, h.nodeName = n ∧ v.Entangled h ⟨n, x⟩
  once : ∀ h, AtMostOnce (weigh (fun _ tok => tok.host v = some h) v.tokens)
  backed : ∀ P, ∀ tok ∈ v.tokens P, ∀ h, tok.host v = some h → ∃ x Q,
    v.Entangled h ⟨h.nodeName, x⟩ ∧ Q.node = some h.nodeName ∧ .reserved x ∈ v.tokens Q

namespace Pacts
variable {T : Topology} {v v' : Ports} (h : Pacts v) (hv : Names T v) (hg : v.Grows v')
include h hv hg

/-- The hosts of the old tokens weigh what they weighed. -/
theorem once_later (a : Address) :
    AtMostOnce (weigh (fun _ tok => tok.host v' = some a) v.tokens) := by
  refine (h.once a).mono fun P => (weigh_congr fun tok htok => ?_).le
  rw [Token.host_of_grows hg (hv.ok P tok htok)]

omit hv in
/-- What is reserved stays reserved, and every pact comes from an old one. -/
theorem keep
    (hres : ∀ P x n, .reserved x ∈ v'.tokens P → P.node = some n →
      ∃ Q : Place, Q.node = some n ∧ .reserved x ∈ v.tokens Q)
    (hres' : ∀ P x n, .reserved x ∈ v.tokens P → P.node = some n →
      ∃ Q : Place, Q.node = some n ∧ .reserved x ∈ v'.tokens Q)
    (hpact : ∀ P, ∀ tok ∈ v'.tokens P, ∀ a, tok.host v' = some a →
      ∃ Q, ∃ tok' ∈ v.tokens Q, tok'.host v = some a)
    (honce : ∀ a, AtMostOnce (weigh (fun _ tok => tok.host v' = some a) v'.tokens)) :
    Pacts v' := by
  refine ⟨fun P x n hx hP => ?_, honce, fun P tok htok a ha => ?_⟩
  · obtain ⟨Q, hQ, hx⟩ := hres P x n hx hP
    obtain ⟨b, hb, he⟩ := h.entangled Q x n hx hQ
    exact ⟨b, hb, hg.entangled he⟩
  · obtain ⟨Q, tok', htok', ha'⟩ := hpact P tok htok a ha
    obtain ⟨x, R, he, hR, hx⟩ := h.backed Q tok' htok' a ha'
    obtain ⟨S, hS, hx⟩ := hres' R x _ hx hR
    exact ⟨x, S, hg.entangled he, hS, hx⟩

/-- Plain tokens are exchanged for plain tokens. -/
theorem swap {P : Place} {r b : List Token} (ht : Swap v.tokens v'.tokens P r b)
    (hr : ∀ tok ∈ r, tok.Plain) (hb : ∀ tok ∈ b, tok.Plain) : Pacts v' := by
  refine h.keep hg (fun R x n hx hR => ?_) (fun R x n hx hR => ?_) (fun R tok htok a ha => ?_)
    fun a => ht.atMostOnce (h.once_later hv hg a) ?_
  · rcases ht.mem hx with hx | ⟨-, hx⟩
    · exact ⟨R, hR, hx⟩
    · exact absurd (hb _ hx) id
  · exact ⟨R, hR, ht.stays hx fun hx => hr _ hx⟩
  · rcases ht.mem htok with hold | ⟨-, hta⟩
    · exact ⟨R, tok, hold, by rw [← Token.host_of_grows hg (hv.ok R tok hold), ha]⟩
    · rw [(hb tok hta).host_eq] at ha
      cases ha
  · rw [List.countP_eq_zero.2 fun tok hta => by simp [(hb tok hta).host_eq]]
    exact Nat.zero_le _

theorem quiet (ht : ∀ P, (v'.tokens P).Perm (v.tokens P)) : Pacts v' := by
  refine h.keep hg (fun R x n hx hR => ⟨R, hR, (ht R).mem_iff.1 hx⟩)
    (fun R x n hx hR => ⟨R, hR, (ht R).mem_iff.2 hx⟩) (fun R tok htok a ha => ?_)
    fun a => (h.once_later hv hg a).mono fun P => ((ht P).countP_eq _).le
  have hold := (ht R).mem_iff.1 htok
  exact ⟨R, tok, hold, by rw [← Token.host_of_grows hg (hv.ok R tok hold), ha]⟩

theorem pass {P Q : Place} {r b : List Token} (ht : Transfer v.tokens v'.tokens P Q r b)
    (hc : List.Forall₂ (Passes v P Q) r b) : Pacts v' := by
  refine h.keep hg (fun R x n hx hR => ?_) (fun R x n hx hR => ?_) (fun R tok htok a ha => ?_)
    fun a => ht.atMostOnce (h.once_later hv hg a) (Forall₂.countP_le hc fun x _ y hpass hy => ?_)
  · rcases ht.mem hx with hx | ⟨rfl, hx⟩
    · exact ⟨R, hR, hx⟩
    · obtain ⟨y, hy, hpass⟩ := Forall₂.mem_right hc hx
      obtain ⟨rfl, hn⟩ := hpass.reserved (.inr rfl)
      exact ⟨P, hn.trans hR, ht.mem_given hy⟩
  · by_cases hxr : R = P ∧ Token.reserved x ∈ r
    · obtain ⟨rfl, hxr⟩ := hxr
      obtain ⟨y, hy, hpass⟩ := Forall₂.mem_left hc hxr
      obtain ⟨rfl, hn⟩ := hpass.reserved (.inl rfl)
      exact ⟨Q, hn.symm.trans hR, ht.mem_gained hy⟩
    · exact ⟨R, hR, ht.stays hx fun hRP hxr' => hxr ⟨hRP, hxr'⟩⟩
  · rcases ht.mem htok with hold | ⟨rfl, hta⟩
    · exact ⟨R, tok, hold, by rw [← Token.host_of_grows hg (hv.ok R tok hold), ha]⟩
    · obtain ⟨y, hy, hpass⟩ := Forall₂.mem_right hc hta
      refine ⟨P, y, ht.mem_given hy, ?_⟩
      rw [← Token.host_of_grows hg (hv.ok P y (ht.mem_given hy)), ← hpass.host_eq, ha]
  · rw [← hpass.host_eq]
    exact hy

theorem create {n x y : Identifier} {P : Place} {b : List Token}
    (hsup : v.supply = x :: y :: v'.supply)
    (hp : v'.port = upd₁ (upd₁ v.port ⟨n, x⟩ (some ⟨⟨n, y⟩, .queueing⟩)) ⟨n, y⟩
      (some ⟨⟨n, x⟩, .queueing⟩))
    (ht : Swap v.tokens v'.tokens P [] b)
    (hb : (P = .held n ∧ b = [.right x, .right y]) ∨
      ∃ τ, P = .hand n τ ∧ b = [.right x, .reserved y, .invitation ⟨n, x⟩]) : Pacts v' := by
  rcases hb with ⟨rfl, rfl⟩ | ⟨τ, rfl, rfl⟩
  · exact h.swap hv hg ht (by simp) (by simp [Token.Plain])
  have hnd := hsup ▸ hv.supply_nodup
  simp only [List.nodup_cons, List.mem_cons, not_or] at hnd
  have hxy : x ≠ y := hnd.1.1
  have hx : x ∈ v.supply := by simp [hsup]
  have hent : v'.Entangled ⟨n, x⟩ ⟨n, y⟩ := by simp [Ports.Entangled, Ports.peer, hp, hxy]
  have hmem : Token.reserved y ∈ v'.tokens (.hand n τ) := ht.mem_gained (by simp)
  have hold : ∀ R, ∀ tok ∈ v.tokens R, tok.host v' ≠ some ⟨n, x⟩ := by
    intro R tok htok ha
    rw [Token.host_of_grows hg (hv.ok R tok htok)] at ha
    obtain ⟨z, -, ⟨he, -⟩, -⟩ := h.backed R tok htok _ ha
    simp [Ports.peer, hv.unused x hx n] at he
  have hcases : ∀ tok ∈ [Token.right x, .reserved y, .invitation ⟨n, x⟩], ∀ a,
      tok.host v' = some a → a = ⟨n, x⟩ := by
    intro tok htok a ha
    simp only [List.mem_cons, List.not_mem_nil, or_false] at htok
    rcases htok with rfl | rfl | rfl <;> simp [Token.host] at ha
    exact ha.symm
  refine ⟨fun R z m hz hR => ?_, fun a => ?_, fun R tok htok a ha => ?_⟩
  · rcases ht.mem hz with hz | ⟨rfl, hzb⟩
    · obtain ⟨b, hb, he⟩ := h.entangled R z m hz hR
      exact ⟨b, hb, hg.entangled he⟩
    · cases hR
      have : z = y := by simpa using hzb
      exact ⟨⟨n, x⟩, rfl, this ▸ hent⟩
  · by_cases hax : a = ⟨n, x⟩
    · subst hax
      refine ht.atMostOnce_fresh (fun R => weigh_eq_zero.2 (hold R)) ?_
      simp [Token.host]
    · refine ht.atMostOnce (h.once_later hv hg a) ?_
      rw [List.countP_eq_zero.2 fun tok htok => ?_]
      · exact Nat.zero_le _
      · simpa using fun ha => hax (hcases tok htok a ha)
  · rcases ht.mem htok with hold | ⟨rfl, hta⟩
    · rw [Token.host_of_grows hg (hv.ok R tok hold)] at ha
      obtain ⟨z, Q, he, hQ, hz⟩ := h.backed R tok hold a ha
      exact ⟨z, Q, hg.entangled he, hQ, ht.stays hz (by simp)⟩
    · obtain rfl := hcases tok hta a ha
      exact ⟨y, _, hent, rfl, hmem⟩

theorem accept {n i x e : Identifier} {τ : ThreadId}
    (hp : v'.port = upd₁ v.port ⟨n, e⟩ (some ⟨⟨i, x⟩, .queueing⟩))
    (ht : Swap v.tokens v'.tokens (.hand n τ) [.invitation ⟨i, x⟩]
      [.right e, .acceptance ⟨n, e⟩]) : Pacts v' := by
  have hhost : (Token.acceptance ⟨n, e⟩).host v' = some ⟨i, x⟩ := by
    simp [Token.host, Ports.peer, hp]
  refine h.keep hg (fun R z m hz hR => ?_) (fun R z m hz hR => ?_) (fun R tok htok a ha => ?_)
    fun a => ht.atMostOnce (h.once_later hv hg a) ?_
  · rcases ht.mem hz with hz | ⟨-, hz⟩
    · exact ⟨R, hR, hz⟩
    · simp at hz
  · exact ⟨R, hR, ht.stays hz (by simp)⟩
  · rcases ht.mem htok with hold | ⟨rfl, hta⟩
    · exact ⟨R, tok, hold, by rw [← Token.host_of_grows hg (hv.ok R tok hold), ha]⟩
    · refine ⟨_, .invitation ⟨i, x⟩, ht.mem_given (List.mem_singleton_self _), ?_⟩
      simp only [List.mem_cons, List.not_mem_nil, or_false] at hta
      rcases hta with rfl | rfl
      · cases ha
      · rw [← ha, hhost]
        rfl
  · simp only [List.countP_cons, List.countP_nil, hhost]
    simp [Token.host]

/-- A reserved endpoint and the acceptance that claims it go together. -/
theorem acknowledge {n r : Identifier} {g p : Address} {τ : ThreadId} {q : Port}
    (hq : v.port ⟨n, r⟩ = some ⟨p, .queueing⟩) (hgq : v.port g = some q) (hpeer : q.peer = p)
    (ht : Swap v.tokens v'.tokens (.hand n τ) [.reserved r, .acceptance g] []) : Pacts v' := by
  have hr : Token.reserved r ∈ v.tokens (.hand n τ) := ht.mem_given (by simp)
  have hacc : Token.acceptance g ∈ v.tokens (.hand n τ) := ht.mem_given (by simp)
  have hhost : (Token.acceptance g).host v' = some p :=
    hg.peer (by simp [Ports.peer, hgq, hpeer])
  have hgone := ht.consumed (h.once_later hv hg p)
    (List.countP_pos_iff.2 ⟨.acceptance g, by simp, by simpa using hhost⟩) (by simp)
  have hsub : ∀ R, ∀ tok ∈ v'.tokens R, tok ∈ v.tokens R := fun R tok htok =>
    (ht.subperm R).subset htok
  refine ⟨fun R z m hz hR => ?_, fun a => ?_, fun R tok htok a ha => ?_⟩
  · obtain ⟨b, hb, he⟩ := h.entangled R z m (hsub R _ hz) hR
    exact ⟨b, hb, hg.entangled he⟩
  · exact (h.once_later hv hg a).mono fun P => (ht.subperm P).countP_le _
  · have hap : a ≠ p := by
      rintro rfl
      exact hgone R tok htok ha
    rw [Token.host_of_grows hg (hv.ok R tok (hsub R tok htok))] at ha
    obtain ⟨z, Q, he, hQ, hz⟩ := h.backed R tok (hsub R tok htok) a ha
    refine ⟨z, Q, hg.entangled he, hQ, ht.stays hz ?_⟩
    simp only [List.mem_cons, Token.reserved.injEq, reduceCtorEq, List.not_mem_nil, or_false]
    -- The peer of the endpoint that `a` is entangled with is `a`, and that of `r` is `p`.
    rintro rfl
    have hn : a.nodeName = n := by
      refine hv.unique _ _ z ?_ (by simp [hq])
      intro hnone
      simp [Ports.Entangled, Ports.peer, hnone] at he
    rw [hn, Ports.Entangled, Ports.peer_of_port hq] at he
    simp only [Option.some.injEq] at he
    exact hap he.2.symm

end Pacts

/-- Every effect keeps the pacts. -/
theorem Pacts.effect {T : Topology} {v v' : Ports} (h : Pacts v) (hv : Names T v)
    (he : Effect T v v') : Pacts v' := by
  have hg := he.grows hv
  cases he with
  | quiet _ _ ht => exact h.quiet hv hg ht
  | pass _ _ ht hc => exact h.pass hv hg ht hc
  | drop _ _ ht => exact h.swap hv hg ht (by simp [Token.Plain]) (by simp)
  | create _ hs hp ht ha => exact h.create hv hg hs hp ht ha
  | describe _ _ _ ht | move _ _ _ _ ht | recover _ _ ht | forward _ _ _ _ ht =>
    exact h.swap hv hg ht (by simp [Token.Plain]) (by simp [Token.Plain])
  | accept _ _ hp ht => exact h.accept hv hg hp ht
  | acknowledge _ hq hgq hpeer _ _ ht => exact h.acknowledge hv hg hq hgq hpeer ht
  | bind _ _ _ _ ht => exact h.quiet hv hg ht

end Mage
