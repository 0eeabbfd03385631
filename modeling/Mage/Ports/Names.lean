import Mage.Ports.State

/-! Names. Every name is registered in one node at most, a name still to be drawn is nowhere, and the
    name under which a travelling descriptor will register its endpoint is on no other descriptor. -/

namespace Mage
open Lib

/-- The descriptor of an endpoint that is still this node's. -/
def Ports.Local (v : Ports) (n : Identifier) (d : EndpointDescriptor) : Prop :=
  (∃ q, v.port ⟨n, d.endpointName⟩ = some q ∧ q.peer = d.peerAddress) ∧
  v.Unregistered d.crossNodeEndpointName

/-- The descriptor of an endpoint of another node that was re-created in this one. -/
def Ports.Stale (v : Ports) (n : Identifier) (d : EndpointDescriptor) : Prop :=
  (∃ q, v.port ⟨n, d.crossNodeEndpointName⟩ = some q ∧ q.peer = d.peerAddress) ∧
  ∃ m, m ≠ n ∧ v.port ⟨m, d.endpointName⟩ ≠ none

/-- The descriptor of an endpoint of node `n` that is being re-created in node `t`. -/
def Ports.Crossing (T : Topology) (v : Ports) (n t : Identifier) (d : EndpointDescriptor) : Prop :=
  Linked T n t ∧ v.Unregistered d.crossNodeEndpointName ∧
  v.port ⟨n, d.endpointName⟩ =
    some ⟨d.peerAddress, .proxying ⟨t, d.crossNodeEndpointName⟩⟩

/-- What a token in place `P` says is true. -/
def Token.Ok (T : Topology) (v : Ports) (P : Place) : Token → Prop
  | .right x => ∃ n, (P = .held n ∨ ∃ τ, P = .hand n τ) ∧ v.port ⟨n, x⟩ ≠ none
  | .reserved x => ∃ n, ((∃ τ, P = .hand n τ) ∨ ∃ t, P = .pending n t) ∧ v.port ⟨n, x⟩ ≠ none
  | .described d => ∃ n, ((∃ τ, P = .hand n τ) ∨ ∃ x, P = .queue n x) ∧
      (v.Local n d ∨ v.Stale n d)
  | .recovered d => ∃ n, (∃ τ, P = .hand n τ) ∧ v.Stale n d
  | .crossing t d => ∃ n, ((∃ τ, P = .hand n τ) ∨ P = .wire n t ∨ P = .hand t .io) ∧
      v.Crossing T n t d
  | .invitation h => v.port h ≠ none
  | .acceptance g => v.port g ≠ none

structure Names (T : Topology) (v : Ports) : Prop where
  node : ∀ a, v.port a ≠ none → a.nodeName ∈ T.nodes ∧ a.endpointName ∈ T.names
  unique : ∀ n m x, v.port ⟨n, x⟩ ≠ none → v.port ⟨m, x⟩ ≠ none → n = m
  suffix : v.supply <:+ T.names
  unused : ∀ k ∈ v.supply, v.Unregistered k
  drawn : ∀ P, ∀ tok ∈ v.tokens P, ∀ k, tok.cross = some k → k ∈ T.names ∧ k ∉ v.supply
  ok : ∀ P, ∀ tok ∈ v.tokens P, tok.Ok T v P
  once : ∀ k, v.Unregistered k → AtMostOnce (weigh (fun _ tok => tok.cross = some k) v.tokens)

/-- Endpoints stay, with their peers and their proxy targets. -/
def Ports.Grows (v v' : Ports) : Prop := ∀ a q, v.port a = some q →
  ∃ q', v'.port a = some q' ∧ q'.peer = q.peer ∧
    ∀ b, q.status = .proxying b → q'.status = .proxying b

namespace Ports.Grows
variable {T : Topology} {v v' : Ports}

theorem of_eq (h : v'.port = v.port) : v.Grows v' := fun a q hq =>
  ⟨q, by rw [h, hq], rfl, fun _ h => h⟩

theorem ne_none (h : v.Grows v') {a : Address} (ha : v.port a ≠ none) : v'.port a ≠ none := by
  obtain ⟨q, hq⟩ := Option.ne_none_iff_exists'.1 ha
  obtain ⟨q', hq', -⟩ := h a q hq
  simp [hq']

theorem trans {w : Ports} (h₁ : v.Grows v') (h₂ : v'.Grows w) : v.Grows w := by
  intro a q hq
  obtain ⟨q1, hq1, hpeer1, hst1⟩ := h₁ a q hq
  obtain ⟨q2, hq2, hpeer2, hst2⟩ := h₂ a q1 hq1
  exact ⟨q2, hq2, hpeer2.trans hpeer1, fun b hb => hst2 b (hst1 b hb)⟩

/-- A port written where there was none. -/
theorem new {a : Address} {q : Option Port} (ha : v.port a = none)
    (h : v'.port = upd₁ v.port a q) : v.Grows v' := by
  intro b p hb
  have hba : b ≠ a := by
    rintro rfl
    simp [ha] at hb
  exact ⟨p, by simp [h, hba, hb], rfl, fun _ h => h⟩

/-- A queueing port that changes its status. -/
theorem status {a p : Address} {st : Status} (ha : v.port a = some ⟨p, .queueing⟩)
    (h : v'.port = upd₁ v.port a (some ⟨p, st⟩)) : v.Grows v' := by
  intro b q hb
  by_cases hba : b = a
  · subst hba
    rw [ha] at hb
    cases hb
    exact ⟨⟨p, st⟩, by simp [h], rfl, by simp⟩
  · exact ⟨q, by simp [h, hba, hb], rfl, fun _ h => h⟩

variable (h : v.Grows v')
include h

theorem local_ {n : Identifier} {d : EndpointDescriptor}
    (hu : v'.Unregistered d.crossNodeEndpointName) (hd : v.Local n d) : v'.Local n d := by
  obtain ⟨⟨q, hq, hpeer⟩, -⟩ := hd
  obtain ⟨q', hq', hpeer', -⟩ := h _ q hq
  exact ⟨⟨q', hq', hpeer'.trans hpeer⟩, hu⟩

theorem stale {n : Identifier} {d : EndpointDescriptor} (hd : v.Stale n d) : v'.Stale n d := by
  obtain ⟨⟨q, hq, hpeer⟩, m, hm, hdm⟩ := hd
  obtain ⟨q', hq', hpeer', -⟩ := h _ q hq
  exact ⟨⟨q', hq', hpeer'.trans hpeer⟩, m, hm, h.ne_none hdm⟩

theorem crossing {n t : Identifier} {d : EndpointDescriptor}
    (hu : v'.Unregistered d.crossNodeEndpointName) (hd : v.Crossing T n t d) :
    v'.Crossing T n t d := by
  obtain ⟨hl, -, hq⟩ := hd
  obtain ⟨⟨p, st⟩, hq', hpeer, hst⟩ := h _ _ hq
  have hst := hst _ rfl
  simp only at hpeer hst
  exact ⟨hl, hu, by rw [hq', hpeer, hst]⟩

/-- A token stays true as long as the name it travels under is not registered. -/
theorem ok {P : Place} {tok : Token} (hu : ∀ k, tok.cross = some k → v.Unregistered k →
    v'.Unregistered k) (ht : tok.Ok T v P) : tok.Ok T v' P := by
  cases tok with
  | right | reserved =>
    obtain ⟨n, hP, hx⟩ := ht
    exact ⟨n, hP, h.ne_none hx⟩
  | described d =>
    obtain ⟨n, hP, hd | hd⟩ := ht
    · exact ⟨n, hP, .inl (h.local_ (hu _ rfl hd.2) hd)⟩
    · exact ⟨n, hP, .inr (h.stale hd)⟩
  | recovered d =>
    obtain ⟨n, hP, hd⟩ := ht
    exact ⟨n, hP, h.stale hd⟩
  | crossing t d =>
    obtain ⟨n, hP, hd⟩ := ht
    exact ⟨n, hP, h.crossing (hu _ rfl hd.2.1) hd⟩
  | invitation | acceptance => exact h.ne_none ht

end Ports.Grows

theorem Ports.Unregistered.of_grows {v v' : Ports} (h : v.Grows v') {k : Identifier}
    (hk : v'.Unregistered k) : v.Unregistered k := by
  intro n
  by_contra hn
  exact h.ne_none hn (hk n)

/-- A token that passes to another place stays true. -/
theorem Passes.ok {T : Topology} {v : Ports} {P Q : Place} {x y : Token} (h : Passes v P Q x y)
    (hx : x.Ok T v P) : y.Ok T v Q := by
  cases h with
  | take => obtain ⟨n, hP | ⟨τ, hP⟩, hx⟩ := hx <;> cases hP; exact ⟨_, .inr ⟨_, rfl⟩, hx⟩
  | give => obtain ⟨n, hP | ⟨τ, hP⟩, hx⟩ := hx <;> cases hP; exact ⟨_, .inl rfl, hx⟩
  | queue => obtain ⟨n, ⟨τ, hP⟩ | ⟨z, hP⟩, hx⟩ := hx <;> cases hP; exact ⟨_, .inr ⟨_, rfl⟩, hx⟩
  | queueRecovered =>
    obtain ⟨n, ⟨τ, hP⟩, hx⟩ := hx
    cases hP
    exact ⟨_, .inr ⟨_, rfl⟩, .inr hx⟩
  | post hq | replay hq => exact ⟨_, .inl rfl, by simp [hq]⟩
  | postRecovered =>
    obtain ⟨n, ⟨τ, hP⟩, ⟨q, hq, -⟩, -⟩ := hx
    cases hP
    exact ⟨_, .inl rfl, by simp [hq]⟩
  | replayRecovered hq =>
    obtain ⟨n, ⟨τ, hP⟩ | ⟨z, hP⟩, ⟨⟨q, hq', -⟩, -⟩ | ⟨⟨q, hq', -⟩, -⟩⟩ := hx <;> cases hP
    · simp [hq] at hq'
    · exact ⟨_, .inl rfl, by simp [hq']⟩
  | drain => obtain ⟨n, ⟨τ, hP⟩ | ⟨z, hP⟩, hx⟩ := hx <;> cases hP; exact ⟨_, .inl ⟨_, rfl⟩, hx⟩
  | send hn =>
    obtain ⟨n, ⟨τ, hP⟩ | hP | hP, hx⟩ := hx <;> cases hP
    · exact ⟨_, .inr (.inl rfl), hx⟩
    · exact absurd rfl hn
  | receive =>
    obtain ⟨n, ⟨τ, hP⟩ | hP | hP, hx⟩ := hx <;> cases hP
    exact ⟨_, .inr (.inr rfl), hx⟩
  | invite | invited | reply | replied => exact hx
  | reserve =>
    obtain ⟨n, ⟨τ, hP⟩ | ⟨t, hP⟩, hx⟩ := hx <;> cases hP
    exact ⟨_, .inr ⟨_, rfl⟩, hx⟩
  | claim =>
    obtain ⟨n, ⟨τ, hP⟩ | ⟨t, hP⟩, hx⟩ := hx <;> cases hP
    exact ⟨_, .inl ⟨_, rfl⟩, hx⟩

namespace Names
variable {T : Topology} {v v' : Ports}

/-- The endpoints of `v'` that are not in `v` are in one node, under names that nothing else uses. -/
def New (T : Topology) (v v' : Ports) : Prop := ∃ n, ∀ a, v'.port a ≠ none → v.port a ≠ none ∨
  (a.nodeName = n ∧ n ∈ T.nodes ∧ a.endpointName ∈ T.names ∧ v.Unregistered a.endpointName ∧
    a.endpointName ∉ v'.supply ∧ ∀ P, ∀ tok ∈ v'.tokens P, tok.cross ≠ some a.endpointName)

theorem New.of_grows (h : ∀ a, v'.port a ≠ none → v.port a ≠ none) : New T v v' :=
  ⟨[], fun a ha => .inl (h a ha)⟩

/-- What each effect has to show. -/
theorem step (h : Names T v) (hg : v.Grows v') (hn : New T v v') (hs : v'.supply <:+ v.supply)
    (ht : ∀ P, ∀ tok ∈ v'.tokens P, tok ∈ v.tokens P ∨
      (tok.Ok T v' P ∧ ∀ k, tok.cross = some k → k ∈ T.names ∧ k ∉ v'.supply))
    (ho : ∀ k, v'.Unregistered k →
      AtMostOnce (weigh (fun _ tok => tok.cross = some k) v'.tokens)) : Names T v' := by
  obtain ⟨n, hn⟩ := hn
  refine ⟨?_, ?_, hs.trans h.suffix, ?_, ?_, ?_, ho⟩
  · intro a ha
    rcases hn a ha with ha | ⟨rfl, h1, h2, -⟩
    · exact h.node a ha
    · exact ⟨h1, h2⟩
  · intro m m' x hm hm'
    rcases hn _ hm with hm | ⟨hm1, -, -, hm2, -⟩ <;> rcases hn _ hm' with hm' | ⟨hm3, -, -, hm4, -⟩
    · exact h.unique m m' x hm hm'
    · exact absurd (hm4 m) hm
    · exact absurd (hm2 m') hm'
    · exact hm1.trans hm3.symm
  · intro k hk m
    by_contra hm
    rcases hn _ hm with hm | ⟨-, -, -, -, hm, -⟩
    · exact hm (h.unused k (hs.subset hk) m)
    · exact hm hk
  · intro P tok htok k hk
    rcases ht P tok htok with htok | ⟨-, htok⟩
    · exact (h.drawn P tok htok k hk).imp_right fun hn hx => hn (hs.subset hx)
    · exact htok k hk
  · intro P tok htok
    rcases ht P tok htok with hold | ⟨hok, -⟩
    · refine hg.ok (fun k hk hu m => ?_) (h.ok P tok hold)
      by_contra hm
      rcases hn _ hm with hm | ⟨-, -, -, -, -, hm⟩
      · exact hm (hu m)
      · exact hm P tok htok hk
    · exact hok

/-- A name still to be drawn is on no token. -/
theorem weigh_unused (h : Names T v) {k : Identifier} (hk : k ∈ v.supply) (R : Place) :
    weigh (fun _ tok => tok.cross = some k) v.tokens R = 0 :=
  weigh_eq_zero.2 fun tok htok hc => (h.drawn R tok htok k hc).2 hk

theorem supply_nodup (h : Names T v) : v.supply.Nodup := h.suffix.sublist.nodup T.names_nodup

theorem mem_names (h : Names T v) {k : Identifier} (hk : k ∈ v.supply) : k ∈ T.names :=
  h.suffix.subset hk

theorem given_ok (h : Names T v) {P : Place} {r a : List Token}
    (ht : Swap v.tokens v'.tokens P r a) {tok : Token} (htok : tok ∈ r) : tok.Ok T v P :=
  h.ok P tok (ht.mem_given htok)

end Names

namespace Effect
variable {T : Topology} {v v' : Ports}

theorem suffix (h : Effect T v v') : v'.supply <:+ v.supply := by
  cases h with
  | quiet _ hs => exact hs
  | pass _ hs | drop _ hs | move _ _ _ hs | recover _ hs | acknowledge _ _ _ _ _ hs | bind _ _ _ hs =>
    exact hs ▸ List.suffix_rfl
  | create _ hs => exact hs ▸ List.suffix_append [_, _] _
  | describe hs | forward _ hs | accept _ hs => exact hs ▸ List.suffix_cons _ _

theorem grows (h : Effect T v v') (hv : Names T v) : v.Grows v' := by
  cases h with
  | quiet hp | pass hp | drop hp | describe _ hp => exact .of_eq hp
  | @create n x y _ _ _ hs hp =>
    have hx := hv.unused x (by simp [hs]) n
    have hy := hv.unused y (by simp [hs]) n
    have hnd := hs ▸ hv.supply_nodup
    have hxy : y ≠ x := by
      rintro rfl
      simp at hnd
    let w : Ports := { v with port := upd₁ v.port ⟨n, x⟩ (some ⟨⟨n, y⟩, .queueing⟩) }
    have h1 : v.Grows w := .new hx rfl
    have h2 : w.Grows v' := .new (by simp [w, hxy, hy]) hp
    exact h1.trans h2
  | move _ hq hp | forward _ _ hq hp | acknowledge _ hq _ _ hp | bind hq _ hp => exact .status hq hp
  | @recover n _ _ hp _ ht =>
    obtain ⟨_, -, -, hu, -⟩ := hv.given_ok ht (List.mem_singleton_self _)
    exact .new (hu n) hp
  | accept _ hs hp => exact .new (hv.unused _ (by simp [hs]) _) hp

end Effect

namespace Names
variable {T : Topology} {v v' : Ports}

/-- A port written under an address that had one is not new. -/
theorem New.of_upd {a : Address} {q : Option Port} (ha : v.port a ≠ none)
    (hp : v'.port = upd₁ v.port a q) : New T v v' := by
  refine .of_grows fun b hb => ?_
  by_cases hba : b = a
  · exact hba ▸ ha
  · simpa [hp, hba] using hb

theorem New.of_eq (hp : v'.port = v.port) : New T v v' := .of_grows fun _ ha => hp ▸ ha

/-- A name is drawn for a descriptor that goes to one place; nothing else weighs under it. -/
theorem once_drawn (h : Names T v) (hg : v.Grows v') {c : Identifier} (hsup : v.supply = c :: v'.supply)
    {P : Place} {r : List Token} {tok : Token} (ht : Swap v.tokens v'.tokens P r [tok])
    (htok : tok.cross = some c) (k : Identifier) (hk : v'.Unregistered k) :
    AtMostOnce (weigh (fun _ tok => tok.cross = some k) v'.tokens) := by
  by_cases hkc : k = c
  · subst hkc
    exact ht.atMostOnce_fresh (h.weigh_unused (by simp [hsup])) List.countP_le_length
  · refine ht.atMostOnce (h.once k (hk.of_grows hg)) ?_
    simp [htok, Ne.symm hkc]

section
variable (h : Names T v)
include h

theorem quiet (hp : v'.port = v.port) (hs : v'.supply <:+ v.supply)
    (ht : ∀ P, (v'.tokens P).Perm (v.tokens P)) : Names T v' := by
  refine h.step (.of_eq hp) (.of_eq hp) hs (fun P tok htok => .inl ((ht P).mem_iff.1 htok))
    fun k hk => ?_
  exact (h.once k (hk.of_grows (.of_eq hp))).mono fun P => ((ht P).countP_eq _).le

theorem pass {P Q : Place} {r b : List Token} (hp : v'.port = v.port) (hs : v'.supply = v.supply)
    (ht : Transfer v.tokens v'.tokens P Q r b) (hc : List.Forall₂ (Passes v P Q) r b) : Names T v' := by
  have hg : v.Grows v' := .of_eq hp
  refine h.step hg (.of_eq hp) (hs ▸ List.suffix_rfl) (fun R tok htok => ?_) fun k hk => ?_
  · rcases ht.mem htok with hold | ⟨rfl, hb⟩
    · exact .inl hold
    · obtain ⟨x, hx, hpass⟩ := Forall₂.mem_right hc hb
      have hxok := h.ok _ x (ht.mem_given hx)
      refine .inr ⟨hg.ok (fun k _ hu n => by rw [hp]; exact hu n) (hpass.ok hxok), fun k hk => ?_⟩
      have hxc := h.drawn _ x (ht.mem_given hx) k
      rw [hs]
      cases hpass with
      | queueRecovered =>
        obtain ⟨n, -, ⟨q, hq, -⟩, -⟩ := hxok
        cases hk
        refine ⟨(h.node ⟨n, _⟩ (by simp [hq])).2, fun hks => ?_⟩
        simp [h.unused _ hks n] at hq
      | post | postRecovered | replay | replayRecovered => cases hk
      | _ => exact hxc hk
  · refine ht.atMostOnce (h.once k (hk.of_grows hg)) (Forall₂.countP_le hc fun x hx y hpass hy => ?_)
    have hxok := h.ok _ x (ht.mem_given hx)
    cases hpass with
    | queueRecovered =>
      obtain ⟨n, -, ⟨q, hq, -⟩, -⟩ := hxok
      cases hy
      simp [hk.of_grows hg n] at hq
    | post | postRecovered | replay | replayRecovered => cases hy
    | _ => exact hy

theorem create {n x y : Identifier} {P : Place} {a : List Token} (hn : n ∈ T.nodes)
    (hsup : v.supply = x :: y :: v'.supply) (hg : v.Grows v')
    (hp : v'.port = upd₁ (upd₁ v.port ⟨n, x⟩ (some ⟨⟨n, y⟩, .queueing⟩)) ⟨n, y⟩
      (some ⟨⟨n, x⟩, .queueing⟩))
    (ht : Swap v.tokens v'.tokens P [] a)
    (ha : (P = .held n ∧ a = [.right x, .right y]) ∨
      ∃ τ, P = .hand n τ ∧ a = [.right x, .reserved y, .invitation ⟨n, x⟩]) : Names T v' := by
  have hnd := hsup ▸ h.supply_nodup
  simp only [List.nodup_cons, List.mem_cons, not_or] at hnd
  obtain ⟨⟨hxy, hxs⟩, hys, -⟩ := hnd
  have hx : x ∈ v.supply := by simp [hsup]
  have hy : y ∈ v.supply := by simp [hsup]
  have hcross : ∀ tok ∈ a, tok.cross = none := by
    rcases ha with ⟨-, rfl⟩ | ⟨τ, -, rfl⟩ <;> simp [Token.cross]
  have htok : ∀ k ∈ v.supply, ∀ R, ∀ tok ∈ v'.tokens R, tok.cross ≠ some k := by
    intro k hk R tok htok hc
    rcases ht.mem htok with ho | ⟨-, hta⟩
    · exact (h.drawn R tok ho k hc).2 hk
    · simp [hcross tok hta] at hc
  refine h.step hg ⟨n, fun b hb => ?_⟩ (hsup ▸ List.suffix_append [_, _] _)
    (fun R tok htok' => ?_) fun k hk => ?_
  · by_cases hbx : b = ⟨n, x⟩
    · subst hbx
      exact .inr ⟨rfl, hn, h.mem_names hx, h.unused x hx, hxs, htok x hx⟩
    · by_cases hby : b = ⟨n, y⟩
      · subst hby
        exact .inr ⟨rfl, hn, h.mem_names hy, h.unused y hy, hys, htok y hy⟩
      · exact .inl (by simpa [hp, hbx, hby] using hb)
  · rcases ht.mem htok' with hold | ⟨rfl, hta⟩
    · exact .inl hold
    · refine .inr ⟨?_, fun k hk => by simp [hcross tok hta] at hk⟩
      rcases ha with ⟨rfl, rfl⟩ | ⟨τ, rfl, rfl⟩
      · simp only [List.mem_cons, List.not_mem_nil, or_false] at hta
        rcases hta with rfl | rfl
        · exact ⟨n, .inl rfl, by simp [hp, hxy]⟩
        · exact ⟨n, .inl rfl, by simp [hp]⟩
      · simp only [List.mem_cons, List.not_mem_nil, or_false] at hta
        rcases hta with rfl | rfl | rfl
        · exact ⟨n, .inr ⟨τ, rfl⟩, by simp [hp, hxy]⟩
        · exact ⟨n, .inl ⟨τ, rfl⟩, by simp [hp]⟩
        · simp [Token.Ok, hp, hxy]
  · refine ht.atMostOnce (h.once k (hk.of_grows hg)) ?_
    rw [List.countP_eq_zero.2 fun tok hta => by simp [hcross tok hta]]
    exact Nat.zero_le _

theorem describe {n x c : Identifier} {τ : ThreadId} {q : Port} (hsup : v.supply = c :: v'.supply)
    (hp : v'.port = v.port) (hq : v.port ⟨n, x⟩ = some q)
    (ht : Swap v.tokens v'.tokens (.hand n τ) [.right x]
      [.described ⟨x, c, q.peer.nodeName, q.peer.endpointName⟩]) : Names T v' := by
  have hc : c ∈ v.supply := by simp [hsup]
  have hnd := hsup ▸ h.supply_nodup
  refine h.step (.of_eq hp) (.of_eq hp) (hsup ▸ List.suffix_cons _ _) (fun R tok htok => ?_)
    (h.once_drawn (.of_eq hp) hsup ht rfl)
  rcases ht.mem htok with hold | ⟨rfl, hta⟩
  · exact .inl hold
  · rw [List.mem_singleton.1 hta]
    refine .inr ⟨⟨n, .inl ⟨τ, rfl⟩, .inl ⟨⟨q, by simp [hp, hq], rfl⟩, fun m => ?_⟩⟩, ?_⟩
    · rw [hp]
      exact h.unused c hc m
    · rintro k ⟨⟩
      exact ⟨h.mem_names hc, (List.nodup_cons.1 hnd).1⟩

/-- The endpoint that a descriptor in a thread's hand names in this node is there. -/
theorem local_of_described {n : Identifier} {τ : ThreadId} {d : EndpointDescriptor} {q : Port}
    (hd : (Token.described d).Ok T v (.hand n τ)) (hq : v.port ⟨n, d.endpointName⟩ = some q) :
    q.peer = d.peerAddress ∧ v.Unregistered d.crossNodeEndpointName := by
  obtain ⟨m, ⟨σ, hP⟩ | ⟨z, hP⟩, hd⟩ := hd <;> cases hP
  rcases hd with ⟨⟨q', hq', hpeer⟩, hu⟩ | ⟨-, m, hm, hne⟩
  · rw [hq] at hq'
    cases hq'
    exact ⟨hpeer, hu⟩
  · exact absurd (h.unique m n _ hne (by simp [hq])) hm

theorem move {n t : Identifier} {τ : ThreadId} {d : EndpointDescriptor} {p : Address}
    (hl : Linked T n t) (hq : v.port ⟨n, d.endpointName⟩ = some ⟨p, .queueing⟩)
    (hp : v'.port = upd₁ v.port ⟨n, d.endpointName⟩
      (some ⟨p, .proxying ⟨t, d.crossNodeEndpointName⟩⟩)) (hs : v'.supply = v.supply)
    (ht : Swap v.tokens v'.tokens (.hand n τ) [.described d] [.crossing t d]) : Names T v' := by
  have hmem := ht.mem_given (List.mem_singleton_self _)
  obtain ⟨rfl, hu⟩ := h.local_of_described (h.ok _ _ hmem) hq
  have hu' : v'.Unregistered d.crossNodeEndpointName := by
    intro m
    have hne : (⟨m, d.crossNodeEndpointName⟩ : Address) ≠ ⟨n, d.endpointName⟩ := by
      intro heq
      have := hu m
      rw [heq, hq] at this
      cases this
    simp [hp, hne, hu m]
  have hg : v.Grows v' := .status hq hp
  refine h.step hg (.of_upd (by simp [hq]) hp) (hs ▸ List.suffix_rfl) (fun R tok htok => ?_)
    fun k hk => ht.atMostOnce (h.once k (hk.of_grows hg)) (by simp [Token.cross])
  rcases ht.mem htok with hold | ⟨rfl, hta⟩
  · exact .inl hold
  · rw [List.mem_singleton.1 hta]
    refine .inr ⟨⟨n, .inl ⟨τ, rfl⟩, hl, hu', by simp [hp]⟩, fun k hk => ?_⟩
    rw [hs]
    exact h.drawn _ _ hmem k hk

theorem recover {n : Identifier} {τ : ThreadId} {d : EndpointDescriptor}
    (hp : v'.port = upd₁ v.port ⟨n, d.crossNodeEndpointName⟩ (some ⟨d.peerAddress, .queueing⟩))
    (hs : v'.supply = v.supply)
    (ht : Swap v.tokens v'.tokens (.hand n τ) [.crossing n d] [.recovered d]) : Names T v' := by
  have hmem := ht.mem_given (List.mem_singleton_self _)
  obtain ⟨s, hP, hl, hu, hq⟩ := h.ok _ _ hmem
  have hdrawn := h.drawn _ _ hmem _ rfl
  have hgone := ht.consumed (h.once _ hu) (by simp [Token.cross]) (by simp [Token.cross])
  have hg : v.Grows v' := .new (hu n) hp
  refine h.step hg ⟨n, fun b hb => ?_⟩ (hs ▸ List.suffix_rfl) (fun R tok htok => ?_)
    fun k hk => ht.atMostOnce (h.once k (hk.of_grows hg)) (by simp [Token.cross])
  · by_cases hbd : b = ⟨n, d.crossNodeEndpointName⟩
    · subst hbd
      exact .inr ⟨rfl, hl.node, hdrawn.1, hu, hs ▸ hdrawn.2, hgone⟩
    · exact .inl (by simpa [hp, hbd] using hb)
  · rcases ht.mem htok with hold | ⟨rfl, hta⟩
    · exact .inl hold
    · rw [List.mem_singleton.1 hta]
      refine .inr ⟨⟨n, ⟨τ, rfl⟩, ⟨⟨d.peerAddress, .queueing⟩, by simp [hp], rfl⟩, s, hl.symm.ne,
        hg.ne_none (by simp [hq])⟩, fun k hk => ?_⟩
      cases hk

theorem forward {n t c : Identifier} {τ : ThreadId} {d : EndpointDescriptor} {p : Address}
    (hl : Linked T n t) (hsup : v.supply = c :: v'.supply)
    (hq : v.port ⟨n, d.crossNodeEndpointName⟩ = some ⟨p, .queueing⟩)
    (hp : v'.port = upd₁ v.port ⟨n, d.crossNodeEndpointName⟩ (some ⟨p, .proxying ⟨t, c⟩⟩))
    (ht : Swap v.tokens v'.tokens (.hand n τ) [.recovered d]
      [.crossing t { d with
        endpointName := d.crossNodeEndpointName, crossNodeEndpointName := c }]) : Names T v' := by
  have hc : c ∈ v.supply := by simp [hsup]
  have hnd := hsup ▸ h.supply_nodup
  obtain ⟨m, ⟨σ, hP⟩, ⟨q', hq', hpeer⟩, -⟩ := h.given_ok ht (List.mem_singleton_self _)
  cases hP
  rw [hq] at hq'
  cases hq'
  have hcd : c ≠ d.crossNodeEndpointName := by
    rintro rfl
    simp [h.unused _ hc n] at hq
  have hg : v.Grows v' := .status hq hp
  refine h.step hg (.of_upd (by simp [hq]) hp) (hsup ▸ List.suffix_cons _ _)
    (fun R tok htok => ?_) (h.once_drawn hg hsup ht rfl)
  rcases ht.mem htok with hold | ⟨rfl, hta⟩
  · exact .inl hold
  · rw [List.mem_singleton.1 hta]
    refine .inr ⟨⟨n, .inl ⟨τ, rfl⟩, hl, fun m => ?_, ?_⟩, ?_⟩
    · simp [hp, hcd, h.unused c hc m]
    · simp only [hp, upd₁_apply, if_true, Option.some.injEq, Port.mk.injEq, and_true]
      exact hpeer
    · rintro k ⟨⟩
      exact ⟨h.mem_names hc, (List.nodup_cons.1 hnd).1⟩

theorem accept {n i x e : Identifier} {τ : ThreadId} (hl : Linked T i n)
    (hsup : v.supply = e :: v'.supply)
    (hp : v'.port = upd₁ v.port ⟨n, e⟩ (some ⟨⟨i, x⟩, .queueing⟩))
    (ht : Swap v.tokens v'.tokens (.hand n τ) [.invitation ⟨i, x⟩]
      [.right e, .acceptance ⟨n, e⟩]) : Names T v' := by
  have he : e ∈ v.supply := by simp [hsup]
  have hnd := hsup ▸ h.supply_nodup
  have hg : v.Grows v' := .new (h.unused e he n) hp
  have hcross : ∀ tok ∈ [Token.right e, .acceptance ⟨n, e⟩], tok.cross = none := by
    simp [Token.cross]
  refine h.step hg ⟨n, fun b hb => ?_⟩ (hsup ▸ List.suffix_cons _ _) (fun R tok htok => ?_)
    fun k hk => ht.atMostOnce (h.once k (hk.of_grows hg)) (by simp [Token.cross])
  · by_cases hbe : b = ⟨n, e⟩
    · subst hbe
      refine .inr ⟨rfl, hl.node, h.mem_names he, h.unused e he, (List.nodup_cons.1 hnd).1,
        fun R tok htok hc => ?_⟩
      rcases ht.mem htok with hold | ⟨-, hta⟩
      · exact (h.drawn R tok hold _ hc).2 he
      · rw [hcross tok hta] at hc
        cases hc
    · exact .inl (by simpa [hp, hbe] using hb)
  · rcases ht.mem htok with hold | ⟨rfl, hta⟩
    · exact .inl hold
    · refine .inr ⟨?_, fun k hk => by simp [hcross tok hta] at hk⟩
      simp only [List.mem_cons, List.not_mem_nil, or_false] at hta
      rcases hta with rfl | rfl
      · exact ⟨n, .inr ⟨τ, rfl⟩, by simp [hp]⟩
      · simp [Token.Ok, hp]

theorem drop (hp : v'.port = v.port) (hs : v'.supply = v.supply)
    (ht : ∀ P, (v'.tokens P).Subperm (v.tokens P)) : Names T v' := by
  refine h.step (.of_eq hp) (.of_eq hp) (hs ▸ List.suffix_rfl)
    (fun P tok htok => .inl ((ht P).subset htok)) fun k hk => ?_
  exact (h.once k (hk.of_grows (.of_eq hp))).mono fun P => (ht P).countP_le _

/-- A queueing endpoint becomes something else, and tokens disappear at most. -/
theorem settle {a p : Address} {st : Status} (hq : v.port a = some ⟨p, .queueing⟩)
    (hp : v'.port = upd₁ v.port a (some ⟨p, st⟩)) (hs : v'.supply = v.supply)
    (ht : ∀ P, (v'.tokens P).Subperm (v.tokens P)) : Names T v' := by
  have hg : v.Grows v' := .status hq hp
  refine h.step hg (.of_upd (by simp [hq]) hp) (hs ▸ List.suffix_rfl)
    (fun P tok htok => .inl ((ht P).subset htok)) fun k hk => ?_
  exact (h.once k (hk.of_grows hg)).mono fun P => (ht P).countP_le _

end

/-- Every effect keeps the names apart. -/
theorem effect (h : Names T v) (he : Effect T v v') : Names T v' := by
  have hg := he.grows h
  cases he with
  | quiet hp hs ht => exact h.quiet hp hs ht
  | pass hp hs ht hc => exact h.pass hp hs ht hc
  | drop hp hs ht => exact h.drop hp hs ht.subperm
  | create hn hs hp ht ha => exact h.create hn hs hg hp ht ha
  | describe hs hp hq ht => exact h.describe hs hp hq ht
  | move hl hq hp hs ht => exact h.move hl hq hp hs ht
  | recover hp hs ht => exact h.recover hp hs ht
  | forward hl hs hq hp ht => exact h.forward hl hs hq hp ht
  | accept hl hs hp ht => exact h.accept hl hs hp ht
  | acknowledge _ hq _ _ hp hs ht => exact h.settle hq hp hs ht.subperm
  | bind hq _ hp hs ht => exact h.settle hq hp hs fun P => (ht P).subperm

end Names
end Mage
