import Mage.Ports.Names

/-! Rights. Whatever stands for an endpoint in its node (the embedder's handle, a descriptor that waits
    in a queue, a pending invitation) does so alone, and only for an endpoint that is not proxying. -/

namespace Mage
open Lib

/-- The token names the endpoint `x` of the node it is in. -/
def Token.Mentions (x : Identifier) : Token → Prop
  | .right y => y = x
  | .reserved y => y = x
  | .described d => d.endpointName = x ∨ d.crossNodeEndpointName = x
  | .recovered d => d.crossNodeEndpointName = x
  | _ => False

instance (x : Identifier) : DecidablePred (Token.Mentions x) := fun tok => by
  cases tok <;> unfold Token.Mentions <;> infer_instance

/-- The token, in place `P`, stands for endpoint `a`. -/
def Claims (a : Address) (P : Place) (tok : Token) : Prop :=
  P.node = some a.nodeName ∧ tok.Mentions a.endpointName

instance (a : Address) (P : Place) : DecidablePred (Claims a P) := fun tok => by
  unfold Claims
  infer_instance

structure Rights (v : Ports) : Prop where
  once : ∀ a, v.port a ≠ none → AtMostOnce (weigh (Claims a) v.tokens)
  status : ∀ P, ∀ tok ∈ v.tokens P, ∀ a q, Claims a P tok → v.port a = some q →
    q.status = .queueing ∨ (q.status = .bound ∧ P = .held a.nodeName)

section
variable {T : Topology} {v v' : Ports}

/-- A token mentions registered names and the name it will register. -/
theorem Names.mentioned (h : Names T v) {P : Place} {tok : Token} (htok : tok ∈ v.tokens P)
    {x : Identifier} (hx : tok.Mentions x) : ¬ v.Unregistered x ∨ tok.cross = some x := by
  have hok := h.ok P tok htok
  cases tok with
  | right | reserved =>
    obtain ⟨n, -, hn⟩ := hok
    cases hx
    exact .inl fun hu => hn (hu n)
  | described d =>
    obtain ⟨n, -, ⟨⟨q, hq, -⟩, -⟩ | ⟨-, m, -, hm⟩⟩ := hok
    · rcases hx with rfl | rfl
      · exact .inl fun hu => by simp [hu n] at hq
      · exact .inr rfl
    · rcases hx with rfl | rfl
      · exact .inl fun hu => hm (hu m)
      · exact .inr rfl
  | recovered d =>
    obtain ⟨n, -, ⟨q, hq, -⟩, -⟩ := hok
    cases hx
    exact .inl fun hu => by simp [hu n] at hq
  | crossing | invitation | acceptance => cases hx

/-- Nothing stands for an endpoint whose name is still to be drawn. -/
theorem Names.unclaimed (h : Names T v) {x : Identifier} (hx : x ∈ v.supply) (n : Identifier)
    (P : Place) : weigh (Claims ⟨n, x⟩) v.tokens P = 0 := by
  refine weigh_eq_zero.2 fun tok htok hc => ?_
  rcases h.mentioned htok hc.2 with hu | hd
  · exact hu (h.unused x hx)
  · exact (h.drawn P tok htok x hd).2 hx

/-- A received descriptor stands for the endpoint created from it, not for its sender's. -/
theorem Ports.Stale.not_sender {n : Identifier} {d : EndpointDescriptor} (hd : v.Stale n d)
    (h : Names T v) : v.port ⟨n, d.endpointName⟩ = none := by
  obtain ⟨-, m, hm, hne⟩ := hd
  by_contra hn
  exact hm (h.unique m n _ hne hn)

/-- What passes to another place claims no more than before. -/
theorem Passes.claims {P Q : Place} {x y : Token} (hp : Passes v P Q x y) (h : Names T v)
    (hx : x.Ok T v P) {a : Address} (ha : v.port a ≠ none) (hy : Claims a Q y) : Claims a P x := by
  obtain ⟨hn, hm⟩ := hy
  cases hp with
  | queueRecovered =>
    obtain ⟨n, ⟨τ, hP⟩, hd⟩ := hx
    cases hP
    obtain ⟨m, x⟩ := a
    cases hn
    rcases hm with rfl | hm
    · exact absurd (hd.not_sender h) ha
    · exact ⟨rfl, hm⟩
  | post => exact ⟨hn, .inl hm⟩
  | replay => exact ⟨hn, .inl hm⟩
  | replayRecovered => exact ⟨hn, .inr hm⟩
  | send | receive | invite | invited | reply | replied => cases hm
  | _ => exact ⟨hn, hm⟩

theorem Passes.status {P Q : Place} {x y : Token} (hp : Passes v P Q x y) (h : Names T v)
    (hr : Rights v) (hx : x ∈ v.tokens P) {a : Address} {q : Port} (hq : v.port a = some q)
    (hy : Claims a Q y) : q.status = .queueing := by
  have hc := hp.claims h (h.ok P x hx) (by simp [hq]) hy
  rcases hr.status P x hx a q hc hq with hs | ⟨hb, rfl⟩
  · exact hs
  · cases hp with
    | take hnb =>
      obtain ⟨-, hm⟩ := hc
      cases hm
      exact absurd hb (hnb q hq)

end

namespace Rights
variable {T : Topology} {v v' : Ports}

section
variable (h : Rights v)
include h

/-- Effects that leave the ports alone and add no claims. -/
theorem same_ports (hp : v'.port = v.port)
    (ho : ∀ a, v.port a ≠ none → AtMostOnce (weigh (Claims a) v'.tokens))
    (ht : ∀ P, ∀ tok ∈ v'.tokens P, tok ∈ v.tokens P ∨
      ∀ a q, Claims a P tok → v.port a = some q → q.status = .queueing) : Rights v' := by
  refine ⟨fun a ha => ho a (hp ▸ ha), fun P tok htok a q hc hq => ?_⟩
  rw [hp] at hq
  rcases ht P tok htok with hold | hnew
  · exact h.status P tok hold a q hc hq
  · exact .inl (hnew a q hc hq)

/-- One endpoint changes its status, while nothing claims it afterwards. -/
theorem settle {a p : Address} {st : Status} {P : Place} {r b : List Token}
    (hq : v.port a = some ⟨p, .queueing⟩) (hp : v'.port = upd₁ v.port a (some ⟨p, st⟩))
    (ht : Swap v.tokens v'.tokens P r b) (hr : ∃ tok ∈ r, Claims a P tok)
    (hb : ∀ tok ∈ b, ∀ x, ¬ tok.Mentions x) : Rights v' := by
  have hzero : ∀ c : Address, b.countP (Claims c P ·) = 0 := fun c =>
    List.countP_eq_zero.2 fun tok hta => by simp [Claims, hb tok hta]
  have hgone := ht.consumed (h.once a (by simp [hq]))
    (List.countP_pos_iff.2 (by simpa using hr)) (hzero a)
  refine ⟨fun c hc => ?_, fun R tok htok c q hcl hcq => ?_⟩
  · refine ht.atMostOnce (h.once c ?_) (by rw [hzero]; exact Nat.zero_le _)
    by_cases hca : c = a
    · simp [hca, hq]
    · simpa [hp, hca] using hc
  · have hca : c ≠ a := by
      rintro rfl
      exact hgone R tok htok hcl
    rcases ht.mem htok with hold | ⟨-, hta⟩
    · exact h.status R tok hold c q hcl (by simpa [hp, hca] using hcq)
    · exact absurd hcl.2 (hb tok hta _)

/-- Endpoints are created, queueing, under names that nothing mentions yet. -/
theorem born (new : List Address) {P : Place} {r b : List Token}
    (hp : ∀ a q, v'.port a = some q → v.port a = some q ∨ (a ∈ new ∧ q.status = .queueing))
    (ht : Swap v.tokens v'.tokens P r b)
    (hnew : ∀ a ∈ new, (∀ R, weigh (Claims a) v.tokens R = 0) ∧ b.countP (Claims a P ·) ≤ 1)
    (hb : ∀ tok ∈ b, ∀ a, Claims a P tok → a ∈ new) (hold : ∀ a ∈ new, v.port a = none) :
    Rights v' := by
  refine ⟨fun a ha => ?_, fun R tok htok a q hc hq => ?_⟩
  · obtain ⟨q, hq⟩ := Option.ne_none_iff_exists'.1 ha
    rcases hp a q hq with hq | ⟨han, -⟩
    · refine ht.atMostOnce (h.once a (by simp [hq])) ?_
      rw [List.countP_eq_zero.2 fun tok hta => ?_]
      · exact Nat.zero_le _
      · intro hc
        have := hold a (hb tok hta a (by simpa using hc))
        simp [hq] at this
    · exact ht.atMostOnce_fresh (hnew a han).1 (hnew a han).2
  · rcases hp a q hq with hq | ⟨han, hs⟩
    · rcases ht.mem htok with ho | ⟨rfl, hta⟩
      · exact h.status R tok ho a q hc hq
      · have := hold a (hb tok hta a hc)
        simp [hq] at this
    · exact .inl hs

end

section
variable (h : Rights v) (hv : Names T v)
include h hv

theorem pass {P Q : Place} {r b : List Token} (hp : v'.port = v.port)
    (ht : Transfer v.tokens v'.tokens P Q r b) (hc : List.Forall₂ (Passes v P Q) r b) :
    Rights v' := by
  refine h.same_ports hp (fun a ha => ?_) fun R tok htok => ?_
  · refine ht.atMostOnce (h.once a ha) (Forall₂.countP_le hc fun x hx y hpass hy => ?_)
    exact hpass.claims hv (hv.ok P x (ht.mem_given hx)) ha hy
  · rcases ht.mem htok with hold | ⟨rfl, hb⟩
    · exact .inl hold
    · obtain ⟨x, hx, hpass⟩ := Forall₂.mem_right hc hb
      exact .inr fun a q hcl hq => hpass.status hv h (ht.mem_given hx) hq hcl

theorem describe {n x c : Identifier} {τ : ThreadId} {q : Port} (hsup : v.supply = c :: v'.supply)
    (hp : v'.port = v.port)
    (ht : Swap v.tokens v'.tokens (.hand n τ) [.right x]
      [.described ⟨x, c, q.peer.nodeName, q.peer.endpointName⟩]) : Rights v' := by
  have hc := hv.unused c (by simp [hsup])
  have key : ∀ a, v.port a ≠ none →
      Claims a (.hand n τ) (.described ⟨x, c, q.peer.nodeName, q.peer.endpointName⟩) →
      Claims a (.hand n τ) (.right x) := by
    rintro a ha ⟨hn, rfl | rfl⟩
    · exact ⟨hn, rfl⟩
    · exact absurd (hc a.nodeName) ha
  refine h.same_ports hp (fun a ha => ht.atMostOnce (h.once a ha) ?_) fun R tok htok => ?_
  · exact Forall₂.countP_le (f := fun y z => Claims a (.hand n τ) z → Claims a (.hand n τ) y)
      (.cons (key a ha) .nil) fun _ _ _ hyz => hyz
  · rcases ht.mem htok with hold | ⟨rfl, hta⟩
    · exact .inl hold
    · rw [List.mem_singleton.1 hta]
      refine .inr fun a q' hcl hq' => ?_
      rcases h.status _ _ (ht.mem_given (List.mem_singleton_self _)) a q'
        (key a (by simp [hq']) hcl) hq' with hs | ⟨-, hP⟩
      · exact hs
      · cases hP

theorem recover {n : Identifier} {τ : ThreadId} {d : EndpointDescriptor}
    (hp : v'.port = upd₁ v.port ⟨n, d.crossNodeEndpointName⟩ (some ⟨d.peerAddress, .queueing⟩))
    (ht : Swap v.tokens v'.tokens (.hand n τ) [.crossing n d] [.recovered d]) : Rights v' := by
  have hmem := ht.mem_given (List.mem_singleton_self _)
  obtain ⟨s, -, -, hu, -⟩ := hv.ok _ _ hmem
  refine h.born [⟨n, d.crossNodeEndpointName⟩] (fun a q hq => ?_) ht (fun a ha => ?_)
    (fun tok hta a hc => ?_) fun a ha => ?_
  · by_cases ha : a = ⟨n, d.crossNodeEndpointName⟩
    · rw [hp, ha, upd₁_apply, if_pos rfl, Option.some.injEq] at hq
      exact .inr ⟨List.mem_singleton.2 ha, hq ▸ rfl⟩
    · exact .inl (by simpa [hp, ha] using hq)
  · rw [List.mem_singleton.1 ha]
    refine ⟨fun R => weigh_eq_zero.2 fun tok htok hc => ?_, List.countP_le_length⟩
    rcases hv.mentioned htok hc.2 with hr | hd
    · exact hr hu
    · obtain ⟨rfl, rfl⟩ := (hv.once _ hu).token_eq htok hd hmem rfl
      exact hc.2
  · rw [List.mem_singleton.1 hta] at hc
    obtain ⟨hn, hm⟩ := hc
    cases hn
    cases a
    cases hm
    exact List.mem_singleton_self _
  · rw [List.mem_singleton.1 ha]
    exact hu n

theorem create {n x y : Identifier} {P : Place} {a : List Token}
    (hsup : v.supply = x :: y :: v'.supply)
    (hp : v'.port = upd₁ (upd₁ v.port ⟨n, x⟩ (some ⟨⟨n, y⟩, .queueing⟩)) ⟨n, y⟩
      (some ⟨⟨n, x⟩, .queueing⟩))
    (ht : Swap v.tokens v'.tokens P [] a) (hP : P.node = some n)
    (ha : a.Perm [.right x, .right y] ∨ a.Perm [.right x, .reserved y, .invitation ⟨n, x⟩]) :
    Rights v' := by
  have hnd := hsup ▸ hv.supply_nodup
  simp only [List.nodup_cons, List.mem_cons, not_or] at hnd
  have hxy : x ≠ y := hnd.1.1
  have hx : x ∈ v.supply := by simp [hsup]
  have hy : y ∈ v.supply := by simp [hsup]
  refine h.born [⟨n, x⟩, ⟨n, y⟩] (fun b q hq => ?_) ht (fun b hb => ?_)
    (fun tok hta b hc => ?_) fun b hb => ?_
  · by_cases hby : b = ⟨n, y⟩
    · rw [hp, hby, upd₁_apply, if_pos rfl, Option.some.injEq] at hq
      exact .inr ⟨by simp [hby], hq ▸ rfl⟩
    · by_cases hbx : b = ⟨n, x⟩
      · rw [hp, upd₁_apply, if_neg hby, hbx, upd₁_apply, if_pos rfl, Option.some.injEq] at hq
        exact .inr ⟨by simp [hbx], hq ▸ rfl⟩
      · exact .inl (by simpa [hp, hby, hbx] using hq)
  · simp only [List.mem_cons, List.not_mem_nil, or_false] at hb
    rcases hb with rfl | rfl
    · refine ⟨hv.unclaimed hx n, ?_⟩
      rcases ha with ha | ha <;> rw [ha.countP_eq] <;> simp [Claims, Token.Mentions, hxy.symm, hP]
    · refine ⟨hv.unclaimed hy n, ?_⟩
      rcases ha with ha | ha <;> rw [ha.countP_eq] <;> simp [Claims, Token.Mentions, hxy, hP]
  · obtain ⟨hn, hm⟩ := hc
    rw [hP, Option.some.injEq] at hn
    obtain ⟨m, z⟩ := b
    cases hn
    have hz : z = x ∨ z = y := by
      rcases ha with ha | ha <;> rw [ha.mem_iff] at hta <;>
        simp only [List.mem_cons, List.not_mem_nil, or_false] at hta
      · rcases hta with rfl | rfl
        · exact .inl hm.symm
        · exact .inr hm.symm
      · rcases hta with rfl | rfl | rfl
        · exact .inl hm.symm
        · exact .inr hm.symm
        · cases hm
    rcases hz with rfl | rfl <;> simp
  · simp only [List.mem_cons, List.not_mem_nil, or_false] at hb
    rcases hb with rfl | rfl
    · exact hv.unused x hx n
    · exact hv.unused y hy n

theorem accept {n i x e : Identifier} {τ : ThreadId} (hsup : v.supply = e :: v'.supply)
    (hp : v'.port = upd₁ v.port ⟨n, e⟩ (some ⟨⟨i, x⟩, .queueing⟩))
    (ht : Swap v.tokens v'.tokens (.hand n τ) [.invitation ⟨i, x⟩]
      [.right e, .acceptance ⟨n, e⟩]) : Rights v' := by
  have he : e ∈ v.supply := by simp [hsup]
  refine h.born [⟨n, e⟩] (fun a q hq => ?_) ht (fun a ha => ?_) (fun tok hta a hc => ?_)
    fun a ha => ?_
  · by_cases ha : a = ⟨n, e⟩
    · rw [hp, ha, upd₁_apply, if_pos rfl, Option.some.injEq] at hq
      exact .inr ⟨List.mem_singleton.2 ha, hq ▸ rfl⟩
    · exact .inl (by simpa [hp, ha] using hq)
  · rw [List.mem_singleton.1 ha]
    exact ⟨hv.unclaimed he n, by simp [Claims, Token.Mentions, Place.node]⟩
  · obtain ⟨hn, hm⟩ := hc
    cases hn
    simp only [List.mem_cons, List.not_mem_nil, or_false] at hta
    rcases hta with rfl | rfl
    · cases a
      cases hm
      exact List.mem_singleton_self _
    · cases hm
  · rw [List.mem_singleton.1 ha]
    exact hv.unused e he n

end

/-- Every effect keeps the rights apart. -/
theorem effect (h : Rights v) (hv : Names T v) (he : Effect T v v') : Rights v' := by
  cases he with
  | quiet hp _ ht =>
    exact h.same_ports hp (fun a ha => (h.once a ha).mono fun P => ((ht P).countP_eq _).le)
      fun P tok htok => .inl ((ht P).mem_iff.1 htok)
  | pass hp _ ht hc => exact h.pass hv hp ht hc
  | drop hp _ ht =>
    exact h.same_ports hp (fun a ha => (h.once a ha).mono fun P => (ht.subperm P).countP_le _)
      fun P tok htok => .inl ((ht.subperm P).subset htok)
  | create _ hs hp ht ha =>
    rcases ha with ⟨rfl, rfl⟩ | ⟨τ, rfl, rfl⟩
    · exact h.create hv hs hp ht rfl (.inl (.refl _))
    · exact h.create hv hs hp ht rfl (.inr (.refl _))
  | describe hs hp _ ht => exact h.describe hv hs hp ht
  | move _ hq hp _ ht =>
    exact h.settle hq hp ht ⟨_, List.mem_singleton_self _, rfl, .inl rfl⟩ (by simp [Token.Mentions])
  | recover hp _ ht => exact h.recover hv hp ht
  | forward _ _ hq hp ht =>
    exact h.settle hq hp ht ⟨_, List.mem_singleton_self _, rfl, rfl⟩ (by simp [Token.Mentions])
  | accept _ hs hp ht => exact h.accept hv hs hp ht
  | acknowledge _ hq _ _ hp _ ht =>
    exact h.settle hq hp ht ⟨_, List.mem_cons_self, rfl, rfl⟩ (by simp)
  | @bind n x p hq hr hp _ ht =>
    have hone := h.once ⟨n, x⟩ (by simp [hq])
    refine ⟨fun a ha => ?_, fun P tok htok a q hc haq => ?_⟩
    · refine (h.once a ?_).mono fun P => ((ht P).countP_eq _).le
      by_cases hax : a = ⟨n, x⟩
      · simp [hax, hq]
      · simpa [hp, hax] using ha
    · have hold := (ht P).mem_iff.1 htok
      by_cases hax : a = ⟨n, x⟩
      · subst hax
        rw [hp, upd₁_apply, if_pos rfl, Option.some.injEq] at haq
        obtain ⟨rfl, -⟩ := hone.token_eq hold hc hr ⟨rfl, rfl⟩
        exact .inr ⟨haq ▸ rfl, rfl⟩
      · exact h.status P tok hold a q hc (by simpa [hp, hax] using haq)

/-- Nothing stands for a proxying endpoint. -/
theorem not_proxying (h : Rights v) {P : Place} {tok : Token} (htok : tok ∈ v.tokens P)
    {a : Address} (hc : Claims a P tok) {p b : Address} :
    v.port a ≠ some ⟨p, .proxying b⟩ := by
  intro hq
  rcases h.status P tok htok a _ hc hq with hs | ⟨hs, -⟩ <;> cases hs

end Rights
end Mage
