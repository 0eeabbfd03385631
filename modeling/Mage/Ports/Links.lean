import Mage.Lib.Chain
import Mage.Ports.Pacts

/-! Links. A proxy leads to the endpoint re-created from the descriptor it sent away; a reserved
    endpoint stands for the one its guest created. Links climb in the order in which names are drawn,
    all ends along a chain have the same peer, and the peers of two ends are each other's origins. -/

namespace Mage
open Lib Relation

namespace Ports

/-- Where what is meant for `a` has to go next. -/
inductive Next (v : Ports) : Address → Address → Prop where
  | proxy {a b p : Address} (h : v.port a = some ⟨p, .proxying b⟩) : Next v a b
  | stand {a g h : Address} {P : Place} (ht : .acceptance g ∈ v.tokens P) (hg : v.peer g = some h)
      (ha : v.peer h = some a) : Next v a g

/-- `a` is there, or on its way to its node, and has peer `p`. -/
inductive Live (v : Ports) : Address → Address → Prop where
  | port {a p : Address} (h : v.peer a = some p) : Live v a p
  | crossing {t : Identifier} {d : EndpointDescriptor} {P : Place}
      (h : .crossing t d ∈ v.tokens P) : Live v ⟨t, d.crossNodeEndpointName⟩ d.peerAddress

/-- A message from node `n` to address `a` is for somebody's peer, or goes through a proxy of `n`. -/
def Aimed (v : Ports) (n : Identifier) (a : Address) : Prop :=
  (∃ x, v.peer x = some a) ∨ ∃ x p, v.port ⟨n, x⟩ = some ⟨p, .proxying a⟩

theorem Grows.aimed {v v' : Ports} (h : v.Grows v') {n : Identifier} {a : Address}
    (ha : v.Aimed n a) : v'.Aimed n a := by
  rcases ha with ⟨x, hx⟩ | ⟨x, p, hx⟩
  · exact .inl ⟨x, h.peer hx⟩
  · obtain ⟨⟨p', st⟩, hx', -, hst⟩ := h _ _ hx
    obtain rfl := hst _ rfl
    exact .inr ⟨x, p', hx'⟩

end Ports

/-- The order in which names are drawn. -/
def Topology.age (T : Topology) (a : Address) : ℕ := T.names.idxOf a.endpointName

/-- The descriptor that a token carries. -/
def Token.descriptor : Token → Option EndpointDescriptor
  | .described d => some d
  | .crossing _ d => some d
  | .recovered d => some d
  | _ => none

structure Links (T : Topology) (v : Ports) : Prop where
  linked : ∀ a p b, v.port a = some ⟨p, .proxying b⟩ → Linked T a.nodeName b.nodeName
  onward : ∀ a b, v.Next a b → ∃ p, v.Live a p ∧ v.Live b p
  mate : ∀ a p, v.Live a p → ∃ q, v.peer p = some q ∧ v.peer q = some p ∧ p ≠ q ∧
    ReflTransGen v.Next q a
  rank : ∀ a b, v.Next a b → T.age a < T.age b
  inj : ∀ a b c, v.Next a c → v.Next b c → a = b
  aged : ∀ P, ∀ tok ∈ v.tokens P, ∀ d, tok.descriptor = some d →
    T.names.idxOf d.endpointName < T.names.idxOf d.crossNodeEndpointName

section
variable {T : Topology} {v v' : Ports}

/-- A name in use was drawn before any name still to be drawn. -/
theorem Names.age_lt (h : Names T v) {x c : Identifier} (hx : x ∈ T.names) (hxs : x ∉ v.supply)
    (hc : c ∈ v.supply) : T.names.idxOf x < T.names.idxOf c := by
  obtain ⟨used, hused⟩ := h.suffix
  have hnd := T.names_nodup
  rw [← hused] at hx hnd ⊢
  have hxu : x ∈ used := (List.mem_append.1 hx).resolve_right hxs
  have hcu : c ∉ used := fun hcu => (List.nodup_append.1 hnd).2.2 c hcu c hc rfl
  rw [List.idxOf_append_of_mem hxu, List.idxOf_append_of_notMem hcu]
  have := List.idxOf_lt_length_iff.2 hxu
  omega

/-- A registered name is not one still to be drawn. -/
theorem Names.registered (h : Names T v) {a : Address} (ha : v.port a ≠ none) :
    a.endpointName ∈ T.names ∧ a.endpointName ∉ v.supply :=
  ⟨(h.node a ha).2, fun hs => ha (h.unused _ hs a.nodeName)⟩

theorem Names.live_single (h : Names T v) {a p q : Address} (hp : v.Live a p) (hq : v.Live a q) :
    p = q := by
  have key : ∀ {t d P p}, .crossing t d ∈ v.tokens P →
      v.peer ⟨t, d.crossNodeEndpointName⟩ ≠ some p := by
    intro t d P p hd hp
    obtain ⟨s, -, -, hu, -⟩ := h.ok P _ hd
    simp [Ports.peer, hu t] at hp
  cases hp with
  | port hp =>
    cases hq with
    | port hq => simpa [hp] using hq
    | crossing hd => exact absurd hp (key hd)
  | @crossing t d P hd =>
    generalize ha : (⟨t, d.crossNodeEndpointName⟩ : Address) = a at hq
    cases hq with
    | port hq => exact absurd (ha ▸ hq) (key hd)
    | @crossing t' d' P' hd' =>
      obtain ⟨-, hc⟩ := Address.mk.inj ha
      obtain ⟨s, -, -, hu, -⟩ := h.ok P _ hd
      obtain ⟨-, heq⟩ := (h.once _ hu).token_eq hd rfl hd' (by simp [Token.cross, hc])
      cases heq
      rfl

/-- Links and lives survive as long as the tokens behind them. -/
theorem Ports.Next.later (hg : v.Grows v') {a b : Address} (h : v.Next a b)
    (hacc : ∀ P, .acceptance b ∈ v.tokens P → ∃ Q, .acceptance b ∈ v'.tokens Q) : v'.Next a b := by
  cases h with
  | proxy h =>
    obtain ⟨⟨p, st⟩, hq, rfl, hst⟩ := hg _ _ h
    obtain rfl := hst _ rfl
    exact .proxy hq
  | stand ht hb ha =>
    obtain ⟨Q, hQ⟩ := hacc _ ht
    exact .stand hQ (hg.peer hb) (hg.peer ha)

theorem Ports.Live.later (hg : v.Grows v') {a p : Address} (h : v.Live a p)
    (hcr : ∀ P d, .crossing a.nodeName d ∈ v.tokens P → d.crossNodeEndpointName = a.endpointName →
      v'.Live ⟨a.nodeName, d.crossNodeEndpointName⟩ d.peerAddress) : v'.Live a p := by
  cases h with
  | port h => exact .port (hg.peer h)
  | crossing h => exact hcr _ _ h rfl

end

namespace Links
variable {T : Topology} {v v' : Ports}

section
variable (h : Links T v) (hv : Names T v) (hg : v.Grows v')
include h hv hg

/-- A stand-in that an old acceptance makes is an old one. -/
theorem stand_old {a g b : Address} {P : Place} (ht : .acceptance g ∈ v.tokens P)
    (hb : v'.peer g = some b) (ha : v'.peer b = some a) : v.Next a g := by
  obtain ⟨q, hq⟩ := Option.ne_none_iff_exists'.1 (hv.ok P _ ht)
  have hpeer : v.peer g = some q.peer := by simp [Ports.peer, hq]
  obtain ⟨c, hc, -⟩ := h.mate g q.peer (.port hpeer)
  rw [hg.peer hpeer, Option.some.injEq] at hb
  subst hb
  rw [hg.peer hc, Option.some.injEq] at ha
  exact ha ▸ .stand ht hpeer hc

omit hv in
/-- What each effect has to show: what is new, be it a link or an end, has its place. -/
theorem step (hnext : ∀ a b, v.Next a b → v'.Next a b) (hlive : ∀ a p, v.Live a p → v'.Live a p)
    (hproxy : ∀ a p b, v'.port a = some ⟨p, .proxying b⟩ →
      v.port a = some ⟨p, .proxying b⟩ ∨ Linked T a.nodeName b.nodeName)
    (newLink : ∀ a b, v'.Next a b → v.Next a b ∨
      ((∃ p, v'.Live a p ∧ v'.Live b p) ∧ T.age a < T.age b ∧ ∀ c, ¬ v.Next c b ∧
        (v'.Next c b → c = a)))
    (newEnd : ∀ a p, v'.Live a p → v.Live a p ∨ ∃ q, v'.peer p = some q ∧ v'.peer q = some p ∧
      p ≠ q ∧ ReflTransGen v'.Next q a)
    (haged : ∀ P, ∀ tok ∈ v'.tokens P, ∀ d, tok.descriptor = some d →
      (∃ Q, ∃ tok' ∈ v.tokens Q, tok'.descriptor = some d) ∨
        T.names.idxOf d.endpointName < T.names.idxOf d.crossNodeEndpointName) : Links T v' := by
  refine ⟨fun a p b hab => ?_, fun a b hab => ?_, fun a p ha => ?_, fun a b hab => ?_,
    fun a b c hac hbc => ?_, fun P tok htok d hd => ?_⟩
  · rcases hproxy a p b hab with hold | hl
    · exact h.linked a p b hold
    · exact hl
  · rcases newLink a b hab with hold | ⟨hl, -⟩
    · obtain ⟨p, ha, hb⟩ := h.onward a b hold
      exact ⟨p, hlive a p ha, hlive b p hb⟩
    · exact hl
  · rcases newEnd a p ha with hold | hnew
    · obtain ⟨q, hp, hq, hpq, hchain⟩ := h.mate a p hold
      exact ⟨q, hg.peer hp, hg.peer hq, hpq, ReflTransGen.mono hnext q a hchain⟩
    · exact hnew
  · rcases newLink a b hab with hold | ⟨-, hr, -⟩
    · exact h.rank a b hold
    · exact hr
  · rcases newLink a c hac with hold | ⟨-, -, hone⟩
    · rcases newLink b c hbc with hold' | ⟨-, -, hone⟩
      · exact h.inj a b c hold hold'
      · exact absurd hold (hone a).1
    · exact ((hone b).2 hbc).symm
  · rcases haged P tok htok d hd with ⟨Q, tok', htok', hd'⟩ | hr
    · exact h.aged Q tok' htok' d hd'
    · exact hr

/-- Effects that add no proxies and no acceptances add no links. -/
theorem old_links (hproxy : ∀ a p b, v'.port a = some ⟨p, .proxying b⟩ →
      v.port a = some ⟨p, .proxying b⟩)
    (hacc : ∀ P g, .acceptance g ∈ v'.tokens P → ∃ Q, .acceptance g ∈ v.tokens Q) {a b : Address}
    (hab : v'.Next a b) : v.Next a b := by
  cases hab with
  | proxy hab => exact .proxy (hproxy _ _ _ hab)
  | stand ht hb ha =>
    obtain ⟨Q, hQ⟩ := hacc _ _ ht
    exact h.stand_old hv hg hQ hb ha

end

section
variable (h : Links T v) (hv : Names T v)
include h hv

/-- Effects after which the same ports are there and the same things are on their way. -/
theorem same (hg : v.Grows v') (hpeer : ∀ a, v'.peer a = v.peer a)
    (hproxy : ∀ a p b, v'.port a = some ⟨p, .proxying b⟩ → v.port a = some ⟨p, .proxying b⟩)
    (hacc : ∀ P g, .acceptance g ∈ v'.tokens P → ∃ Q, .acceptance g ∈ v.tokens Q)
    (hacc' : ∀ P g, .acceptance g ∈ v.tokens P → ∃ Q, .acceptance g ∈ v'.tokens Q)
    (hcr : ∀ P t d, .crossing t d ∈ v'.tokens P → ∃ Q, .crossing t d ∈ v.tokens Q)
    (hcr' : ∀ P t d, .crossing t d ∈ v.tokens P → ∃ Q, .crossing t d ∈ v'.tokens Q)
    (haged : ∀ P, ∀ tok ∈ v'.tokens P, ∀ d, tok.descriptor = some d →
      (∃ Q, ∃ tok' ∈ v.tokens Q, tok'.descriptor = some d) ∨
        T.names.idxOf d.endpointName < T.names.idxOf d.crossNodeEndpointName) : Links T v' := by
  refine h.step hg (fun a b hab => hab.later hg fun P hP => hacc' P b hP)
    (fun a p ha => ha.later hg fun P d hd _ => ?_) (fun a p b hab => .inl (hproxy a p b hab))
    (fun a b hab => .inl (h.old_links hv hg hproxy hacc hab)) (fun a p ha => ?_) haged
  · obtain ⟨Q, hQ⟩ := hcr' P _ d hd
    exact .crossing hQ
  · cases ha with
    | port ha => exact .inl (.port (hpeer a ▸ ha))
    | crossing hd =>
      obtain ⟨Q, hQ⟩ := hcr _ _ _ hd
      exact .inl (.crossing hQ)

/-- The case of a swap of other tokens. -/
theorem swap {P : Place} {r b : List Token} (hg : v.Grows v') (hpeer : ∀ a, v'.peer a = v.peer a)
    (hproxy : ∀ a p b, v'.port a = some ⟨p, .proxying b⟩ → v.port a = some ⟨p, .proxying b⟩)
    (ht : Swap v.tokens v'.tokens P r b)
    (hr : ∀ tok ∈ r ++ b, (∀ g, tok ≠ .acceptance g) ∧ ∀ t d, tok ≠ .crossing t d)
    (hb : ∀ tok ∈ b, ∀ d, tok.descriptor = some d →
      T.names.idxOf d.endpointName < T.names.idxOf d.crossNodeEndpointName) : Links T v' := by
  have hin : ∀ {R tok}, tok ∈ v'.tokens R →
      ((∃ g, tok = .acceptance g) ∨ ∃ t d, tok = .crossing t d) → tok ∈ v.tokens R := by
    intro R tok htok hk
    rcases ht.mem htok with hold | ⟨-, hta⟩
    · exact hold
    · obtain ⟨h1, h2⟩ := hr tok (List.mem_append_right _ hta)
      rcases hk with ⟨g, rfl⟩ | ⟨t, d, rfl⟩
      · exact absurd rfl (h1 g)
      · exact absurd rfl (h2 t d)
  refine h.same hv hg hpeer hproxy (fun R g hR => ⟨R, hin hR (.inl ⟨g, rfl⟩)⟩)
    (fun R g hR => ⟨R, ht.stays hR fun hgr => ?_⟩)
    (fun R t d hR => ⟨R, hin hR (.inr ⟨t, d, rfl⟩)⟩)
    (fun R t d hR => ⟨R, ht.stays hR fun hdr => ?_⟩) fun R tok htok d hd => ?_
  · exact (hr _ (List.mem_append_left _ hgr)).1 g rfl
  · exact (hr _ (List.mem_append_left _ hdr)).2 t d rfl
  · rcases ht.mem htok with hold | ⟨-, hta⟩
    · exact .inl ⟨R, tok, hold, hd⟩
    · exact .inr (hb tok hta d hd)

theorem pass {P Q : Place} {r b : List Token} (hp : v'.port = v.port)
    (ht : Transfer v.tokens v'.tokens P Q r b) (hc : List.Forall₂ (Passes v P Q) r b) :
    Links T v' := by
  have keep : ∀ {x y}, Passes v P Q x y →
      ((∃ g, x = .acceptance g) ∨ ∃ t d, x = .crossing t d) ∨
      ((∃ g, y = .acceptance g) ∨ ∃ t d, y = .crossing t d) → x = y := by
    rintro x y hxy hk
    cases hxy <;> simp at hk ⊢
  have hin : ∀ {R tok}, tok ∈ v'.tokens R →
      ((∃ g, tok = .acceptance g) ∨ ∃ t d, tok = .crossing t d) → ∃ S, tok ∈ v.tokens S := by
    intro R tok htok hk
    rcases ht.mem htok with hold | ⟨-, hta⟩
    · exact ⟨R, hold⟩
    · obtain ⟨x, hx, hpass⟩ := Forall₂.mem_right hc hta
      obtain rfl := keep hpass (.inr hk)
      exact ⟨P, ht.mem_given hx⟩
  have hout : ∀ {R tok}, tok ∈ v.tokens R →
      ((∃ g, tok = .acceptance g) ∨ ∃ t d, tok = .crossing t d) → ∃ S, tok ∈ v'.tokens S := by
    intro R tok htok hk
    by_cases hr : R = P ∧ tok ∈ r
    · obtain ⟨y, hy, hpass⟩ := Forall₂.mem_left hc hr.2
      obtain rfl := keep hpass (.inl hk)
      exact ⟨Q, ht.mem_gained hy⟩
    · exact ⟨R, ht.stays htok fun hRP hxr => hr ⟨hRP, hxr⟩⟩
  refine h.same hv (.of_eq hp) (fun a => by simp [Ports.peer, hp]) (fun a p b hab => hp ▸ hab)
    (fun R g hR => hin hR (.inl ⟨g, rfl⟩)) (fun R g hR => hout hR (.inl ⟨g, rfl⟩))
    (fun R t d hR => hin hR (.inr ⟨t, d, rfl⟩)) (fun R t d hR => hout hR (.inr ⟨t, d, rfl⟩))
    fun R tok htok d hd => .inl ?_
  rcases ht.mem htok with hold | ⟨-, hta⟩
  · exact ⟨R, tok, hold, hd⟩
  · obtain ⟨x, hx, hpass⟩ := Forall₂.mem_right hc hta
    refine ⟨P, x, ht.mem_given hx, ?_⟩
    cases hpass <;> first | exact hd | cases hd

theorem create {n x y : Identifier} {P : Place} {b : List Token} (hg : v.Grows v')
    (hsup : v.supply = x :: y :: v'.supply)
    (hp : v'.port = upd₁ (upd₁ v.port ⟨n, x⟩ (some ⟨⟨n, y⟩, .queueing⟩)) ⟨n, y⟩
      (some ⟨⟨n, x⟩, .queueing⟩))
    (ht : Swap v.tokens v'.tokens P [] b)
    (hb : ∀ tok ∈ b, (∀ g, tok ≠ .acceptance g) ∧ tok.descriptor = none) : Links T v' := by
  have hnd := hsup ▸ hv.supply_nodup
  simp only [List.nodup_cons, List.mem_cons, not_or] at hnd
  have hxy : x ≠ y := hnd.1.1
  have hent : v'.peer ⟨n, x⟩ = some ⟨n, y⟩ ∧ v'.peer ⟨n, y⟩ = some ⟨n, x⟩ := by
    simp [Ports.peer, hp, hxy]
  have hold : ∀ R, ∀ tok ∈ v'.tokens R, (∃ g, tok = .acceptance g) ∨ tok.descriptor ≠ none →
      tok ∈ v.tokens R := by
    intro R tok htok hk
    rcases ht.mem htok with hold | ⟨-, hta⟩
    · exact hold
    · obtain ⟨h1, h2⟩ := hb tok hta
      rcases hk with ⟨g, rfl⟩ | hk
      · exact absurd rfl (h1 g)
      · exact absurd h2 hk
  have hproxy : ∀ a p b, v'.port a = some ⟨p, .proxying b⟩ → v.port a = some ⟨p, .proxying b⟩ := by
    intro a p b hab
    by_cases hay : a = ⟨n, y⟩
    · simp [hp, hay] at hab
    · by_cases hax : a = ⟨n, x⟩
      · simp [hp, hax, hxy] at hab
      · simpa [hp, hay, hax] using hab
  refine h.step hg (fun a b hab => hab.later hg fun P hP => ⟨P, ht.stays hP (by simp)⟩)
    (fun a p ha => ha.later hg fun P d hd _ => .crossing (ht.stays hd (by simp)))
    (fun a p b hab => .inl (hproxy a p b hab))
    (fun a b hab => .inl (h.old_links hv hg hproxy
      (fun P g hP => ⟨P, hold P _ hP (.inl ⟨g, rfl⟩)⟩) hab)) (fun a p ha => ?_)
    fun R tok htok d hd => .inl ⟨R, tok, hold R tok htok (.inr (by simp [hd])), hd⟩
  cases ha with
  | port ha =>
    by_cases hay : a = ⟨n, y⟩
    · subst hay
      rw [hent.2, Option.some.injEq] at ha
      subst ha
      exact .inr ⟨⟨n, y⟩, hent.1, hent.2, by simp [hxy], .refl⟩
    · by_cases hax : a = ⟨n, x⟩
      · subst hax
        rw [hent.1, Option.some.injEq] at ha
        subst ha
        exact .inr ⟨⟨n, x⟩, hent.2, hent.1, by simp [hxy.symm], .refl⟩
      · exact .inl (.port (by simpa [Ports.peer, hp, hay, hax] using ha))
  | crossing hd => exact .inl (.crossing (hold _ _ hd (.inr (by simp [Token.descriptor]))))

theorem recover {n : Identifier} {τ : ThreadId} {d : EndpointDescriptor} (hg : v.Grows v')
    (hp : v'.port = upd₁ v.port ⟨n, d.crossNodeEndpointName⟩ (some ⟨d.peerAddress, .queueing⟩))
    (ht : Swap v.tokens v'.tokens (.hand n τ) [.crossing n d] [.recovered d]) : Links T v' := by
  have hmem := ht.mem_given (List.mem_singleton_self _)
  have hpeer : v'.peer ⟨n, d.crossNodeEndpointName⟩ = some d.peerAddress := by
    simp [Ports.peer, hp]
  have hold : ∀ R, ∀ tok ∈ v'.tokens R, tok ≠ .recovered d → tok ∈ v.tokens R := by
    intro R tok htok hk
    rcases ht.mem htok with hold | ⟨-, hta⟩
    · exact hold
    · exact absurd (List.mem_singleton.1 hta) hk
  have hproxy : ∀ a p b, v'.port a = some ⟨p, .proxying b⟩ → v.port a = some ⟨p, .proxying b⟩ := by
    intro a p b hab
    by_cases ha : a = ⟨n, d.crossNodeEndpointName⟩
    · simp [hp, ha] at hab
    · simpa [hp, ha] using hab
  refine h.step hg (fun a b hab => hab.later hg fun P hP => ⟨P, ht.stays hP (by simp)⟩)
    (fun a p ha => ha.later hg fun P d' hd' _ => ?_) (fun a p b hab => .inl (hproxy a p b hab))
    (fun a b hab => .inl (h.old_links hv hg hproxy
      (fun P g hP => ⟨P, hold P _ hP (by simp)⟩) hab)) (fun a p ha => .inl ?_)
    fun R tok htok d' hd' => .inl ?_
  · by_cases hdd : (⟨a.nodeName, d'⟩ : Identifier × EndpointDescriptor) = ⟨n, d⟩
    · obtain ⟨hn, rfl⟩ := Prod.mk.inj hdd
      rw [hn]
      exact .port hpeer
    · refine .crossing (ht.stays hd' ?_)
      simpa using hdd
  · cases ha with
    | port ha =>
      by_cases had : a = ⟨n, d.crossNodeEndpointName⟩
      · subst had
        rw [hpeer, Option.some.injEq] at ha
        exact ha ▸ .crossing hmem
      · exact .port (by simpa [Ports.peer, hp, had] using ha)
    | crossing hd => exact .crossing (hold _ _ hd (by simp))
  · rcases ht.mem htok with hold | ⟨-, hta⟩
    · exact ⟨R, tok, hold, hd'⟩
    · rw [List.mem_singleton.1 hta] at hd'
      exact ⟨_, _, hmem, hd'⟩

/-- An endpoint goes away: it becomes a proxy for a name under which nothing is live yet. -/
theorem depart {n t : Identifier} {τ : ThreadId} {p : Address} {tok : Token}
    {d : EndpointDescriptor} (hg : v.Grows v') (hl : Linked T n t)
    (hq : v.port ⟨n, d.endpointName⟩ = some ⟨p, .queueing⟩)
    (hp : v'.port = upd₁ v.port ⟨n, d.endpointName⟩
      (some ⟨p, .proxying ⟨t, d.crossNodeEndpointName⟩⟩)) (hpeer : d.peerAddress = p)
    (ht : Swap v.tokens v'.tokens (.hand n τ) [tok] [.crossing t d])
    (htok : (∀ g, tok ≠ .acceptance g) ∧ ∀ u d', tok ≠ .crossing u d')
    (hage : T.names.idxOf d.endpointName < T.names.idxOf d.crossNodeEndpointName)
    (hfree : ∀ q, ¬ v.Live ⟨t, d.crossNodeEndpointName⟩ q) : Links T v' := by
  have hold : ∀ R, ∀ tok ∈ v'.tokens R, tok ≠ .crossing t d → tok ∈ v.tokens R := by
    intro R tok htok hk
    rcases ht.mem htok with hold | ⟨-, hta⟩
    · exact hold
    · exact absurd (List.mem_singleton.1 hta) hk
  have hpeers : ∀ a, v'.peer a = v.peer a := by
    intro a
    by_cases ha : a = ⟨n, d.endpointName⟩
    · simp [Ports.peer, hp, ha, hq]
    · simp [Ports.peer, hp, ha]
  have hproxy : ∀ a q b, v'.port a = some ⟨q, .proxying b⟩ →
      v.port a = some ⟨q, .proxying b⟩ ∨
      (a = ⟨n, d.endpointName⟩ ∧ b = ⟨t, d.crossNodeEndpointName⟩) := by
    intro a q b hab
    by_cases ha : a = ⟨n, d.endpointName⟩
    · simp only [hp, ha, upd₁_apply, if_true, Option.some.injEq, Port.mk.injEq,
        Status.proxying.injEq] at hab
      exact .inr ⟨ha, hab.2.symm⟩
    · exact .inl (by simpa [hp, ha] using hab)
  have hgone : v'.Live ⟨n, d.endpointName⟩ p := .port (by rw [hpeers, Ports.peer_of_port hq])
  have hcome : v'.Live ⟨t, d.crossNodeEndpointName⟩ p :=
    hpeer ▸ .crossing (ht.mem_gained (List.mem_singleton_self _))
  have hlink : v'.Next ⟨n, d.endpointName⟩ ⟨t, d.crossNodeEndpointName⟩ :=
    .proxy (p := p) (by simp [hp])
  have hnolink : ∀ c, ¬ v.Next c ⟨t, d.crossNodeEndpointName⟩ := by
    intro c hc
    obtain ⟨q, -, hb⟩ := h.onward _ _ hc
    exact hfree q hb
  have hnext : ∀ a b, v.Next a b → v'.Next a b := fun a b hab =>
    hab.later hg fun P hP => ⟨P, ht.stays hP (by simpa using (htok.1 b).symm)⟩
  refine h.step hg hnext
    (fun a q ha => ha.later hg fun P d' hd' _ =>
      .crossing (ht.stays hd' (by simpa using (htok.2 _ d').symm)))
    (fun a q b hab => (hproxy a q b hab).imp_right fun hab => by rw [hab.1, hab.2]; exact hl)
    (fun a b hab => ?_) (fun a q ha => ?_) fun R tok' htok' d' hd' => ?_
  · cases hab with
    | proxy hab =>
      rcases hproxy _ _ _ hab with hab | ⟨rfl, rfl⟩
      · exact .inl (.proxy hab)
      · refine .inr ⟨⟨p, hgone, hcome⟩, hage, fun c => ⟨hnolink c, fun hc => ?_⟩⟩
        cases hc with
        | proxy hc =>
          rcases hproxy _ _ _ hc with hc | ⟨rfl, -⟩
          · exact absurd (.proxy hc) (hnolink c)
          · rfl
        | stand hs hb ha => exact absurd (h.stand_old hv hg (hold _ _ hs (by simp)) hb ha) (hnolink c)
    | stand hs hb ha => exact .inl (h.stand_old hv hg (hold _ _ hs (by simp)) hb ha)
  · cases ha with
    | port ha => exact .inl (.port (hpeers a ▸ ha))
    | @crossing u d' P hd' =>
      by_cases hdd : Token.crossing u d' = .crossing t d
      · cases hdd
        obtain ⟨q, h1, h2, h3, hchain⟩ := h.mate _ _ (.port (Ports.peer_of_port hq))
        exact .inr ⟨q, by rw [hpeers, hpeer, h1], by rw [hpeers, h2, hpeer], hpeer ▸ h3,
          (ReflTransGen.mono hnext _ _ hchain).tail hlink⟩
      · exact .inl (.crossing (hold _ _ hd' hdd))
  · rcases ht.mem htok' with hold | ⟨-, hta⟩
    · exact .inl ⟨R, tok', hold, hd'⟩
    · rw [List.mem_singleton.1 hta] at hd'
      cases hd'
      exact .inr hage

/-- A guest comes to stand behind the endpoint that its host set aside. -/
theorem accept {n i x e : Identifier} {τ : ThreadId} (hpacts : Pacts v) (hg : v.Grows v')
    (hsup : v.supply = e :: v'.supply)
    (hp : v'.port = upd₁ v.port ⟨n, e⟩ (some ⟨⟨i, x⟩, .queueing⟩))
    (ht : Swap v.tokens v'.tokens (.hand n τ) [.invitation ⟨i, x⟩]
      [.right e, .acceptance ⟨n, e⟩]) : Links T v' := by
  have he : e ∈ v.supply := by simp [hsup]
  obtain ⟨r, -, ⟨hx, hr⟩, -⟩ :=
    hpacts.backed _ _ (ht.mem_given (List.mem_singleton_self _)) ⟨i, x⟩ rfl
  have hold : ∀ R, ∀ tok ∈ v'.tokens R, tok ≠ .right e → tok ≠ .acceptance ⟨n, e⟩ →
      tok ∈ v.tokens R := by
    intro R tok htok h1 h2
    rcases ht.mem htok with hold | ⟨-, hta⟩
    · exact hold
    · simp only [List.mem_cons, List.not_mem_nil, or_false] at hta
      rcases hta with rfl | rfl
      · exact absurd rfl h1
      · exact absurd rfl h2
  have hproxy : ∀ a q b, v'.port a = some ⟨q, .proxying b⟩ → v.port a = some ⟨q, .proxying b⟩ := by
    intro a q b hab
    by_cases ha : a = ⟨n, e⟩
    · simp [hp, ha] at hab
    · simpa [hp, ha] using hab
  have hguest : v'.peer ⟨n, e⟩ = some ⟨i, x⟩ := by simp [Ports.peer, hp]
  have hlink : v'.Next ⟨i, r⟩ ⟨n, e⟩ := .stand (ht.mem_gained (by simp)) hguest (hg.peer hx)
  have hfree : ∀ q, ¬ v.Live ⟨n, e⟩ q := by
    intro q hq
    generalize ha : (⟨n, e⟩ : Address) = a at hq
    cases hq with
    | port hq => simp [← ha, Ports.peer, hv.unused e he n] at hq
    | crossing hd =>
      obtain ⟨-, hc⟩ := Address.mk.inj ha
      exact (hv.drawn _ _ hd _ rfl).2 (hc ▸ he)
  have hnolink : ∀ c, ¬ v.Next c ⟨n, e⟩ := by
    intro c hc
    obtain ⟨q, -, hb⟩ := h.onward _ _ hc
    exact hfree q hb
  have hnext : ∀ a b, v.Next a b → v'.Next a b := fun a b hab =>
    hab.later hg fun P hP => ⟨P, ht.stays hP (by simp)⟩
  have hreg : v.port ⟨i, r⟩ ≠ none := fun hnone => by simp [Ports.peer, hnone] at hr
  have hstand : ∀ {P a b}, .acceptance b ∈ v'.tokens P → (∃ g, v'.peer b = some g ∧
      v'.peer g = some a) → v.Next a b ∨ (a = ⟨i, r⟩ ∧ b = ⟨n, e⟩) := by
    rintro P a b hs ⟨g, hb, ha⟩
    by_cases hbe : b = ⟨n, e⟩
    · subst hbe
      rw [hguest, Option.some.injEq] at hb
      subst hb
      rw [hg.peer hx, Option.some.injEq] at ha
      exact .inr ⟨ha.symm, rfl⟩
    · exact .inl (h.stand_old hv hg (hold _ _ hs (by simp) (by simpa using hbe)) hb ha)
  refine h.step hg hnext
    (fun a q ha => ha.later hg fun P d hd _ => .crossing (ht.stays hd (by simp)))
    (fun a q b hab => .inl (hproxy a q b hab)) (fun a b hab => ?_) (fun a q ha => ?_)
    fun R tok htok d hd => .inl ⟨R, tok, hold R tok htok ?_ ?_, hd⟩
  · cases hab with
    | proxy hab => exact .inl (.proxy (hproxy _ _ _ hab))
    | stand hs hb ha =>
      rcases hstand hs ⟨_, hb, ha⟩ with hab | ⟨rfl, rfl⟩
      · exact .inl hab
      · obtain ⟨h1, h2⟩ := hv.registered hreg
        refine .inr ⟨⟨_, .port (hg.peer hr), .port hguest⟩, hv.age_lt h1 h2 he,
          fun c => ⟨hnolink c, fun hc => ?_⟩⟩
        cases hc with
        | proxy hc => exact absurd (.proxy (hproxy _ _ _ hc)) (hnolink c)
        | stand hs' hb' ha' =>
          rcases hstand hs' ⟨_, hb', ha'⟩ with hc | ⟨rfl, -⟩
          · exact absurd hc (hnolink c)
          · rfl
  · cases ha with
    | port ha =>
      by_cases hae : a = ⟨n, e⟩
      · subst hae
        rw [hguest, Option.some.injEq] at ha
        subst ha
        obtain ⟨z, h1, -, h3, -⟩ := h.mate _ _ (.port hr)
        rw [hx, Option.some.injEq] at h1
        exact .inr ⟨_, hg.peer hx, hg.peer hr, h1 ▸ h3, .single hlink⟩
      · exact .inl (.port (by simpa [Ports.peer, hp, hae] using ha))
    | crossing hd => exact .inl (.crossing (hold _ _ hd (by simp) (by simp)))
  · rintro rfl
    cases hd
  · rintro rfl
    cases hd

/-- The endpoint set aside becomes a proxy for the guest that stood behind it. -/
theorem acknowledge {n r : Identifier} {g p : Address} {τ : ThreadId} {q : Port}
    (hpacts : Pacts v) (hg : v.Grows v') (hl : Linked T n g.nodeName)
    (hq : v.port ⟨n, r⟩ = some ⟨p, .queueing⟩) (hgq : v.port g = some q) (hpeer : q.peer = p)
    (hp : v'.port = upd₁ v.port ⟨n, r⟩ (some ⟨p, .proxying g⟩))
    (ht : Swap v.tokens v'.tokens (.hand n τ) [.reserved r, .acceptance g] []) : Links T v' := by
  obtain ⟨p', -, hpr, hrp⟩ := hpacts.entangled _ r n (ht.mem_given (by simp)) rfl
  rw [Ports.peer_of_port hq, Option.some.injEq] at hrp
  subst hrp
  have hgp : v.peer g = some p := by simp [Ports.peer, hgq, hpeer]
  have hstood : v.Next ⟨n, r⟩ g := .stand (ht.mem_given (by simp)) hgp hpr
  have hpeers : ∀ a, v'.peer a = v.peer a := by
    intro a
    by_cases ha : a = ⟨n, r⟩
    · simp [Ports.peer, hp, ha, hq]
    · simp [Ports.peer, hp, ha]
  have hold : ∀ R, ∀ tok ∈ v'.tokens R, tok ∈ v.tokens R := fun R tok htok =>
    (ht.subperm R).subset htok
  have hproxy : ∀ a s b, v'.port a = some ⟨s, .proxying b⟩ →
      v.port a = some ⟨s, .proxying b⟩ ∨ (a = ⟨n, r⟩ ∧ b = g) := by
    intro a s b hab
    by_cases ha : a = ⟨n, r⟩
    · simp only [hp, ha, upd₁_apply, if_true, Option.some.injEq, Port.mk.injEq,
        Status.proxying.injEq] at hab
      exact .inr ⟨ha, hab.2.symm⟩
    · exact .inl (by simpa [hp, ha] using hab)
  refine h.step hg (fun a b hab => ?_)
    (fun a s ha => ha.later hg fun P d hd _ => .crossing (ht.stays hd (by simp)))
    (fun a s b hab => (hproxy a s b hab).imp_right fun hab => by rw [hab.1, hab.2]; exact hl)
    (fun a b hab => .inl ?_) (fun a s ha => .inl ?_)
    fun R tok htok d hd => .inl ⟨R, tok, hold R tok htok, hd⟩
  · by_cases hbg : b = g
    · subst hbg
      rw [h.inj a ⟨n, r⟩ b hab hstood]
      exact .proxy (p := p) (by simp [hp])
    · exact hab.later hg fun P hP => ⟨P, ht.stays hP (by simpa using hbg)⟩
  · cases hab with
    | proxy hab =>
      rcases hproxy _ _ _ hab with hab | ⟨rfl, rfl⟩
      · exact .proxy hab
      · exact hstood
    | stand hs hb ha => exact h.stand_old hv hg (hold _ _ hs) hb ha
  · cases ha with
    | port ha => exact .port (hpeers a ▸ ha)
    | crossing hd => exact .crossing (hold _ _ hd)

end

/-- Nothing is live under a name that a descriptor still at home will travel under. -/
theorem free_of_local {t : Identifier} {d : EndpointDescriptor} {P : Place} (hv : Names T v)
    (hd : .described d ∈ v.tokens P) (hu : v.Unregistered d.crossNodeEndpointName) (q : Address) :
    ¬ v.Live ⟨t, d.crossNodeEndpointName⟩ q := by
  intro hq
  generalize ha : (⟨t, d.crossNodeEndpointName⟩ : Address) = a at hq
  cases hq with
  | port hq => simp [← ha, Ports.peer, hu t] at hq
  | crossing hd' =>
    obtain ⟨-, hc⟩ := Address.mk.inj ha
    obtain ⟨-, heq⟩ := (hv.once _ hu).token_eq hd rfl hd' (by simp [Token.cross, hc])
    cases heq

/-- Nothing is live under a name that is still to be drawn. -/
theorem free_of_supply {t c : Identifier} (hv : Names T v) (hc : c ∈ v.supply) (q : Address) :
    ¬ v.Live ⟨t, c⟩ q := by
  intro hq
  generalize ha : (⟨t, c⟩ : Address) = a at hq
  cases hq with
  | port hq => simp [← ha, Ports.peer, hv.unused c hc t] at hq
  | crossing hd =>
    obtain ⟨-, hcd⟩ := Address.mk.inj ha
    exact (hv.drawn _ _ hd _ rfl).2 (hcd ▸ hc)

/-- What is sent on for something is nobody's peer. -/
theorem not_peer (h : Links T v) (hv : Names T v) {a b : Address} (hab : v.Next a b) (x : Address) :
    v.peer x ≠ some b := by
  intro hx
  obtain ⟨q, hb, hq, -, -⟩ := h.mate x b (.port hx)
  obtain ⟨p, ha, hb'⟩ := h.onward a b hab
  obtain rfl := hv.live_single hb' (.port hb)
  obtain ⟨q', hq', -, -, hchain⟩ := h.mate a p ha
  rw [hq, Option.some.injEq] at hq'
  subst hq'
  exact acyclic_of_rank h.rank a (.head' hab hchain)

/-- Nothing is sent to where nothing is live. -/
theorem unaimed (h : Links T v) {a : Address} (ha : ∀ q, ¬ v.Live a q) (n : Identifier) :
    ¬ v.Aimed n a := by
  rintro (⟨x, hx⟩ | ⟨x, p, hx⟩)
  · obtain ⟨q, hq, -⟩ := h.mate x a (.port hx)
    exact ha q (.port hq)
  · obtain ⟨q, -, hq⟩ := h.onward _ _ (.proxy hx)
    exact ha q hq

/-- Every effect keeps the links. -/
theorem effect (h : Links T v) (hv : Names T v) (hpacts : Pacts v) (he : Effect T v v') :
    Links T v' := by
  have hg := he.grows hv
  cases he with
  | quiet hp _ ht =>
    refine h.same hv hg (fun a => by simp [Ports.peer, hp]) (fun a p b hab => hp ▸ hab)
      (fun P g hP => ⟨P, (ht P).mem_iff.1 hP⟩) (fun P g hP => ⟨P, (ht P).mem_iff.2 hP⟩)
      (fun P t d hP => ⟨P, (ht P).mem_iff.1 hP⟩) (fun P t d hP => ⟨P, (ht P).mem_iff.2 hP⟩)
      fun P tok htok d hd => .inl ⟨P, tok, (ht P).mem_iff.1 htok, hd⟩
  | pass hp _ ht hc => exact h.pass hv hp ht hc
  | drop hp _ ht =>
    exact h.swap hv hg (fun a => by simp [Ports.peer, hp]) (fun a p b hab => hp ▸ hab) ht (by simp)
      (by simp)
  | create _ hs hp ht ha =>
    refine h.create hv hg hs hp ht ?_
    rcases ha with ⟨-, rfl⟩ | ⟨τ, -, rfl⟩ <;> simp [Token.descriptor]
  | @describe n x c τ q hs hp hq ht =>
    refine h.swap hv hg (fun a => by simp [Ports.peer, hp]) (fun a p b hab => hp ▸ hab) ht (by simp)
      fun tok hta d hd => ?_
    rw [List.mem_singleton.1 hta] at hd
    cases hd
    obtain ⟨h1, h2⟩ := hv.registered (a := ⟨n, x⟩) (by simp [hq])
    exact hv.age_lt h1 h2 (by simp [hs])
  | @move n t τ d p hl hq hp _ ht =>
    have hmem := ht.mem_given (List.mem_singleton_self _)
    obtain ⟨hpeer, hu⟩ := hv.local_of_described (hv.ok _ _ hmem) hq
    exact h.depart hv hg hl hq hp hpeer.symm ht (by simp) (h.aged _ _ hmem d rfl)
      (free_of_local hv hmem hu)
  | recover hp _ ht => exact h.recover hv hg hp ht
  | @forward n t c τ d p hl hs hq hp ht =>
    have hc : c ∈ v.supply := by simp [hs]
    obtain ⟨m, ⟨σ, hP⟩, ⟨q', hq', hpeer⟩, -⟩ := hv.given_ok ht (List.mem_singleton_self _)
    cases hP
    rw [hq] at hq'
    cases hq'
    obtain ⟨h1, h2⟩ := hv.registered (a := ⟨n, d.crossNodeEndpointName⟩) (by simp [hq])
    refine h.depart (d := { d with
        endpointName := d.crossNodeEndpointName, crossNodeEndpointName := c }) hv hg hl hq hp
      hpeer.symm ht (by simp) (hv.age_lt h1 h2 hc) (free_of_supply hv hc)
  | accept _ hs hp ht => exact h.accept hv hpacts hg hs hp ht
  | acknowledge hl hq hgq hpeer hp _ ht => exact h.acknowledge hv hpacts hg hl hq hgq hpeer hp ht
  | @bind n x p hq _ hp _ ht =>
    refine h.same hv hg (fun a => ?_) (fun a s b hab => ?_)
      (fun P g hP => ⟨P, (ht P).mem_iff.1 hP⟩) (fun P g hP => ⟨P, (ht P).mem_iff.2 hP⟩)
      (fun P t d hP => ⟨P, (ht P).mem_iff.1 hP⟩) (fun P t d hP => ⟨P, (ht P).mem_iff.2 hP⟩)
      fun P tok htok d hd => .inl ⟨P, tok, (ht P).mem_iff.1 htok, hd⟩
    · by_cases ha : a = ⟨n, x⟩
      · simp [Ports.peer, hp, ha, hq]
      · simp [Ports.peer, hp, ha]
    · by_cases ha : a = ⟨n, x⟩
      · simp [hp, ha] at hab
      · simpa [hp, ha] using hab

/-- Nothing is sent on to two places. -/
theorem functional (hr : Rights v) (hpacts : Pacts v) (a b c : Address)
    (hab : v.Next a b) (hac : v.Next a c) : b = c := by
  have mixed : ∀ {P : Place} {p b g s : Address}, v.port a = some ⟨p, .proxying b⟩ → .acceptance g ∈ v.tokens P →
      v.peer g = some s → v.peer s ≠ some a := by
    intro P p b g s ha hs hg hsa
    obtain ⟨x, Q, ⟨hx, -⟩, hQ, hres⟩ := hpacts.backed P _ hs s hg
    rw [hsa, Option.some.injEq] at hx
    subst hx
    exact hr.not_proxying (a := ⟨s.nodeName, x⟩) hres ⟨hQ, rfl⟩ ha
  cases hab with
  | proxy hb =>
    cases hac with
    | proxy hc =>
      rw [hb] at hc
      cases hc
      rfl
    | stand hs hg ha => exact absurd ha (mixed hb hs hg)
  | @stand s P hs hg ha =>
    cases hac with
    | proxy hc => exact absurd ha (mixed hc hs hg)
    | @stand s' P' hs' hg' ha' =>
      -- Both guests answer for the peer of `a`.
      have hss : s' = s := by
        obtain ⟨x, -, ⟨hx, hx'⟩, -⟩ := hpacts.backed P _ hs s hg
        obtain ⟨y, -, ⟨hy, hy'⟩, -⟩ := hpacts.backed P' _ hs' s' hg'
        rw [ha, Option.some.injEq] at hx
        rw [ha', Option.some.injEq] at hy
        rw [← hx] at hx'
        rw [← hy, hx', Option.some.injEq] at hy'
        exact hy'.symm
      subst hss
      obtain ⟨-, heq⟩ := (hpacts.once s').token_eq hs hg hs' hg'
      cases heq
      rfl

/-- Two ends with the same peer are one. -/
theorem end_unique (h : Links T v) (hr : Rights v) (hpacts : Pacts v) {a b p : Address}
    (ha : v.Live a p) (hb : v.Live b p) (hlast : ∀ c, ¬ v.Next a c) (hlast' : ∀ c, ¬ v.Next b c) :
    a = b := by
  obtain ⟨q, hq, -, -, hchain⟩ := h.mate a p ha
  obtain ⟨q', hq', -, -, hchain'⟩ := h.mate b p hb
  rw [hq, Option.some.injEq] at hq'
  subst hq'
  exact Ends.unique (functional hr hpacts) ⟨hchain, hlast⟩ ⟨hchain', hlast'⟩

/-- What travels leads nowhere yet. -/
theorem crossing_last (h : Links T v) (hv : Names T v) {t : Identifier} {d : EndpointDescriptor}
    {P : Place} (hd : .crossing t d ∈ v.tokens P) (b : Address) :
    ¬ v.Next ⟨t, d.crossNodeEndpointName⟩ b := by
  obtain ⟨n, -, -, hu, -⟩ := hv.ok P _ hd
  intro hb
  cases hb with
  | proxy hb => simp [hu t] at hb
  | stand _ hg ha =>
    obtain ⟨q, hq, -⟩ := h.mate _ _ (.port ha)
    simp [Ports.peer, hu t] at hq

/-- Every effect keeps the links that there are. -/
theorem next_later (h : Links T v) (hv : Names T v) (hpacts : Pacts v) (he : Effect T v v')
    {a b : Address} (hab : v.Next a b) : v'.Next a b := by
  have hg := he.grows hv
  by_cases hstays : ∀ P, .acceptance b ∈ v.tokens P → ∃ Q, .acceptance b ∈ v'.tokens Q
  · exact hab.later hg hstays
  · simp only [not_forall, not_exists] at hstays
    obtain ⟨P, hP, hgone⟩ := hstays
    have swap : ∀ {R r b'}, Swap v.tokens v'.tokens R r b' → .acceptance b ∉ r → False :=
      fun ht hr => hgone P (ht.stays hP hr)
    cases he with
    | quiet _ _ ht => exact absurd ((ht P).mem_iff.2 hP) (hgone P)
    | bind _ _ _ _ ht => exact absurd ((ht P).mem_iff.2 hP) (hgone P)
    | @pass P' P'' r b' _ _ ht hc =>
      by_cases hr : P = P' ∧ .acceptance b ∈ r
      · obtain ⟨y, hy, hpass⟩ := Forall₂.mem_left hc hr.2
        have hgained := ht.mem_gained hy
        cases hpass <;> exact absurd hgained (hgone _)
      · exact absurd (ht.stays hP fun hP' hr' => hr ⟨hP', hr'⟩) (hgone P)
    | @acknowledge n r g p τ q _ hq hgq hpeer hp _ ht =>
      have hbg : b = g := by
        by_contra hne
        exact swap ht (by simpa using hne)
      subst hbg
      obtain ⟨p', -, hpr, hrp⟩ := hpacts.entangled _ r n (ht.mem_given (by simp)) rfl
      rw [Ports.peer_of_port hq, Option.some.injEq] at hrp
      subst hrp
      have hstood : v.Next ⟨n, r⟩ b :=
        .stand (ht.mem_given (by simp)) (by simp [Ports.peer, hgq, hpeer]) hpr
      rw [h.inj a ⟨n, r⟩ b hab hstood]
      exact .proxy (p := p) (by simp [hp])
    | drop _ _ ht | describe _ _ _ ht | move _ _ _ _ ht | recover _ _ ht | forward _ _ _ _ ht
    | accept _ _ _ ht | create _ _ _ ht => exact (swap ht (by simp)).elim

theorem exists_end (h : Links T v) (a : Address) : ∃ e, Ends v.Next a e :=
  Lib.exists_end h.rank (fun _ b _ => (List.idxOf_le_length : T.age b ≤ T.names.length)) a

theorem twins (h : Links T v) (hv : Names T v) : Twins v.Next v.Live where
  single _ _ _ := hv.live_single
  onward := h.onward
  mate a p ha := by
    obtain ⟨q, hp, hq, hpq, hchain⟩ := h.mate a p ha
    exact ⟨q, .port hp, .port hq, hpq, hchain⟩

end Links

/-- All that effects keep. -/
structure Ports.Sound (T : Topology) (v : Ports) : Prop where
  names : Names T v
  rights : Rights v
  pacts : Pacts v
  links : Links T v

namespace Ports.Sound
variable {T : Topology} {v v' : Ports}

theorem effect (h : v.Sound T) (he : Effect T v v') : v'.Sound T where
  names := h.names.effect he
  rights := h.rights.effect h.names he
  pacts := h.pacts.effect h.names he
  links := h.links.effect h.names h.pacts he

theorem effects (h : v.Sound T) (he : ReflTransGen (Effect T) v v') : v'.Sound T := by
  induction he with
  | refl => exact h
  | tail _ he ih => exact ih.effect he

theorem grows (h : v.Sound T) (he : ReflTransGen (Effect T) v v') : v.Grows v' := by
  induction he with
  | refl => exact .of_eq rfl
  | tail hab hbc ih => exact ih.trans (hbc.grows (h.effects hab).names)

/-- Links stay. -/
theorem next_later (h : v.Sound T) (he : ReflTransGen (Effect T) v v') {a b : Address}
    (hab : v.Next a b) : v'.Next a b := by
  induction he with
  | refl => exact hab
  | tail hvw he ih =>
    have hw := h.effects hvw
    exact hw.links.next_later hw.names hw.pacts he ih

/-- The network before anything happened. -/
theorem initial (hp : ∀ a, v.port a = none) (ht : ∀ P, v.tokens P = []) (hs : v.supply = T.names) :
    v.Sound T := by
  have hw : ∀ (φ : Place → Token → Prop) [∀ P, DecidablePred (φ P)],
      AtMostOnce (weigh φ v.tokens) := fun φ _ => .zero fun P => by simp [weigh, ht P]
  have hn : ∀ a b, ¬ v.Next a b := by
    rintro a b (h | ⟨h, -⟩)
    · simp [hp] at h
    · simp [ht] at h
  have hl : ∀ a p, ¬ v.Live a p := by
    rintro a p (h | h)
    · simp [Ports.peer, hp] at h
    · simp [ht] at h
  refine ⟨⟨?_, ?_, hs ▸ List.suffix_rfl, ?_, ?_, ?_, fun k _ => hw _⟩, ⟨fun a _ => hw _, ?_⟩,
    ⟨?_, fun a => hw _, ?_⟩, ⟨?_, ?_, ?_, ?_, ?_, ?_⟩⟩
  · exact fun a ha => absurd (hp a) ha
  · exact fun n m x hn => absurd (hp _) hn
  · exact fun k _ n => hp _
  · intro P tok htok
    simp [ht] at htok
  · intro P tok htok
    simp [ht] at htok
  · intro P tok htok
    simp [ht] at htok
  · intro P x n hx
    simp [ht] at hx
  · intro P tok htok
    simp [ht] at htok
  · intro a p b h
    simp [hp] at h
  · exact fun a b h => absurd h (hn a b)
  · exact fun a p h => absurd h (hl a p)
  · exact fun a b h => absurd h (hn a b)
  · exact fun a b c h => absurd h (hn a c)
  · intro P tok htok
    simp [ht] at htok

end Ports.Sound
end Mage
