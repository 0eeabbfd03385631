import Mage.Invariant.Handles
import Mage.Model.Execution
import Mage.Model.Faults

/-! Handles and endpoints go together. Every endpoint of a process has one handle and every handle has
    one endpoint; calls and receipts add to both tables alike, and nothing is ever taken out. So the
    descriptor made for a pipe leads back to the handle that was passed. -/

namespace Mage
open Lib

/-! ### Sends -/

/-- The points of `Node::SendMessage`. -/
def Thread.sends : Thread → Bool
  | .populating _ _ _ | .checking _ _ _ | .delivering _ _ => true
  | .sending b _ _ _ => b.caller.settling.isNone
  | .unlocking b _ => b.caller.settling.isNone
  | _ => false

/-- The points of `Node::OnReceivedUserMessage`. -/
def Thread.receives : Thread → Bool
  | .receiving _ | .recovering _ _ _ _ | .forwarding _ _ _ _ _ | .releasing _ => true
  | _ => false

/-- The endpoints that a thread is about to create from descriptors. -/
def Thread.toRecover : Thread → List Identifier
  | .receiving m => m.crossNames
  | .recovering _ _ _ rest => rest.map (·.crossNodeEndpointName)
  | _ => []

/-- A thread that sends has a descriptor for each of the pipes it was given, or the endpoint for which
    it still makes one. -/
def Thread.Carries (c : Core) (pipes : List MessagePipe) : Thread → Prop
  | .populating _ m rest => ∃ made rem, pipes = made ++ rem ∧
      List.Forall₂ (fun h d => c.findHandle h = some d.endpointName) made m.endpointsInMessage ∧
      List.Forall₂ (fun h x => c.findHandle h = some x) rem rest
  | .checking _ m rest =>
      List.Forall₂ (fun h d => c.findHandle h = some d.endpointName) pipes m.endpointsInMessage ∧
      ∀ d ∈ rest, d ∈ m.endpointsInMessage
  | .delivering _ m =>
      List.Forall₂ (fun h d => c.findHandle h = some d.endpointName) pipes m.endpointsInMessage
  | _ => True

theorem Thread.Carries.later {c c' : Core} {pipes : List MessagePipe} {t : Thread}
    (h : t.Carries c pipes) (hh : ∀ k x, c.findHandle k = some x → c'.findHandle k = some x) :
    t.Carries c' pipes := by
  cases t with
  | populating x m rest =>
    obtain ⟨made, rem, heq, h1, h2⟩ := h
    exact ⟨made, rem, heq, h1.imp fun _ _ => hh _ _, h2.imp fun _ _ => hh _ _⟩
  | checking x m rest => exact ⟨h.1.imp fun _ _ => hh _ _, h.2⟩
  | delivering x m => exact List.Forall₂.imp (fun _ _ => hh _ _) h
  | _ => trivial

theorem mapM_eq_some {α β : Type} {f : α → Option β} {xs : List α} {ys : List β}
    (h : xs.mapM f = some ys) : List.Forall₂ (fun x y => f x = some y) xs ys := by
  induction xs generalizing ys with
  | nil =>
    rw [List.mapM_nil] at h
    cases h
    exact .nil
  | cons x xs ih =>
    simp only [List.mapM_cons, Option.bind_eq_bind, Option.bind_eq_some_iff] at h
    obtain ⟨y, hy, zs, hzs, h⟩ := h
    cases h
    exact .cons hy (ih hzs)

namespace Process.Move
variable {p : Process} {τ : ThreadId} {supply : List Identifier} {c : Option Call} {o : Outcome}

/-- A send adds nothing to the tables. -/
theorem sends (h : p.Move τ supply none o) (ht : (p.thread τ).sends) :
    ((o.process.thread τ).sends ∨ o.process.thread τ = .idle) ∧
    o.process.handleTable = p.handleTable ∧
    ∀ x, o.process.localEndpoints.find x ≠ none ↔ p.localEndpoints.find x ≠ none := by
  cases h with
  | take h1 he | deliver h1 he =>
    rw [h1] at ht
    exact ⟨by simp_all [Thread.sends], rfl, registered_set he _⟩
  | populated | populate | checkSent | routeLocal => exact ⟨by simp [Thread.sends], rfl, fun _ => .rfl⟩
  | routeRemote | deliverToProxy =>
    exact ⟨by simp [Thread.sends, Caller.settling], rfl, fun _ => .rfl⟩
  | write h1 | unlock h1 | next h1 =>
    rw [h1] at ht
    exact ⟨by simp_all [Thread.sends], rfl, fun _ => .rfl⟩
  | sent | sentToProxy => exact ⟨by simp, rfl, fun _ => .rfl⟩
  | drained h1 _ hb =>
    rw [h1] at ht
    simp [Thread.sends, hb, Caller.settling] at ht
  | _ => simp_all [Thread.sends]

/-- A receipt adds the endpoints of the descriptors, one after the other. -/
theorem receives (h : p.Move τ supply none o) (ht : (p.thread τ).receives) :
    ((o.process.thread τ).receives ∨ o.process.thread τ = .idle) ∧
    o.process.handleTable.length + (o.process.thread τ).toRecover.length =
      p.handleTable.length + (p.thread τ).toRecover.length ∧
    ∀ x, (o.process.localEndpoints.find x ≠ none ∨ x ∈ (o.process.thread τ).toRecover) ↔
      (p.localEndpoints.find x ≠ none ∨ x ∈ (p.thread τ).toRecover) := by
  cases h with
  | receive h1 =>
    simp [h1, Thread.receives, Thread.toRecover, Message.crossNames]
  | @recover x m d done ds h1 hd hf =>
    refine ⟨by simp [Thread.receives], ?_, fun y => ?_⟩
    · have hlen : (Core.insertHandle p.nextAvailableHandle d.crossNodeEndpointName
          p.handleTable).length = p.handleTable.length + 1 := by
        rw [Core.findHandle] at hf
        rw [Core.insertHandle, hf]
        exact (Core.placeHandle_perm _ _ _).length_eq
      simp only [goto_toCore, enroll_toCore, Core.enroll_handleTable, hlen, goto_thread,
        upd₁_apply, if_true, Thread.toRecover, h1, List.length_map, List.length_cons]
      omega
    · simp only [goto_toCore, enroll_toCore, Core.enroll_localEndpoints, Table.find_set, goto_thread,
        upd₁_apply, if_true, Thread.toRecover, h1, List.map_cons, List.mem_cons]
      split_ifs with hy <;> simp [hy]
  | relay h1 =>
    simp [h1, Thread.receives, Thread.toRecover]
  | @dispatch x m done e e' h1 he =>
    refine ⟨by simp [Thread.receives], by simp [h1, Thread.toRecover], fun y => ?_⟩
    have := registered_set he e' y
    simpa [h1, Thread.toRecover] using this
  | @forward x n name m done ds d rest e h1 _ he =>
    refine ⟨by simp [Thread.receives], by simp [h1, Thread.toRecover], fun y => ?_⟩
    have := registered_set he
      { e with state := .kUnboundAndProxying, proxyTarget := ⟨n, name⟩ } y
    simpa [h1, Thread.toRecover] using this
  | writeForwarded h1 | releaseTarget h1 => simp [h1, Thread.receives, Thread.toRecover]
  | _ => simp_all [Thread.receives]

/-- The descriptors that a send makes are those of the pipes it was given. -/
theorem carries (h : p.Move τ supply none o) (hn : Named p.localEndpoints)
    {pipes : List MessagePipe} (ht : (p.thread τ).Carries p.toCore pipes) :
    (o.process.thread τ).Carries o.process.toCore pipes := by
  cases h with
  | populated h1 =>
    rw [h1] at ht
    obtain ⟨made, rem, rfl, hmade, hrem⟩ := ht
    cases hrem
    simpa [Thread.Carries] using hmade
  | @populate x y name m ys rest e h1 hs he =>
    rw [h1] at ht
    obtain ⟨made, rem, rfl, hmade, hrem⟩ := ht
    cases hrem with
    | @cons k _ rem _ hk hrem =>
      simp only [goto_thread, upd₁_apply, if_true, goto_toCore, Thread.Carries]
      refine ⟨made ++ [k], rem, by simp, List.rel_append hmade (.cons ?_ .nil), hrem⟩
      rw [hk, hn y e he]
  | checkSent h1 =>
    rw [h1] at ht
    simp only [goto_thread, upd₁_apply, if_true, Thread.Carries]
    exact ⟨ht.1, fun d hd => ht.2 d (List.mem_cons_of_mem _ hd)⟩
  | routeLocal h1 =>
    rw [h1] at ht
    simpa [Thread.Carries] using ht.1
  | _ => simp_all [Thread.Carries]

theorem carries_call {h : MessagePipe} {id : ℤ} {body : List UInt8} {pipes : List MessagePipe}
    (hm : p.Move τ supply (some (.sendMessage h id body pipes)) o) :
    (o.process.thread τ).Carries o.process.toCore pipes ∧ (o.process.thread τ).sends ∧
    o.process.toCore = p.toCore := by
  cases hm with
  | sendMessage hx hxs => exact ⟨by simpa [Thread.Carries] using mapM_eq_some hxs, by simp [Thread.sends], rfl⟩

end Process.Move

/-- The handle found for a descriptor is the one handle of its endpoint. -/
theorem Core.Tidy.recoverExisting_iff {c : Core} (ht : c.Tidy) (hone : c.handled.Nodup)
    {d : EndpointDescriptor} {k : MessagePipe} :
    c.recoverExistingMessagePipeFromEndpointDescriptor d = .ok k ↔
      c.findHandle k = some d.endpointName := by
  refine ⟨ht.recoverExisting, fun hk => ?_⟩
  have hmem := Core.mem_of_lookup hk
  obtain ⟨entry, hfind⟩ : ∃ entry, c.handleTable.find? (·.2 = d.endpointName) = some entry := by
    rw [← Option.isSome_iff_exists, List.find?_isSome]
    exact ⟨_, hmem, by simp⟩
  have hentry : entry.2 = d.endpointName := by simpa using List.find?_some hfind
  have heq : entry = (k, d.endpointName) :=
    List.inj_on_of_nodup_map hone (List.mem_of_find?_eq_some hfind) hmem hentry
  simp [recoverExistingMessagePipeFromEndpointDescriptor, hfind, heq]

section
variable {T : Topology} {s s' : Network} {n : Identifier} {τ : ThreadId}

/-- As long as a thread begins no other call, it carries the pipes of the last. -/
theorem Network.Runs.carries {pipes : List MessagePipe}
    (h : s.Runs T (fun l => ∀ c, l ≠ .call n τ c) s') (hr : Reachable T s)
    (hc : ((s.process n).thread τ).Carries (s.process n).toCore pipes) :
    Reachable T s' ∧ ((s'.process n).thread τ).Carries (s'.process n).toCore pipes := by
  refine h.induct hr (P := fun u => ((u.process n).thread τ).Carries (u.process n).toCore pipes) hc
    ?_ ?_
  · intro u m σ c o hu hP ha hok
    by_cases hm : m = n
    · subst hm
      rw [Network.apply_process, upd₁_apply, if_pos rfl]
      by_cases hσ : σ = τ
      · subst hσ
        cases c with
        | some c => exact absurd rfl (hok c)
        | none => exact ha.move.carries (hu.named m) hP
      · rw [ha.move.thread_other (Ne.symm hσ)]
        exact hP.later fun k x => ha.move.handle
    · rw [Network.apply_process, upd₁_apply, if_neg (Ne.symm hm)]
      exact hP
  · intro u m ch msg rest hu hP hc _
    rcases Receipt.thread_consume u m ch msg rest n τ with ⟨rfl, rfl, hth⟩ | hth
    · rw [hth]
      cases msg <;> trivial
    · rw [hth, (Handshake.core_consume n).1]
      exact hP

theorem Reachable.carries (h : Reachable T s) (n : Identifier) (τ : ThreadId) :
    ∃ pipes, ((s.process n).thread τ).Carries (s.process n).toCore pipes := by
  refine h.induct (P := fun s => ∃ pipes, ((s.process n).thread τ).Carries (s.process n).toCore pipes)
    ⟨[], trivial⟩ ?_ ?_
  · rintro u m σ c o hu ⟨pipes, hP⟩ ha
    by_cases hm : m = n
    · subst hm
      rw [Network.apply_process, upd₁_apply, if_pos rfl]
      by_cases hσ : σ = τ
      · subst hσ
        cases c with
        | none => exact ⟨pipes, ha.move.carries (hu.named m) hP⟩
        | some c =>
          have hmove := ha.move
          have hidle := ha.idle rfl
          cases c with
          | sendMessage h id body pipes => exact ⟨pipes, hmove.carries_call.1⟩
          | _ =>
            refine ⟨[], ?_⟩
            cases hmove
            simp [Thread.Carries, hidle]
      · rw [ha.move.thread_other (Ne.symm hσ)]
        exact ⟨pipes, hP.later fun k x => ha.move.handle⟩
    · rw [Network.apply_process, upd₁_apply, if_neg (Ne.symm hm)]
      exact ⟨pipes, hP⟩
  · rintro u m ch msg rest hu ⟨pipes, hP⟩ hc
    rcases Receipt.thread_consume u m ch msg rest n τ with ⟨rfl, rfl, hth⟩ | hth
    · rw [hth]
      exact ⟨[], by cases msg <;> trivial⟩
    · rw [hth, (Handshake.core_consume n).1]
      exact ⟨pipes, hP⟩

/-- The two tables of node `n` in state `s`, what later steps do to them, and what is found in them. -/
structure HandlesExact (T : Topology) (s : Network) (n : Identifier) : Prop where
  handles : ((s.process n).handleTable.map Prod.fst).Nodup ∧
    ∀ entry ∈ (s.process n).handleTable, entry.1 ≠ 0
  endpoints : (s.process n).handled.Nodup ∧ ∀ x, (s.process n).localEndpoints.find x ≠ none ↔
    x ∈ (s.process n).handled ∨ (s.process n).Unhandled x
  named : Named (s.process n).localEndpoints
  kept : ∀ l s', Permitted T s l → s.step l = .ok s' →
    (∀ entry ∈ (s.process n).handleTable, entry ∈ (s'.process n).handleTable) ∧
    Table.Later (s.process n).localEndpoints (s'.process n).localEndpoints
  call : ∀ τ h id body pipes s', s.step (.call n τ (.sendMessage h id body pipes)) = .ok s' →
    ((s'.process n).thread τ).sends ∧ (s'.process n).toCore = (s.process n).toCore
  send : ∀ τ s', ((s.process n).thread τ).sends → s.Runs T (Label.only n τ) s' →
    (s'.process n).handleTable = (s.process n).handleTable ∧
    ∀ x, (s'.process n).localEndpoints.find x ≠ none ↔ (s.process n).localEndpoints.find x ≠ none
  receipt : ∀ m s', (s.process n).thread .io = .receiving m → s.Runs T (Label.only n .io) s' →
    (s'.process n).thread .io = .idle →
    (s'.process n).handleTable.length =
      (s.process n).handleTable.length + m.endpointsInMessage.length ∧
    m.crossNames.Nodup ∧ (∀ x ∈ m.crossNames, (s.process n).localEndpoints.find x = none) ∧
    ∀ x, (s'.process n).localEndpoints.find x ≠ none ↔
      (s.process n).localEndpoints.find x ≠ none ∨ x ∈ m.crossNames
  existing : ∀ d h, (s.process n).recoverExistingMessagePipeFromEndpointDescriptor d = .ok h ↔
    (s.process n).findHandle h = some d.endpointName
  passed : ∀ τ h id body pipes s₁ s₂ x m,
    Permitted T s (.call n τ (.sendMessage h id body pipes)) →
    s.step (.call n τ (.sendMessage h id body pipes)) = .ok s₁ →
    s₁.Runs T (fun l => ∀ c, l ≠ .call n τ c) s₂ → (s₂.process n).thread τ = .delivering x m →
    (s₂.process n).Roomy → ∀ found, List.Forall₂ (fun h d =>
      (s₂.process n).recoverExistingMessagePipeFromEndpointDescriptor d = .ok h)
      found m.endpointsInMessage ↔ found = pipes
  reached : ∀ τ, s.step (.run n τ) ≠ .error (.check .existingEndpointNotReached) ∧
    s.step (.run n τ) ≠ .error (.check .sentEndpointNotFound)

theorem Process.Move.kept {p : Process} {supply : List Identifier} {c : Option Call} {o : Outcome}
    (h : p.Move τ supply c o) (hp : p.toCore.Tidy) :
    ∀ entry ∈ p.handleTable, entry ∈ o.process.handleTable := fun _ hentry =>
  Core.mem_of_lookup (h.handle (Core.lookup_of_mem hp.keys hentry))

theorem Reachable.kept (h : Reachable T s) {l : Label} (hl : Permitted T s l)
    (hs : s.step l = .ok s') (n : Identifier) :
    (∀ entry ∈ (s.process n).handleTable, entry ∈ (s'.process n).handleTable) ∧
    Table.Later (s.process n).localEndpoints (s'.process n).localEndpoints := by
  rcases Network.advance hl hs with ⟨m, τ, c, o, rfl, ha, rfl⟩ | ⟨m, ch, msg, rest, rfl, hc, rfl⟩
  · by_cases hm : n = m
    · subst hm
      simp only [Network.apply_process, upd₁_apply, if_true]
      exact ⟨ha.move.kept (h.sound.tidy.cores n), ha.move.later⟩
    · rw [Network.apply_process, upd₁_apply, if_neg hm]
      exact ⟨fun _ he => he, .refl _⟩
  · rw [(Handshake.core_consume n).1]
    exact ⟨fun _ he => he, .refl _⟩

theorem Reachable.send_adds_nothing (h : Reachable T s) (ht : ((s.process n).thread τ).sends)
    (hs : s.Runs T (Label.only n τ) s') :
    (s'.process n).handleTable = (s.process n).handleTable ∧
    ∀ x, (s'.process n).localEndpoints.find x ≠ none ↔
      (s.process n).localEndpoints.find x ≠ none := by
  refine (hs.only h (P := fun p => ((p.thread τ).sends ∨ p.thread τ = .idle) ∧
    p.handleTable = (s.process n).handleTable ∧
    ∀ x, p.localEndpoints.find x ≠ none ↔ (s.process n).localEndpoints.find x ≠ none)
    ⟨.inl ht, rfl, fun _ => .rfl⟩ fun u o _ hP hm => ?_).2.2
  obtain ⟨hth, htable, hends⟩ := hP
  rcases hth with hth | hth
  · obtain ⟨h1, h2, h3⟩ := hm.sends hth
    exact ⟨h1, h2.trans htable, fun x => (h3 x).trans (hends x)⟩
  · exact absurd hth hm.not_idle

theorem Reachable.receipt_adds (h : Reachable T s) {m : Message}
    (ht : (s.process n).thread .io = .receiving m) (hs : s.Runs T (Label.only n .io) s')
    (hdone : ((s'.process n).thread .io).toRecover = []) :
    (s'.process n).handleTable.length =
      (s.process n).handleTable.length + m.endpointsInMessage.length ∧
    m.crossNames.Nodup ∧ (∀ x ∈ m.crossNames, (s.process n).localEndpoints.find x = none) ∧
    ∀ x, (s'.process n).localEndpoints.find x ≠ none ↔
      (s.process n).localEndpoints.find x ≠ none ∨ x ∈ m.crossNames := by
  obtain ⟨-, -, hlen, hends⟩ := hs.only h (P := fun p =>
    ((p.thread .io).receives ∨ p.thread .io = .idle) ∧
    p.handleTable.length + (p.thread .io).toRecover.length =
      (s.process n).handleTable.length + m.crossNames.length ∧
    ∀ x, (p.localEndpoints.find x ≠ none ∨ x ∈ (p.thread .io).toRecover) ↔
      ((s.process n).localEndpoints.find x ≠ none ∨ x ∈ m.crossNames))
    (by simp [ht, Thread.receives, Thread.toRecover]) fun u o _ hP hm => by
      obtain ⟨hth, hlen, hends⟩ := hP
      rcases hth with hth | hth
      · obtain ⟨h1, h2, h3⟩ := hm.receives hth
        exact ⟨h1, h2.trans hlen, fun x => (h3 x).trans (hends x)⟩
      · exact absurd hth hm.not_idle
  have htoken : ∀ x ∈ m.crossNames, ∃ d ∈ m.endpointsInMessage, d.crossNodeEndpointName = x ∧
      Token.crossing n d ∈ s.ports.tokens (.hand n .io) := by
    intro x hx
    obtain ⟨d, hd, rfl⟩ := List.mem_map.1 hx
    exact ⟨d, hd, rfl, by simpa [Network.tokens, ht, Thread.tokens] using hd⟩
  have hnames := h.sound.ports.names
  have hunregistered : ∀ x ∈ m.crossNames, s.ports.Unregistered x := by
    intro x hx
    obtain ⟨d, -, rfl, htok⟩ := htoken x hx
    obtain ⟨k, -, -, hu, -⟩ := hnames.ok _ _ htok
    exact hu
  refine ⟨?_, ?_, fun x hx => ?_, fun x => ?_⟩
  · simpa [hdone, Message.crossNames] using hlen
  · rw [List.nodup_iff_count_le_one]
    intro x
    by_cases hx : x ∈ m.crossNames
    · have hone := (hnames.once x (hunregistered x hx)).le_one (.hand n .io)
      refine le_trans (le_of_eq ?_) hone
      rw [Message.crossNames, List.count_eq_countP, List.countP_map, weigh]
      simp only [Network.ports_tokens, Network.tokens, ht, Thread.tokens, List.countP_map]
      exact List.countP_congr fun d _ => by simp [Token.cross]
    · rw [List.count_eq_zero.2 hx]
      exact Nat.zero_le _
  · by_contra hne
    exact Network.port_ne_none.2 hne (hunregistered x hx n)
  · simpa [hdone] using hends x

/-- The checks that a pipe of a message is known only fail if a pipe is unknown. -/
theorem Process.Fault.pipe {p : Process} {supply : List Identifier} {k : Check}
    (h : p.Fault τ supply none k) :
    (k = .existingEndpointNotReached → ∃ x m d, p.thread τ = .delivering x m ∧
      d ∈ m.endpointsInMessage ∧ ∀ h, (h, d.endpointName) ∉ p.handleTable) ∧
    (k = .sentEndpointNotFound → ∃ x m d ds, p.thread τ = .checking x m (d :: ds) ∧
      p.localEndpoints.find d.endpointName = none) := by
  cases h with
  | deliverPipe ht _ hd hf => exact ⟨fun _ => ⟨_, _, _, ht, hd, hf⟩, by rintro ⟨⟩⟩
  | sentMissing ht hf => exact ⟨by rintro ⟨⟩, fun _ => ⟨_, _, _, _, ht, hf⟩⟩
  | deliver _ _ _ hacc | dispatch _ _ _ hacc =>
    rcases Endpoint.acceptMessage_fault hacc with h | h | h | h
    all_goals
      simp only [Stop.check.injEq] at h
      simp [h]
  | invite _ _ _ hk => rcases hk with rfl | rfl <;> exact ⟨by rintro ⟨⟩, by rintro ⟨⟩⟩
  | _ => exact ⟨by rintro ⟨⟩, by rintro ⟨⟩⟩

theorem Reachable.pipes_reached (h : Reachable T s) (n : Identifier) (τ : ThreadId) :
    s.step (.run n τ) ≠ .error (.check .existingEndpointNotReached) ∧
    s.step (.run n τ) ≠ .error (.check .sentEndpointNotFound) := by
  obtain ⟨pipes, hc⟩ := h.carries n τ
  refine ⟨fun hf => ?_, fun hf => ?_⟩
  · rcases Network.step_fault hf with ⟨_, _, _, hl, -⟩ | ⟨_, _, hl, hfault⟩
    · cases hl
    cases hl
    obtain ⟨x, m, d, ht, hd, hnone⟩ := hfault.pipe.1 rfl
    rw [ht] at hc
    have hc : List.Forall₂ _ _ _ := hc
    obtain ⟨k, -, hk⟩ := Forall₂.mem_right hc hd
    exact hnone k (Core.mem_of_lookup hk)
  · rcases Network.step_fault hf with ⟨_, _, _, hl, -⟩ | ⟨_, _, hl, hfault⟩
    · cases hl
    cases hl
    obtain ⟨x, m, d, ds, ht, hnone⟩ := hfault.pipe.2 rfl
    rw [ht] at hc
    obtain ⟨k, -, hk⟩ := Forall₂.mem_right hc.1 (hc.2 d List.mem_cons_self)
    exact (h.sound.tidy.cores n).values _ (Core.mem_of_lookup hk) hnone

/-- The call of a send changes no table. -/
theorem Network.sendMessage_called {k : MessagePipe} {id : ℤ} {body : List UInt8}
    {pipes : List MessagePipe} (hs : s.step (.call n τ (.sendMessage k id body pipes)) = .ok s') :
    ((s'.process n).thread τ).Carries (s'.process n).toCore pipes ∧
    ((s'.process n).thread τ).sends ∧ (s'.process n).toCore = (s.process n).toCore := by
  rcases step_cases hs with ⟨_, _, _, o, hl, -, hm, rfl⟩ | ⟨_, _, _, _, hl, -⟩ | ⟨_, _, _, hl, -⟩
  · cases hl
    simpa using hm.carries_call
  · cases hl
  · cases hl

/-- The pipes recovered for the descriptors are the ones the message was sent with. -/
theorem Core.Handles.recoverExisting_pipes {c : Core} {U : Identifier → Prop} (h : c.Handles U)
    (ht : c.Tidy) {pipes : List MessagePipe} {ds : List EndpointDescriptor}
    (hc : List.Forall₂ (fun h d => c.findHandle h = some d.endpointName) pipes ds)
    (found : List MessagePipe) :
    List.Forall₂ (fun h d => c.recoverExistingMessagePipeFromEndpointDescriptor d = .ok h)
      found ds ↔ found = pipes := by
  constructor
  · intro hf
    induction hc generalizing found with
    | nil =>
      cases hf
      rfl
    | cons hk _ ih =>
      cases hf with
      | cons hk' hf =>
        rw [ih _ hf]
        have := (ht.recoverExisting_iff h.once).2 hk
        rw [this] at hk'
        cases hk'
        rfl
  · rintro rfl
    exact hc.imp fun k d hk => (ht.recoverExisting_iff h.once).2 hk

/-- The handle table and the endpoint table match, in every reachable state and whatever follows. -/
theorem handles_match_endpoints (h : Reachable T s) (n : Identifier)
    (hfew : (s.process n).handleTable.length < 2 ^ 32 - 1) : HandlesExact T s n where
  handles := ⟨(h.sound.tidy.cores n).keys, fun _ he => ((h.handles n hfew).allocated _ he).1⟩
  endpoints := ⟨(h.handles n hfew).once, (h.handles n hfew).registered⟩
  named := h.named n
  kept := fun _ _ hl hs => h.kept hl hs n
  call := fun _ _ _ _ _ _ hs => (Network.sendMessage_called hs).2
  send := fun _ _ ht hs => h.send_adds_nothing ht hs
  receipt := fun _ _ ht hs hi => h.receipt_adds ht hs (by rw [hi]; rfl)
  existing := fun _ _ => (h.sound.tidy.cores n).recoverExisting_iff (h.handles n hfew).once
  passed := by
    intro τ k id body pipes s₁ s₂ x m hl hs hr ht hroom found
    have h₁ : Reachable T s₁ := .step h ⟨hl, trivial⟩ hs
    obtain ⟨h₂, hc⟩ := hr.carries h₁ (Network.sendMessage_called hs).1
    rw [ht] at hc
    exact (h₂.handles n hroom).recoverExisting_pipes (h₂.sound.tidy.cores n) hc found
  reached := fun τ => h.pipes_reached n τ

end

/-- The message that a thread has just read. -/
def Thread.justRead : Thread → Option Message
  | .receiving m => some m
  | _ => none

theorem Thread.eq_of_justRead {th : Thread} {m : Message} (h : th.justRead = some m) :
    th = .receiving m := by
  unfold justRead at h
  split at h
  · cases h
    rfl
  · cases h

/-- The acceptor receives one end of a pipe: it has one handle more than before, and the inviter still
    has its four. -/
theorem carried_handles_match : ∃ s s' m, HandlesExact Sample.pair s Sample.inviter ∧
    (s.process Sample.inviter).handleTable.length = 4 ∧
    HandlesExact Sample.pair s Sample.acceptor ∧
    (s.process Sample.acceptor).thread .io = .receiving m ∧ m.endpointsInMessage.length = 1 ∧
    s.Runs Sample.pair (Label.only Sample.acceptor .io) s' ∧
    (s'.process Sample.acceptor).thread .io = .idle ∧
    (s'.process Sample.acceptor).handleTable.length =
      (s.process Sample.acceptor).handleTable.length + 1 := by
  obtain ⟨s, hs, hlen, hfew, ⟨m, hread, hone⟩, hrest⟩ := Network.exists_of_follow Sample.pair
    (fun _ _ => True) (Sample.bound ++ [.read Sample.acceptor Sample.inviter])
    (fun s => (s.process Sample.inviter).handleTable.length = 4 ∧
      (s.process Sample.acceptor).handleTable.length < 3 ∧
      (∃ m ∈ ((s.process Sample.acceptor).thread .io).justRead, m.endpointsInMessage.length = 1) ∧
      (Reaches.follow Network.step (fun s l => Permitted Sample.pair s l ∧
        l = .run Sample.acceptor .io) s (List.replicate 4 (.run Sample.acceptor .io))).any fun s' =>
          ((s'.process Sample.acceptor).thread .io).isIdle) (by decide +kernel)
  obtain ⟨s', hfollow, hidle⟩ := (Option.any_eq_true _ _).1 hrest
  have hruns : s.Runs Sample.pair (Label.only Sample.acceptor .io) s' := by
    refine Reaches.mono (fun s l hl => ⟨hl.1, ?_⟩) (Reaches.of_follow .init hfollow)
    rw [hl.2]
    exact fun _ => rfl
  have hacceptor := handles_match_endpoints hs Sample.acceptor (by omega)
  have hm := Thread.eq_of_justRead hread
  have hidle := Thread.isIdle_iff.1 hidle
  have hgrown := (hacceptor.receipt m s' hm hruns hidle).1
  rw [hone] at hgrown
  exact ⟨s, s', m, handles_match_endpoints hs _ (by omega), hlen, hacceptor, hm, hone, hruns, hidle,
    hgrown⟩

end Mage
