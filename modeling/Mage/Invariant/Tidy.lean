import Mage.Invariant.Handshake
import Mage.Ports.View

/-! What threads and tables keep in order among themselves: a message being sent or received is split
    between what is done and what is to come, a batch goes to a linked node, and the pipes queued on a
    message lead to the endpoints its descriptors are about. -/

namespace Mage
open Lib

/-- The handle `h` leads to an endpoint that `d` is about. -/
def Core.Leads (c : Core) (h : MessagePipe) (d : EndpointDescriptor) : Prop :=
  c.findHandle h = some d.endpointName ∨ c.findHandle h = some d.crossNodeEndpointName

/-- The pipes queued on `m` go with its descriptors, one by one. -/
def Core.Piped (c : Core) (m : Message) : Prop := List.Forall₂ c.Leads m.pipes m.endpointsInMessage

def Thread.Tidy (T : Topology) (n : Identifier) (p : Process) : Thread → Prop
  | .populating _ m _ => m.pipes = []
  | .checking _ m _ => m.pipes = []
  | .delivering _ m => m.pipes = []
  | .sending b m done rest => m.endpointsInMessage = done ++ rest ∧ Linked T n b.targetNodeName
  | .unlocking b _ => Linked T n b.targetNodeName
  | .receiving m => m.pipes = []
  | .recovering _ m done rest => m.endpointsInMessage = done ++ rest ∧
      List.Forall₂ (fun h d => p.findHandle h = some d.crossNodeEndpointName) m.pipes done
  | .forwarding _ t _ _ _ => Linked T n t
  | .rekeying r _ _ => ∃ e, p.localEndpoints.find r = some e ∧ e.state = .kUnboundAndProxying
  | .draining r _ => ∃ e, p.localEndpoints.find r = some e ∧ e.state = .kUnboundAndProxying
  | _ => True

structure Core.Tidy (c : Core) : Prop where
  keys : (c.handleTable.map Prod.fst).Nodup
  values : ∀ entry ∈ c.handleTable, c.localEndpoints.find entry.2 ≠ none
  queues : ∀ x, ∀ m ∈ c.queued x, c.Piped m

structure Tidy (T : Topology) (s : Network) : Prop where
  threads : ∀ n τ, ((s.process n).thread τ).Tidy T n (s.process n)
  cores : ∀ n, (s.process n).toCore.Tidy
  wires : ∀ a b m, .userMessage m ∈ s.wire a b → m.pipes = []

/-! ### The handle table -/

namespace Core
variable {c : Core}

theorem mem_placeHandle {h : MessagePipe} {x : Identifier} {entry : MessagePipe × Identifier}
    {table : List (MessagePipe × Identifier)} :
    entry ∈ placeHandle h x table ↔ entry = (h, x) ∨ entry ∈ table := by
  induction table with
  | nil => simp [placeHandle]
  | cons first table ih =>
    rw [placeHandle]
    split_ifs
    · simp
    · rw [List.mem_cons, ih, List.mem_cons]
      tauto

theorem keys_placeHandle {h : MessagePipe} {x : Identifier}
    {table : List (MessagePipe × Identifier)} (ha : h ∉ table.map Prod.fst)
    (hn : (table.map Prod.fst).Nodup) : ((placeHandle h x table).map Prod.fst).Nodup := by
  induction table with
  | nil => simp [placeHandle]
  | cons first table ih =>
    rw [placeHandle]
    split_ifs
    · exact List.nodup_cons.2 ⟨ha, hn⟩
    · rw [List.map_cons, List.nodup_cons] at hn
      rw [List.map_cons, List.mem_cons, not_or] at ha
      rw [List.map_cons, List.nodup_cons]
      refine ⟨fun hmem => ?_, ih ha.2 hn.2⟩
      obtain ⟨entry, hentry, heq⟩ := List.mem_map.1 hmem
      rcases mem_placeHandle.1 hentry with rfl | hentry
      · exact ha.1 heq
      · exact hn.1 (heq ▸ List.mem_map_of_mem hentry)

theorem lookup_eq_none_iff {h : MessagePipe} {table : List (MessagePipe × Identifier)} :
    table.lookup h = none ↔ h ∉ table.map Prod.fst := by
  induction table with
  | nil => simp
  | cons first table ih =>
    obtain ⟨k, y⟩ := first
    rw [lookup_cons_ite]
    by_cases hk : h = k
    · simp [hk]
    · simp [hk, ih]

theorem lookup_of_mem {h : MessagePipe} {x : Identifier}
    {table : List (MessagePipe × Identifier)} (hn : (table.map Prod.fst).Nodup)
    (hm : (h, x) ∈ table) : table.lookup h = some x := by
  induction table with
  | nil => cases hm
  | cons first table ih =>
    obtain ⟨k, y⟩ := first
    rw [List.map_cons, List.nodup_cons] at hn
    rw [lookup_cons_ite]
    rcases List.mem_cons.1 hm with heq | hm
    · cases heq
      simp
    · have hmem : h ∈ table.map Prod.fst := List.mem_map_of_mem (f := Prod.fst) hm
      have hk : h ≠ k := fun hk => hn.1 (hk ▸ hmem)
      rw [if_neg hk, ih hn.2 hm]

theorem mem_of_lookup {h : MessagePipe} {x : Identifier}
    {table : List (MessagePipe × Identifier)} (hl : table.lookup h = some x) : (h, x) ∈ table := by
  induction table with
  | nil => cases hl
  | cons first table ih =>
    obtain ⟨k, y⟩ := first
    rw [lookup_cons_ite] at hl
    split_ifs at hl with hk
    · cases hl
      rw [hk]
      exact List.mem_cons_self
    · exact List.mem_cons_of_mem _ (ih hl)

theorem mem_insertHandle {h : MessagePipe} {x : Identifier} {entry : MessagePipe × Identifier}
    {table : List (MessagePipe × Identifier)} (hm : entry ∈ insertHandle h x table) :
    entry = (h, x) ∨ entry ∈ table := by
  rw [insertHandle] at hm
  cases ha : table.lookup h with
  | none => exact mem_placeHandle.1 (by simpa [ha] using hm)
  | some y => exact .inr (by simpa [ha] using hm)

theorem keys_insertHandle {h : MessagePipe} {x : Identifier}
    {table : List (MessagePipe × Identifier)} (hn : (table.map Prod.fst).Nodup) :
    ((insertHandle h x table).map Prod.fst).Nodup := by
  rw [insertHandle]
  cases ha : table.lookup h with
  | none => exact keys_placeHandle (lookup_eq_none_iff.1 ha) hn
  | some y => exact hn

/-- The handle found for a descriptor leads to the endpoint it names here. -/
theorem Tidy.recoverExisting (h : c.Tidy) {d : EndpointDescriptor} {pipe : MessagePipe}
    (hr : c.recoverExistingMessagePipeFromEndpointDescriptor d = .ok pipe) :
    c.findHandle pipe = some d.endpointName := by
  simp only [recoverExistingMessagePipeFromEndpointDescriptor, bind_eq_ok, orFail_eq_ok,
    pure_eq_ok] at hr
  obtain ⟨⟨k, x⟩, hf, rfl⟩ := hr
  have hx : x = d.endpointName := by simpa using List.find?_some hf
  exact hx ▸ lookup_of_mem h.keys (List.mem_of_find?_eq_some hf)

theorem Tidy.registered (h : c.Tidy) {k : MessagePipe} {x : Identifier}
    (hk : c.findHandle k = some x) : c.localEndpoints.find x ≠ none :=
  h.values _ (mem_of_lookup hk)

theorem Piped.later {c' : Core} {m : Message} (h : c.Piped m)
    (hh : ∀ k x, c.findHandle k = some x → c'.findHandle k = some x) : c'.Piped m :=
  List.Forall₂.imp (fun _ _ hl => hl.imp (hh _ _) (hh _ _)) h

end Core

theorem Core.Tidy.enroll {c : Core} (h : c.Tidy) (x : Identifier) (a : Address) :
    (c.enroll x a).Tidy := by
  refine ⟨keys_insertHandle h.keys, fun entry hentry => ?_, fun y m hm => ?_⟩
  · rw [enroll_localEndpoints, Table.find_set]
    rcases mem_insertHandle hentry with rfl | hold
    · simp
    · split_ifs
      · simp
      · exact h.values _ hold
  · rw [queued_set (enroll_localEndpoints c x a)] at hm
    split_ifs at hm with hy
    · cases hm
    · refine (h.queues y m hm).later fun k z hk => ?_
      rw [findHandle, enroll_handleTable, lookup_insertHandle]
      split_ifs with hkn
      · subst hkn
        rw [findHandle] at hk
        rw [hk]
        rfl
      · exact hk

theorem Thread.Tidy.later {T : Topology} {n : Identifier} {p p' : Process} {th : Thread}
    (h : th.Tidy T n p) (hh : ∀ k x, p.findHandle k = some x → p'.findHandle k = some x)
    (hl : Table.Later p.localEndpoints p'.localEndpoints) : th.Tidy T n p' := by
  cases th with
  | recovering x m done rest => exact ⟨h.1, h.2.imp fun _ _ => hh _ _⟩
  | rekeying | draining =>
    obtain ⟨e, he, hs⟩ := h
    obtain ⟨e', he', hl'⟩ := hl _ _ he
    exact ⟨e', he', (hl'.proxy hs).1⟩
  | _ => exact h

/-- An endpoint is written, and its queue stays in order. -/
theorem Core.Tidy.write {c c' : Core} (h : c.Tidy) {x : Identifier} {e : Endpoint}
    (ht : c'.handleTable = c.handleTable) (he : c'.localEndpoints = c.localEndpoints.set x e)
    (hq : ∀ m ∈ e.incomingMessageQueue, m ∈ c.queued x ∨ c.Piped m) : c'.Tidy := by
  have hfind : ∀ k, c'.findHandle k = c.findHandle k := fun k => by rw [findHandle, ht, findHandle]
  refine ⟨ht ▸ h.keys, fun entry hentry => ?_, fun y m hm => ?_⟩
  · rw [he, Table.find_set]
    split_ifs
    · simp
    · exact h.values _ (ht ▸ hentry)
  · refine Piped.later (c := c) ?_ fun k z hk => hfind k ▸ hk
    rw [queued_set he] at hm
    split_ifs at hm with hy
    · rcases hq m hm with hold | hnew
      · exact h.queues x m hold
      · exact hnew
    · exact h.queues y m hm

/-- Nothing that matters here is written. -/
theorem Core.Tidy.same {c c' : Core} (h : c.Tidy) (ht : c'.handleTable = c.handleTable)
    (he : c'.localEndpoints = c.localEndpoints) : c'.Tidy := by
  have hfind : ∀ k, c'.findHandle k = c.findHandle k := fun k => by rw [findHandle, ht, findHandle]
  refine ⟨ht ▸ h.keys, fun entry hentry => he ▸ h.values _ (ht ▸ hentry), fun y m hm => ?_⟩
  refine (h.queues y m ?_).later fun k z hk => hfind k ▸ hk
  rwa [queued, he] at hm

theorem Endpoint.acceptMessage_queue {e e' : Endpoint} {m : Message}
    (h : e.acceptMessage m = .ok e') :
    ∀ m' ∈ e'.incomingMessageQueue, m' ∈ e.incomingMessageQueue ∨ m' = m := by
  intro m' hm'
  rcases acceptMessage_eq h with ⟨-, -, rfl⟩ | ⟨-, -, rfl⟩
  · simpa using hm'
  · exact .inl hm'

namespace Process.Move
variable {T : Topology} {n : Identifier} {p : Process} {τ : ThreadId} {supply : List Identifier}
  {c : Option Call} {o : Outcome}

theorem core_tidy (h : p.Move τ supply c o) (hp : p.toCore.Tidy)
    (ht : (p.thread τ).Tidy T n p)
    (ha : ∀ x, p.thread τ = .accepted x → p.localEndpoints.find x ≠ none) :
    o.process.toCore.Tidy := by
  cases h with
  | createMessagePipes | invite => exact (hp.enroll _ _).enroll _ _
  | recover => exact hp.enroll _ _
  | bindReceiver | take => exact hp.write rfl rfl (by simp)
  | reserve _ he | forward _ _ he =>
    exact hp.write rfl rfl fun m hm => .inl (by rw [Core.queued_of_find he]; exact hm)
  | drain => exact hp.write rfl rfl (by simp)
  | @deliver x m e e' pipes hth he _ hr hacc =>
    refine hp.write rfl rfl fun m' hm' => ?_
    rcases Endpoint.acceptMessage_queue hacc m' hm' with hold | rfl
    · exact .inl (by rw [Core.queued_of_find he]; exact hold)
    · rw [hth] at ht
      have hpipes : m.pipes = [] := ht
      refine .inr ?_
      simp only [Core.Piped, hpipes, List.nil_append]
      exact hr.imp fun k d hk => .inl (hp.recoverExisting hk)
  | @dispatch x m done e e' hth he hacc =>
    refine hp.write rfl rfl fun m' hm' => ?_
    rcases Endpoint.acceptMessage_queue hacc m' hm' with hold | rfl
    · exact .inl (by rw [Core.queued_of_find he]; exact hold)
    · rw [hth] at ht
      refine .inr ?_
      rw [Core.Piped, ht.1, List.append_nil]
      exact ht.2.imp fun k d hk => .inr hk
  | @accept i t x name rest hth hs =>
    cases hn : p.localEndpoints.find name with
    | none => exact hp.write rfl (Table.insert_of_absent hn _) (by simp [Endpoint.new])
    | some e => exact hp.same rfl (by simp [Table.insert, hn])
  | @accepted x hth hc =>
    refine ⟨Core.keys_insertHandle hp.keys, fun entry hentry => ?_, fun y m hm => ?_⟩
    · rcases Core.mem_insertHandle hentry with rfl | hold
      · exact ha x hth
      · exact hp.values _ hold
    · have hmove : p.Move τ supply _ _ := .accepted hth hc
      exact (hp.queues y m hm).later fun k z hk => hmove.handle hk
  | _ => exact hp.same rfl rfl

theorem thread_tidy (h : p.Move τ supply c o) (ht : (p.thread τ).Tidy T n p)
    (hidle : c.isSome → p.thread τ = .idle)
    (hroute : ∀ x e channel, p.localEndpoints.find x = some e →
      p.nodeChannelMap.find e.peerAddress.nodeName = some channel →
      Linked T n e.peerAddress.nodeName)
    (hproxy : ∀ x e, p.localEndpoints.find x = some e → e.state = .kUnboundAndProxying →
      Linked T n e.proxyTarget.nodeName) : (o.process.thread τ).Tidy T n o.process := by
  have hlater := h.later
  have hhandle := fun k x (hk : p.findHandle k = some x) => h.handle hk
  cases h with
  | createMessagePipes | bindReceiver | acceptInvitation =>
    have hth := hidle rfl
    simp [hth, Thread.Tidy]
  | sendMessage | populated | populate | checkSent | routeLocal =>
    simp_all [Thread.Tidy, Message.retarget]
  | routeRemote hth he _ hc => simpa [Thread.Tidy] using hroute _ _ _ he hc
  | deliverToProxy _ he _ hq => simpa [Thread.Tidy] using hproxy _ _ he hq
  | take hth | write hth | unlock hth | next hth =>
    rw [hth] at ht
    simp_all [Thread.Tidy]
  | receive hth => simp_all [Thread.Tidy]
  | @recover x m d done ds hth hd hf =>
    rw [hth] at ht
    simp only [goto_thread, upd₁_apply, if_true, Thread.Tidy, List.append_assoc]
    refine ⟨by simpa [Message.queuePipe] using ht.1, ?_⟩
    refine List.rel_append (ht.2.imp fun _ _ => hhandle _ _) (.cons ?_ .nil)
    simp only [goto_toCore, enroll_toCore, Core.findHandle, Core.enroll_handleTable,
      Core.lookup_insertHandle, if_true]
    rw [Core.findHandle] at hf
    rw [hf]
    rfl
  | relay _ he hq => simpa [Thread.Tidy] using hproxy _ _ he hq
  | forward hth => simpa [hth, Thread.Tidy] using ht
  | reserve => simp [Thread.Tidy]
  | rekey hth => simpa [hth, Thread.Tidy] using ht
  | drain hth he =>
    rw [hth] at ht
    obtain ⟨e, he', hs⟩ := ht
    rw [he] at he'
    cases he'
    simpa [Thread.Tidy] using hproxy _ _ he hs
  | _ => simp [Thread.Tidy]

theorem written_pipes (h : p.Move τ supply c o) {k : Channel} {m : Message}
    (hw : o.written = some (k, .userMessage m)) : m.pipes = [] := by
  cases h <;> simp_all [Message.buffer]
  all_goals
    obtain ⟨-, rfl⟩ := hw
    rfl

end Process.Move

/-- What the ports and the channel maps say about where messages go. -/
structure Routed (T : Topology) (s : Network) : Prop where
  route : ∀ n x e channel, (s.process n).localEndpoints.find x = some e →
    (s.process n).nodeChannelMap.find e.peerAddress.nodeName = some channel →
    Linked T n e.peerAddress.nodeName ∧ e.peerAddress.nodeName = channel
  proxy : ∀ n x e, (s.process n).localEndpoints.find x = some e →
    e.state = .kUnboundAndProxying → Linked T n e.proxyTarget.nodeName

theorem Handshake.routed {T : Topology} {s : Network} (h : Handshake T s)
    (hs : s.ports.Sound T) : Routed T s where
  route n x e channel he hc := by
    have hpeer : s.ports.peer ⟨n, x⟩ = some e.peerAddress := by
      simp [Ports.peer, Network.port, he, Endpoint.port]
    obtain ⟨q, hq, -⟩ := hs.links.mate _ _ (.port hpeer)
    have hnode := (hs.names.node e.peerAddress fun hnone => by simp [Ports.peer, hnone] at hq).1
    obtain ⟨hk, hl⟩ := (h.entries n _ channel hc).of_node hnode
    exact ⟨hk ▸ hl, hk⟩
  proxy n x e he hq := by
    refine hs.links.linked ⟨n, x⟩ e.peerAddress e.proxyTarget ?_
    simp [Network.port, he, Endpoint.port, Endpoint.status, hq]

namespace Tidy
variable {T : Topology} {s : Network}

theorem initial : Tidy T (.initial T) := by
  refine ⟨fun n τ => trivial, fun n => ⟨List.nodup_nil, ?_, ?_⟩, ?_⟩
  · intro entry hentry
    cases hentry
  · intro x m hm
    cases hm
  · intro a b m hm
    cases hm

theorem act {n : Identifier} {τ : ThreadId} {c : Option Call} {o : Outcome} (h : Tidy T s)
    (hs : s.ports.Sound T) (hr : Routed T s) (ha : Act T s n τ c o) : Tidy T (s.apply n o) := by
  have hcore := ha.move.core_tidy (h.cores n) (h.threads n τ) fun x hth => by
    have hok := hs.names.ok (.hand n τ) (.right x) (by simp [Network.tokens, hth, Thread.tokens])
    obtain ⟨m, hP | ⟨σ, hP⟩, hx⟩ := hok <;> cases hP
    exact Network.port_ne_none.1 hx
  have hthread := ha.move.thread_tidy (h.threads n τ) ha.idle
    (fun x e k he hk => (hr.route n x e k he hk).1) (hr.proxy n)
  refine ⟨fun m σ => ?_, fun m => ?_, fun a b m hm => ?_⟩
  · by_cases hm : m = n
    · subst hm
      simp only [Network.apply_process, upd₁_apply, if_true]
      by_cases hσ : σ = τ
      · subst hσ
        exact hthread
      · rw [ha.move.thread_other hσ]
        exact (h.threads m σ).later (fun k x => ha.move.handle) ha.move.later
    · simpa [hm] using h.threads m σ
  · by_cases hm : m = n
    · subst hm
      simpa using hcore
    · simpa [hm] using h.cores m
  · rcases (Network.mem_apply_wire _ _ _).1 hm with hm | ⟨-, hw⟩
    · exact h.wires a b m hm
    · exact ha.move.written_pipes hw

theorem receipt {n : Identifier} {channel : Channel} {m : ChannelMessage}
    {rest : List ChannelMessage} (h : Tidy T s) (hc : Receipt T s n channel m rest) :
    Tidy T (s.consume n channel m rest) := by
  refine ⟨fun k σ => ?_, fun k => ?_, fun a b m' hm' => ?_⟩
  · by_cases hk : k = n
    · subst hk
      simp only [Network.consume_process, upd₁_apply, if_true, Process.goto_thread]
      by_cases hσ : σ = .io
      · subst hσ
        rw [if_pos rfl]
        cases m with
        | userMessage m => exact h.wires channel k m (by simp [hc.head])
        | _ => trivial
      · rw [if_neg hσ]
        exact (h.threads k σ).later (fun _ _ hx => hx) (.refl _)
    · simpa [hk] using h.threads k σ
  · by_cases hk : k = n
    · subst hk
      simpa using h.cores k
    · simpa [hk] using h.cores k
  · simp only [Network.consume_wire, upd_apply] at hm'
    split_ifs at hm' with hab
    · refine h.wires a b m' ?_
      rw [hab.1, hab.2, hc.head]
      exact List.mem_cons_of_mem _ hm'
    · exact h.wires a b m' hm'

end Tidy
end Mage
