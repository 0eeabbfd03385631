import Mage.Lib.Traversal
import Mage.Invariant.Reachable
import Mage.Model.Execution
import Mage.Ports.View
import Mathlib.Data.Set.Finite.Lattice

/-! `SendMessagesAndRecursiveDependents`, from its first line to its last, with no other thread in
    between. The loop is the breadth-first traversal of a forest: the messages it was given are the
    roots, and the children of a message are those queued on the endpoints that it carries. -/

namespace Mage
open Lib

/-! ### The messages to flush -/

/-- Where a message was before it was flushed: among those given, or in the queue of an endpoint. -/
inductive Origin where
  | given (i : ℕ)
  | queued (x : Identifier) (i : ℕ)
  deriving DecidableEq

/-- A message as it is written, and where it was. -/
structure Item where
  origin : Origin
  message : Message
  deriving DecidableEq

def Item.given (ms : List Message) : List Item := ms.mapIdx fun i m => ⟨.given i, m⟩

namespace Core

/-- The messages queued on the endpoint that `d` names, sent on to where `d` creates it. -/
def drained (c : Core) (d : EndpointDescriptor) : List Item :=
  (c.queued d.endpointName).mapIdx fun i m =>
    ⟨.queued d.endpointName i, m.retarget d.crossNodeEndpointName⟩

def dependents (c : Core) (i : Item) : List Item := i.message.endpointsInMessage.flatMap c.drained

/-- A message that is given, or queued on an endpoint that such a message carries, and so on. -/
abbrev Flushable (c : Core) (ms : List Message) : Item → Prop := Below c.dependents (Item.given ms)

/-- Every endpoint that is carried along is queueing, and one descriptor carries it. -/
structure Movable (c : Core) (ms : List Message) : Prop where
  queueing : ∀ i, c.Flushable ms i → ∀ d ∈ i.message.endpointsInMessage,
    ∃ e, c.localEndpoints.find d.endpointName = some e ∧ e.state = .kUnboundAndQueueing
  once : ∀ i j, c.Flushable ms i → c.Flushable ms j → ∀ (a b : ℕ) (d d' : EndpointDescriptor),
    i.message.endpointsInMessage[a]? = some d → j.message.endpointsInMessage[b]? = some d' →
    d.endpointName = d'.endpointName → i.origin = j.origin ∧ a = b

end Core

theorem nodup_mapIdx {α β : Type} {f : ℕ → α → β} (hf : ∀ i j a b, f i a = f j b → i = j)
    (l : List α) : (l.mapIdx f).Nodup := by
  rw [List.nodup_iff_getElem?_ne_getElem?]
  intro i j hij hj heq
  rw [List.length_mapIdx] at hj
  rw [List.getElem?_mapIdx, List.getElem?_mapIdx, List.getElem?_eq_getElem hj,
    List.getElem?_eq_getElem (hij.trans hj)] at heq
  exact absurd (hf i j _ _ (Option.some.inj heq)) hij.ne

theorem Item.mem_given {ms : List Message} {i : Item} :
    i ∈ Item.given ms ↔ ∃ k m, ms[k]? = some m ∧ i = ⟨.given k, m⟩ := by
  simp only [given, List.mem_mapIdx]
  constructor
  · rintro ⟨k, hk, rfl⟩
    exact ⟨k, ms[k], by simp, rfl⟩
  · rintro ⟨k, m, hm, rfl⟩
    obtain ⟨hk, rfl⟩ := List.getElem?_eq_some_iff.1 hm
    exact ⟨k, hk, rfl⟩

theorem Item.given_messages (ms : List Message) : (Item.given ms).map (·.message) = ms := by
  refine List.ext_getElem? fun k => ?_
  simp [given, Option.map_map, Function.comp_def]

namespace Core
variable {c : Core} {ms : List Message}

theorem mem_drained {d : EndpointDescriptor} {i : Item} : i ∈ c.drained d ↔
    ∃ k m, (c.queued d.endpointName)[k]? = some m ∧
      i = ⟨.queued d.endpointName k, m.retarget d.crossNodeEndpointName⟩ := by
  simp only [drained, List.mem_mapIdx]
  constructor
  · rintro ⟨k, hk, rfl⟩
    exact ⟨k, (c.queued d.endpointName)[k], by simp, rfl⟩
  · rintro ⟨k, m, hm, rfl⟩
    obtain ⟨hk, rfl⟩ := List.getElem?_eq_some_iff.1 hm
    exact ⟨k, hk, rfl⟩

theorem drained_messages (d : EndpointDescriptor) : (c.drained d).map (·.message) =
    (c.queued d.endpointName).map (·.retarget d.crossNodeEndpointName) := by
  refine List.ext_getElem? fun k => ?_
  simp [drained, Option.map_map, Function.comp_def]

theorem mem_dependents {i j : Item} : j ∈ c.dependents i ↔
    ∃ (a : ℕ) (d : EndpointDescriptor), i.message.endpointsInMessage[a]? = some d ∧
      j ∈ c.drained d := by
  rw [dependents, List.mem_flatMap]
  constructor
  · rintro ⟨d, hd, hj⟩
    obtain ⟨a, ha⟩ := List.getElem?_of_mem hd
    exact ⟨a, d, ha, hj⟩
  · rintro ⟨a, d, ha, hj⟩
    exact ⟨d, List.mem_of_getElem? ha, hj⟩

namespace Movable
variable (h : c.Movable ms)
include h

/-- Two messages to flush that were in one place are one. -/
theorem origin_inj {i j : Item} (hi : c.Flushable ms i) (hj : c.Flushable ms j)
    (ho : i.origin = j.origin) : i = j := by
  induction hi generalizing j with
  | @root i hi =>
    obtain ⟨k, m, hm, rfl⟩ := Item.mem_given.1 hi
    cases hj with
    | root hj =>
      obtain ⟨k', m', hm', rfl⟩ := Item.mem_given.1 hj
      cases ho
      rw [hm] at hm'
      cases hm'
      rfl
    | child _ hj =>
      obtain ⟨a, d, -, hj⟩ := mem_dependents.1 hj
      obtain ⟨k', m', -, rfl⟩ := mem_drained.1 hj
      cases ho
  | @child i' i hi' hi ih =>
    obtain ⟨a, d, ha, hi⟩ := mem_dependents.1 hi
    obtain ⟨k, m, hm, rfl⟩ := mem_drained.1 hi
    cases hj with
    | root hj =>
      obtain ⟨k', m', hm', rfl⟩ := Item.mem_given.1 hj
      cases ho
    | @child j' _ hj' hj =>
      obtain ⟨b, d', hb, hj⟩ := mem_dependents.1 hj
      obtain ⟨k', m', hm', rfl⟩ := mem_drained.1 hj
      simp only [Origin.queued.injEq] at ho
      obtain ⟨hname, rfl⟩ := ho
      -- the parents are one message, so the descriptors are one
      obtain ⟨horigin, rfl⟩ := h.once i' j' hi' hj' a b d d' ha hb hname
      obtain rfl := ih hj' horigin
      rw [ha] at hb
      cases hb
      rw [hm] at hm'
      cases hm'
      rfl

theorem names_nodup {i : Item} (hi : c.Flushable ms i) :
    (i.message.endpointsInMessage.map (·.endpointName)).Nodup := by
  rw [List.nodup_iff_getElem?_ne_getElem?]
  intro a b hab hb heq
  rw [List.length_map] at hb
  rw [List.getElem?_map, List.getElem?_map, List.getElem?_eq_getElem hb,
    List.getElem?_eq_getElem (hab.trans hb)] at heq
  simp only [Option.map_some, Option.some.injEq] at heq
  exact absurd (h.once i i hi hi a b _ _ (List.getElem?_eq_getElem _) (List.getElem?_eq_getElem _)
    heq).2 hab.ne

theorem finite : {i | c.Flushable ms i}.Finite := by
  refine Set.Finite.of_finite_image (f := (·.origin)) ?_ fun i hi j hj => h.origin_inj hi hj
  refine Set.Finite.subset (s := Set.range (fun k : Fin ms.length => Origin.given k) ∪
    ⋃ x ∈ {x | c.localEndpoints.find x ≠ none},
      Set.range fun k : Fin (c.queued x).length => Origin.queued x k) ?_ ?_
  · exact (Set.finite_range _).union (c.localEndpoints.finite.biUnion fun x _ => Set.finite_range _)
  · rintro _ ⟨i, hi, rfl⟩
    cases hi with
    | root hi =>
      obtain ⟨k, m, hm, rfl⟩ := Item.mem_given.1 hi
      obtain ⟨hk, -⟩ := List.getElem?_eq_some_iff.1 hm
      exact .inl ⟨⟨k, hk⟩, rfl⟩
    | child hp hi =>
      obtain ⟨a, d, ha, hi⟩ := mem_dependents.1 hi
      obtain ⟨k, m, hm, rfl⟩ := mem_drained.1 hi
      obtain ⟨hk, -⟩ := List.getElem?_eq_some_iff.1 hm
      obtain ⟨e, he, -⟩ := h.queueing _ hp d (List.mem_of_getElem? ha)
      exact .inr (Set.mem_biUnion (x := d.endpointName) (by simp [he]) ⟨⟨k, hk⟩, rfl⟩)

/-- Two descriptors of messages to flush that name one endpoint are one. -/
theorem descriptor_eq {i j : Item} (hi : c.Flushable ms i) (hj : c.Flushable ms j)
    {d d' : EndpointDescriptor} (hd : d ∈ i.message.endpointsInMessage)
    (hd' : d' ∈ j.message.endpointsInMessage) (heq : d.endpointName = d'.endpointName) : d = d' := by
  obtain ⟨a, ha⟩ := List.getElem?_of_mem hd
  obtain ⟨b, hb⟩ := List.getElem?_of_mem hd'
  obtain ⟨horigin, rfl⟩ := h.once i j hi hj a b d d' ha hb heq
  obtain rfl := h.origin_inj hi hj horigin
  rw [ha] at hb
  exact Option.some.inj hb

theorem forest : Forest c.dependents (Item.given ms) where
  roots_nodup := nodup_mapIdx (by simp) ms
  children_nodup := by
    intro i hi
    refine List.nodup_flatMap.2 ⟨fun d _ => nodup_mapIdx (by simp +contextual) _, ?_⟩
    have hnames := h.names_nodup hi
    rw [List.Nodup, List.pairwise_map] at hnames
    refine hnames.imp fun {d d'} hne j hj hj' => ?_
    obtain ⟨k, m, hm, rfl⟩ := mem_drained.1 hj
    obtain ⟨k', m', hm', heq⟩ := mem_drained.1 hj'
    simp only [Item.mk.injEq, Origin.queued.injEq] at heq
    exact hne heq.1.1
  orphan := by
    intro i _ j hj hroot
    obtain ⟨a, d, ha, hj⟩ := mem_dependents.1 hj
    obtain ⟨k, m, hm, rfl⟩ := mem_drained.1 hj
    obtain ⟨k', m', hm', heq⟩ := Item.mem_given.1 hroot
    cases heq
  parent := by
    intro i j hi hj k hki hkj
    obtain ⟨a, d, ha, hki⟩ := mem_dependents.1 hki
    obtain ⟨k, m, hm, rfl⟩ := mem_drained.1 hki
    obtain ⟨b, d', hb, hkj⟩ := mem_dependents.1 hkj
    obtain ⟨k', m', hm', heq⟩ := mem_drained.1 hkj
    simp only [Item.mk.injEq, Origin.queued.injEq] at heq
    exact h.origin_inj hi hj (h.once i j hi hj a b d d' ha hb heq.1.1).1
  finite := h.finite

end Movable
end Core

/-! ### Endpoints and their delegates -/

/-- An endpoint has a delegate and its task runner exactly if it is bound. -/
structure Endpoint.Settled (e : Endpoint) : Prop where
  delegate : e.delegate.isSome = true ↔ e.state = .kBound
  runner : e.delegateTaskRunner.isSome = true ↔ e.state = .kBound

namespace Endpoint
variable {e : Endpoint} {m : Message}

theorem settled_new (x : Identifier) (a : Address) : (Endpoint.new x a).Settled := by
  constructor <;> simp [Endpoint.new]

theorem Settled.accept (h : e.Settled) {e' : Endpoint} (ha : e.acceptMessage m = .ok e') :
    e'.Settled := by
  rcases acceptMessage_eq ha with ⟨-, -, rfl⟩ | ⟨-, -, rfl⟩ <;> exact ⟨h.delegate, h.runner⟩

theorem Settled.undelegated (h : e.Settled) (hb : e.state ≠ .kBound) : e.delegate = none := by
  by_contra hd
  exact hb (h.delegate.1 (Option.isSome_iff_ne_none.2 hd))

end Endpoint

def Core.Settled (c : Core) : Prop := ∀ x e, c.localEndpoints.find x = some e → e.Settled

theorem Core.Settled.set {c c' : Core} {x : Identifier} {e : Endpoint} (h : c.Settled)
    (hset : c'.localEndpoints = c.localEndpoints.set x e) (he : e.Settled) : c'.Settled := by
  intro y f hf
  rw [hset, Table.find_set] at hf
  split_ifs at hf with hy
  · cases hf
    exact he
  · exact h y f hf

theorem Process.Move.settled {p : Process} {τ : ThreadId} {supply : List Identifier}
    {c : Option Call} {o : Outcome} (h : p.Move τ supply c o) (hp : p.toCore.Settled) :
    o.process.toCore.Settled := by
  have moved : ∀ {e : Endpoint} {a : Address} {q : List Message}, e.Settled →
      e.state = .kUnboundAndQueueing → Endpoint.Settled { e with
        incomingMessageQueue := q, state := .kUnboundAndProxying, proxyTarget := a } := by
    intro e a q he hq
    refine ⟨?_, ?_⟩
    · simpa [hq] using he.delegate
    · simpa [hq] using he.runner
  cases h with
  | createMessagePipes | invite =>
    exact (hp.set rfl (Endpoint.settled_new _ _) : (p.toCore.enroll _ _).Settled).set rfl
      (Endpoint.settled_new _ _)
  | recover => exact hp.set rfl (Endpoint.settled_new _ _)
  | bindReceiver => exact hp.set rfl ⟨by simp, by simp⟩
  | take _ he _ _ hq => exact hp.set rfl (moved (hp _ _ he) hq)
  | reserve _ he _ hq => exact hp.set rfl (moved (hp _ _ he) hq)
  | forward _ _ he hq => exact hp.set rfl (moved (hp _ _ he) hq)
  | deliver _ he _ _ ha | dispatch _ he ha => exact hp.set rfl ((hp _ _ he).accept ha)
  | drain _ he => exact hp.set rfl ⟨(hp _ _ he).delegate, (hp _ _ he).runner⟩
  | @accept i t x name rest =>
    cases hf : p.localEndpoints.find name with
    | none => exact hp.set (Table.insert_of_absent hf _) (Endpoint.settled_new _ _)
    | some e =>
      intro y f hy
      have hsame : p.localEndpoints.insert name (.new name ⟨i, x⟩) = p.localEndpoints := by
        rw [Table.insert, hf]
      exact hp y f (hsame ▸ hy)
  | _ => exact hp

theorem Reachable.settled {T : Topology} {s : Network} (h : Reachable T s) (n : Identifier) :
    (s.process n).toCore.Settled := by
  refine Reachable.forall_process (P := fun _ p => p.toCore.Settled) (fun n => ?_)
    (fun s n τ c o _ hp ha => ha.move.settled hp) (fun s n ch m rest _ hp _ => hp) h n
  rintro x e ⟨⟩

/-- An endpoint that queues has no delegate. -/
def Core.Undelegated (c : Core) : Prop :=
  ∀ x e, c.localEndpoints.find x = some e → e.state = .kUnboundAndQueueing → e.delegate = none

theorem Core.Undelegated.set {c c' : Core} {x : Identifier} {e : Endpoint} (h : c.Undelegated)
    (he : c'.localEndpoints = c.localEndpoints.set x e)
    (hq : e.state = .kUnboundAndQueueing → e.delegate = none) : c'.Undelegated := by
  intro y f hf
  rw [he, Table.find_set] at hf
  split_ifs at hf with hy
  · cases hf
    exact hq
  · exact h y f hf

/-- So it is in every state that a process reaches. -/
theorem Reachable.undelegated {T : Topology} {s : Network} (h : Reachable T s) (n : Identifier) :
    (s.process n).toCore.Undelegated :=
  fun x e he hq => (h.settled n x e he).undelegated (by simp [hq])

/-! ### The steps of one thread -/

namespace Process

/-- `k` steps of thread `τ` alone: the process after them, and what the thread wrote. -/
def steps (τ : ThreadId) (supply : List Identifier) :
    ℕ → Process → Except Stop (Process × List (Channel × ChannelMessage))
  | 0, p => return (p, [])
  | k + 1, p => do
    let o ← p.run τ supply
    let (p, written) ← steps τ supply k o.process
    return (p, o.written.toList ++ written)

/-- `SetProxying` after `TakeQueuedMessages`. -/
def moveTo (p : Process) (targetNodeName : Identifier) (d : EndpointDescriptor) : Process :=
  match p.localEndpoints.find d.endpointName with
  | some e => p.setEndpoint d.endpointName
    { e with
      incomingMessageQueue := [], state := .kUnboundAndProxying,
      proxyTarget := ⟨targetNodeName, d.crossNodeEndpointName⟩ }
  | none => p

def moveAll (p : Process) (targetNodeName : Identifier) (ds : List EndpointDescriptor) : Process :=
  ds.foldl (·.moveTo targetNodeName ·) p

/-- Thread `τ` has locked the endpoints `xs` on top of what was locked. -/
def lockAll (p : Process) (τ : ThreadId) (xs : List Identifier) : Process :=
  { p with lock := fun y => if y ∈ xs then some τ else p.lock y }

variable {p p' p'' : Process} {τ : ThreadId} {supply : List Identifier}

theorem steps_add {j k : ℕ} {ws ws' : List (Channel × ChannelMessage)}
    (h : p.steps τ supply j = .ok (p', ws)) (h' : p'.steps τ supply k = .ok (p'', ws')) :
    p.steps τ supply (j + k) = .ok (p'', ws ++ ws') := by
  induction j generalizing p ws with
  | zero =>
    cases h
    simpa using h'
  | succ j ih =>
    rw [Nat.succ_add]
    simp only [steps, bind_eq_ok, pure_eq_ok, Prod.exists, Prod.mk.injEq] at h ⊢
    obtain ⟨o, ho, q, us, hq, rfl, rfl⟩ := h
    exact ⟨o, ho, p'', us ++ ws', ih hq, rfl, by simp⟩

theorem steps_one {o : Outcome} (h : p.run τ supply = .ok o) :
    p.steps τ supply 1 = .ok (o.process, o.written.toList) := by
  simp [steps, h]

section
variable (p : Process) (t x : Identifier) (o : Option ThreadId) (th th' : Thread)
  (d : EndpointDescriptor) (ds : List EndpointDescriptor)

@[simp] theorem moveTo_lock : (p.moveTo t d).lock = p.lock := by
  rw [moveTo]
  split <;> rfl

@[simp] theorem moveAll_lock : (p.moveAll t ds).lock = p.lock := by
  induction ds generalizing p with
  | nil => rfl
  | cons d ds ih => exact (ih _).trans (moveTo_lock _ _ _)

theorem moveTo_setLock : (p.setLock x o).moveTo t d = (p.moveTo t d).setLock x o := by
  simp only [moveTo, setLock_toCore]
  split <;> rfl

theorem moveAll_setLock : (p.setLock x o).moveAll t ds = (p.moveAll t ds).setLock x o := by
  induction ds generalizing p with
  | nil => rfl
  | cons d ds ih =>
    change ((p.setLock x o).moveTo t d).moveAll t ds = _
    rw [moveTo_setLock, ih]
    rfl

theorem moveTo_goto : (p.goto τ th).moveTo t d = (p.moveTo t d).goto τ th := by
  simp only [moveTo, goto_toCore]
  split <;> rfl

theorem moveAll_goto : (p.goto τ th).moveAll t ds = (p.moveAll t ds).goto τ th := by
  induction ds generalizing p with
  | nil => rfl
  | cons d ds ih =>
    change ((p.goto τ th).moveTo t d).moveAll t ds = _
    rw [moveTo_goto, ih]
    rfl

theorem goto_goto : (p.goto τ th).goto τ th' = p.goto τ th' := by
  have : upd₁ (upd₁ p.thread τ th) τ th' = upd₁ p.thread τ th' := by
    funext σ
    by_cases hσ : σ = τ <;> simp [hσ]
  simp only [goto, this]

theorem moveAll_cons : p.moveAll t (d :: ds) = (p.moveTo t d).moveAll t ds := rfl

theorem moveAll_append (ds' : List EndpointDescriptor) :
    p.moveAll t (ds ++ ds') = (p.moveAll t ds).moveAll t ds' := List.foldl_append

@[simp] theorem moveTo_nodeChannelMap : (p.moveTo t d).nodeChannelMap = p.nodeChannelMap := by
  rw [moveTo]
  split <;> rfl

@[simp] theorem moveAll_nodeChannelMap : (p.moveAll t ds).nodeChannelMap = p.nodeChannelMap := by
  induction ds generalizing p with
  | nil => rfl
  | cons d ds ih => exact (ih _).trans (moveTo_nodeChannelMap _ _ _)

theorem moveTo_other {y : Identifier} (h : d.endpointName ≠ y) :
    (p.moveTo t d).localEndpoints.find y = p.localEndpoints.find y := by
  rw [moveTo]
  split
  · simp [h.symm]
  · rfl

theorem moveAll_other {y : Identifier} (h : ∀ d ∈ ds, d.endpointName ≠ y) :
    (p.moveAll t ds).localEndpoints.find y = p.localEndpoints.find y := by
  induction ds generalizing p with
  | nil => rfl
  | cons d ds ih =>
    exact (ih _ fun d' hd' => h d' (List.mem_cons_of_mem _ hd')).trans
      (moveTo_other _ _ _ (h d List.mem_cons_self))

end

/-- An endpoint that a message can carry along now: nobody has it locked. -/
structure Ready (p : Process) (x : Identifier) : Prop where
  queueing : ∃ e, p.localEndpoints.find x = some e ∧ e.state = .kUnboundAndQueueing ∧ e.delegate = none
  unlocked : p.lock x = none

theorem moveTo_queued (t : Identifier) {d : EndpointDescriptor} {x : Identifier}
    (h : d.endpointName ≠ x) : (p.moveTo t d).queued x = p.queued x := by
  rw [Core.queued, Core.queued, moveTo_other _ _ _ h]

/-- The endpoint of one descriptor. -/
theorem take_run {b : Batch} {m : Message} {done ds : List EndpointDescriptor}
    {d : EndpointDescriptor} (ht : p.thread τ = .sending b m done (d :: ds))
    (h : p.Ready d.endpointName) :
    p.run τ supply = .ok ⟨((p.moveTo b.targetNodeName d).setLock d.endpointName (some τ)).goto τ
      (.sending { b with messagesToSend := b.messagesToSend ++ (p.drained d).map (·.message) } m
        (done ++ [d]) ds), supply, none, none⟩ := by
  obtain ⟨⟨e, he, hq, hd⟩, hl⟩ := h
  have hmove : p.moveTo b.targetNodeName d = p.setEndpoint d.endpointName
      { e with
        incomingMessageQueue := [], state := .kUnboundAndProxying,
        proxyTarget := ⟨b.targetNodeName, d.crossNodeEndpointName⟩ } := by
    rw [moveTo, he]
  rw [hmove, Core.drained_messages, Core.queued_of_find he]
  simp [run, ht, sendNext, Core.endpoint, he, orFail, acquire, hl, check,
    Endpoint.takeQueuedMessages, hd, Endpoint.setProxying, hq, bind, Except.bind, pure, Except.pure]
  rfl

theorem lockAll_goto (p : Process) (τ σ : ThreadId) (xs : List Identifier) (th : Thread) :
    (p.goto τ th).lockAll σ xs = (p.lockAll σ xs).goto τ th := rfl

theorem lockAll_setLock (p : Process) (τ : ThreadId) (x : Identifier) (xs : List Identifier) :
    (p.setLock x (some τ)).lockAll τ xs = p.lockAll τ (x :: xs) := by
  have : (fun y => if y ∈ xs then some τ else upd₁ p.lock x (some τ) y) =
      fun y => if y ∈ x :: xs then some τ else p.lock y := by
    funext y
    by_cases hx : y = x <;> by_cases hxs : y ∈ xs <;> simp [hx, hxs]
  simp only [lockAll, setLock_lock, this]
  rfl

/-- The loop over the descriptors of a message. -/
theorem take_steps {b : Batch} {m : Message} {done ds : List EndpointDescriptor}
    (ht : p.thread τ = .sending b m done ds) (hready : ∀ d ∈ ds, p.Ready d.endpointName)
    (hnames : (ds.map (·.endpointName)).Nodup) :
    p.steps τ supply ds.length = .ok (((p.moveAll b.targetNodeName ds).lockAll τ
      (ds.map (·.endpointName))).goto τ (.sending
        { b with messagesToSend := b.messagesToSend ++ (ds.flatMap p.drained).map (·.message) } m
        (done ++ ds) []), []) := by
  induction ds generalizing p b done with
  | nil =>
    have hp : p = (p.lockAll τ []).goto τ (.sending b m done []) := by
      have hthread : upd₁ p.thread τ (.sending b m done []) = p.thread := upd₁_same ht
      simp [goto, lockAll, hthread]
    simpa [steps, moveAll] using hp
  | cons d ds ih =>
    have hd := hready d List.mem_cons_self
    rw [List.map_cons, List.nodup_cons] at hnames
    have hne : ∀ d' ∈ ds, d.endpointName ≠ d'.endpointName := fun d' hd' heq =>
      hnames.1 (heq ▸ List.mem_map_of_mem hd')
    have hrun : p.run τ supply = _ := take_run ht hd
    obtain ⟨b', hb'⟩ : ∃ b' : Batch, b' =
        { b with messagesToSend := b.messagesToSend ++ (p.drained d).map (·.message) } := ⟨_, rfl⟩
    rw [← hb'] at hrun
    obtain ⟨q, hq⟩ : ∃ q, q = ((p.moveTo b.targetNodeName d).setLock d.endpointName (some τ)).goto τ
        (.sending b' m (done ++ [d]) ds) := ⟨_, rfl⟩
    rw [← hq] at hrun
    have hdrained : ds.flatMap q.drained = ds.flatMap p.drained := by
      refine List.flatMap_congr fun d' hd' => ?_
      have : q.queued d'.endpointName = p.queued d'.endpointName := by
        rw [hq]
        exact moveTo_queued _ (hne d' hd')
      rw [Core.drained, this, Core.drained]
    have hq_ready : ∀ d' ∈ ds, q.Ready d'.endpointName := by
      intro d' hd'
      obtain ⟨⟨e, he, hs⟩, hl⟩ := hready d' (List.mem_cons_of_mem _ hd')
      refine ⟨⟨e, ?_, hs⟩, ?_⟩
      · rw [hq]
        exact (moveTo_other _ _ _ (hne d' hd')).trans he
      · simp [hq, hl, (hne d' hd').symm]
    have hthread : q.thread τ = .sending b' m (done ++ [d]) ds := by simp [hq]
    have hrest := ih hthread hq_ready hnames.2
    rw [hdrained] at hrest
    rw [List.length_cons, steps, hrun]
    simp only [bind, Except.bind]
    rw [hrest, hq, moveAll_goto, moveAll_setLock, hb']
    change Except.ok (((((p.moveTo b.targetNodeName d).moveAll b.targetNodeName ds).setLock
      d.endpointName (some τ)).lockAll τ _).goto τ _ |>.goto τ _, [] ++ []) = _
    rw [lockAll_setLock, goto_goto]
    simp [moveAll]

theorem release_lockAll {x : Identifier} {xs : List Identifier} (hx : x ∉ xs)
    (hl : p.lock x = none) : (p.lockAll τ (x :: xs)).release x = p.lockAll τ xs := by
  have : upd₁ (fun y => if y ∈ x :: xs then some τ else p.lock y) x none =
      fun y => if y ∈ xs then some τ else p.lock y := by
    funext y
    by_cases hy : y = x
    · simp [hy, hx, hl]
    · simp [hy]
  simp only [release, setLock, lockAll, this]

/-- The loop over `locked_dependent_endpoints`. -/
theorem unlock_steps {b : Batch} {xs : List Identifier} (hl : ∀ x ∈ xs, p.lock x = none)
    (hxs : xs.Nodup) : ((p.lockAll τ xs).goto τ (.unlocking b xs)).steps τ supply xs.length =
      .ok (p.goto τ (.unlocking b []), []) := by
  induction xs with
  | nil => simp [steps, lockAll]
  | cons x xs ih =>
    rw [List.nodup_cons] at hxs
    have hrun : ((p.lockAll τ (x :: xs)).goto τ (.unlocking b (x :: xs))).run τ supply =
        .ok ⟨(p.lockAll τ xs).goto τ (.unlocking b xs), supply, none, none⟩ := by
      rw [← release_lockAll hxs.1 (hl x List.mem_cons_self)]
      simp only [run, goto_thread, upd₁_apply, if_true, unlockNext]
      change Except.ok (Outcome.mk (((p.lockAll τ (x :: xs)).release x).goto τ _ |>.goto τ _) _ _ _) = _
      rw [goto_goto]
    rw [List.length_cons, steps, hrun]
    simp only [bind, Except.bind]
    rw [ih (fun y hy => hl y (List.mem_cons_of_mem _ hy)) hxs.2]
    rfl

/-- The loop over `messages_to_send`, once around. -/
theorem send_steps {b : Batch} {m : Message} {ms : List Message} {channel : Channel}
    (ht : p.thread τ = .unlocking b []) (hm : b.messagesToSend = m :: ms)
    (hc : p.nodeChannelMap.find b.targetNodeName = some channel)
    (hready : ∀ d ∈ m.endpointsInMessage, p.Ready d.endpointName)
    (hnames : (m.endpointsInMessage.map (·.endpointName)).Nodup) :
    ∃ k, p.steps τ supply k = .ok ((p.moveAll b.targetNodeName m.endpointsInMessage).goto τ
      (.unlocking { b with messagesToSend :=
        ms ++ (m.endpointsInMessage.flatMap p.drained).map (·.message) } []),
      [(channel, .userMessage m.buffer)]) := by
  have hnext : p.run τ supply = .ok ⟨p.goto τ
      (.sending { b with messagesToSend := ms } m [] m.endpointsInMessage), supply, none, none⟩ := by
    rw [run, ht]
    simp only [unlockNext, hm]
    rfl
  obtain ⟨q, hq⟩ : ∃ q, q = p.goto τ
      (.sending { b with messagesToSend := ms } m [] m.endpointsInMessage) := ⟨_, rfl⟩
  rw [← hq] at hnext
  have hthread : q.thread τ =
      .sending { b with messagesToSend := ms } m [] m.endpointsInMessage := by simp [hq]
  have htake : q.steps τ supply _ = _ := take_steps hthread
    (fun d hd => by rw [hq]; exact ⟨(hready d hd).queueing, (hready d hd).unlocked⟩) hnames
  have hdrained : q.drained = p.drained := by
    rw [hq]
    rfl
  have hmoved : q.moveAll b.targetNodeName m.endpointsInMessage =
      (p.moveAll b.targetNodeName m.endpointsInMessage).goto τ
        (.sending { b with messagesToSend := ms } m [] m.endpointsInMessage) := by
    rw [hq, moveAll_goto]
  obtain ⟨b', hb'⟩ : ∃ b' : Batch, b' = { b with messagesToSend :=
      ms ++ (m.endpointsInMessage.flatMap p.drained).map (·.message) } := ⟨_, rfl⟩
  dsimp only at htake
  rw [hdrained, List.nil_append, hmoved, lockAll_goto, goto_goto, ← hb'] at htake
  generalize hxs : m.endpointsInMessage.map (·.endpointName) = xs at htake hnames
  obtain ⟨a, ha⟩ : ∃ a, a = p.moveAll b.targetNodeName m.endpointsInMessage := ⟨_, rfl⟩
  rw [← ha] at htake ⊢
  have hwrite : ((a.lockAll τ xs).goto τ (.sending b' m m.endpointsInMessage [])).run τ supply =
      .ok ⟨(a.lockAll τ xs).goto τ (.unlocking b' xs), supply,
        some (channel, .userMessage m.buffer), none⟩ := by
    have hchannel : ((a.lockAll τ xs).goto τ (.sending b' m m.endpointsInMessage [])).channelTo
        b'.targetNodeName = .ok channel := by
      rw [channelTo_eq, ← hc, hb', ha]
      simp [lockAll]
    simp only [run, goto_thread, upd₁_apply, if_true, sendNext, hchannel, bind, Except.bind, hxs,
      goto_goto]
    rfl
  have hunlock : Process.steps τ supply xs.length _ = _ := unlock_steps (p := a) (b := b')
    (fun x hx => by
      obtain ⟨d, hd, rfl⟩ := List.mem_map.1 (hxs ▸ hx)
      rw [ha, moveAll_lock]
      exact (hready d hd).unlocked) hnames
  rw [← hb']
  exact ⟨_, steps_add (steps_one hnext) (steps_add htake (steps_add (steps_one hwrite) hunlock))⟩

/-- What `moveAll` does to an endpoint that one descriptor names. -/
theorem moveAll_moved {t x : Identifier} {ds : List EndpointDescriptor} {d : EndpointDescriptor}
    {e : Endpoint} (he : p.localEndpoints.find x = some e) (hd : d ∈ ds) (hx : d.endpointName = x)
    (hone : ∀ d' ∈ ds, d'.endpointName = x → d' = d) :
    (p.moveAll t ds).localEndpoints.find x = some
      { e with
        incomingMessageQueue := [], state := .kUnboundAndProxying,
        proxyTarget := ⟨t, d.crossNodeEndpointName⟩ } := by
  induction ds generalizing p e with
  | nil => cases hd
  | cons d' ds ih =>
    rw [moveAll_cons]
    have hrest : ∀ d' ∈ ds, d'.endpointName = x → d' = d := fun d' hd' =>
      hone d' (List.mem_cons_of_mem _ hd')
    by_cases hname : d'.endpointName = x
    · obtain rfl := hone d' List.mem_cons_self hname
      have he' : (p.moveTo t d').localEndpoints.find x = some
          { e with
            incomingMessageQueue := [], state := .kUnboundAndProxying,
            proxyTarget := ⟨t, d'.crossNodeEndpointName⟩ } := by
        simp [moveTo, hname, he]
      by_cases hmem : d' ∈ ds
      · have hagain := ih he' hmem hrest
        exact hagain
      · refine (moveAll_other _ _ _ fun d'' hd'' hname' => ?_).trans he'
        exact hmem (hrest d'' hd'' hname' ▸ hd'')
    · rcases List.mem_cons.1 hd with rfl | hd
      · exact absurd hx hname
      · exact ih (p := p.moveTo t d') ((moveTo_other _ _ _ hname).trans he) hd hrest

/-- The process when the loop has sent the messages `sent` and has `queue` left. -/
def flushing (p : Process) (τ : ThreadId) (b : Batch) (sent queue : List Item) : Process :=
  (p.moveAll b.targetNodeName (sent.flatMap (·.message.endpointsInMessage))).goto τ
    (.unlocking { b with messagesToSend := queue.map (·.message) } [])

/-- Each round of the loop visits one message. -/
theorem walk_steps {b : Batch} {channel : Channel} {ms : List Message} (hm : p.Movable ms)
    (hc : p.nodeChannelMap.find b.targetNodeName = some channel)
    (hdelegate : p.toCore.Undelegated)
    (hlock : ∀ i, p.Flushable ms i → ∀ d ∈ i.message.endpointsInMessage,
      p.lock d.endpointName = none)
    {sent queue order : List Item} (hw : Walk p.dependents queue order)
    (hh : Halfway p.dependents (Item.given ms) sent queue) :
    ∃ k, (p.flushing τ b sent queue).steps τ supply k = .ok (p.flushing τ b (sent ++ order) [],
      order.map fun i => (channel, .userMessage i.message.buffer)) := by
  induction hw generalizing sent with
  | done => exact ⟨0, by simp [steps]⟩
  | @visit i rest order hw ih =>
    have hi : p.Flushable ms i := hh.below i (by simp)
    have hnew : i ∉ sent := fun hmem =>
      (List.nodup_append.1 hh.nodup).2.2 i hmem i List.mem_cons_self rfl
    -- what it carries was not carried before
    have hfresh : ∀ d ∈ i.message.endpointsInMessage,
        ∀ d' ∈ sent.flatMap (·.message.endpointsInMessage), d'.endpointName ≠ d.endpointName := by
      intro d hd d' hd' heq
      obtain ⟨j, hj, hd'⟩ := List.mem_flatMap.1 hd'
      obtain ⟨a, ha⟩ := List.getElem?_of_mem hd
      obtain ⟨b, hb⟩ := List.getElem?_of_mem hd'
      have hjf := hh.below j (List.mem_append_left _ hj)
      obtain rfl := hm.origin_inj hjf hi (hm.once j i hjf hi b a d' d hb ha heq).1
      exact hnew hj
    have hsame : ∀ d ∈ i.message.endpointsInMessage,
        (p.flushing τ b sent (i :: rest)).localEndpoints.find d.endpointName =
          p.localEndpoints.find d.endpointName := fun d hd => moveAll_other _ _ _ (hfresh d hd)
    have hready : ∀ d ∈ i.message.endpointsInMessage,
        (p.flushing τ b sent (i :: rest)).Ready d.endpointName := by
      intro d hd
      obtain ⟨e, he, hq⟩ := hm.queueing i hi d hd
      refine ⟨⟨e, (hsame d hd).trans he, hq, hdelegate _ e he hq⟩, ?_⟩
      exact (congrFun (moveAll_lock _ _ _) _).trans (hlock i hi d hd)
    have hdrained : i.message.endpointsInMessage.flatMap (p.flushing τ b sent (i :: rest)).drained =
        p.dependents i := by
      refine List.flatMap_congr fun d hd => ?_
      rw [Core.drained, Core.queued, hsame d hd]
      rfl
    have hthread : (p.flushing τ b sent (i :: rest)).thread τ =
        .unlocking { b with messagesToSend := (i :: rest).map (·.message) } [] := by simp [flushing]
    obtain ⟨k, hk⟩ : ∃ k, (p.flushing τ b sent (i :: rest)).steps τ supply k = _ :=
      send_steps hthread rfl (by simpa [flushing] using hc) hready (hm.names_nodup hi)
    obtain ⟨l, hl⟩ := ih (hh.visit hm.forest)
    refine ⟨k + l, ?_⟩
    have hnext : ((p.flushing τ b sent (i :: rest)).moveAll b.targetNodeName
        i.message.endpointsInMessage).goto τ (.unlocking
          { b with messagesToSend := rest.map (·.message) ++ (p.dependents i).map (·.message) }
          []) =
        p.flushing τ b (sent ++ [i]) (rest ++ p.dependents i) := by
      rw [flushing, moveAll_goto, goto_goto, ← moveAll_append, flushing, List.flatMap_append,
        List.map_append]
      simp
    rw [hdrained] at hk
    dsimp only at hk
    rw [hnext] at hk
    have := steps_add hk hl
    rw [List.append_assoc, List.singleton_append] at this
    simpa using this

end Process

/-- Process `p` has flushed the batch `b` by writing `order`, and is now `p'`. -/
structure Flushed (p : Process) (τ : ThreadId) (b : Batch) (order : List Item) (p' : Process) :
    Prop where
  once : (order.map (·.origin)).Nodup
  exact : ∀ i, i ∈ order ↔ p.Flushable b.messagesToSend i
  given : Item.given b.messagesToSend <+: order
  drained : ∀ i ∈ order, ∀ d ∈ i.message.endpointsInMessage, (i :: p.drained d).Sublist order
  moved : ∀ i ∈ order, ∀ d ∈ i.message.endpointsInMessage, p'.lock d.endpointName = none ∧
    ∃ e, p.localEndpoints.find d.endpointName = some e ∧
      p'.localEndpoints.find d.endpointName = some
        { e with
          incomingMessageQueue := [], state := .kUnboundAndProxying,
          proxyTarget := ⟨b.targetNodeName, d.crossNodeEndpointName⟩ }
  others : ∀ x, (∀ i ∈ order, ∀ d ∈ i.message.endpointsInMessage, d.endpointName ≠ x) →
    p'.localEndpoints.find x = p.localEndpoints.find x
  unchanged : ∃ q : Process, p' = q.goto τ (p'.thread τ) ∧
    q = { p with localEndpoints := q.localEndpoints }

theorem Process.moveAll_eq (p : Process) (t : Identifier) (ds : List EndpointDescriptor) :
    p.moveAll t ds = { p with localEndpoints := (p.moveAll t ds).localEndpoints } := by
  induction ds generalizing p with
  | nil => rfl
  | cons d ds ih =>
    rw [moveAll_cons, ih (p.moveTo t d)]
    rw [moveTo]
    split <;> rfl

/-- What was given is written first. -/
theorem Flushed.messages {p p' : Process} {τ : ThreadId} {b : Batch} {order : List Item}
    (h : Flushed p τ b order p') : b.messagesToSend <+: order.map (·.message) := by
  have hpre := h.given.map (·.message)
  rwa [Item.given_messages] at hpre

/-- The loop sends all that it was given and all that goes along. -/
theorem Process.flushes {p : Process} {τ : ThreadId} {b : Batch} {channel : Channel}
    (supply : List Identifier) (ht : p.thread τ = .unlocking b [])
    (hc : p.nodeChannelMap.find b.targetNodeName = some channel) (hm : p.Movable b.messagesToSend)
    (hu : p.toCore.Undelegated)
    (hl : ∀ i, p.Flushable b.messagesToSend i → ∀ d ∈ i.message.endpointsInMessage,
      p.lock d.endpointName = none) :
    ∃ k order, p.steps τ supply k = .ok (p.flushing τ b order [], order.map fun i =>
        (channel, .userMessage i.message.buffer)) ∧
      Flushed p τ b order (p.flushing τ b order []) := by
  obtain ⟨order, hw, hnodup, hmem⟩ := hm.forest.walk
  obtain ⟨k, hk⟩ : ∃ k, (p.flushing τ b [] _).steps τ supply k = _ :=
    walk_steps hm hc hu hl hw (.start hm.forest)
  have hbegin : p.flushing τ b [] (Item.given b.messagesToSend) = p := by
    have hthread : upd₁ p.thread τ (.unlocking b []) = p.thread := upd₁_same ht
    simp [flushing, Item.given_messages, moveAll, goto, hthread]
  rw [hbegin, List.nil_append] at hk
  have hcarrier : ∀ d ∈ order.flatMap (·.message.endpointsInMessage),
      ∃ i ∈ order, d ∈ i.message.endpointsInMessage := fun d hd => List.mem_flatMap.1 hd
  refine ⟨k, order, hk, ?_, hmem, hw.queue_prefix, fun i hi d hd => ?_, fun i hi d hd => ?_,
    fun y hy => ?_, ?_⟩
  · exact (List.nodup_map_iff_inj_on hnodup).2 fun i hi j hj ho =>
      hm.origin_inj ((hmem i).1 hi) ((hmem j).1 hj) ho
  · refine List.Sublist.trans (List.Sublist.cons_cons _ ?_) (hw.family_sublist hi)
    exact List.sublist_flatten_of_mem (List.mem_map_of_mem hd)
  · have hif := (hmem i).1 hi
    obtain ⟨e, he, -⟩ := hm.queueing i hif d hd
    refine ⟨(congrFun (moveAll_lock _ _ _) _).trans (hl i hif d hd), e, he,
      moveAll_moved he (List.mem_flatMap.2 ⟨i, hi, hd⟩) rfl fun d' hd' heq => ?_⟩
    obtain ⟨j, hj, hd'⟩ := hcarrier d' hd'
    exact hm.descriptor_eq ((hmem j).1 hj) hif hd' hd heq
  · refine moveAll_other _ _ _ fun d hd => ?_
    obtain ⟨i, hi, hd⟩ := hcarrier d hd
    exact hy i hi d hd
  · exact ⟨p.moveAll b.targetNodeName (order.flatMap (·.message.endpointsInMessage)),
      by simp [flushing], moveAll_eq _ _ _⟩

/-- From its first line `SendMessagesAndRecursiveDependents` runs to its end, if a channel to the target
    is there and everything that its messages carry along can be moved. -/
theorem flushes_dependents {p : Process} {τ : ThreadId} {supply : List Identifier} {b : Batch}
    {channel : Channel} (ht : p.thread τ = .unlocking b [])
    (hc : p.nodeChannelMap.find b.targetNodeName = some channel)
    (hm : p.Movable b.messagesToSend) (hdelegate : p.toCore.Undelegated)
    (hlock : ∀ i, p.Flushable b.messagesToSend i → ∀ d ∈ i.message.endpointsInMessage,
      p.lock d.endpointName = none) :
    ∃ k p' order, p.steps τ supply k = .ok (p', order.map fun i =>
        (channel, .userMessage i.message.buffer)) ∧
      p'.thread τ = .unlocking { b with messagesToSend := [] } [] ∧ Flushed p τ b order p' := by
  obtain ⟨k, order, hk, hflushed⟩ := p.flushes supply ht hc hm hdelegate hlock
  exact ⟨k, _, order, hk, by simp [Process.flushing], hflushed⟩

namespace Sample

/-- A message that carries the endpoint `word 1`, on which another message is queued. -/
def carried : EndpointDescriptor := ⟨word 1, word 4, inviter, word 2⟩

def load : Batch := ⟨acceptor, [⟨8, word 3, [carried], [], []⟩], .sendMessage⟩

def laden : Process :=
  { Network.initialProcess inviter with
    localEndpoints := Table.empty.set (word 1) { Endpoint.new (word 1) ⟨inviter, word 2⟩ with
      incomingMessageQueue := [⟨7, word 1, [], [5], []⟩] }
    nodeChannelMap := Table.empty.set acceptor acceptor
    thread := fun _ => .unlocking load [] }

/-- The two messages. -/
def both : List Item :=
  [⟨.given 0, ⟨8, word 3, [carried], [], []⟩⟩, ⟨.queued (word 1) 0, ⟨7, word 4, [], [5], []⟩⟩]

theorem laden_both {i : Item} (hi : laden.Flushable load.messagesToSend i) : i ∈ both :=
  hi.mem (by decide) (by decide)

theorem laden_movable : laden.Movable load.messagesToSend where
  queueing := by
    intro i hi d hd
    rcases List.mem_cons.1 (laden_both hi) with rfl | hi
    · obtain rfl : d = carried := by simpa using hd
      exact ⟨_, rfl, rfl⟩
    · obtain rfl := List.mem_singleton.1 hi
      cases hd
  once := by
    intro i j hi hj a b d d' ha hb _
    have first : ∀ {i : Item} {a : ℕ} {d : EndpointDescriptor}, i ∈ both →
        i.message.endpointsInMessage[a]? = some d → i.origin = .given 0 ∧ a = 0 := by
      intro i a d hi ha
      rcases List.mem_cons.1 hi with rfl | hi
      · cases a with
        | zero => exact ⟨rfl, rfl⟩
        | succ a => simp at ha
      · obtain rfl := List.mem_singleton.1 hi
        simp at ha
    obtain ⟨h1, h2⟩ := first (laden_both hi) ha
    obtain ⟨h3, h4⟩ := first (laden_both hj) hb
    exact ⟨h1.trans h3.symm, h2.trans h4.symm⟩

end Sample

theorem laden_flushed : ∃ k p' order, Sample.laden.steps .io [] k = .ok (p',
      order.map fun i : Item => (Sample.acceptor, .userMessage i.message.buffer)) ∧
    p'.thread .io = .unlocking { Sample.load with messagesToSend := [] } [] ∧
    Flushed Sample.laden .io Sample.load order p' :=
  flushes_dependents rfl rfl Sample.laden_movable
    (fun x e he _ => by
      simp only [Sample.laden, Table.find_set, Table.find_empty] at he
      split_ifs at he
      cases he
      rfl)
    fun _ _ _ _ => rfl

end Mage
