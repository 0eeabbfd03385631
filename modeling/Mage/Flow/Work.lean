import Mathlib
import Mage.Flow.Letters
import Mage.Lib.Workload

/-! Work left to do. A message goes from one address only to one whose name was drawn later, and takes
    a bounded number of steps on the way. Given the names that are drawn by some point, what that makes
    for all messages, with the steps that the threads have left, is less after each step that is no
    call. Nothing bounds it without them: two messages that cross, each with the endpoint that the other
    is for, are forwarded as long as there are names to draw. -/

namespace Mage
open Lib

/-- The most steps that a message with `k` endpoints takes from a channel to the next one. -/
def hop (k : ℕ) : ℕ := 3 * k + 6

/-- How many of the names `L` were drawn after `x`, with `x` itself. -/
def ahead (L : List Identifier) (x : Identifier) : ℕ := L.length - L.idxOf x

namespace Message

/-- For a message that waits at the endpoint `x`. -/
def resting (L : List Identifier) (x : Identifier) (m : Message) : ℕ :=
  ahead L x * hop m.endpointsInMessage.length + 2 * m.endpointsInMessage.length + 2

/-- For a message on a channel. -/
def underway (L : List Identifier) (m : Message) : ℕ :=
  (ahead L m.targetEndpoint + 1) * hop m.endpointsInMessage.length

/-- For a message that waits to be written. -/
def due (L : List Identifier) (m : Message) : ℕ := m.underway L + 2 * m.endpointsInMessage.length + 2

end Message

def ChannelMessage.work (L : List Identifier) : ChannelMessage → ℕ
  | .sendInvitation _ _ _ => 12
  | .acceptInvitation _ _ _ => 7
  | .userMessage m => m.underway L

def Caller.work : Caller → ℕ
  | .onReceivedAcceptInvitation _ _ => 1
  | _ => 0

def Batch.work (L : List Identifier) (b : Batch) : ℕ :=
  (b.messagesToSend.map (·.due L)).sum + b.caller.work

def Thread.work (L : List Identifier) : Thread → ℕ
  | .idle => 0
  | .populating _ m rest =>
    (L.length + 1) * hop (m.endpointsInMessage.length + rest.length) +
      3 * (m.endpointsInMessage.length + rest.length) + rest.length + 6
  | .checking _ m rest => (L.length + 1) * hop m.endpointsInMessage.length +
      2 * m.endpointsInMessage.length + rest.length + 5
  | .delivering x m => m.resting L x + 2
  | .sending b m done rest => b.work L + m.underway L + done.length + 2 * rest.length + 2
  | .unlocking b locked => b.work L + locked.length + 1
  | .receiving m => ahead L m.targetEndpoint * hop m.endpointsInMessage.length +
      3 * m.endpointsInMessage.length + 5
  | .recovering x m _ rest => m.resting L x + rest.length + 2
  | .forwarding _ _ m done rest =>
    (ahead L m.targetEndpoint + 1) * hop (done.length + rest.length) + rest.length + 2
  | .releasing _ => 1
  | .invited _ _ _ => 11
  | .accepting _ _ _ => 10
  | .replying _ _ _ => 9
  | .accepted _ => 1
  | .acknowledging _ _ _ => 6
  | .reserving _ _ _ _ => 5
  | .rekeying _ _ _ => 4
  | .draining _ _ => 3
  | .acknowledged _ => 1
  | .inviting _ => 16
  | .creatingChannel _ _ _ => 15
  | .insertingPending _ _ _ => 14
  | .startingChannel _ _ _ => 13

/-- Of the threads `F` of a process, and of its queues. -/
def Process.work (L : List Identifier) (F : Finset ThreadId) (p : Process) : ℕ :=
  ∑ τ ∈ F, (p.thread τ).work L +
    ∑ x ∈ L.toFinset, ((p.queued x).map (·.resting L x)).sum

section
variable {L : List Identifier} {x t : Identifier} {m : Message}

theorem ahead_le (L : List Identifier) (x : Identifier) : ahead L x ≤ L.length :=
  Nat.sub_le _ _

theorem ahead_lt (h : L.idxOf x < L.idxOf t) : ahead L t < ahead L x := by
  have hle : L.idxOf t ≤ L.length := List.idxOf_le_length
  rw [ahead, ahead]
  omega

/-- A message that is passed on has come nearer to its end. -/
theorem Message.underway_retarget_le (h : L.idxOf x < L.idxOf t) :
    (m.retarget t).underway L ≤ ahead L x * hop m.endpointsInMessage.length :=
  Nat.mul_le_mul_right _ (ahead_lt h)

theorem Message.due_retarget_le (h : L.idxOf x < L.idxOf t) :
    (m.retarget t).due L ≤ m.resting L x := by
  have hle := Message.underway_retarget_le (m := m) h
  rw [due, resting, endpointsInMessage_retarget]
  omega

/-- So have all that wait together. -/
theorem Message.sum_due_le (ms : List Message) (h : L.idxOf x < L.idxOf t) :
    ((ms.map (·.retarget t)).map (·.due L)).sum ≤ (ms.map (·.resting L x)).sum := by
  rw [List.map_map]
  refine List.sum_le_sum fun m _ => ?_
  exact Message.due_retarget_le h

theorem Message.underway_le (m : Message) :
    m.underway L ≤ (L.length + 1) * hop m.endpointsInMessage.length :=
  Nat.mul_le_mul_right _ (Nat.succ_le_succ (ahead_le L _))

theorem Message.resting_le (m : Message) : m.resting L x ≤
    L.length * hop m.endpointsInMessage.length + 2 * m.endpointsInMessage.length + 2 := by
  have hle := Nat.mul_le_mul_right (hop m.endpointsInMessage.length) (ahead_le L x)
  rw [resting]
  omega

end

namespace Process.Move
variable {T : Topology} {L : List Identifier} {F : Finset ThreadId} {n : Identifier} {p : Process} {τ : ThreadId}
  {supply : List Identifier} {c : Option Call} {o : Outcome}

/-- A step that leaves the queues changes the work of one thread. -/
theorem work_same (h : p.Move τ supply c o) (hF : τ ∈ F)
    (hq : ∀ x, o.process.queued x = p.queued x) :
    o.process.work L F + (p.thread τ).work L = p.work L F + (o.process.thread τ).work L := by
  have hsum := sum_change (f := fun σ => (p.thread σ).work L)
    (g := fun σ => (o.process.thread σ).work L) hF fun σ _ hσ => by rw [h.thread_other hσ]
  simp only [Process.work, hq]
  omega

/-- Otherwise it changes that of one queue as well. -/
theorem work_change (h : p.Move τ supply c o) (hF : τ ∈ F) {y : Identifier} (hy : y ∈ L)
    (hq : ∀ x, x ≠ y → o.process.queued x = p.queued x) :
    o.process.work L F + (p.thread τ).work L + ((p.queued y).map (·.resting L y)).sum =
      p.work L F + (o.process.thread τ).work L + ((o.process.queued y).map (·.resting L y)).sum := by
  have hsum := sum_change (f := fun σ => (p.thread σ).work L)
    (g := fun σ => (o.process.thread σ).work L) hF fun σ _ hσ => by rw [h.thread_other hσ]
  have hqueues := sum_change (f := fun x => ((p.queued x).map (·.resting L x)).sum)
    (g := fun x => ((o.process.queued x).map (·.resting L x)).sum) (List.mem_toFinset.2 hy)
    fun x _ hx => by rw [hq x hx]
  rw [Process.work, Process.work]
  omega

/-- What arrives at an endpoint that is no proxy waits there, or is handed to the delegate. -/
theorem work_accept {e e' : Endpoint} {m : Message} {x : Identifier} (h : e.acceptMessage m = .ok e') :
    (e'.incomingMessageQueue.map (·.resting L x)).sum ≤
      (e.incomingMessageQueue.map (·.resting L x)).sum + m.resting L x := by
  rcases Endpoint.acceptMessage_eq h with ⟨-, -, rfl⟩ | ⟨-, -, rfl⟩
  · simp
  · exact Nat.le_add_right _ _

/-- It is enough that the thread has less to do than before, what it writes included, -/
theorem work_lt_of_same (h : p.Move τ supply c o) (hF : τ ∈ F)
    (hq : ∀ x, o.process.queued x = p.queued x)
    (hlt : (o.process.thread τ).work L + (o.written.elim 0 fun w => w.2.work L) <
      (p.thread τ).work L) :
    o.process.work L F + (o.written.elim 0 fun w => w.2.work L) < p.work L F := by
  have hsum := h.work_same (L := L) hF hq
  omega

/-- or the thread and the queue that it changes. -/
theorem work_lt_of_change (h : p.Move τ supply c o) (hF : τ ∈ F) {y : Identifier}
    {e e' : Endpoint} (hy : y ∈ L) (he : p.localEndpoints.find y = some e)
    (hends : o.process.localEndpoints = p.localEndpoints.set y e')
    (hlt : (o.process.thread τ).work L + (e'.incomingMessageQueue.map (·.resting L y)).sum +
      (o.written.elim 0 fun w => w.2.work L) <
        (p.thread τ).work L + (e.incomingMessageQueue.map (·.resting L y)).sum) :
    o.process.work L F + (o.written.elim 0 fun w => w.2.work L) < p.work L F := by
  have hsum := h.work_change (L := L) hF hy fun x hx => by rw [Core.queued_set hends, if_neg hx]
  rw [Core.queued_set hends, if_pos rfl, Core.queued_of_find he] at hsum
  omega

theorem work_lt_of_sendMessage (h : p.Move τ supply none o) (hF : τ ∈ F)
    (hr : (p.thread τ).routine = some .sendMessage)
    (hnames : ∀ x e, p.localEndpoints.find x = some e → x ∈ L)
    (hproxy : ∀ x e, p.localEndpoints.find x = some e → e.state = .kUnboundAndProxying →
      L.idxOf x < L.idxOf e.proxyTarget.endpointName) :
    o.process.work L F + (o.written.elim 0 fun w => w.2.work L) < p.work L F := by
  have hmove := h
  cases h with
  | @populated x m ht =>
    refine hmove.work_lt_of_same hF (fun _ => rfl) ?_
    simp [ht, Thread.work]
    omega
  | @populate x y name m ys rest e ht =>
    refine hmove.work_lt_of_same hF (fun _ => rfl) ?_
    simp only [ht, goto_thread, upd₁_apply, if_true, Thread.work, List.length_append,
      List.length_cons, List.length_nil, Option.elim_none, Nat.add_assoc, Nat.add_comm 1]
    omega
  | checkSent ht =>
    refine hmove.work_lt_of_same hF (fun _ => rfl) ?_
    simp [ht, Thread.work]
  | @routeRemote x m e channel ht =>
    have hle := (m.retarget e.peerAddress.endpointName).underway_le (L := L)
    refine hmove.work_lt_of_same hF (fun _ => rfl) ?_
    simp [ht, Thread.work, Batch.work, Message.due, Caller.work] at hle ⊢
    omega
  | @routeLocal x m e peer ht =>
    have hle := (m.retarget e.peerAddress.endpointName).resting_le (L := L)
      (x := e.peerAddress.endpointName)
    refine hmove.work_lt_of_same hF (fun _ => rfl) ?_
    simp [ht, Thread.work, Nat.add_one_mul] at hle ⊢
    omega
  | @deliverToProxy x m e ht he _ hq =>
    have hle := Message.due_retarget_le (m := m) (hproxy x e he hq)
    refine hmove.work_lt_of_same hF (fun _ => rfl) ?_
    simp [ht, Thread.work, Batch.work, Caller.work]
    omega
  | @deliver x m e e' pipes ht he _ _ ha =>
    have hle := work_accept (L := L) (x := x) ha
    refine hmove.work_lt_of_change hF (hnames _ _ he) he rfl ?_
    simp [ht, Thread.work, Message.resting] at hle ⊢
    omega
  | _ => simp_all [Thread.routine]

theorem work_lt_of_flush (h : p.Move τ supply none o) (hF : τ ∈ F)
    (hr : (p.thread τ).routine = some .sendMessagesAndRecursiveDependents)
    (hnames : ∀ x e, p.localEndpoints.find x = some e → x ∈ L)
    (haged : ∀ d e, .described d ∈ (p.thread τ).tokens n →
      p.localEndpoints.find d.endpointName = some e →
      L.idxOf d.endpointName < L.idxOf d.crossNodeEndpointName) :
    o.process.work L F + (o.written.elim 0 fun w => w.2.work L) < p.work L F := by
  have hmove := h
  cases h with
  | @take b m done ds d e ht he =>
    have hle := Message.sum_due_le e.incomingMessageQueue
      (haged d e (by simp [ht, Thread.tokens]) he)
    refine hmove.work_lt_of_change hF (hnames _ _ he) he rfl ?_
    simp [ht, Thread.work, Batch.work] at hle ⊢
    omega
  | write ht =>
    refine hmove.work_lt_of_same hF (fun _ => rfl) ?_
    simp [ht, Thread.work, ChannelMessage.work, Message.underway]
    omega
  | unlock ht =>
    refine hmove.work_lt_of_same hF (fun _ => rfl) ?_
    simp [ht, Thread.work]
  | next ht hm =>
    refine hmove.work_lt_of_same hF (fun _ => rfl) ?_
    simp [ht, hm, Thread.work, Batch.work, Message.due]
    omega
  | drained ht hm hb =>
    refine hmove.work_lt_of_same hF (fun _ => rfl) ?_
    simp [ht, hm, hb, Thread.work, Batch.work, Caller.work]
  | sent ht | sentToProxy ht =>
    refine hmove.work_lt_of_same hF (fun _ => rfl) ?_
    simp [ht, Thread.work]
  | _ => simp_all [Thread.routine]

theorem work_lt_of_userMessage (h : p.Move τ supply none o) (hF : τ ∈ F)
    (hr : (p.thread τ).routine = some .onReceivedUserMessage)
    (hnames : ∀ x e, p.localEndpoints.find x = some e → x ∈ L)
    (hproxy : ∀ x e, p.localEndpoints.find x = some e → e.state = .kUnboundAndProxying →
      L.idxOf x < L.idxOf e.proxyTarget.endpointName) :
    o.process.work L F + (o.written.elim 0 fun w => w.2.work L) < p.work L F := by
  have hmove := h
  cases h with
  | receive ht =>
    refine hmove.work_lt_of_same hF (fun _ => rfl) ?_
    simp [ht, Thread.work, Message.resting]
    omega
  | recover ht hd =>
    refine hmove.work_lt_of_same hF (Core.queued_enroll hd) ?_
    simp [ht, Thread.work, Message.resting]
  | @relay x m done e ht he hq =>
    have hle := Message.underway_retarget_le (m := m) (hproxy x e he hq)
    refine hmove.work_lt_of_same hF (fun _ => rfl) ?_
    simp [ht, Thread.work, Message.resting, Message.underway] at hle ⊢
    omega
  | @dispatch x m done e e' ht he ha =>
    have hle := work_accept (L := L) (x := x) ha
    refine hmove.work_lt_of_change hF (hnames _ _ he) he rfl ?_
    simp [ht, Thread.work] at hle ⊢
    omega
  | @forward x k name m done ds d rest e ht hs he =>
    refine hmove.work_lt_of_same hF (Core.queued_rewrite he rfl (by rfl)) ?_
    simp only [ht, goto_thread, upd₁_apply, if_true, Thread.work, List.length_append,
      List.length_cons, List.length_nil, Option.elim_none, Nat.add_assoc, Nat.add_comm 1]
    omega
  | writeForwarded ht =>
    refine hmove.work_lt_of_same hF (fun _ => rfl) ?_
    simp [ht, Thread.work, ChannelMessage.work, Message.underway]
    omega
  | releaseTarget ht =>
    refine hmove.work_lt_of_same hF (fun _ => rfl) ?_
    simp [ht, Thread.work]
  | _ => simp_all [Thread.routine]

theorem work_lt_of_invitation (h : p.Move τ supply none o) (hF : τ ∈ F)
    (hr : (p.thread τ).routine = some .onReceivedInvitation) :
    o.process.work L F + (o.written.elim 0 fun w => w.2.work L) < p.work L F := by
  have hmove := h
  cases h with
  | rekeyInitial ht | accepted ht =>
    refine hmove.work_lt_of_same hF (fun _ => rfl) ?_
    simp [ht, Thread.work]
  | @accept i t x name rest ht hs =>
    refine hmove.work_lt_of_same hF (fun y => ?_) (by simp [ht, Thread.work])
    cases hf : p.localEndpoints.find name with
    | none => exact Core.queued_new hf (Table.insert_of_absent hf _) y
    | some e => rw [Core.queued, Core.queued, goto_toCore, Table.insert, hf]
  | reply ht =>
    refine hmove.work_lt_of_same hF (fun _ => rfl) ?_
    simp [ht, Thread.work, ChannelMessage.work]
  | _ => simp_all [Thread.routine]

theorem work_lt_of_acceptance (h : p.Move τ supply none o) (hF : τ ∈ F)
    (hr : (p.thread τ).routine = some .onReceivedAcceptInvitation)
    (htidy : (p.thread τ).Tidy T n p)
    (hnames : ∀ x e, p.localEndpoints.find x = some e → x ∈ L)
    (hproxy : ∀ x e, p.localEndpoints.find x = some e → e.state = .kUnboundAndProxying →
      L.idxOf x < L.idxOf e.proxyTarget.endpointName) :
    o.process.work L F + (o.written.elim 0 fun w => w.2.work L) < p.work L F := by
  have hmove := h
  cases h with
  | acknowledge ht | rekey ht | acknowledged ht =>
    refine hmove.work_lt_of_same hF (fun _ => rfl) ?_
    simp [ht, Thread.work]
  | @reserve t k x r e ht he =>
    refine hmove.work_lt_of_same hF (Core.queued_rewrite he rfl (by rfl)) ?_
    simp [ht, Thread.work]
  | @drain r channel e ht he =>
    rw [ht] at htidy
    obtain ⟨e', he', hq⟩ := htidy
    rw [he, Option.some.injEq] at he'
    subst he'
    have hle := Message.sum_due_le e.incomingMessageQueue (hproxy r e he hq)
    refine hmove.work_lt_of_change hF (hnames _ _ he) he rfl ?_
    simp [ht, Thread.work, Batch.work, Caller.work] at hle ⊢
    omega
  | _ => simp_all [Thread.routine]

theorem work_lt_of_inviting (h : p.Move τ supply none o) (hF : τ ∈ F)
    (hr : (p.thread τ).routine = some .sendInvitationAndGetMessagePipe) :
    o.process.work L F + (o.written.elim 0 fun w => w.2.work L) < p.work L F := by
  have hmove := h
  cases h with
  | invite ht hs hx hy hxy =>
    refine hmove.work_lt_of_same hF (Core.queued_enroll_two hx hy hxy) ?_
    simp [ht, Thread.work]

  | createChannel ht | insertPending ht =>
    refine hmove.work_lt_of_same hF (fun _ => rfl) ?_
    simp [ht, Thread.work]
  | startChannel ht =>
    refine hmove.work_lt_of_same hF (fun _ => rfl) ?_
    simp [ht, Thread.work, ChannelMessage.work]
  | _ => simp_all [Thread.routine]

/-- Every step of a thread under way leaves less to do, what it writes included. -/
theorem work_lt (h : p.Move τ supply none o) (htidy : (p.thread τ).Tidy T n p) (hF : τ ∈ F)
    (hnames : ∀ x e, p.localEndpoints.find x = some e → x ∈ L)
    (hproxy : ∀ x e, p.localEndpoints.find x = some e → e.state = .kUnboundAndProxying →
      L.idxOf x < L.idxOf e.proxyTarget.endpointName)
    (haged : ∀ d e, .described d ∈ (p.thread τ).tokens n →
      p.localEndpoints.find d.endpointName = some e →
      L.idxOf d.endpointName < L.idxOf d.crossNodeEndpointName) :
    o.process.work L F + (o.written.elim 0 fun w => w.2.work L) < p.work L F := by
  cases hr : (p.thread τ).routine with
  | none => exact absurd (Thread.routine_eq_none.1 hr) h.not_idle
  | some r =>
    cases r with
    | sendMessage => exact h.work_lt_of_sendMessage hF hr hnames hproxy
    | sendMessagesAndRecursiveDependents => exact h.work_lt_of_flush hF hr hnames haged
    | onReceivedUserMessage => exact h.work_lt_of_userMessage hF hr hnames hproxy
    | onReceivedInvitation => exact h.work_lt_of_invitation hF hr
    | onReceivedAcceptInvitation => exact h.work_lt_of_acceptance hF hr htidy hnames hproxy
    | sendInvitationAndGetMessagePipe => exact h.work_lt_of_inviting hF hr

end Process.Move
end Mage
