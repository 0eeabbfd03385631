import Mage.Model.Network

/-! Runs that can be computed. What the embedder may call is decidable, so a list of labels can be
    followed step by step from the initial state; wherever it leads is a reachable state. -/

namespace Mage
open Lib

instance (T : Topology) (n : Identifier) (p : Process) (c : Call) : Decidable (Allowed T n p c) := by
  cases c with
  | sendInvitationAndGetMessagePipe fd callback =>
    refine decidable_of_iff
      ((n, fd) ∈ T.invites ∧ p.invitations.all fun e => match e with
        | .sent channel _ => channel ≠ fd
        | .accepted _ _ => true) ?_
    rw [List.all_eq_true]
    refine and_congr_right fun _ => forall₂_congr fun e _ => ?_
    cases e <;> simp
  | _ => unfold Allowed; infer_instance

instance (T : Topology) (s : Network) (l : Label) : Decidable (Permitted T s l) :=
  match l with
  | .call n _ c => inferInstanceAs (Decidable (n ∈ T.nodes ∧ Allowed T n (s.process n) c))
  | .read n _ | .run n _ => inferInstanceAs (Decidable (n ∈ T.nodes))

namespace Label

/-- A call by thread `τ`, and the next `k` steps of the thread. -/
def calling (n : Identifier) (τ : ThreadId) (c : Call) (k : ℕ) : List Label :=
  .call n τ c :: List.replicate k (.run n τ)

/-- The thread that makes the step. -/
def thread : Label → ThreadId
  | .call _ τ _ | .run _ τ => τ
  | .read _ _ => .io

/-- The receipt of a message, and the next `k` steps of the thread that read it. -/
def reading (n : Identifier) (channel : Channel) (k : ℕ) : List Label :=
  .read n channel :: List.replicate k (.run n .io)

end Label

namespace Network

/-- Why a step cannot be taken, if it cannot. -/
def stops (s : Network) (l : Label) : Option Stop :=
  match s.step l with
  | .ok _ => none
  | .error e => some e

theorem stops_eq_some {s : Network} {l : Label} {e : Stop} :
    s.stops l = some e ↔ s.step l = .error e := by
  rw [stops]
  cases s.step l <;> simp

section
variable (T : Topology) (ok : Network → Label → Prop) [∀ s l, Decidable (ok s l)]

/-- What is computed at the end of a list of steps is true of a reachable state. -/
theorem exists_of_follow (ls : List Label) (P : Network → Prop) [DecidablePred P]
    (h : (Reaches.follow step (fun s l => Permitted T s l ∧ ok s l) (initial T) ls).any (P ·) =
      true) : ∃ s, ReachableBy T ok s ∧ P s := by
  obtain ⟨s, hs, hP⟩ := (Option.any_eq_true _ _).1 h
  exact ⟨s, Reaches.of_follow .init hs, of_decide_eq_true hP⟩

end

instance (s : Network) (l : Label) : Decidable ((fun _ _ => True : Network → Label → Prop) s l) :=
  .isTrue trivial

end Network

/-! ### Three nodes to try things on -/

namespace Sample

def word (k : UInt8) : Identifier := k :: List.replicate 14 0

def inviter : Identifier := word 200

def acceptor : Identifier := word 201

def other : Identifier := word 202

def names : List Identifier := (List.range 24).map fun k => word k.toUInt8

/-- One inviter and one acceptor. -/
def pair : Topology where
  nodes := [inviter, acceptor]
  invites := [(inviter, acceptor)]
  names := names
  node_length := by decide
  invites_nodes := by decide
  invites_irrefl := by decide
  invites_asymm := by decide
  names_nodup := by decide +kernel
  names_length := by decide +kernel
  names_fresh := by decide +kernel

/-- An inviter with two acceptors. -/
def fork : Topology where
  nodes := [inviter, acceptor, other]
  invites := [(inviter, acceptor), (inviter, other)]
  names := names
  node_length := by decide
  invites_nodes := by decide
  invites_irrefl := by decide
  invites_asymm := by decide
  names_nodup := by decide +kernel
  names_length := by decide +kernel
  names_fresh := by decide +kernel

/-- Node `n` accepts the invitation it was sent, and the inviter settles it. -/
def acceptance (n : Identifier) : List Label :=
  [.call n (.user 0) (.acceptInvitation inviter 0)] ++ Label.reading n inviter 4 ++
  Label.reading inviter n 6

/-- The inviter invites `n`, which accepts. -/
def invitation (n : Identifier) (callback : Option Callback) : List Label :=
  Label.calling inviter (.user 0) (.sendInvitationAndGetMessagePipe n callback) 4 ++ acceptance n

/-- The inviter is half-way through the acceptance: the endpoint is a proxy. -/
def accepting : List Label :=
  Label.calling inviter (.user 0) (.sendInvitationAndGetMessagePipe acceptor none) 4 ++
  [.call acceptor (.user 0) (.acceptInvitation inviter 0)] ++ Label.reading acceptor inviter 4 ++
  Label.reading inviter acceptor 2

/-- The inviter sends two invitations, each with a callback, before either is accepted. -/
def outstanding : List Label :=
  Label.calling inviter (.user 0) (.sendInvitationAndGetMessagePipe acceptor (some 7)) 4 ++
  Label.calling inviter (.user 0) (.sendInvitationAndGetMessagePipe other (some 8)) 4 ++
  acceptance acceptor ++ acceptance other

/-- After the acceptance the inviter sends one end of a new pipe over the first one. -/
def carrying : List Label := invitation acceptor none ++
  Label.calling inviter (.user 0) .createMessagePipes 0 ++
  Label.calling inviter (.user 0) (.sendMessage 1 8 [2] [3]) 8

/-- The acceptor binds its end of the first pipe and is sent one end of a second pipe. -/
def bound : List Label := invitation acceptor none ++
  [.call acceptor (.user 0) (.bindReceiverDelegateToEndpoint 1 0 0)] ++
  Label.calling inviter (.user 0) .createMessagePipes 0 ++
  Label.calling inviter (.user 0) (.sendMessage 1 8 [2] [3]) 10

/-- It keeps that end while a message with one end of a third pipe arrives on it. -/
def queueing : List Label := bound ++
  Label.reading acceptor inviter 4 ++
  Label.calling inviter (.user 0) .createMessagePipes 0 ++
  Label.calling inviter (.user 0) (.sendMessage 4 9 [3] [5]) 10 ++
  Label.reading acceptor inviter 4

/-- Then it passes the second pipe on. -/
def passingOn : List Label := queueing ++
  Label.calling acceptor (.user 0) (.sendMessage 1 10 [4] [2]) 9

/-- The acceptor queues a message on one end of a new pipe and sends that end away. The thread that
    sends it has the queued message still to write. -/
def draining : List Label := invitation acceptor none ++
  Label.calling acceptor (.user 0) .createMessagePipes 0 ++
  Label.calling acceptor (.user 0) (.sendMessage 3 8 [2] []) 3 ++
  Label.calling acceptor (.user 0) (.sendMessage 1 9 [3] [2]) 8

/-- Meanwhile another thread sends one more message to that end. -/
def overtaking : List Label := draining ++
  Label.calling acceptor (.user 1) (.sendMessage 3 10 [4] []) 5

/-- That thread sends it when the drained message is written. -/
def following : List Label := draining ++
  List.replicate 2 (.run acceptor (.user 0)) ++
  Label.calling acceptor (.user 1) (.sendMessage 3 10 [4] []) 5

/-- The inviter passes its end of the pipe to one acceptor on to the other; the first acceptor makes a
    new pipe, to send one end of it over the old one. -/
def relaying : List Label := invitation acceptor none ++ invitation other none ++
  Label.calling inviter (.user 0) (.sendMessage 3 8 [2] [1]) 10 ++
  Label.calling acceptor (.user 0) .createMessagePipes 0

/-- One acceptor sends one end of a new pipe to the inviter, which passes it on to the other acceptor;
    that one sends a message over it, for an endpoint of a node it has no channel to. -/
def stranding : List Label := invitation acceptor none ++ invitation other none ++
  [.call inviter (.user 0) (.bindReceiverDelegateToEndpoint 1 0 0),
    .call other (.user 0) (.bindReceiverDelegateToEndpoint 1 0 0)] ++
  Label.calling acceptor (.user 0) .createMessagePipes 0 ++
  Label.calling acceptor (.user 0) (.sendMessage 1 8 [2] [3]) 9 ++
  Label.reading inviter acceptor 4 ++
  Label.calling inviter (.user 0) (.sendMessage 3 8 [2] [5]) 10 ++
  Label.reading other inviter 4 ++
  Label.calling other (.user 0) (.sendMessage 2 9 [3] []) 1

end Sample
end Mage
