import Mage.Lib.Ledger
import Mage.Model.Network

/-! The network seen from far away: which endpoints exist, who their peers are and where the proxies
    point, together with a ledger of everything that stands for an endpoint while it changes hands
    (a handle of the embedder, a descriptor in a queue, in a thread or on a wire, an invitation). -/

namespace Mage
open Lib

/-- The two nodes share a socket. -/
def Linked (T : Topology) (n m : Identifier) : Prop := (n, m) ∈ T.invites ∨ (m, n) ∈ T.invites

theorem Linked.symm {T : Topology} {n m : Identifier} (h : Linked T n m) : Linked T m n :=
  Or.symm h

theorem Linked.node {T : Topology} {n m : Identifier} (h : Linked T n m) : m ∈ T.nodes := by
  rcases h with h | h
  · exact (T.invites_nodes _ h).2
  · exact (T.invites_nodes _ h).1

theorem Linked.ne {T : Topology} {n m : Identifier} (h : Linked T n m) : m ≠ n := by
  rcases h with h | h
  · exact (T.invites_irrefl _ h).symm
  · exact T.invites_irrefl _ h

/-- What an endpoint is doing, without its messages. -/
inductive Status where
  | bound | queueing | proxying (target : Address)
  deriving DecidableEq

structure Port where
  peer : Address
  status : Status
  deriving DecidableEq

/-- Where a token can be: with the embedder, with a thread, in the queue of an endpoint, in
    `pendingInvitations` under a temporary name, or on the way to another node. -/
inductive Place where
  | held (n : Identifier)
  | hand (n : Identifier) (τ : ThreadId)
  | queue (n x : Identifier)
  | pending (n t : Identifier)
  | wire (n m : Identifier)
  deriving DecidableEq

inductive Token where
  /-- The right to use endpoint `x`. -/
  | right (x : Identifier)
  /-- Endpoint `x` is set aside for the node that accepts an invitation. -/
  | reserved (x : Identifier)
  /-- A descriptor whose message has not left this node since it was written, or will stay here. -/
  | described (d : EndpointDescriptor)
  /-- A descriptor on its way to node `t`, whose sender is proxying already. -/
  | crossing (t : Identifier) (d : EndpointDescriptor)
  /-- A descriptor that arrived and whose endpoint was created here. -/
  | recovered (d : EndpointDescriptor)
  /-- An invitation that names the inviter's own end `host`. -/
  | invitation (host : Address)
  /-- An acceptance that names the acceptor's new endpoint `guest`. -/
  | acceptance (guest : Address)
  deriving DecidableEq

/-- The name a token will register an endpoint by. -/
def Token.cross : Token → Option Identifier
  | .described d => some d.crossNodeEndpointName
  | .crossing _ d => some d.crossNodeEndpointName
  | _ => none

structure Ports where
  port : Address → Option Port
  tokens : Place → List Token
  supply : List Identifier

/-- The node a place is in, when it is in one. -/
def Place.node : Place → Option Identifier
  | .held n => some n
  | .hand n _ => some n
  | .queue n _ => some n
  | .pending n _ => some n
  | .wire _ _ => none

/-- No node has an endpoint of this name. -/
def Ports.Unregistered (v : Ports) (k : Identifier) : Prop := ∀ n, v.port ⟨n, k⟩ = none

/-- What a token may become when it goes from one place to another. -/
inductive Passes (v : Ports) : Place → Place → Token → Token → Prop where
  | take {n x τ} (hb : ∀ q, v.port ⟨n, x⟩ = some q → q.status ≠ .bound) :
      Passes v (.held n) (.hand n τ) (.right x) (.right x)
  | give {n x τ} : Passes v (.hand n τ) (.held n) (.right x) (.right x)
  | queue {n x d τ} : Passes v (.hand n τ) (.queue n x) (.described d) (.described d)
  | queueRecovered {n x d τ} : Passes v (.hand n τ) (.queue n x) (.recovered d) (.described d)
  | post {n d τ q} (hq : v.port ⟨n, d.endpointName⟩ = some q) :
      Passes v (.hand n τ) (.held n) (.described d) (.right d.endpointName)
  | postRecovered {n d τ} :
      Passes v (.hand n τ) (.held n) (.recovered d) (.right d.crossNodeEndpointName)
  | replay {n y d q} (hq : v.port ⟨n, d.endpointName⟩ = some q) :
      Passes v (.queue n y) (.held n) (.described d) (.right d.endpointName)
  | replayRecovered {n y d} (hq : v.port ⟨n, d.endpointName⟩ = none) :
      Passes v (.queue n y) (.held n) (.described d) (.right d.crossNodeEndpointName)
  | drain {n y d τ} : Passes v (.queue n y) (.hand n τ) (.described d) (.described d)
  | send {n t d τ} (hn : t ≠ n) : Passes v (.hand n τ) (.wire n t) (.crossing t d) (.crossing t d)
  | receive {n t d} : Passes v (.wire n t) (.hand t .io) (.crossing t d) (.crossing t d)
  | invite {n t a τ} : Passes v (.hand n τ) (.wire n t) (.invitation a) (.invitation a)
  | invited {n t a} : Passes v (.wire n t) (.hand t .io) (.invitation a) (.invitation a)
  | reply {n t a τ} : Passes v (.hand n τ) (.wire n t) (.acceptance a) (.acceptance a)
  | replied {n t a} : Passes v (.wire n t) (.hand t .io) (.acceptance a) (.acceptance a)
  | reserve {n t x τ} : Passes v (.hand n τ) (.pending n t) (.reserved x) (.reserved x)
  | claim {n t x τ} : Passes v (.pending n t) (.hand n τ) (.reserved x) (.reserved x)

/-- One step of the network, seen from far away. -/
inductive Effect (T : Topology) (v v' : Ports) : Prop where
  /-- Nothing, or a name is drawn for something else. -/
  | quiet (hp : v'.port = v.port) (hs : v'.supply <:+ v.supply)
      (ht : ∀ P, (v'.tokens P).Perm (v.tokens P))
  | pass {P Q : Place} {r b : List Token} (hp : v'.port = v.port) (hs : v'.supply = v.supply)
      (ht : Transfer v.tokens v'.tokens P Q r b) (hc : List.Forall₂ (Passes v P Q) r b)
  /-- A right is lost. -/
  | drop {P : Place} {x : Identifier} (hp : v'.port = v.port) (hs : v'.supply = v.supply)
      (ht : Swap v.tokens v'.tokens P [.right x] [])
  /-- Two entangled endpoints, for the embedder or for an invitation. -/
  | create {n x y : Identifier} {P : Place} {a : List Token} (hn : n ∈ T.nodes)
      (hs : v.supply = x :: y :: v'.supply)
      (hp : v'.port = upd₁ (upd₁ v.port ⟨n, x⟩ (some ⟨⟨n, y⟩, .queueing⟩)) ⟨n, y⟩
        (some ⟨⟨n, x⟩, .queueing⟩))
      (ht : Swap v.tokens v'.tokens P [] a)
      (ha : (P = .held n ∧ a = [.right x, .right y]) ∨
        ∃ τ, P = .hand n τ ∧ a = [.right x, .reserved y, .invitation ⟨n, x⟩])
  /-- `PopulateEndpointDescriptor`. -/
  | describe {n x c : Identifier} {τ : ThreadId} {q : Port} (hs : v.supply = c :: v'.supply)
      (hp : v'.port = v.port) (hq : v.port ⟨n, x⟩ = some q)
      (ht : Swap v.tokens v'.tokens (.hand n τ) [.right x]
        [.described ⟨x, c, q.peer.nodeName, q.peer.endpointName⟩])
  /-- `SetProxying` in `SendMessagesAndRecursiveDependents`. -/
  | move {n t : Identifier} {τ : ThreadId} {d : EndpointDescriptor} {p : Address}
      (hl : Linked T n t) (hq : v.port ⟨n, d.endpointName⟩ = some ⟨p, .queueing⟩)
      (hp : v'.port = upd₁ v.port ⟨n, d.endpointName⟩
        (some ⟨p, .proxying ⟨t, d.crossNodeEndpointName⟩⟩)) (hs : v'.supply = v.supply)
      (ht : Swap v.tokens v'.tokens (.hand n τ) [.described d] [.crossing t d])
  /-- `RecoverNewMessagePipeFromEndpointDescriptor`. -/
  | recover {n : Identifier} {τ : ThreadId} {d : EndpointDescriptor}
      (hp : v'.port = upd₁ v.port ⟨n, d.crossNodeEndpointName⟩ (some ⟨d.peerAddress, .queueing⟩))
      (hs : v'.supply = v.supply)
      (ht : Swap v.tokens v'.tokens (.hand n τ) [.crossing n d] [.recovered d])
  /-- `PrepareToForwardUserMessage`. -/
  | forward {n t c : Identifier} {τ : ThreadId} {d : EndpointDescriptor} {p : Address}
      (hl : Linked T n t) (hs : v.supply = c :: v'.supply)
      (hq : v.port ⟨n, d.crossNodeEndpointName⟩ = some ⟨p, .queueing⟩)
      (hp : v'.port = upd₁ v.port ⟨n, d.crossNodeEndpointName⟩ (some ⟨p, .proxying ⟨t, c⟩⟩))
      (ht : Swap v.tokens v'.tokens (.hand n τ) [.recovered d]
        [.crossing t { d with
          endpointName := d.crossNodeEndpointName, crossNodeEndpointName := c }])
  /-- The acceptor of an invitation creates its endpoint. -/
  | accept {n i x e : Identifier} {τ : ThreadId} (hl : Linked T i n)
      (hs : v.supply = e :: v'.supply)
      (hp : v'.port = upd₁ v.port ⟨n, e⟩ (some ⟨⟨i, x⟩, .queueing⟩))
      (ht : Swap v.tokens v'.tokens (.hand n τ) [.invitation ⟨i, x⟩]
        [.right e, .acceptance ⟨n, e⟩])
  /-- The inviter makes its reserved endpoint a proxy of the acceptor's. -/
  | acknowledge {n r : Identifier} {g p : Address} {τ : ThreadId} {q : Port}
      (hl : Linked T n g.nodeName) (hq : v.port ⟨n, r⟩ = some ⟨p, .queueing⟩)
      (hg : v.port g = some q) (hpeer : q.peer = p)
      (hp : v'.port = upd₁ v.port ⟨n, r⟩ (some ⟨p, .proxying g⟩)) (hs : v'.supply = v.supply)
      (ht : Swap v.tokens v'.tokens (.hand n τ) [.reserved r, .acceptance g] [])
  /-- `RegisterDelegate`. -/
  | bind {n x : Identifier} {p : Address} (hq : v.port ⟨n, x⟩ = some ⟨p, .queueing⟩)
      (hr : .right x ∈ v.tokens (.held n))
      (hp : v'.port = upd₁ v.port ⟨n, x⟩ (some ⟨p, .bound⟩)) (hs : v'.supply = v.supply)
      (ht : ∀ P, (v'.tokens P).Perm (v.tokens P))

end Mage
