import Mathlib.Data.Int.Notation
import Mathlib.Data.Nat.Notation
import Mathlib.Tactic.Common

/-! The data that travels between nodes: identifiers, addresses, endpoint descriptors, and the three
    kinds of messages a channel carries (`mage/public/message.h`). Byte layout is the subject of the
    `Wire` modules; here a user message is its header fields, its descriptor array and an opaque
    body. -/

namespace Mage

/-- Node and endpoint names: strings of bytes, `kIdentifierSize` long when randomly generated. -/
abbrev Identifier := List UInt8

instance : LawfulBEq Identifier := inferInstance

def kIdentifierSize : ℕ := 15

/-- The placeholder key `"INIT"` of an acceptor's only channel until the invitation arrives. -/
def kInitialChannelName : Identifier := [73, 78, 73, 84]

/-- A handle of the embedder; each refers to one endpoint of its own process. -/
abbrev MessagePipe := UInt32

structure Address where
  nodeName : Identifier
  endpointName : Identifier
  deriving DecidableEq

/-- What a message carries in place of a pipe: enough to find the endpoint in the node the descriptor
    was made in (`endpointName`) and to re-create it in another (`crossNodeEndpointName`). -/
structure EndpointDescriptor where
  endpointName : Identifier
  crossNodeEndpointName : Identifier
  peerNodeName : Identifier
  peerEndpointName : Identifier
  deriving DecidableEq

/-- The peer of the described endpoint. -/
def EndpointDescriptor.peerAddress (d : EndpointDescriptor) : Address :=
  ⟨d.peerNodeName, d.peerEndpointName⟩

/-- A message of type `USER_MESSAGE`. `pipes` is the C++ object's queue of recovered handles; it is
    not part of the buffer and does not survive a channel. -/
structure Message where
  userMessageId : ℤ
  targetEndpoint : Identifier
  endpointsInMessage : List EndpointDescriptor
  body : List UInt8
  pipes : List MessagePipe
  deriving DecidableEq

/-- The part of a message that no node rewrites. -/
structure Payload where
  userMessageId : ℤ
  body : List UInt8
  deriving DecidableEq

namespace Message

def payload (m : Message) : Payload := ⟨m.userMessageId, m.body⟩

/-- The `memcpy` into `MessageHeader::target_endpoint`. -/
def retarget (m : Message) (name : Identifier) : Message := { m with targetEndpoint := name }

/-- What is left of a message once its buffer has been through a socket. -/
def buffer (m : Message) : Message := { m with pipes := [] }

def queuePipe (m : Message) (pipe : MessagePipe) : Message := { m with pipes := m.pipes ++ [pipe] }

/-- The names that the receiving node will register for the endpoints `m` carries. -/
def crossNames (m : Message) : List Identifier :=
  m.endpointsInMessage.map (·.crossNodeEndpointName)

@[simp] theorem payload_retarget (m : Message) (x : Identifier) :
    (m.retarget x).payload = m.payload := rfl
@[simp] theorem payload_buffer (m : Message) : m.buffer.payload = m.payload := rfl
@[simp] theorem payload_queuePipe (m : Message) (h : MessagePipe) :
    (m.queuePipe h).payload = m.payload := rfl
@[simp] theorem targetEndpoint_retarget (m : Message) (x : Identifier) :
    (m.retarget x).targetEndpoint = x := rfl
@[simp] theorem targetEndpoint_buffer (m : Message) :
    m.buffer.targetEndpoint = m.targetEndpoint := rfl
@[simp] theorem targetEndpoint_queuePipe (m : Message) (h : MessagePipe) :
    (m.queuePipe h).targetEndpoint = m.targetEndpoint := rfl
@[simp] theorem endpointsInMessage_retarget (m : Message) (x : Identifier) :
    (m.retarget x).endpointsInMessage = m.endpointsInMessage := rfl
@[simp] theorem endpointsInMessage_buffer (m : Message) :
    m.buffer.endpointsInMessage = m.endpointsInMessage := rfl
@[simp] theorem endpointsInMessage_queuePipe (m : Message) (h : MessagePipe) :
    (m.queuePipe h).endpointsInMessage = m.endpointsInMessage := rfl

end Message

/-- Everything that can be read from or written to a channel. -/
inductive ChannelMessage where
  | sendInvitation (inviterName temporaryRemoteNodeName intendedEndpointPeerName : Identifier)
  | acceptInvitation (temporaryRemoteNodeName actualNodeName acceptInvitationEndpointName : Identifier)
  | userMessage (m : Message)
  deriving DecidableEq

end Mage
