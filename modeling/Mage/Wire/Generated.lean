import Mage.Wire.Channel
import Mage.Wire.Descriptors
import Mage.Wire.Params

/-! The classes that `mage/public/parser/classes.tmpl` generates for an interface: a proxy, whose methods
    put their arguments into a message, and a receiver stub, which takes them out and invokes the method
    of the implementation. -/

namespace Mage.Wire
open Lib

/-- Which assertion stops a generated function: one about a buffer, or one about the process. -/
inductive Failure where
  | buffer (c : Check)
  | process (s : Stop)
  deriving DecidableEq

instance : MonadLift (Except Check) (Except Failure) := ⟨Except.mapError .buffer⟩
instance : MonadLift (Except Stop) (Except Failure) := ⟨Except.mapError .process⟩

theorem lift_buffer {α : Type} (a : α) :
    (liftM (Except.ok a : Except Check α) : Except Failure α) = .ok a := rfl

theorem lift_process {α : Type} (a : α) :
    (liftM (Except.ok a : Except Stop α) : Except Failure α) = .ok a := rfl

/-- `GetMutableMessageHeader().user_message_id`. -/
def Message.userMessageId (m : Message) : ℤ :=
  asInt (ofBytes (m.load (m.address + MessageHeader.userMessageId) sizeofInt))

/-! ### The proxy -/

structure Proxy where
  bound : Bool
  localHandle : MessagePipe

/-- A method of the proxy while it serializes; `endpoints_to_write` as it is in memory. -/
structure Serialization where
  message : Message
  endpointsToWrite : List (List UInt8)

section
variable (h : Host) (core : ℕ → Core) (name : ℕ → Identifier)

namespace Proxy

/-- One argument, whose member of the `Params` in `fragment` is at `offset`. The `k`-th pipe is looked up
    in `core k`, and described with the name `name k`. -/
def serialize (proxy : Proxy) (fragment : MessageFragment) (s : Serialization) (offset : ℕ) :
    Value → Except Failure Serialization
  | .scalar x => do
    let params ← fragment.data s.message
    return { s with message := s.message.store (params + offset) x.bytes }
  | .string x => do
    let (array, m) ← MessageFragment.allocateArray s.message 1 (asInt x.length)
      (h.address (s.message.bytes.length + (sizeofArrayHeader + x.length)))
    let header ← array.data m
    let m := m.store (header + sizeofArrayHeader) x
    let params ← fragment.data m
    let ptr ← array.data m
    let m ← m.setPointer (params + offset) ptr
    return { s with message := m }
  | .messagePipe x => do
    let params ← fragment.data s.message
    let k := s.endpointsToWrite.length
    let d ← populateEndpointDescriptor (core k) (name k) x proxy.localHandle
    let m := s.message.populate (params + offset) d
    return ⟨m, s.endpointsToWrite ++ [m.load (params + offset) sizeofEndpointDescriptor]⟩

/-- The loop that writes the endpoints, from the one with number `i` on. -/
def writeEndpoints (array : MessageFragment) : ℕ → List (List UInt8) → Message →
    Except Failure Message
  | _, [], m => return m
  | i, d :: rest, m => do
    let header ← array.data m
    writeEndpoints array (i + 1) rest
      (m.store (header + sizeofArrayHeader + sizeofEndpointDescriptor * i) d)

/-- The body of the method with these types of arguments, up to the call of `SendMessage`, when the names
    `bound_` and `local_handle_` mean the members of `proxy`, and the name of the ID means `id`. -/
def call (proxy : Proxy) (id : ℤ) (types : List MagenType) (args : List Value) :
    Except Failure Message := do
  check proxy.bound (.buffer .bound)
  let m := Message.new .userMessage (h.address MessageHeader.sizeof)
  let (fragment, m) := MessageFragment.allocate m (Params.sizeof types)
    (h.address (MessageHeader.sizeof + Params.sizeof types))
  let numEndpointsInMessage := (types.filter MagenType.isHandleType).length
  let s ← ((Params.members types).zip args).foldlM
    (fun s x => proxy.serialize h core name fragment s x.1 x.2) ⟨m, []⟩
  let header ← s.message.get 0
  let m := s.message.store (header + MessageHeader.userMessageId) (intBytes id)
  check (numEndpointsInMessage = s.endpointsToWrite.length) (.buffer .numberOfEndpoints)
  let (array, m) ← MessageFragment.allocateArray m sizeofEndpointDescriptor numEndpointsInMessage
    (h.address (m.bytes.length + (sizeofArrayHeader + sizeofEndpointDescriptor * numEndpointsInMessage)))
  let m ← writeEndpoints array 0 s.endpointsToWrite m
  let header ← m.get 0
  let ptr ← array.data m
  let m ← m.setPointer (header + MessageHeader.endpointsInMessage) ptr
  return m.finalizeSize

/-- The method: what it sends, and over which handle. Its names mean its parameters first. -/
def method (proxy : Proxy) (hash : Magen.Text → ℤ) (I : Interface) (m : Method)
    (args : List Value) : Except Failure (MessagePipe × Message) := do
  let bound := ((m.argument args boundName).map Value.toBool).getD proxy.bound
  let localHandle :=
    ((m.argument args localHandleName).map Value.toMessagePipe).getD proxy.localHandle
  let id := ((m.argument args (I.idName m)).map Value.toInt).getD (I.methodID hash m)
  let message ← call h core name ⟨bound, localHandle⟩ id m.types args
  return (localHandle, message)

/-- Each argument that hides a name has the value of what it hides. -/
structure Agrees (proxy : Proxy) (hash : Magen.Text → ℤ) (I : Interface) (m : Method)
    (args : List Value) : Prop where
  bound : ∀ v, m.argument args boundName = some v → v.toBool = true
  localHandle : ∀ v, m.argument args localHandleName = some v → v.toMessagePipe = proxy.localHandle
  id : ∀ v, m.argument args (I.idName m) = some v → v.toInt = I.methodID hash m

section
variable {h core name} {proxy : Proxy} {hash : Magen.Text → ℤ} {I : Interface} {m : Method}
  {args : List Value}

/-- Then the names mean the members of the proxy and the ID. -/
theorem Agrees.method_eq (ha : proxy.Agrees hash I m args) (hbound : proxy.bound = true) :
    proxy.method h core name hash I m args =
      (proxy.call h core name (I.methodID hash m) m.types args).map (proxy.localHandle, ·) := by
  have hb : ((m.argument args boundName).map Value.toBool).getD proxy.bound = proxy.bound := by
    cases hv : m.argument args boundName with
    | none => rfl
    | some v => exact (ha.bound v hv).trans hbound.symm
  have hl : ((m.argument args localHandleName).map Value.toMessagePipe).getD proxy.localHandle =
      proxy.localHandle := by
    cases hv : m.argument args localHandleName with
    | none => rfl
    | some v => exact ha.localHandle v hv
  have hid : ((m.argument args (I.idName m)).map Value.toInt).getD (I.methodID hash m) =
      I.methodID hash m := by
    cases hv : m.argument args (I.idName m) with
    | none => rfl
    | some v => exact ha.id v hv
  rw [method, hb, hl, hid]
  cases proxy.call h core name (I.methodID hash m) m.types args <;> rfl

theorem agrees_of_unhidden (hI : I.Unhidden) (hm : m ∈ I.methods) : proxy.Agrees hash I m args where
  bound v hv := by simp [hI.argument hm] at hv
  localHandle v hv := by simp [hI.argument hm] at hv
  id v hv := by simp [hI.argument hm] at hv

end

end Proxy
end

/-! ### The receiver stub -/

/-- A call of a method of the implementation. -/
structure Invocation where
  method : Method
  arguments : List Value

namespace ReceiverStub

/-- The argument of type `t` whose member of the `Params` at `params` is at `offset`. -/
def deserialize (params offset : ℕ) (message : Message) :
    MagenType → Except Failure (Value × Message)
  | .scalar t => return (.scalar (t.read (message.load (params + offset) t.sizeof)), message)
  | .string => do
    let array ← orFail (message.getPointer (params + offset)) (.buffer .nullPointer)
    let numElements := message.numElements array
    check (0 ≤ numElements) (.buffer .lengthError)
    return (.string (message.load (array + sizeofArrayHeader) numElements.toNat), message)
  | .messagePipe => do
    let (pipe, message) ← message.takeNextPipe
    return (.messagePipe pipe, message)

/-- Each argument in turn, with its offset and its type. -/
def deserializeAll (params : ℕ) : List (ℕ × MagenType) → Message →
    Except Failure (List Value × Message)
  | [], message => return ([], message)
  | (offset, t) :: rest, message => do
    let (v, message) ← deserialize params offset message t
    let (args, message) ← deserializeAll params rest message
    return (v :: args, message)

/-- What is invoked, and what is left of the message then. -/
def onReceivedMessage (hash : Magen.Text → ℤ) (I : Interface) (message : Message) :
    Except Failure (Invocation × Message) := do
  let userMessageId := message.userMessageId
  match I.methods.find? fun m => userMessageId = I.methodID hash m with
  | none => throw (.buffer .notReached)
  | some m => do
    let params ← message.get MessageHeader.sizeof
    check (params ≠ 0) (.buffer .noParams)
    let (args, message) ← deserializeAll params ((Params.members m.types).zip m.types) message
    return (⟨m, args⟩, message)

end ReceiverStub
end Mage.Wire
