import Mage.Lib.Bytes
import Mage.Lib.Checked
import Mage.Model.Message

/-! Messages as bytes (`mage/public/message.h`, `mage/core/message.cc`). A buffer is a list of bytes at
    an address that changes whenever the buffer grows; a pointer within it is stored as the distance
    from the place where the pointer itself is. Sizes and alignments are those of a 64-bit platform:
    `int` has 4 bytes, `long`, `double` and `uint64_t` have 8. -/

namespace Mage.Wire
open Lib

/-- The assertions about buffers, by what they assert when they fail. -/
inductive Check where
  | startingIndex | pointerOrder | bound | numberOfEndpoints | noPipes | noParams | nullPointer
  | messageSize | lengthError | shortWrite | shortHeader | shortBody | notReached
  deriving DecidableEq

/-- The conversion of an integer to `int`. -/
def asInt (x : ℤ) : ℤ := x.bmod (2 ^ 32)

/-- The values of an `int`. -/
def IsInt (x : ℤ) : Prop := -2 ^ 31 ≤ x ∧ x < 2 ^ 31

instance (x : ℤ) : Decidable (IsInt x) := by unfold IsInt; infer_instance

theorem asInt_of_isInt {x : ℤ} (h : IsInt x) : asInt x = x := by
  obtain ⟨h1, h2⟩ := h
  rw [asInt, Int.bmod_def]
  omega

theorem isInt_asInt (x : ℤ) : IsInt (asInt x) := by
  rw [IsInt, asInt, Int.bmod_def]
  omega

theorem asInt_natCast {n : ℕ} (h : n < 2 ^ 31) : asInt n = n := asInt_of_isInt ⟨by omega, by omega⟩

/-- An `int` in memory. -/
def intBytes (x : ℤ) : List UInt8 := toBytes 4 (x % 2 ^ 32).toNat

/-- The `int` in the four bytes from position `i` on. -/
def intAt (l : List UInt8) (i : ℕ) : ℤ := asInt (ofBytes (slice l i 4))

@[simp] theorem length_intBytes (x : ℤ) : (intBytes x).length = 4 := length_toBytes 4 _

theorem asInt_intBytes {x : ℤ} (h : IsInt x) : asInt (ofBytes (intBytes x)) = x := by
  have hlt : (x % 2 ^ 32).toNat < 256 ^ 4 := by omega
  rw [intBytes, ofBytes_toBytes_of_lt hlt]
  obtain ⟨h1, h2⟩ := h
  rw [asInt, Int.bmod_def]
  omega

theorem intBytes_asInt {l : List UInt8} (h : l.length = 4) : intBytes (asInt (ofBytes l)) = l := by
  have hlt : ofBytes l < 256 ^ 4 := h ▸ ofBytes_lt l
  have hmod : (asInt (ofBytes l) % 2 ^ 32).toNat = ofBytes l := by
    rw [asInt, Int.bmod_def]
    omega
  rw [intBytes, hmod, ← h, toBytes_ofBytes]

theorem intAt_of_slice {l : List UInt8} {i : ℕ} {x : ℤ} (h : slice l i 4 = intBytes x)
    (hx : IsInt x) : intAt l i = x := by
  rw [intAt, h, asInt_intBytes hx]

theorem intAt_overwrite {l : List UInt8} {i : ℕ} {x : ℤ} (h : i + 4 ≤ l.length) (hx : IsInt x) :
    intAt (overwrite l i (intBytes x)) i = x := by
  refine intAt_of_slice ?_ hx
  have := slice_overwrite (l := l) (i := i) (p := intBytes x) (by rw [length_intBytes]; exact h)
  rwa [length_intBytes] at this

/-! ### Layout -/

def sizeofInt : ℕ := 4

/-- A `Pointer` holds a `uint64_t`. -/
def sizeofPointer : ℕ := 8

/-- An `ArrayHeader` holds its number of elements; the elements follow it. -/
def sizeofArrayHeader : ℕ := sizeofInt

/-- Four names. -/
def sizeofEndpointDescriptor : ℕ := 4 * kIdentifierSize

namespace MessageHeader

/-- Where the members of a `MessageHeader` are: three `int`s, a name, and a pointer, which is aligned. -/
def size : ℕ := 0
def type : ℕ := 4
def userMessageId : ℕ := 8
def targetEndpoint : ℕ := 12
def endpointsInMessage : ℕ := 32
def sizeof : ℕ := 40

end MessageHeader

inductive MessageType where
  | sendInvitation | acceptInvitation | userMessage
  deriving DecidableEq

/-- The value of the enumerator. -/
def MessageType.value : MessageType → ℤ
  | .sendInvitation => 0
  | .acceptInvitation => 1
  | .userMessage => 2

/-! ### Pointers -/

/-- `EncodePointer`, on addresses; the null pointer is `0`. -/
def encodePointer (ptrStorage outOffset : ℕ) : Except Check ℕ :=
  if ptrStorage = 0 then return 0
  else do
    check (ptrStorage > outOffset) .pointerOrder
    return ptrStorage - outOffset

/-- `DecodePointer`, of the `offset` found at `address`. -/
def decodePointer (offset address : ℕ) : Option ℕ :=
  if offset = 0 then none else some (address + offset)

/-! ### Messages -/

/-- A `std::vector<char>`: its bytes, and where they are. -/
structure Buffer where
  address : ℕ
  bytes : List UInt8
  deriving DecidableEq

/-- A `resize` after which the bytes are at `address`. -/
def Buffer.resize (b : Buffer) (size address : ℕ) : Buffer :=
  ⟨address, b.bytes.take size ++ List.replicate (size - b.bytes.length) 0⟩

structure Message where
  payloadBuffer : Buffer
  pipes : List MessagePipe
  deriving DecidableEq

namespace Message

def bytes (m : Message) : List UInt8 := m.payloadBuffer.bytes

def address (m : Message) : ℕ := m.payloadBuffer.address

/-- Write `part` to memory from the address `a` on, which is in the buffer. -/
def store (m : Message) (a : ℕ) (part : List UInt8) : Message :=
  { m with payloadBuffer := ⟨m.address, overwrite m.bytes (a - m.address) part⟩ }

/-- The `n` bytes from the address `a` on. -/
def load (m : Message) (a n : ℕ) : List UInt8 := slice m.bytes (a - m.address) n

/-- The constructor; the buffer is put at `address`. -/
def new (type : MessageType) (address : ℕ) : Message :=
  let m : Message := ⟨Buffer.resize ⟨0, []⟩ MessageHeader.sizeof address, []⟩
  m.store (m.address + MessageHeader.type) (intBytes type.value)

/-- The address of the fragment that starts at `startingIndex`. -/
def get (m : Message) (startingIndex : ℤ) : Except Check ℕ := do
  check (0 ≤ startingIndex) .startingIndex
  return m.address + startingIndex.toNat

def finalizeSize (m : Message) : Message :=
  m.store (m.address + MessageHeader.size) (intBytes (asInt m.bytes.length))

/-- The bytes at another address, as after a copy. -/
def copy (m : Message) (address : ℕ) : Message := { m with payloadBuffer := ⟨address, m.bytes⟩ }

/-- `Pointer::Set` of the pointer at address `this`. -/
def setPointer (m : Message) (this ptr : ℕ) : Except Check Message := do
  let offset ← encodePointer ptr this
  return m.store this (toBytes sizeofPointer offset)

/-- `Pointer::Get` of the pointer at address `this`. -/
def getPointer (m : Message) (this : ℕ) : Option ℕ :=
  decodePointer (ofBytes (m.load this sizeofPointer)) this

/-- `num_elements` of the array header at `address`. -/
def numElements (m : Message) (address : ℕ) : ℤ := asInt (ofBytes (m.load address sizeofInt))

/-- The `Size` and the `Type` that the header holds. -/
def size (m : Message) : ℤ := asInt (ofBytes (m.load (m.address + MessageHeader.size) sizeofInt))
def type (m : Message) : ℤ := asInt (ofBytes (m.load (m.address + MessageHeader.type) sizeofInt))

def queuePipe (m : Message) (pipe : MessagePipe) : Message := { m with pipes := m.pipes ++ [pipe] }

def takeNextPipe (m : Message) : Except Check (MessagePipe × Message) :=
  match m.pipes with
  | [] => throw .noPipes
  | pipe :: rest => return (pipe, { m with pipes := rest })

section Fields
variable (m : Message) (a : ℕ) (part : List UInt8)

@[simp] theorem store_address : (m.store a part).address = m.address := rfl
@[simp] theorem store_bytes :
    (m.store a part).bytes = overwrite m.bytes (a - m.address) part := rfl
@[simp] theorem store_pipes : (m.store a part).pipes = m.pipes := rfl
@[simp] theorem copy_address : (m.copy a).address = a := rfl
@[simp] theorem copy_bytes : (m.copy a).bytes = m.bytes := rfl
@[simp] theorem copy_pipes : (m.copy a).pipes = m.pipes := rfl
@[simp] theorem finalizeSize_address : m.finalizeSize.address = m.address := rfl

end Fields

theorem load_add (m : Message) (i n : ℕ) : m.load (m.address + i) n = slice m.bytes i n := by
  rw [load, Nat.add_sub_cancel_left]

theorem size_eq (m : Message) : m.size = intAt m.bytes MessageHeader.size := by
  rw [size, load_add]
  rfl

theorem type_eq (m : Message) : m.type = intAt m.bytes MessageHeader.type := by
  rw [type, load_add]
  rfl

theorem store_add (m : Message) (i : ℕ) (part : List UInt8) :
    (m.store (m.address + i) part).bytes = overwrite m.bytes i part := by
  rw [store_bytes, Nat.add_sub_cancel_left]

theorem bytes_finalizeSize (m : Message) : m.finalizeSize.bytes =
    overwrite m.bytes MessageHeader.size (intBytes (asInt m.bytes.length)) := by
  rw [finalizeSize, store_add]

theorem get_natCast (m : Message) (k : ℕ) : m.get k = .ok (m.address + k) := by
  simp [get, check, bind, Except.bind, pure, Except.pure]

theorem get_zero (m : Message) : m.get 0 = .ok m.address := m.get_natCast 0

/-- A pointer that lies before what it is set to holds the distance. -/
theorem setPointer_add (m : Message) {i k : ℕ} (h : i < k) :
    m.setPointer (m.address + i) (m.address + k) =
      .ok (m.store (m.address + i) (toBytes sizeofPointer (k - i))) := by
  simp only [setPointer, encodePointer, bind_eq_ok]
  refine ⟨k - i, ?_, rfl⟩
  rw [if_neg (by omega)]
  simp only [bind_eq_ok, check_eq_ok, pure_eq_ok]
  exact ⟨(), by omega, by omega⟩

/-- A pointer that holds the distance leads there. -/
theorem getPointer_add (m : Message) {i k : ℕ} (h : i < k) (hk : k < 2 ^ 31)
    (hm : slice m.bytes i sizeofPointer = toBytes sizeofPointer (k - i)) :
    m.getPointer (m.address + i) = some (m.address + k) := by
  have hsize : sizeofPointer = 8 := rfl
  have hof : ofBytes (toBytes sizeofPointer (k - i)) = k - i :=
    ofBytes_toBytes_of_lt (by rw [hsize]; omega)
  rw [getPointer, load_add, hm, hof, decodePointer, if_neg (by omega)]
  congr 1
  omega

/-- A new message is its header, with nothing in it but the type. -/
theorem bytes_new (type : MessageType) (address : ℕ) : (new type address).bytes =
    overwrite (List.replicate MessageHeader.sizeof 0) MessageHeader.type (intBytes type.value) := by
  simp only [new]
  rw [store_add]
  rfl

theorem length_new (type : MessageType) (address : ℕ) :
    (new type address).bytes.length = MessageHeader.sizeof := by
  rw [bytes_new, length_overwrite, List.length_replicate]
  rw [length_intBytes, List.length_replicate]
  decide

end Message

/-! ### Fragments -/

def kInvalidFragmentStartingIndex : ℤ := -1

/-- A `MessageFragment`, apart from the message it refers to. -/
structure MessageFragment where
  startingIndex : ℤ := kInvalidFragmentStartingIndex
  deriving DecidableEq

namespace MessageFragment

/-- Grow the buffer by an `int`, as both kinds of fragments do. -/
def grow (m : Message) (numBytesToAllocate : ℤ) (address : ℕ) : Message :=
  { m with payloadBuffer :=
      m.payloadBuffer.resize (((m.bytes.length : ℤ) + numBytesToAllocate) % 2 ^ 64).toNat address }

/-- `Allocate`, for a type of `sizeof` bytes; the grown buffer is at `address`. -/
def allocate (m : Message) (sizeof address : ℕ) : MessageFragment × Message :=
  (⟨asInt m.bytes.length⟩, grow m (asInt sizeof) address)

/-- Must only be invoked after `Allocate`. -/
def data (f : MessageFragment) (m : Message) : Except Check ℕ := m.get f.startingIndex

/-- `AllocateArray`, for elements of `sizeof` bytes. -/
def allocateArray (m : Message) (sizeof : ℕ) (numElements : ℤ) (address : ℕ) :
    Except Check (MessageFragment × Message) := do
  let f : MessageFragment := ⟨asInt m.bytes.length⟩
  let m := grow m (asInt (sizeofArrayHeader + sizeof * numElements)) address
  let arrayHeader ← f.data m
  return (f, m.store arrayHeader (intBytes numElements))

theorem data_natCast (m : Message) (k : ℕ) :
    (⟨k⟩ : MessageFragment).data m = .ok (m.address + k) := m.get_natCast k

section
variable {m : Message} {n sizeof address : ℕ}

/-- As long as sizes fit an `int`, growing appends zeros. -/
theorem grow_eq (h : m.bytes.length + n < 2 ^ 31) : grow m (asInt n) address =
    { m with payloadBuffer := ⟨address, m.bytes ++ List.replicate n 0⟩ } := by
  have hsize : (((m.bytes.length : ℤ) + asInt n) % 2 ^ 64).toNat = m.bytes.length + n := by
    rw [asInt_natCast (by omega)]
    omega
  have htake : m.payloadBuffer.bytes.take (m.bytes.length + n) = m.bytes :=
    List.take_of_length_le (Nat.le_add_right _ _)
  rw [grow, hsize, Buffer.resize, htake]
  change Message.mk ⟨_, _ ++ List.replicate (m.bytes.length + n - m.bytes.length) 0⟩ _ = _
  rw [Nat.add_sub_cancel_left]

theorem allocate_eq (h : m.bytes.length + sizeof < 2 ^ 31) : allocate m sizeof address =
    (⟨m.bytes.length⟩,
      { m with payloadBuffer := ⟨address, m.bytes ++ List.replicate sizeof 0⟩ }) := by
  rw [allocate, grow_eq h, asInt_natCast (by omega)]

theorem allocateArray_eq (h : m.bytes.length + (4 + sizeof * n) < 2 ^ 31) :
    allocateArray m sizeof n address = .ok (⟨m.bytes.length⟩, { m with payloadBuffer :=
      ⟨address, m.bytes ++ (intBytes n ++ List.replicate (sizeof * n) 0)⟩ }) := by
  have hcast : (sizeofArrayHeader + sizeof * n : ℤ) = ((4 + sizeof * n : ℕ) : ℤ) := by
    simp [sizeofArrayHeader, sizeofInt]
  have hget : (⟨m.bytes.length⟩ : MessageFragment).data { m with payloadBuffer :=
      ⟨address, m.bytes ++ List.replicate (4 + sizeof * n) 0⟩ } =
      .ok (address + m.bytes.length) := data_natCast _ _
  have hstore : overwrite (m.bytes ++ List.replicate (4 + sizeof * n) 0) m.bytes.length
      (intBytes n) = m.bytes ++ (intBytes n ++ List.replicate (sizeof * n) 0) := by
    simp [overwrite]
  rw [allocateArray, hcast, grow_eq h, asInt_natCast (by omega)]
  simp only [hget, bind, Except.bind, pure, Except.pure]
  rw [Message.store]
  simp only [Message.address, Message.bytes] at hstore ⊢
  rw [Nat.add_sub_cancel_left, hstore]

end

end MessageFragment
end Mage.Wire
