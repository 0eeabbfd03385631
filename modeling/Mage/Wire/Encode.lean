import Mage.Wire.View

/-! Every message of a channel has bytes, if its size is an `int`: nodes only write names of the size of
    an identifier. The bytes are those of a buffer as the proxy allocates it, with nothing in between. -/

namespace Mage.Wire
open Lib

/-- How many bytes the buffer of `M` has. -/
def bufferLength (M : Mage.Message) : ℕ :=
  endsAt M + (sizeofArrayHeader + sizeofEndpointDescriptor * M.endpointsInMessage.length)

/-- The members of the header up to the array of endpoints, padded with zeros. -/
def header (M : Mage.Message) : List UInt8 :=
  intBytes (bufferLength M) ++ (intBytes MessageType.userMessage.value ++
    (intBytes M.userMessageId ++ (M.targetEndpoint ++ List.replicate 5 0)))

/-- The pointer to the array of endpoints. -/
def pointer (M : Mage.Message) : List UInt8 :=
  toBytes sizeofPointer (endsAt M - MessageHeader.endpointsInMessage)

/-- The elements of the array of endpoints. -/
def endpoints (M : Mage.Message) : List UInt8 := (M.endpointsInMessage.map Descriptor.bytes).flatten

/-- The buffer of `M`. -/
def encode (M : Mage.Message) : List UInt8 :=
  header M ++ (pointer M ++ (M.body ++ (intBytes M.endpointsInMessage.length ++ endpoints M)))

/-- The values of the program's types: an `int` for the method, and an `int` for the size. -/
def Fits (M : Mage.Message) : Prop := IsInt M.userMessageId ∧ bufferLength M < 2 ^ 31

instance (M : Mage.Message) : Decidable (Fits M) :=
  inferInstanceAs (Decidable (IsInt M.userMessageId ∧ bufferLength M < 2 ^ 31))

section
variable {M : Mage.Message}

theorem length_header (hname : M.targetEndpoint.length = kIdentifierSize) :
    (header M).length = MessageHeader.endpointsInMessage := by
  have hk : kIdentifierSize = 15 := rfl
  have hends : MessageHeader.endpointsInMessage = 32 := rfl
  simp only [header, List.length_append, length_intBytes, List.length_replicate]
  omega

theorem length_pointer (M : Mage.Message) : (pointer M).length = sizeofPointer := length_toBytes _ _

theorem length_endpoints (hs : ∀ d ∈ M.endpointsInMessage, Descriptor.Sized d) :
    (endpoints M).length = sizeofEndpointDescriptor * M.endpointsInMessage.length := by
  rw [endpoints, length_flatten_of_length (w := sizeofEndpointDescriptor), List.length_map]
  intro p hp
  obtain ⟨d, hd, rfl⟩ := List.mem_map.1 hp
  exact (hs d hd).length_bytes

theorem length_encode (hname : M.targetEndpoint.length = kIdentifierSize)
    (hs : ∀ d ∈ M.endpointsInMessage, Descriptor.Sized d) : (encode M).length = bufferLength M := by
  have hends : MessageHeader.endpointsInMessage = 32 := rfl
  have hsizeof : MessageHeader.sizeof = 40 := rfl
  have hpointer : sizeofPointer = 8 := rfl
  have harray : sizeofArrayHeader = 4 := rfl
  simp only [encode, List.length_append, length_header hname, length_pointer, length_intBytes,
    length_endpoints hs, bufferLength, endsAt]
  omega

/-- A part of the header is found in the buffer. -/
theorem slice_header {i n : ℕ} {part : List UInt8} (before after : List UInt8)
    (hi : before.length = i) (hn : part.length = n) (h : header M = before ++ (part ++ after)) :
    slice (encode M) i n = part := by
  have hlen := congrArg List.length h
  rw [List.length_append, List.length_append] at hlen
  rw [encode, slice_append (by omega)]
  exact slice_part before after hi hn h

theorem encode_encodes (hf : Fits M) (hname : M.targetEndpoint.length = kIdentifierSize)
    (hs : ∀ d ∈ M.endpointsInMessage, Descriptor.Sized d) : Encodes M (encode M) := by
  have hk : kIdentifierSize = 15 := rfl
  have hends : MessageHeader.endpointsInMessage = 32 := rfl
  have hsizeof : MessageHeader.sizeof = 40 := rfl
  have hpointer : sizeofPointer = 8 := rfl
  have harray : sizeofArrayHeader = 4 := rfl
  have hlen := length_encode hname hs
  have hheader := length_header hname
  refine ⟨hf.1, hname, hs, hlen ▸ hf.2, hlen, ?_, ?_, ?_, ?_, ?_, ?_, ?_, ?_⟩
  · rw [hlen]
    exact slice_header [] _ rfl (length_intBytes _) rfl
  · exact slice_header (intBytes (bufferLength M)) _ (length_intBytes _) (length_intBytes _) rfl
  · refine slice_header (intBytes (bufferLength M) ++ intBytes MessageType.userMessage.value)
      (M.targetEndpoint ++ List.replicate 5 0) ?_ (length_intBytes _) ?_
    · rw [List.length_append, length_intBytes, length_intBytes]
      rfl
    · rw [header, List.append_assoc]
  · refine slice_header (intBytes (bufferLength M) ++
      (intBytes MessageType.userMessage.value ++ intBytes M.userMessageId)) (List.replicate 5 0) ?_
      hname ?_
    · rw [List.length_append, List.length_append, length_intBytes, length_intBytes, length_intBytes]
      rfl
    · rw [header, List.append_assoc, List.append_assoc]
  · exact slice_part (header M) _ hheader (length_pointer M) rfl
  · refine slice_part (header M ++ pointer M) _ ?_ rfl (List.append_assoc _ _ _).symm
    rw [List.length_append, hheader, length_pointer]
    rfl
  · refine slice_part (header M ++ (pointer M ++ M.body)) (endpoints M) ?_ (length_intBytes _) ?_
    · rw [List.length_append, List.length_append, hheader, length_pointer, endsAt]
      omega
    · rw [encode, List.append_assoc, List.append_assoc]
  · refine slice_part (header M ++ (pointer M ++ (M.body ++ intBytes M.endpointsInMessage.length))) []
      ?_ (length_endpoints hs) ?_
    · simp only [List.length_append, hheader, length_pointer, length_intBytes, endsAt]
      omega
    · rw [encode, endpoints, List.append_nil, List.append_assoc, List.append_assoc, List.append_assoc]

end
end Mage.Wire
