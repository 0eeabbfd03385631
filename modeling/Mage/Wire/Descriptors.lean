import Mage.Safety.Handles
import Mage.Wire.Message

/-! Endpoint descriptors in memory, and the two ways in which pipes are made of them again: the handles
    they were made of, in the same process, or new endpoints in another. -/

namespace Mage.Wire
open Lib

/-! ### In memory -/

namespace Descriptor

/-- Where the members of an `EndpointDescriptor` are. -/
def endpointName : ℕ := 0
def crossNodeEndpointName : ℕ := 15
def peerNodeName : ℕ := 30
def peerEndpointName : ℕ := 45

/-- All four names have the size of an identifier. -/
structure Sized (d : EndpointDescriptor) : Prop where
  endpointName : d.endpointName.length = kIdentifierSize
  crossNodeEndpointName : d.crossNodeEndpointName.length = kIdentifierSize
  peerNodeName : d.peerNodeName.length = kIdentifierSize
  peerEndpointName : d.peerEndpointName.length = kIdentifierSize

/-- A descriptor in memory. -/
def bytes (d : EndpointDescriptor) : List UInt8 :=
  d.endpointName ++ (d.crossNodeEndpointName ++ (d.peerNodeName ++ d.peerEndpointName))

theorem Sized.length_bytes {d : EndpointDescriptor} (h : Sized d) :
    (bytes d).length = sizeofEndpointDescriptor := by
  simp [bytes, h.endpointName, h.crossNodeEndpointName, h.peerNodeName, h.peerEndpointName,
    sizeofEndpointDescriptor, kIdentifierSize]

end Descriptor

namespace Message

/-- `memcpy(a, name.c_str(), kIdentifierSize)`. -/
def copyName (m : Message) (a : ℕ) (name : Identifier) : Message :=
  m.store a (name.take kIdentifierSize)

/-- The `memcpy` into `MessageHeader::target_endpoint`. -/
def retarget (m : Message) (name : Identifier) : Message :=
  m.copyName (m.address + MessageHeader.targetEndpoint) name

/-- The names of `d` are copied to the descriptor at `a`. -/
def populate (m : Message) (a : ℕ) (d : EndpointDescriptor) : Message :=
  (((m.copyName (a + Descriptor.endpointName) d.endpointName).copyName
    (a + Descriptor.crossNodeEndpointName) d.crossNodeEndpointName).copyName
      (a + Descriptor.peerNodeName) d.peerNodeName).copyName
        (a + Descriptor.peerEndpointName) d.peerEndpointName

/-- The descriptor at `a`. -/
def descriptorAt (m : Message) (a : ℕ) : EndpointDescriptor where
  endpointName := m.load (a + Descriptor.endpointName) kIdentifierSize
  crossNodeEndpointName := m.load (a + Descriptor.crossNodeEndpointName) kIdentifierSize
  peerNodeName := m.load (a + Descriptor.peerNodeName) kIdentifierSize
  peerEndpointName := m.load (a + Descriptor.peerEndpointName) kIdentifierSize

/-- The addresses of the descriptors in the array that the header points to. -/
def getEndpointDescriptors (m : Message) : List ℕ :=
  match m.getPointer (m.address + MessageHeader.endpointsInMessage) with
  | none => []
  | some array => (List.range (m.numElements array).toNat).map fun i =>
    array + sizeofArrayHeader + sizeofEndpointDescriptor * i

section
variable {m : Message} {d : EndpointDescriptor} {i : ℕ}

theorem copyName_bytes {name : Identifier} (h : name.length = kIdentifierSize) :
    (m.copyName (m.address + i) name).bytes = overwrite m.bytes i name := by
  rw [copyName, List.take_of_length_le h.le, store_add]

@[simp] theorem copyName_address {a : ℕ} {name : Identifier} :
    (m.copyName a name).address = m.address := rfl

@[simp] theorem populate_address {a : ℕ} : (m.populate a d).address = m.address := rfl
@[simp] theorem populate_pipes {a : ℕ} : (m.populate a d).pipes = m.pipes := rfl

/-- A name that is copied right behind what was written before. -/
theorem copyName_behind {m' : Message} {part : List UInt8} {name : Identifier}
    (hb : m'.bytes = overwrite m.bytes i part) (ha : m'.address = m.address)
    (hname : name.length = kIdentifierSize)
    (hfit : i + (part.length + kIdentifierSize) ≤ m.bytes.length) :
    (m'.copyName (m.address + (i + part.length)) name).bytes = overwrite m.bytes i (part ++ name) := by
  rw [← ha, copyName_bytes hname, hb, overwrite_overwrite]
  rw [hname]
  exact hfit

/-- The four names follow one another. -/
theorem populate_bytes (hd : Descriptor.Sized d)
    (hi : i + sizeofEndpointDescriptor ≤ m.bytes.length) :
    (m.populate (m.address + i) d).bytes = overwrite m.bytes i (Descriptor.bytes d) := by
  obtain ⟨h₁, h₂, h₃, h₄⟩ := hd
  have hk : kIdentifierSize = 15 := rfl
  have hsize : sizeofEndpointDescriptor = 60 := rfl
  have b₁ : (m.copyName (m.address + i) d.endpointName).bytes =
      overwrite m.bytes i d.endpointName := copyName_bytes h₁
  have b₂ := copyName_behind b₁ rfl h₂ (by omega)
  have b₃ := copyName_behind b₂ rfl h₃ (by rw [List.length_append]; omega)
  have b₄ := copyName_behind b₃ rfl h₄ (by simp only [List.length_append]; omega)
  have e₁ : Descriptor.endpointName = 0 := rfl
  have e₂ : Descriptor.crossNodeEndpointName = kIdentifierSize := rfl
  have e₃ : Descriptor.peerNodeName = kIdentifierSize + kIdentifierSize := rfl
  have e₄ : Descriptor.peerEndpointName = kIdentifierSize + kIdentifierSize + kIdentifierSize := rfl
  simp only [List.length_append, h₁, h₂, h₃] at b₄
  simpa only [populate, Descriptor.bytes, List.append_assoc, e₁, e₂, e₃, e₄, Nat.add_assoc,
    Nat.add_zero] using b₄

theorem descriptorAt_of_slice (hd : Descriptor.Sized d)
    (h : slice m.bytes i sizeofEndpointDescriptor = Descriptor.bytes d) :
    m.descriptorAt (m.address + i) = d := by
  obtain ⟨h₁, h₂, h₃, h₄⟩ := hd
  have hread : ∀ (j : ℕ) (before name after : List UInt8), j = before.length →
      name.length = kIdentifierSize → j + kIdentifierSize ≤ sizeofEndpointDescriptor →
      Descriptor.bytes d = before ++ (name ++ after) →
      m.load (m.address + i + j) kIdentifierSize = name := by
    intro j before name after hj hname hfit heq
    rw [Nat.add_assoc, load_add, ← slice_slice hfit, h, heq, hj, ← Nat.add_zero before.length,
      slice_append_right, ← hname, slice_append (by omega), slice_all]
  have e₁ := hread Descriptor.endpointName [] d.endpointName _ rfl h₁ (by decide) rfl
  have e₂ := hread Descriptor.crossNodeEndpointName d.endpointName d.crossNodeEndpointName _
    h₁.symm h₂ (by decide) rfl
  have e₃ := hread Descriptor.peerNodeName (d.endpointName ++ d.crossNodeEndpointName)
    d.peerNodeName d.peerEndpointName (by rw [List.length_append, h₁, h₂]; rfl) h₃ (by decide)
    (by rw [Descriptor.bytes, List.append_assoc])
  have e₄ := hread Descriptor.peerEndpointName
    (d.endpointName ++ d.crossNodeEndpointName ++ d.peerNodeName) d.peerEndpointName []
    (by simp only [List.length_append, h₁, h₂, h₃]; rfl) h₄ (by decide)
    (by simp only [Descriptor.bytes, List.append_assoc, List.append_nil])
  rw [descriptorAt, e₁, e₂, e₃, e₄]

/-- The array of descriptors is found and read. -/
theorem map_descriptorAt {ds : List EndpointDescriptor} (hds : ∀ d ∈ ds, Descriptor.Sized d)
    (hlt : ds.length < 2 ^ 31)
    (hptr : m.getPointer (m.address + MessageHeader.endpointsInMessage) = some (m.address + i))
    (hn : slice m.bytes i sizeofArrayHeader = intBytes ds.length)
    (harray : slice m.bytes (i + sizeofArrayHeader) (sizeofEndpointDescriptor * ds.length) =
      (ds.map Descriptor.bytes).flatten) : m.getEndpointDescriptors.map m.descriptorAt = ds := by
  have hnum : (m.numElements (m.address + i)).toNat = ds.length := by
    have hn : slice m.bytes i sizeofInt = intBytes ds.length := hn
    rw [numElements, load_add, hn, asInt_intBytes ⟨by omega, by omega⟩, Int.toNat_natCast]
  rw [getEndpointDescriptors, hptr]
  simp only [hnum, List.map_map]
  refine List.ext_getElem (by simp) fun k _ hk => ?_
  rw [List.getElem_map, List.getElem_range, Function.comp_apply, Nat.add_assoc, Nat.add_assoc]
  refine descriptorAt_of_slice (hds _ (List.getElem_mem hk)) ?_
  have hfit : sizeofEndpointDescriptor * k + sizeofEndpointDescriptor ≤
      sizeofEndpointDescriptor * ds.length := by
    rw [← Nat.mul_succ]
    exact Nat.mul_le_mul_left _ hk
  rw [← Nat.add_assoc, ← slice_slice hfit, harray]
  refine slice_flatten (fun p hp => ?_) (by rw [List.getElem?_map, List.getElem?_eq_getElem hk]; rfl)
  obtain ⟨d, hd, rfl⟩ := List.mem_map.1 hp
  exact (hds d hd).length_bytes

end
end Message

/-! ### Of handles, and handles again -/

/-- `Core::PopulateEndpointDescriptor`, on the name that it draws: the names it copies to the descriptor. -/
def populateEndpointDescriptor (c : Core) (crossNodeEndpointName : Identifier)
    (handleToSend handleOfPreexistingConnection : MessagePipe) : Except Stop EndpointDescriptor := do
  let carrier ← orFail (c.findHandle handleOfPreexistingConnection) (.check .handleNotFound)
  let x ← orFail (c.findHandle handleToSend) (.check .handleNotFound)
  c.populateEndpointDescriptor x carrier crossNodeEndpointName

/-- The loop of `Endpoint::AcceptMessageOnDelegateThread`. Others may change the tables meanwhile:
    `core k` is what the `k`-th descriptor is looked up in. -/
def queueExistingPipes (core : ℕ → Core) : ℕ → List ℕ → Message → Except Stop Message
  | _, [], m => return m
  | k, a :: rest, m => do
    let pipe ← (core k).recoverExistingMessagePipeFromEndpointDescriptor (m.descriptorAt a)
    queueExistingPipes core (k + 1) rest (m.queuePipe pipe)

/-- What is registered stays registered, under the same handles. -/
structure Kept (c c' : Core) : Prop where
  handles : ∀ h x, c.findHandle h = some x → c'.findHandle h = some x
  endpoints : Table.Later c.localEndpoints c'.localEndpoints

/-- The loop of `Node::OnReceivedUserMessage`, with what others do to the tables in between. -/
inductive Recovers : Core → List EndpointDescriptor → List MessagePipe → Core → Prop where
  | nil {c c' : Core} (hk : Kept c c') : Recovers c [] [] c'
  | cons {c c₁ c₂ c' : Core} {d : EndpointDescriptor} {ds : List EndpointDescriptor}
      {pipe : MessagePipe} {pipes : List MessagePipe} (hk : Kept c c₁)
      (hd : c₁.recoverNewMessagePipeFromEndpointDescriptor d = .ok (pipe, c₂))
      (h : Recovers c₂ ds pipes c') : Recovers c (d :: ds) (pipe :: pipes) c'

/-- The pipe is a handle of an endpoint that was made of `d`. -/
def Backed (c : Core) (pipe : MessagePipe) (d : EndpointDescriptor) : Prop :=
  c.findHandle pipe = some d.crossNodeEndpointName ∧
    ∃ e, c.localEndpoints.find d.crossNodeEndpointName = some e ∧
      e.name = d.crossNodeEndpointName ∧ e.peerAddress = d.peerAddress

section
variable {c c' c'' : Core} {d : EndpointDescriptor} {pipe : MessagePipe}

theorem Kept.refl (c : Core) : Kept c c := ⟨fun _ _ h => h, .refl _⟩

theorem Kept.trans (h : Kept c c') (h' : Kept c' c'') : Kept c c'' :=
  ⟨fun k x hk => h'.handles k x (h.handles k x hk), h.endpoints.trans h'.endpoints⟩

theorem Kept.backed (h : Kept c c') (hb : Backed c pipe d) : Backed c' pipe d := by
  obtain ⟨hh, e, he, hname, hpeer⟩ := hb
  obtain ⟨e', he', hl⟩ := h.endpoints _ _ he
  exact ⟨h.handles _ _ hh, e', he', hl.name.trans hname, hl.peer.trans hpeer⟩

theorem recoverNew_spec
    (h : c.recoverNewMessagePipeFromEndpointDescriptor d = .ok (pipe, c')) :
    Kept c c' ∧ Backed c' pipe d := by
  simp only [Core.recoverNewMessagePipeFromEndpointDescriptor, Core.getNextMessagePipe, bind_eq_ok,
    pure_eq_ok, Prod.mk.injEq] at h
  obtain ⟨c₁, hreg, rfl, rfl⟩ := h
  obtain ⟨hfree, habsent, rfl⟩ := Core.registerLocalHandleAndEndpoint_eq hreg
  have hfree : c.handleTable.lookup c.nextAvailableHandle = none := hfree
  refine ⟨⟨fun k x hk => ?_, .set_new habsent _⟩, ?_, .new d.crossNodeEndpointName d.peerAddress,
    ?_, rfl, rfl⟩
  · rw [Core.findHandle, Core.lookup_insertHandle]
    split_ifs with hkc
    · have hk : c.handleTable.lookup k = some x := hk
      rw [hkc, hfree] at hk
      cases hk
    · exact hk
  · rw [Core.findHandle, Core.lookup_insertHandle, if_pos rfl, hfree]
    rfl
  · exact (Table.find_set _ _ _ _).trans (if_pos rfl)

theorem Recovers.spec {ds : List EndpointDescriptor} {pipes : List MessagePipe}
    (h : Recovers c ds pipes c') : Kept c c' ∧ List.Forall₂ (Backed c') pipes ds := by
  induction h with
  | nil hk => exact ⟨hk, .nil⟩
  | cons hk hd _ ih =>
    obtain ⟨hnew, hbacked⟩ := recoverNew_spec hd
    exact ⟨hk.trans (hnew.trans ih.1), .cons (ih.1.backed hbacked) ih.2⟩

/-- What a handle is looked up for. -/
theorem populate_spec {name : Identifier} {carrier : MessagePipe}
    (h : populateEndpointDescriptor c name pipe carrier = .ok d) :
    ∃ x e, c.findHandle pipe = some x ∧ c.localEndpoints.find x = some e ∧
      d = ⟨e.name, name, e.peerAddress.nodeName, e.peerAddress.endpointName⟩ := by
  simp only [populateEndpointDescriptor, Core.populateEndpointDescriptor, bind_eq_ok,
    orFail_eq_ok, Core.endpoint_eq_ok, check_eq_ok, pure_eq_ok] at h
  obtain ⟨_, -, x, hx, _, -, _, -, e, he, rfl⟩ := h
  exact ⟨x, e, hx, he, rfl⟩

/-- The handle that a descriptor was made of is the one that is found for it. -/
theorem recoverExisting_of_populate {name : Identifier} {carrier : MessagePipe}
    (h : populateEndpointDescriptor c name pipe carrier = .ok d) (hn : Named c.localEndpoints)
    (hk : Kept c c') (ht : c'.Tidy) (hone : c'.handled.Nodup) :
    c'.recoverExistingMessagePipeFromEndpointDescriptor d = .ok pipe := by
  obtain ⟨x, e, hx, he, rfl⟩ := populate_spec h
  rw [ht.recoverExisting_iff hone, hn x e he]
  exact hk.handles pipe x hx

end

/-! ### In every reachable state -/

section
variable {T : Topology} {s s' : Network} {n : Identifier}

/-- An act of any node keeps what is registered in node `n`. -/
theorem Act.kept {m : Identifier} {τ : ThreadId} {c : Option Call} {o : Outcome}
    (ha : Act T s m τ c o) (n : Identifier) :
    Kept (s.process n).toCore ((s.apply m o).process n).toCore := by
  by_cases hm : n = m
  · subst hm
    simp only [Network.apply_process, upd₁_apply, if_true]
    exact ⟨fun k x => ha.move.handle, ha.move.later⟩
  · rw [Network.apply_process, upd₁_apply, if_neg hm]
    exact .refl _

theorem Network.Runs.kept {ok : Label → Prop} (h : s.Runs T ok s') (hr : Reachable T s)
    (n : Identifier) : Kept (s.process n).toCore (s'.process n).toCore := by
  refine (h.induct hr (P := fun u => Kept (s.process n).toCore (u.process n).toCore) (.refl _)
    (fun u m τ c o _ hP ha _ => hP.trans (Act.kept ha n)) fun u m ch msg rest _ hP _ _ => ?_).2
  rw [(Handshake.core_consume n).1]
  exact hP

/-- Every name that an endpoint has has the size of an identifier. -/
theorem Reachable.sized (h : Reachable T s) {x : Identifier} {e : Endpoint}
    (he : (s.process n).localEndpoints.find x = some e) : x.length = kIdentifierSize ∧
      e.peerAddress.nodeName.length = kIdentifierSize ∧
      e.peerAddress.endpointName.length = kIdentifierSize := by
  have hports := h.sound.ports
  have hport : s.ports.port ⟨n, x⟩ = some e.port := Network.port_eq_some.2 ⟨e, he, rfl⟩
  have hpeer : s.ports.peer ⟨n, x⟩ = some e.peerAddress := by rw [Ports.peer, hport]; rfl
  obtain ⟨q, hq, -⟩ := hports.links.mate _ _ (.port hpeer)
  have hmate : s.ports.port e.peerAddress ≠ none := by
    intro hnone
    rw [Ports.peer, hnone] at hq
    cases hq
  obtain ⟨-, hx⟩ := hports.names.node ⟨n, x⟩ (by rw [hport]; exact Option.some_ne_none _)
  obtain ⟨hnode, hname⟩ := hports.names.node _ hmate
  exact ⟨T.names_length _ hx, T.node_length _ hnode, T.names_length _ hname⟩

theorem Reachable.populate_sized (h : Reachable T s) {name : Identifier}
    {pipe carrier : MessagePipe} {d : EndpointDescriptor} (hname : name.length = kIdentifierSize)
    (hd : populateEndpointDescriptor (s.process n).toCore name pipe carrier = .ok d) :
    Descriptor.Sized d := by
  obtain ⟨x, e, -, he, rfl⟩ := populate_spec hd
  obtain ⟨h₁, h₂, h₃⟩ := Reachable.sized h he
  exact ⟨(h.named n x e he) ▸ h₁, hname, h₂, h₃⟩

end
end Mage.Wire
