import Mage.Wire.Serialize

/-! Generated deserialization undoes generated serialization: the stub finds the arguments by the layout
    that the proxy put them in, wherever the buffer is, and takes the pipes from the message. -/

namespace Mage.Wire
open Lib

/-! ### Deserialization -/

section
variable {m : Message} {offset base stop : ℕ} {args : List Value} {ds : List EndpointDescriptor}

theorem Message.takeNextPipe_cons {pipe : MessagePipe} {rest : List MessagePipe}
    (hm : m.pipes = pipe :: rest) : m.takeNextPipe = .ok (pipe, { m with pipes := rest }) := by
  rw [takeNextPipe, hm]
  rfl

/-- A scalar is read as it was written. -/
theorem deserialize_scalar {x : Scalar}
    (hs : Stored base stop m.bytes (MessageHeader.sizeof + offset) (.scalar x)) :
    ReceiverStub.deserialize (m.address + MessageHeader.sizeof) offset m (Value.scalar x).type =
      .ok (.scalar x, m) := by
  have hread : m.load (m.address + (MessageHeader.sizeof + offset)) x.type.sizeof = x.bytes := by
    rw [Message.load_add]
    exact hs
  rw [Value.type, ReceiverStub.deserialize, Nat.add_assoc, hread, Scalar.read_bytes]
  rfl

/-- The pointer leads to the string, whatever its bytes are. -/
theorem deserialize_string {x : List UInt8}
    (hs : Stored base stop m.bytes (MessageHeader.sizeof + offset) (.string x))
    (hbase : MessageHeader.sizeof + offset + sizeofPointer ≤ base) (hstop : stop ≤ m.bytes.length)
    (hm : m.bytes.length < 2 ^ 31) :
    ReceiverStub.deserialize (m.address + MessageHeader.sizeof) offset m (Value.string x).type =
      .ok (.string x, m) := by
  have hpointer : sizeofPointer = 8 := rfl
  obtain ⟨q, hq, hfit, hptr, hnum, hstr⟩ := hs
  have hget : m.getPointer (m.address + (MessageHeader.sizeof + offset)) = some (m.address + q) :=
    m.getPointer_add (by omega) (by omega) hptr
  have helements : m.numElements (m.address + q) = x.length := by
    have hnum : slice m.bytes q sizeofInt = intBytes x.length := hnum
    rw [Message.numElements, Message.load_add, hnum, asInt_intBytes ⟨by omega, by omega⟩]
  have hcheck : check (0 ≤ (x.length : ℤ)) (Failure.buffer .lengthError) = .ok () :=
    check_eq_ok.2 (Int.natCast_nonneg _)
  have hread : m.load (m.address + (q + sizeofArrayHeader)) x.length = x := by
    rw [Message.load_add]
    exact hstr
  have hfound : orFail (some (m.address + q)) (Failure.buffer .nullPointer) =
      .ok (m.address + q) := rfl
  rw [Value.type, ReceiverStub.deserialize, Nat.add_assoc, hget, hfound, ok_bind]
  simp only [helements]
  rw [hcheck, ok_bind, Int.toNat_natCast, Nat.add_assoc, hread]
  rfl

/-- The loop over the arguments. As many pipes are taken as there are among them. -/
theorem deserialize_all {offsets : List ℕ} {xs : List MessagePipe} (rest : List MessagePipe)
    (hstored : List.Forall₂ (fun o v => Stored base stop m.bytes (MessageHeader.sizeof + o) v ∧
      MessageHeader.sizeof + o + v.type.sizeof ≤ base) offsets args)
    (hstop : stop ≤ m.bytes.length) (hm : m.bytes.length < 2 ^ 31)
    (hxs : xs.length = (Value.pipes args).length) :
    ReceiverStub.deserializeAll (m.address + MessageHeader.sizeof)
        (offsets.zip (args.map Value.type)) { m with pipes := xs ++ rest } =
      .ok (Value.withPipes args xs, { m with pipes := rest }) := by
  induction hstored generalizing xs with
  | nil =>
    obtain rfl : xs = [] := List.length_eq_zero_iff.1 hxs
    rfl
  | @cons offset v offsets args hv _ ih =>
    rw [List.map_cons, List.zip_cons_cons, ReceiverStub.deserializeAll]
    cases v with
    | scalar x =>
      have hx := deserialize_scalar (m := { m with pipes := xs ++ rest }) hv.1
      change ReceiverStub.deserialize (m.address + MessageHeader.sizeof) _ _ _ = _ at hx
      simp only [hx, ok_bind, ih hxs]
      rfl
    | string x =>
      have hx := deserialize_string (m := { m with pipes := xs ++ rest }) hv.1 hv.2 hstop hm
      change ReceiverStub.deserialize (m.address + MessageHeader.sizeof) _ _ _ = _ at hx
      simp only [hx, ok_bind, ih hxs]
      rfl
    | messagePipe x =>
      cases xs with
      | nil => cases hxs
      | cons pipe xs =>
        have htake : { m with pipes := pipe :: xs ++ rest }.takeNextPipe =
            .ok (pipe, { m with pipes := xs ++ rest }) := Message.takeNextPipe_cons rfl
        have hx : ReceiverStub.deserialize (m.address + MessageHeader.sizeof) offset
            { m with pipes := pipe :: xs ++ rest } (Value.messagePipe x).type =
              .ok (.messagePipe pipe, { m with pipes := xs ++ rest }) := by
          simp only [Value.type, ReceiverStub.deserialize, htake, lift_buffer, ok_bind]
          rfl
        simp only [hx, ok_bind, ih (Nat.succ.inj hxs)]
        rfl

/-- With pairwise distinct IDs the method is found by its own. -/
theorem find?_methodID {f : Method → ℤ} {methods : List Method} {method : Method}
    (hids : (methods.map f).Nodup) (hmem : method ∈ methods) :
    methods.find? (fun x => f method = f x) = some method := by
  induction methods with
  | nil => cases hmem
  | cons x rest ih =>
    rw [List.map_cons, List.nodup_cons] at hids
    rcases List.mem_cons.1 hmem with rfl | hmem
    · simp
    · have hne : f method ≠ f x := fun heq => hids.1 (heq ▸ List.mem_map_of_mem hmem)
      simp only [List.find?_cons, hne, decide_false]
      exact ih hids.2 hmem

/-- What is sent to a stub of the same interface is what it invokes, with as many of the message's pipes
    as there are pipes among the arguments. -/
theorem onReceivedMessage_image {hash : Magen.Text → ℤ} {I : Interface} {method : Method}
    (hids : (I.methods.map (I.methodID hash)).Nodup) (hmem : method ∈ I.methods)
    (htypes : args.map Value.type = method.types)
    (hb : Image (I.methodID hash method) args ds m.bytes) (hm : m.bytes.length < 2 ^ 31)
    (hpipes : m.pipes.length = (Value.pipes args).length) :
    ReceiverStub.onReceivedMessage hash I m =
      .ok (⟨method, Value.withPipes args m.pipes⟩, { m with pipes := [] }) := by
  have hid : m.userMessageId = I.methodID hash method := by
    rw [Message.userMessageId, Message.load_add, hb.userMessageId,
      asInt_intBytes (I.isInt_methodID hash method)]
  have hget : m.get MessageHeader.sizeof = .ok (m.address + MessageHeader.sizeof) := m.get_natCast _
  have hparams : check (m.address + MessageHeader.sizeof ≠ 0) (Failure.buffer .noParams) = .ok () :=
    check_eq_ok.2 (Nat.succ_ne_zero _)
  have hstored : List.Forall₂ (fun o v =>
      Stored (MessageHeader.sizeof + Params.sizeof (args.map Value.type)) (endpointsAt args) m.bytes
        (MessageHeader.sizeof + o) v ∧ MessageHeader.sizeof + o + v.type.sizeof ≤
          MessageHeader.sizeof + Params.sizeof (args.map Value.type))
      (Params.members (args.map Value.type)) args := by
    refine List.Forall₂.mp (fun o v hv hmem => ⟨hv, ?_⟩) hb.arguments
      (Params.offsets_le sizeofInt args)
    have hend := Params.endOf_le_sizeof (args.map Value.type)
    omega
  have hstop : endpointsAt args ≤ m.bytes.length := hb.fits ▸ Nat.le_add_right _ _
  have hall := deserialize_all [] hstored hstop hm hpipes
  rw [List.append_nil] at hall
  simp only [ReceiverStub.onReceivedMessage, hid, find?_methodID hids hmem, hget, lift_buffer,
    ok_bind, hparams, ← htypes]
  rw [hall]
  rfl

/-- The descriptors are read back in the order in which they were made. -/
theorem Image.descriptors {id : ℤ} (hb : Image id args ds m.bytes) (hm : m.bytes.length < 2 ^ 31)
    (hsized : ∀ d ∈ ds, Descriptor.Sized d) : m.getEndpointDescriptors.map m.descriptorAt = ds := by
  have hdescriptor : sizeofEndpointDescriptor = 60 := rfl
  have hfit := hb.fits
  rw [hdescriptor] at hfit
  have hends : MessageHeader.endpointsInMessage < endpointsAt args := by
    refine Nat.lt_of_lt_of_le (by decide : _ < MessageHeader.sizeof) ?_
    rw [endpointsAt, Nat.add_assoc]
    exact Nat.le_add_right _ _
  exact m.map_descriptorAt hsized (by omega) (m.getPointer_add hends (by omega) hb.pointer)
    hb.numElements hb.endpoints

end

/-! ### On the way to the stub -/

/-- What becomes of a message within its process, and of its buffer between processes: it is moved to
    other addresses, and its target endpoint is written. -/
inductive Arrived (m : Message) : Message → Prop where
  | sent : Arrived m m
  | copied {m' : Message} (h : Arrived m m') (address : ℕ) : Arrived m (m'.copy address)
  | retargeted {m' : Message} (h : Arrived m m') (name : Identifier)
      (hname : name.length = kIdentifierSize) : Arrived m (m'.retarget name)

/-- A stub of the interface `I` reads from `m` these descriptors, and a call of `method` with these
    arguments except for the pipes, which it takes from the message in the order of the descriptors. -/
structure Readable (hash : Magen.Text → ℤ) (I : Interface) (method : Method) (args : List Value)
    (ds : List EndpointDescriptor) (m : Message) : Prop where
  descriptors : m.getEndpointDescriptors.map m.descriptorAt = ds
  invoked : ∀ pipes : List MessagePipe, pipes.length = ds.length →
    ReceiverStub.onReceivedMessage hash I (pipes.foldl Message.queuePipe m) =
      .ok (⟨method, Value.withPipes args pipes⟩, m)

section
variable {m m' : Message} {id : ℤ} {args : List Value} {ds : List EndpointDescriptor}
  {hash : Magen.Text → ℤ} {I : Interface} {method : Method}

theorem Arrived.image (h : Arrived m m') (hb : Image id args ds m.bytes) :
    Image id args ds m'.bytes ∧ m'.bytes.length = m.bytes.length ∧ m'.pipes = m.pipes := by
  induction h with
  | sent => exact ⟨hb, rfl, rfl⟩
  | copied _ address ih => exact ih
  | @retargeted m' _ name hname ih =>
    obtain ⟨hb', hlen, hpipes⟩ := ih
    have hat : MessageHeader.targetEndpoint + name.length ≤ m'.bytes.length := by
      rw [hname, hb'.length, bufferSize, endpointsAt, Nat.add_assoc, Nat.add_assoc]
      exact (by decide : _ ≤ MessageHeader.sizeof).trans (Nat.le_add_right _ _)
    have hbytes : (m'.retarget name).bytes = overwrite m'.bytes MessageHeader.targetEndpoint name :=
      Message.copyName_bytes hname
    have hlen' : (m'.retarget name).bytes.length = m'.bytes.length := by
      rw [hbytes, length_overwrite hat]
    refine ⟨?_, hlen'.trans hlen, hpipes⟩
    have hgrown : Grown MessageHeader.targetEndpoint (MessageHeader.targetEndpoint + name.length)
        m'.bytes (m'.retarget name).bytes := by
      rw [hbytes]
      exact .overwrite hat
    refine hb'.grown hgrown hlen' (.inr ⟨Nat.le_refl _, ?_⟩)
    rw [hname]
    decide

theorem foldl_queuePipe (pipes : List MessagePipe) (m : Message) :
    pipes.foldl Message.queuePipe m = { m with pipes := m.pipes ++ pipes } := by
  induction pipes generalizing m with
  | nil =>
    rw [List.append_nil]
    rfl
  | cons pipe pipes ih =>
    rw [List.foldl_cons, ih]
    simp [Message.queuePipe]

theorem Image.readable (hids : (I.methods.map (I.methodID hash)).Nodup) (hmem : method ∈ I.methods)
    (htypes : args.map Value.type = method.types)
    (hb : Image (I.methodID hash method) args ds m.bytes) (hm : m.bytes.length < 2 ^ 31)
    (hsized : ∀ d ∈ ds, Descriptor.Sized d) (hpipes : m.pipes = []) :
    Readable hash I method args ds m := by
  refine ⟨hb.descriptors hm hsized, fun pipes hlen => ?_⟩
  have hdone : { m with pipes := [] } = m := by
    rw [← hpipes]
  have hstub := onReceivedMessage_image (m := { m with pipes := pipes }) hids hmem htypes hb hm
    (hlen.trans hb.count)
  rw [foldl_queuePipe, hpipes, List.nil_append, hstub, hdone]

/-- Each descriptor is recovered as the pipe it was made of, if each lookup finds it. -/
theorem queueExistingPipes_spec {core : ℕ → Core} (core' : ℕ → Core) {name : ℕ → Identifier}
    {carrier : MessagePipe} {pipes : List MessagePipe} {addresses : List ℕ} {k j : ℕ}
    (hds : Populated core name carrier k pipes ds) (hm : addresses.map m.descriptorAt = ds)
    (hfind : ∀ i j pipe d, i < k + pipes.length →
      populateEndpointDescriptor (core i) (name i) pipe carrier = .ok d →
        (core' j).recoverExistingMessagePipeFromEndpointDescriptor d = .ok pipe) :
    queueExistingPipes core' j addresses m = .ok (pipes.foldl Message.queuePipe m) := by
  induction pipes generalizing k j m addresses ds with
  | nil =>
    obtain rfl : ds = [] := hds
    obtain rfl : addresses = [] := List.map_eq_nil_iff.1 hm
    rfl
  | cons pipe pipes ih =>
    obtain ⟨d, rest, rfl, hd, hrest⟩ := hds
    cases addresses with
    | nil => cases hm
    | cons a addresses =>
      rw [List.map_cons, List.cons.injEq] at hm
      obtain ⟨ha, haddresses⟩ := hm
      have hpipe := hfind k j pipe d (by rw [List.length_cons]; omega) hd
      have hlater := ih (m := m.queuePipe pipe) (j := j + 1) hrest haddresses
        fun i j x d hi => hfind i j x d (by rw [List.length_cons]; omega)
      rw [queueExistingPipes, ha, hpipe, ok_bind, hlater, List.foldl_cons]

end

/-! ### In every run -/

/-- Message `m`, built by a call of `method` with these arguments, makes the round trip while a network runs
    through the states `s`. It is finalized, and wherever its buffer is copied to a stub of the same
    interface reads from it the same call. On the way to an endpoint of the same node `n` the pipes
    become those that were passed, on the way to another node new endpoints that were made of their
    descriptors. -/
structure RoundTrips (s : ℕ → Network) (n : Identifier) (hash : Magen.Text → ℤ) (I : Interface)
    (method : Method) (args : List Value) (ds : List EndpointDescriptor) (m : Message) : Prop where
  size : m.size = m.bytes.length
  readable : ∀ m', Arrived m m' → Readable hash I method args ds m'
  within : ∀ m', Arrived m m' → ∀ K, ds.length ≤ K → ∃ m'',
    queueExistingPipes (fun k => ((s (K + k)).process n).toCore) 0 m'.getEndpointDescriptors m' =
        .ok m'' ∧
      ReceiverStub.onReceivedMessage hash I m'' = .ok (⟨method, args⟩, m')
  between : ∀ m', Arrived m m' → ∀ c c' pipes,
    Recovers c (m'.getEndpointDescriptors.map m'.descriptorAt) pipes c' →
      List.Forall₂ (Backed c') pipes ds ∧
      ReceiverStub.onReceivedMessage hash I (pipes.foldl Message.queuePipe m') =
        .ok (⟨method, Value.withPipes args pipes⟩, m')

section
variable {T : Topology} {s : ℕ → Network} {n : Identifier} {hash : Magen.Text → ℤ} {I : Interface}
  {method : Method} {args : List Value} {carrier : MessagePipe} {name : ℕ → Identifier}
  {ds : List EndpointDescriptor} {m : Message}

theorem Reachable.of_runs (hr : Reachable T (s 0))
    (hruns : ∀ k, (s k).Runs T (fun _ => True) (s (k + 1))) (k : ℕ) : Reachable T (s k) := by
  induction k with
  | zero => exact hr
  | succ k ih => exact Network.Runs.reachable (hruns k) ih

theorem Populated.sized (hr : ∀ k, Reachable T (s k))
    (hds : Populated (fun k => ((s k).process n).toCore) name carrier 0 (Value.pipes args) ds)
    (hname : ∀ k, (name k).length = kIdentifierSize) : ∀ d ∈ ds, Descriptor.Sized d := by
  intro d hd
  obtain ⟨k, pipe, hd⟩ := hds.made d hd
  exact Reachable.populate_sized (hr k) (hname k) hd

/-- Whatever has this image makes the round trip. -/
theorem Image.roundTrips (hr : ∀ k, Reachable T (s k))
    (hruns : ∀ k, (s k).Runs T (fun _ => True) (s (k + 1)))
    (hids : (I.methods.map (I.methodID hash)).Nodup) (hmem : method ∈ I.methods)
    (htypes : args.map Value.type = method.types) (hname : ∀ k, (name k).length = kIdentifierSize)
    (hds : Populated (fun k => ((s k).process n).toCore) name carrier 0 (Value.pipes args) ds)
    (hb : Image (I.methodID hash method) args ds m.bytes) (hfin : Finalized m)
    (hpipes : m.pipes = []) : RoundTrips s n hash I method args ds m := by
  have hkept : ∀ i k, Kept ((s i).process n).toCore ((s (i + k)).process n).toCore := by
    intro i k
    induction k with
    | zero => exact .refl _
    | succ k ih => exact ih.trans (Network.Runs.kept (hruns (i + k)) (hr (i + k)) n)
  have hread : ∀ m', Arrived m m' → Readable hash I method args ds m' := by
    intro m' hm'
    obtain ⟨hb', hlen, hpipes'⟩ := hm'.image hb
    exact hb'.readable hids hmem htypes (hlen ▸ hfin.bounded) (hds.sized hr hname)
      (hpipes'.trans hpipes)
  refine ⟨hfin.size, hread, fun m' hm' K hK => ?_, fun m' hm' c c' pipes hrec => ?_⟩
  · have hqueue := queueExistingPipes_spec (fun k => ((s (K + k)).process n).toCore) (j := 0)
      hds (hread m' hm').descriptors fun i j pipe d hi hd => ?_
    · refine ⟨_, hqueue, ?_⟩
      rw [(hread m' hm').invoked _ hb.count.symm, Value.withPipes_pipes]
    · obtain ⟨k, hk⟩ : ∃ k, K + j = i + k := ⟨K + j - i, by rw [← hb.count] at hi; omega⟩
      have hkept := hkept i k
      rw [← hk] at hkept
      exact recoverExisting_of_populate hd ((hr i).named n) hkept
        ((hr (K + j)).sound.tidy.cores n) (((hr (K + j)).single n).once)
  · rw [(hread m' hm').descriptors] at hrec
    have hback := hrec.spec.2
    exact ⟨hback, (hread m' hm').invoked pipes hback.length_eq⟩

end

/-- While a network runs a thread of node `n` calls a method of a proxy none of whose names is hidden, so
    that its pipes are looked up in states `s 0`, `s 1`, … of the run. The message makes the round
    trip. -/
theorem generated_round_trip {T : Topology} {s : ℕ → Network} (hr : Reachable T (s 0))
    (hruns : ∀ k, (s k).Runs T (fun _ => True) (s (k + 1))) (n : Identifier) (h : Host)
    (hash : Magen.Text → ℤ) (I : Interface) (hI : I.Unhidden)
    (hids : (I.methods.map (I.methodID hash)).Nodup) {method : Method} (hmem : method ∈ I.methods)
    {args : List Value} (htypes : args.map Value.type = method.types)
    (hsize : bufferSize args < 2 ^ 31) {proxy : Proxy} (hbound : proxy.bound = true)
    {name : ℕ → Identifier} (hname : ∀ k, (name k).length = kIdentifierSize)
    {ds : List EndpointDescriptor}
    (hds : Populated (fun k => ((s k).process n).toCore) name proxy.localHandle 0
      (Value.pipes args) ds) :
    ∃ m, proxy.method h (fun k => ((s k).process n).toCore) name hash I method args =
        .ok (proxy.localHandle, m) ∧ RoundTrips s n hash I method args ds m := by
  have hrk := Reachable.of_runs hr hruns
  obtain ⟨m, hcall, hfin, hpipes, hb⟩ := call_spec h (I.methodID hash method) hbound hsize hds
    (hds.sized hrk hname)
  refine ⟨m, ?_, hb.roundTrips hrk hruns hids hmem htypes hname hds hfin hpipes⟩
  rw [(Proxy.agrees_of_unhidden hI hmem).method_eq hbound, ← htypes, hcall]
  rfl

/-! A method that passes a number, a string and a pipe. -/

namespace Sample

def give : Method where
  parsed := ⟨['g'], [(['i', 'n', 't'], ['n']), (['s', 't', 'r', 'i', 'n', 'g'], ['s']),
    (['M', 'e', 's', 's', 'a', 'g', 'e', 'P', 'i', 'p', 'e'], ['p'])]⟩
  types := [.scalar .int, .string, .messagePipe]
  supported := by decide

def gifts : Interface := ⟨['G'], [give], by decide⟩

/-- One end of a new pipe can be passed over the pipe of an accepted invitation. -/
theorem populated : ∃ (s : Network) (d : EndpointDescriptor), Reachable Mage.Sample.pair s ∧
    Populated (fun _ => (s.process Mage.Sample.inviter).toCore) (fun _ => Mage.Sample.word 90) 1 0 [3]
      [d] := by
  obtain ⟨s, hs, hd⟩ := Network.exists_of_follow Mage.Sample.pair (fun _ _ => True)
    (Mage.Sample.invitation Mage.Sample.acceptor none ++
      Label.calling Mage.Sample.inviter (.user 0) .createMessagePipes 0)
    (fun s => (populateEndpointDescriptor (s.process Mage.Sample.inviter).toCore
      (Mage.Sample.word 90) 3 1).toOption.isSome = true) (by decide +kernel)
  cases h : populateEndpointDescriptor (s.process Mage.Sample.inviter).toCore
      (Mage.Sample.word 90) 3 1 with
  | error _ =>
    rw [h] at hd
    cases hd
  | ok d => exact ⟨s, d, hs, d, [], rfl, h, rfl⟩

end Sample

/-- It is given to the acceptor with a string that has a NUL byte in it. -/
theorem generated_round_trip_give : ∃ (core : Core) (ds : List EndpointDescriptor) (m : Message),
    ds.length = 1 ∧ Proxy.method ⟨fun _ => 8, id, id⟩ (fun _ => core)
      (fun _ => Mage.Sample.word 90) ⟨true, 1⟩ (fun _ => 7) Sample.gifts Sample.give
        [.scalar (.int 5), .string [65, 0, 66], .messagePipe 3] = .ok (1, m) ∧
      m.getEndpointDescriptors.map m.descriptorAt = ds := by
  obtain ⟨s, d, hs, hds⟩ := Sample.populated
  obtain ⟨m, hcall, htrip⟩ := generated_round_trip (s := fun _ => s) hs (fun _ => .init)
    Mage.Sample.inviter ⟨fun _ => 8, id, id⟩ (fun _ => 7) Sample.gifts (by decide) (by decide)
    (show Sample.give ∈ Sample.gifts.methods from List.mem_cons_self)
    (show [.scalar (.int 5), .string [65, 0, 66], .messagePipe 3].map Value.type =
      Sample.give.types from rfl) (by decide) (show (⟨true, 1⟩ : Proxy).bound = true from rfl)
    (fun _ => by decide) hds
  exact ⟨_, [d], m, rfl, hcall, (htrip.readable m .sent).descriptors⟩

/-! ### Hidden names -/

section
variable {h : Host} {core : ℕ → Core} {name : ℕ → Identifier} {proxy : Proxy} {id : ℤ}
  {types : List MagenType} {args : List Value} {hash : Magen.Text → ℤ} {I : Interface}
  {method : Method} {m : Message}

end

namespace Sample

end Sample

end Mage.Wire
