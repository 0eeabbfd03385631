import Mathlib.Data.Nat.ModEq
import Mage.Lib.Bytes
import Mage.Magen.Parse

/-! The IDs of methods. `MethodIDHash` rests on Python's `hash`, which each run of the generator seeds
    anew; a proxy of one run and a stub of another understand each other when the two runs have one
    seed and no two methods collide under it. -/

namespace Mage.Magen
open Lib

/-! ### IDs, for any hash -/

section
variable (hash hash' : Text → ℤ) (I : Interface)

def methodIDHash (methodName : Text) : ℕ := (hash methodName).natAbs % 10 ^ 8

/-- The interface and the method, one right after the other. -/
def fullName (m : Method) : Text := I.interfaceName ++ m.name

/-- The value of `{{Interface}}_{{Method.name}}_ID`. -/
def methodID (m : Method) : ℕ := methodIDHash hash (fullName I m)

/-- The branch that `OnReceivedMessage` takes; without one, it does not return. -/
def branch (userMessageId : ℕ) : Option Method :=
  I.listOfMethods.find? fun m => userMessageId = methodID hash I m

/-- The proxy that `hash` made and the stub that `hash'` made understand each other: the ID that is
    written for a method is tested by its own branch, and by no other, so that it is invoked. -/
def Understood : Prop :=
  ∀ m ∈ I.listOfMethods, methodID hash I m = methodID hash' I m ∧
    (∀ m' ∈ I.listOfMethods, m' ≠ m → methodID hash' I m' ≠ methodID hash I m) ∧
    branch hash' I (methodID hash I m) = some m

/-- The hashes of two names collide: they have the same last eight digits. -/
def Collide (x y : ℤ) : Prop := x.natAbs ≡ y.natAbs [MOD 10 ^ 8]

instance (x y : ℤ) : Decidable (Collide x y) :=
  inferInstanceAs (Decidable (x.natAbs % 10 ^ 8 = y.natAbs % 10 ^ 8))

/-- The first branch whose ID is the given one. -/
theorem branch_eq_some {id : ℕ} {m : Method} (hm : m ∈ I.listOfMethods)
    (hid : id = methodID hash I m)
    (hother : ∀ m' ∈ I.listOfMethods, m' ≠ m → methodID hash I m' ≠ id) :
    branch hash I id = some m := by
  cases hb : branch hash I id with
  | none => exact absurd (decide_eq_true hid) (List.find?_eq_none.1 hb m hm)
  | some m' =>
    have hm' := List.mem_of_find?_eq_some hb
    have htest := List.find?_some hb
    have hid' : id = methodID hash I m' := of_decide_eq_true htest
    by_contra hne
    exact hother m' hm' (fun h => hne (congrArg some h)) hid'.symm

/-- A proxy and a stub of one run understand each other just if no two methods collide. -/
theorem understood_self_iff : Understood hash hash I ↔
    ∀ m ∈ I.listOfMethods, ∀ m' ∈ I.listOfMethods, m' ≠ m →
      ¬ Collide (hash (fullName I m')) (hash (fullName I m)) := by
  constructor
  · intro h m hm m' hm' hne
    exact (h m hm).2.1 m' hm' hne
  · intro hdistinct m hm
    have hother : ∀ m' ∈ I.listOfMethods, m' ≠ m → methodID hash I m' ≠ methodID hash I m :=
      fun m' hm' hne => hdistinct m hm m' hm' hne
    exact ⟨rfl, hother, branch_eq_some hash I hm rfl hother⟩

end

/-! ### The hash of a run -/

/-- What each process draws at random when it starts. -/
structure HashSecret where
  k0 : UInt64
  k1 : UInt64
  deriving DecidableEq

/-- The state of SipHash. -/
structure SipState where
  v0 : UInt64
  v1 : UInt64
  v2 : UInt64
  v3 : UInt64

def rotate (x : UInt64) (n : UInt64) : UInt64 := x <<< n ||| x >>> (64 - n)

namespace SipState

def init (secret : HashSecret) : SipState where
  v0 := secret.k0 ^^^ 0x736f6d6570736575
  v1 := secret.k1 ^^^ 0x646f72616e646f6d
  v2 := secret.k0 ^^^ 0x6c7967656e657261
  v3 := secret.k1 ^^^ 0x7465646279746573

def round (s : SipState) : SipState :=
  let v0 := s.v0 + s.v1
  let v2 := s.v2 + s.v3
  let v1 := rotate s.v1 13 ^^^ v0
  let v3 := rotate s.v3 16 ^^^ v2
  let v0 := rotate v0 32
  let v2 := v2 + v1
  let v0 := v0 + v3
  let v1 := rotate v1 17 ^^^ v2
  let v3 := rotate v3 21 ^^^ v0
  ⟨v0, v1, rotate v2 32, v3⟩

/-- One word of input, with one round. -/
def word (s : SipState) (m : UInt64) : SipState :=
  let s := { s with v3 := s.v3 ^^^ m }.round
  { s with v0 := s.v0 ^^^ m }

def finish (s : SipState) : UInt64 :=
  let s := { s with v2 := s.v2 ^^^ 0xff }.round.round.round
  (s.v0 ^^^ s.v1) ^^^ (s.v2 ^^^ s.v3)

end SipState

/-- The words of eight bytes, and the last one, which has the length in its highest byte. -/
def sipWords (length : ℕ) : ℕ → List UInt8 → List UInt64
  | fuel + 1, b =>
    if b.length < 8 then [UInt64.ofNat (ofBytes b + length % 256 * 2 ^ 56)]
    else UInt64.ofNat (ofBytes (b.take 8)) :: sipWords length fuel (b.drop 8)
  | 0, _ => []

def siphash13 (secret : HashSecret) (b : List UInt8) : UInt64 :=
  ((sipWords b.length (b.length + 1) b).foldl SipState.word (.init secret)).finish

/-- The characters of a string in memory: one, two or four bytes each, as the largest needs it. -/
def storage (s : Text) : List UInt8 :=
  let largest := s.foldl (fun n c => max n c.toNat) 0
  let width := if largest < 256 then 1 else if largest < 65536 then 2 else 4
  s.flatMap fun c => toBytes width c.toNat

/-- `hash` of a string, in a process with this secret. -/
def hashOf (secret : HashSecret) (s : Text) : ℤ :=
  if s = [] then 0
  else
    let x := (siphash13 secret (storage s)).toInt64.toInt
    if x = -1 then -2 else x

namespace Sample

/-- The demo interface of the repository, without the arguments of its methods. -/
def demo : Interface :=
  ⟨['D', 'e', 'm', 'o'],
    [⟨['M', 'e', 't', 'h', 'o', 'd', '1'], []⟩, ⟨['S', 'e', 'n', 'd', 'N', 'a', 'm', 'e'], []⟩]⟩

end Sample

/-- In two runs with one hash secret the generated proxy and stub understand each other just if under
    that secret the hashes of no two methods' full names collide. -/
theorem understood_of_secret_eq {secret secret' : HashSecret} (h : secret' = secret) (I : Interface) :
    Understood (hashOf secret) (hashOf secret') I ↔
      ∀ m ∈ I.listOfMethods, ∀ m' ∈ I.listOfMethods, m' ≠ m →
        ¬ Collide (hashOf secret (fullName I m')) (hashOf secret (fullName I m)) := by
  subst h
  exact understood_self_iff (hashOf secret') I

theorem demo_understood : Understood (hashOf ⟨0, 0⟩) (hashOf ⟨0, 0⟩) Sample.demo :=
  (understood_of_secret_eq rfl Sample.demo).2 (by decide +kernel)

/-- Two runs that draw different secrets give the method `SendName` different IDs, and the stub has no
    branch for what the proxy sends. -/
theorem secrets_disagree :
    let hash := hashOf ⟨0, 0⟩
    let hash' := hashOf ⟨0xaed66ce184be2329, 0xebe9bbf1f1499052⟩
    let sendName : Method := ⟨['S', 'e', 'n', 'd', 'N', 'a', 'm', 'e'], []⟩
    methodID hash Sample.demo sendName = 76722341 ∧
      methodID hash' Sample.demo sendName = 10738468 ∧
      branch hash' Sample.demo (methodID hash Sample.demo sendName) = none ∧
      ¬ ∀ secret secret' : HashSecret, ∀ I : Interface,
        (I.listOfMethods.map Method.name).Nodup → Understood (hashOf secret) (hashOf secret') I := by
  refine ⟨by decide +kernel, by decide +kernel, by decide +kernel, fun h => ?_⟩
  have hunderstood := h ⟨0, 0⟩ ⟨0xaed66ce184be2329, 0xebe9bbf1f1499052⟩ Sample.demo (by decide)
  have heq := (hunderstood ⟨['S', 'e', 'n', 'd', 'N', 'a', 'm', 'e'], []⟩ (by decide)).1
  exact absurd heq (by decide +kernel)

end Mage.Magen
