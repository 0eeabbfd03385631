import Mage.Magen.MethodIDs
import Mage.Wire.Message

/-! What the template of `mage/public/parser/classes.tmpl` is filled in with: the types of the arguments of
    a method, their values, and where the members of its `Params` class are. -/

namespace Mage.Wire
open Lib

/-! ### Types and values -/

/-- The types that have the same name in a `.magen` file and in C++. -/
inductive ScalarType where
  | bool | int | long | double | char
  deriving DecidableEq

inductive MagenType where
  | scalar (t : ScalarType)
  | string
  | messagePipe
  deriving DecidableEq

/-- The type that is declared by `t`, if it is supported. -/
def MagenType.ofText (t : Magen.Text) : Option MagenType :=
  if t = ['b', 'o', 'o', 'l'] then some (.scalar .bool)
  else if t = ['i', 'n', 't'] then some (.scalar .int)
  else if t = ['l', 'o', 'n', 'g'] then some (.scalar .long)
  else if t = ['d', 'o', 'u', 'b', 'l', 'e'] then some (.scalar .double)
  else if t = ['c', 'h', 'a', 'r'] then some (.scalar .char)
  else if t = ['s', 't', 'r', 'i', 'n', 'g'] then some .string
  else if t = ['M', 'e', 's', 's', 'a', 'g', 'e', 'P', 'i', 'p', 'e'] then some .messagePipe
  else none

def MagenType.isHandleType : MagenType → Bool
  | .messagePipe => true
  | _ => false

/-- A value of a scalar type; a `double` is given by its bits. -/
inductive Scalar where
  | bool (x : Bool)
  | int (x : BitVec 32)
  | long (x : BitVec 64)
  | double (x : BitVec 64)
  | char (x : UInt8)
  deriving DecidableEq

def Scalar.type : Scalar → ScalarType
  | .bool _ => .bool
  | .int _ => .int
  | .long _ => .long
  | .double _ => .double
  | .char _ => .char

def ScalarType.sizeof : ScalarType → ℕ
  | .bool | .char => 1
  | .int => sizeofInt
  | .long | .double => 8

/-- A scalar in memory. -/
def Scalar.bytes : Scalar → List UInt8
  | .bool x => toBytes 1 x.toNat
  | .int x => toBytes sizeofInt x.toNat
  | .long x => toBytes 8 x.toNat
  | .double x => toBytes 8 x.toNat
  | .char x => toBytes 1 x.toNat

/-- The scalar of type `t` that these bytes are. -/
def ScalarType.read (t : ScalarType) (b : List UInt8) : Scalar :=
  match t with
  | .bool => .bool (ofBytes b ≠ 0)
  | .int => .int (BitVec.ofNat 32 (ofBytes b))
  | .long => .long (BitVec.ofNat 64 (ofBytes b))
  | .double => .double (BitVec.ofNat 64 (ofBytes b))
  | .char => .char (UInt8.ofNat (ofBytes b))

theorem Scalar.length_bytes (x : Scalar) : x.bytes.length = x.type.sizeof := by
  cases x <;> exact length_toBytes _ _

theorem Scalar.read_bytes (x : Scalar) : x.type.read x.bytes = x := by
  cases x with
  | bool x => cases x <;> rfl
  | int x =>
    rw [bytes, type, ScalarType.read, ofBytes_toBytes_of_lt x.isLt, BitVec.ofNat_toNat]
    rfl
  | long x =>
    rw [bytes, type, ScalarType.read, ofBytes_toBytes_of_lt x.isLt, BitVec.ofNat_toNat]
    rfl
  | double x =>
    rw [bytes, type, ScalarType.read, ofBytes_toBytes_of_lt x.isLt, BitVec.ofNat_toNat]
    rfl
  | char x =>
    have hx : x.toNat < 256 ^ 1 := x.toNat_lt
    rw [bytes, type, ScalarType.read, ofBytes_toBytes_of_lt hx, UInt8.ofNat_toNat]

/-- An argument. -/
inductive Value where
  | scalar (x : Scalar)
  | string (x : List UInt8)
  | messagePipe (x : MessagePipe)
  deriving DecidableEq

namespace Value

def type : Value → MagenType
  | .scalar x => .scalar x.type
  | .string _ => .string
  | .messagePipe _ => .messagePipe

def pipe? : Value → Option MessagePipe
  | .messagePipe x => some x
  | _ => none

/-- The pipes among the arguments. -/
def pipes (args : List Value) : List MessagePipe := args.filterMap pipe?

/-- The arguments with one pipe after the other in place of their own. -/
def withPipes : List Value → List MessagePipe → List Value
  | .messagePipe _ :: args, x :: xs => .messagePipe x :: withPipes args xs
  | v :: args, xs => v :: withPipes args xs
  | [], _ => []

theorem withPipes_pipes (args : List Value) : withPipes args (pipes args) = args := by
  induction args with
  | nil => rfl
  | cons v args ih =>
    cases v with
    | messagePipe x => exact congrArg _ ih
    | _ => exact congrArg _ ih

theorem length_pipes (args : List Value) :
    (pipes args).length = ((args.map type).filter MagenType.isHandleType).length := by
  induction args with
  | nil => rfl
  | cons v args ih =>
    cases v with
    | messagePipe x => exact congrArg Nat.succ ih
    | _ => exact ih

end Value

/-! ### The layout of a `Params` class -/

/-- The first multiple of `a` from `n` on. -/
def alignUp (n a : ℕ) : ℕ := (n + (a - 1)) / a * a

theorem le_alignUp {n a : ℕ} (ha : 0 < a) : n ≤ alignUp n a := by
  have hdiv := Nat.div_add_mod (n + (a - 1)) a
  have hmod := Nat.mod_lt (n + (a - 1)) ha
  rw [alignUp, Nat.mul_comm]
  omega

/-- What `GetMagenParamsType` makes of a type takes up so many bytes. -/
def MagenType.sizeof : MagenType → ℕ
  | .scalar t => t.sizeof
  | .string => sizeofPointer
  | .messagePipe => sizeofEndpointDescriptor

def MagenType.alignment : MagenType → ℕ
  | .scalar t => t.sizeof
  | .string => sizeofPointer
  | .messagePipe => 1

theorem MagenType.alignment_pos (t : MagenType) : 0 < t.alignment := by
  rcases t with ⟨_ | _ | _ | _ | _⟩ | _ | _ <;> decide

namespace Params

/-- Where members of these types are, and where the last one ends, after others that end at `n`. -/
def offsets : ℕ → List MagenType → List ℕ
  | _, [] => []
  | n, t :: types => alignUp n t.alignment :: offsets (alignUp n t.alignment + t.sizeof) types

def endOf : ℕ → List MagenType → ℕ
  | n, [] => n
  | n, t :: types => endOf (alignUp n t.alignment + t.sizeof) types

def alignment (types : List MagenType) : ℕ := (types.map MagenType.alignment).foldl max sizeofInt

/-- The member `bytes` comes first. -/
def members (types : List MagenType) : List ℕ := offsets sizeofInt types

def sizeof (types : List MagenType) : ℕ := alignUp (endOf sizeofInt types) (alignment types)

theorem le_endOf (n : ℕ) (types : List MagenType) : n ≤ endOf n types := by
  induction types generalizing n with
  | nil => exact Nat.le_refl n
  | cons t types ih =>
    have hn := le_alignUp (n := n) t.alignment_pos
    have hend := ih (alignUp n t.alignment + t.sizeof)
    rw [endOf]
    omega

theorem endOf_le_sizeof (types : List MagenType) : endOf sizeofInt types ≤ sizeof types := by
  refine le_alignUp ?_
  have hle : ∀ (l : List ℕ) (n : ℕ), n ≤ l.foldl max n := by
    intro l
    induction l with
    | nil => exact fun n => Nat.le_refl n
    | cons x l ih => exact fun n => (Nat.le_max_left n x).trans (ih (max n x))
  exact Nat.lt_of_lt_of_le (by decide) (hle _ _)

/-- Every member ends where the last one does, or before. -/
theorem offsets_le (n : ℕ) (args : List Value) :
    List.Forall₂ (fun o v => n ≤ o ∧ o + v.type.sizeof ≤ endOf n (args.map Value.type))
      (offsets n (args.map Value.type)) args := by
  induction args generalizing n with
  | nil => exact .nil
  | cons v args ih =>
    have hn := le_alignUp (n := n) v.type.alignment_pos
    refine .cons ⟨hn, le_endOf _ _⟩ ?_
    refine (ih (alignUp n v.type.alignment + v.type.sizeof)).imp fun o w h => ⟨?_, h.2⟩
    omega

example : members [.scalar .bool, .scalar .double, .messagePipe, .string] = [4, 8, 16, 80] ∧
    sizeof [.scalar .bool, .scalar .double, .messagePipe, .string] = 88 := by decide

end Params

/-! ### Interfaces -/

/-- A method whose arguments all have supported types. -/
structure Method where
  parsed : Magen.Method
  types : List MagenType
  supported : parsed.arguments.map (fun a => MagenType.ofText a.1) = types.map some

/-- The argument of the parameter with this name. -/
def Method.argument (m : Method) (args : List Value) (name : Magen.Text) : Option Value :=
  ((m.parsed.arguments.map Prod.snd).zip args).lookup name

/-- An interface. None of its methods is called `memcpy`: the methods of the proxy would call it instead
    of the function that copies bytes. -/
structure Interface where
  interfaceName : Magen.Text
  methods : List Method
  memcpy : ∀ m ∈ methods, m.parsed.name ≠ ['m', 'e', 'm', 'c', 'p', 'y']

namespace Interface
variable (hash : Magen.Text → ℤ) (I : Interface)

def parsed : Magen.Interface := ⟨I.interfaceName, I.methods.map Method.parsed⟩

/-- The value of `{{Interface}}_{{Method.name}}_ID`. -/
def methodID (m : Method) : ℤ := Magen.methodID hash I.parsed m.parsed

/-- The name of that constant. -/
def idName (m : Method) : Magen.Text := I.interfaceName ++ ['_'] ++ m.parsed.name ++ ['_', 'I', 'D']

theorem isInt_methodID (m : Method) : IsInt (I.methodID hash m) := by
  have hlt : Magen.methodID hash I.parsed m.parsed < 10 ^ 8 := Nat.mod_lt _ (by decide)
  rw [methodID, IsInt]
  omega

end Interface

/-! ### Hidden names -/

/-- The members of the proxy. -/
def boundName : Magen.Text := ['b', 'o', 'u', 'n', 'd', '_']

def localHandleName : Magen.Text :=
  ['l', 'o', 'c', 'a', 'l', '_', 'h', 'a', 'n', 'd', 'l', 'e', '_']

/-- A generated method of the proxy uses the names of two members and of its ID. No parameter has one of
    these names, and so none hides what the method means. -/
def Interface.Unhidden (I : Interface) : Prop :=
  ∀ m ∈ I.methods, ∀ a ∈ m.parsed.arguments, a.2 ∉ [boundName, localHandleName, I.idName m]

instance (I : Interface) : Decidable I.Unhidden :=
  inferInstanceAs (Decidable (∀ m ∈ I.methods, ∀ a ∈ m.parsed.arguments,
    a.2 ∉ [boundName, localHandleName, I.idName m]))

theorem Interface.Unhidden.argument {I : Interface} (hI : I.Unhidden) {m : Method}
    (hm : m ∈ I.methods) {name : Magen.Text} (hname : name ∈ [boundName, localHandleName, I.idName m])
    (args : List Value) : m.argument args name = none := by
  rw [Method.argument, List.lookup_eq_none_iff]
  rintro ⟨x, v⟩ hx
  obtain ⟨a, ha, rfl⟩ := List.mem_map.1 (List.of_mem_zip hx).1
  refine bne_iff_ne.2 ?_
  rintro rfl
  exact hI m hm a ha hname

/-- The whole part of a `double` with these bits, where it has one. -/
def truncate (x : BitVec 64) : ℤ :=
  let exponent := x.toNat / 2 ^ 52 % 2 ^ 11
  let mantissa := 2 ^ 52 + x.toNat % 2 ^ 52
  let magnitude : ℕ := mantissa * 2 ^ (exponent - 1075) / 2 ^ (1075 - exponent)
  if x.msb then -magnitude else magnitude

namespace Value

/-- The argument as a condition. A method whose `bound_` is a `string` does not compile. -/
def toBool : Value → Bool
  | .scalar (.bool x) => x
  | .scalar (.int x) => x ≠ 0
  | .scalar (.long x) => x ≠ 0
  | .scalar (.double x) => x.setWidth 63 ≠ 0
  | .scalar (.char x) => x ≠ 0
  | .messagePipe x => x ≠ 0
  | .string _ => false

/-- The number that is converted where a `MessagePipe` or an `int` is expected; a `char` is signed. A
    `string` is none, and the method does not compile. -/
def number : Value → ℤ
  | .scalar (.bool x) => x.toNat
  | .scalar (.int x) => x.toInt
  | .scalar (.long x) => x.toInt
  | .scalar (.double x) => truncate x
  | .scalar (.char x) => x.toBitVec.toInt
  | .messagePipe x => x.toNat
  | .string _ => 0

def toMessagePipe (v : Value) : MessagePipe := UInt32.ofInt v.number

def toInt (v : Value) : ℤ := asInt v.number

end Value
end Mage.Wire
