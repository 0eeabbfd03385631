import Mathlib.Data.List.Infix
import Mage.Lib.Checked
import Mage.Lib.Words

/-! The parsing section of `mage/public/parser/gen.py`: a `.magen` file becomes the name of an interface
    and a list of methods by global replacements, splits and removals of lines. -/

namespace Mage.Magen
open Lib

abbrev Text := List Char

/-- What stops the script. -/
inductive PyError where
  | assertionError | indexError
  deriving DecidableEq

structure Method where
  name : Text
  /-- Types and names. -/
  arguments : List (Text × Text)
  deriving DecidableEq

/-- What the parsing section leaves to the template. -/
structure Interface where
  interfaceName : Text
  listOfMethods : List Method
  deriving DecidableEq

/-! ### The string methods -/

/-- Whitespace to `str.split()`. -/
def isSpace (c : Char) : Bool :=
  let n := c.toNat
  (9 ≤ n && n ≤ 13) || (28 ≤ n && n ≤ 32) || n == 0x85 || n == 0xa0 || n == 0x1680 ||
    (0x2000 ≤ n && n ≤ 0x200a) || n == 0x2028 || n == 0x2029 || n == 0x202f || n == 0x205f ||
      n == 0x3000

/-- `split()`. -/
def split (s : Text) : List Text := words isSpace s

/-- `replace` of one character by another. -/
def replace (old new : Char) (s : Text) : Text := s.map fun c => if c = old then new else c

/-- `replace` of a character by nothing. -/
def erase (old : Char) (s : Text) : Text := s.filter (· ≠ old)

def isBlank (c : Char) : Bool := c == ' ' || c == '\n' || c == '\t'

/-- `strip(' \n\t')`. -/
def strip (s : Text) : Text := (s.dropWhile isBlank).rdropWhile isBlank

/-- `read()` of a file opened as text: every kind of line end is one `'\n'`. -/
def read : Text → Text
  | '\r' :: '\n' :: s => '\n' :: read s
  | '\r' :: s => '\n' :: read s
  | c :: s => c :: read s
  | [] => []

/-! ### The script -/

def getInterfaceName (interfaceDescriptorString : Text) : Except PyError Text :=
  orFail (split interfaceDescriptorString)[1]? .indexError

/-- The body of the loop in `GetListOfMethods`. -/
def getMethod (methodDescriptor : Text) : Except PyError Method := do
  let methodDescriptor := erase ',' methodDescriptor
  let methodName ← orFail (split methodDescriptor)[0]? .indexError
  let rest := (split methodDescriptor).drop 1
  let types := everyOther rest
  let names := everyOther (rest.drop 1)
  return ⟨methodName, types.zip names⟩

def getListOfMethods (methodDescriptors : List Text) : Except PyError (List Method) :=
  methodDescriptors.mapM getMethod

/-- The line is removed before parsing. -/
def Removed (line : Text) : Prop := line = [] ∨ ['/', '/'] <:+: line

instance (line : Text) : Decidable (Removed line) := by unfold Removed; infer_instance

/-- What becomes of each line that is left. -/
def tidy (line : Text) : Text := strip (replace ';' ' ' line)

/-- From the lines of the descriptor on. -/
def parseLines (interfaceDescriptor : List Text) : Except PyError Interface := do
  let linesToRemove := interfaceDescriptor.filter (Removed ·)
  let interfaceDescriptor := linesToRemove.foldl List.erase interfaceDescriptor
  let last ← orFail interfaceDescriptor.getLast? .indexError
  check (last = ['}']) .assertionError
  let interfaceDescriptor := interfaceDescriptor.dropLast.map tidy
  let first ← orFail interfaceDescriptor[0]? .indexError
  let interfaceName ← getInterfaceName first
  let listOfMethods ← getListOfMethods (interfaceDescriptor.drop 1)
  return ⟨interfaceName, listOfMethods⟩

/-- The parsing section, on the contents of the file. -/
def parse (file : Text) : Except PyError Interface :=
  let sourceText := replace ')' ' ' (replace '(' ' ' (read file))
  match sourceText.splitOn '{' with
  | [before, after] =>
    let interfacePlusName := (before.splitOn '\n').getLastD []
    parseLines (interfacePlusName :: after.splitOn '\n')
  | _ => throw .assertionError

end Mage.Magen
