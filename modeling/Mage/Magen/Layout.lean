import Mage.Magen.Parse

/-! All the ways to lay out an interface in a `.magen` file with at most one declaration in each line:
    spaces and tabs between tokens, empty lines, and single line comments. A layout says what is
    declared, so that what the parser makes of its text can be compared with it. -/

namespace Mage.Magen
open Lib

/-! ### Tokens and what is between them -/

inductive Space where
  | space | tab
  deriving DecidableEq

def Space.char : Space → Char
  | .space => ' '
  | .tab => '\t'

/-- Any amount of spaces and tabs. -/
abbrev Blank := List Space

def Blank.text (b : Blank) : Text := b.map Space.char

def punctuation : List Char := ['(', ')', '{', '}', ',', ';', '/']

def isIdentChar (c : Char) : Bool := !isSpace c && !punctuation.contains c

/-- A name: neither whitespace nor punctuation is in it. -/
structure Ident where
  text : Text
  nonempty : text ≠ []
  plain : text.all isIdentChar
  deriving DecidableEq

theorem Ident.char (i : Ident) {c : Char} (hc : c ∈ i.text) : isSpace c = false ∧ c ∉ punctuation := by
  simpa [isIdentChar] using List.all_eq_true.1 i.plain c hc

/-- The text of a comment, after the slashes. -/
structure Comment where
  text : Text
  single : text.all fun c => c != '\n' && c != '\r'
  deriving DecidableEq

theorem Comment.char (cm : Comment) {c : Char} (hc : c ∈ cm.text) : c ≠ '\n' ∧ c ≠ '\r' := by
  simpa using List.all_eq_true.1 cm.single c hc

/-- The rest of a line, after the last token in it. -/
structure Tail where
  blank : Blank := []
  comment : Option Comment := none
  deriving DecidableEq

def Tail.text (t : Tail) : Text :=
  t.blank.text ++ (t.comment.map fun c => '/' :: '/' :: c.text).getD []

/-- What is between two tokens that can be in different lines: a `broken` gap has the rest of the first
    line, some lines without tokens, and the indentation of the second token. -/
inductive Gap where
  | blank (b : Blank)
  | broken (tail : Tail) (between : List Tail) (indent : Blank)
  deriving DecidableEq

def Gap.tails : Gap → List Tail
  | .blank _ => []
  | .broken tail between _ => tail :: between

/-- Lines that are complete, and the one that is not. -/
abbrev Page := List Text × Text

def Gap.extend (p : Page) : Gap → Page
  | .blank b => (p.1, p.2 ++ b.text)
  | .broken tail between indent => (p.1 ++ (p.2 ++ tail.text) :: between.map Tail.text, indent.text)

/-! ### Declarations -/

/-- One space is between the type and the name. -/
theorem Blank.space_ne : ([.space] : Blank) ≠ [] := List.cons_ne_nil _ _

structure Argument where
  before : Blank := []
  type : Ident
  between : Blank
  apart : between ≠ []
  name : Ident
  after : Blank := []
  deriving DecidableEq

namespace Argument

def text (a : Argument) : Text :=
  a.before.text ++ (a.type.text ++ (a.between.text ++ (a.name.text ++ a.after.text)))

def pair (a : Argument) : Text × Text := (a.type.text, a.name.text)

end Argument

/-- The declaration of a method, up to the semicolon. -/
structure Declaration where
  indent : Blank := []
  name : Ident
  afterName : Blank := []
  inside : Blank := []
  arguments : List Argument
  afterArguments : Blank := []
  deriving DecidableEq

namespace Declaration

def text (d : Declaration) : Text :=
  d.indent.text ++ (d.name.text ++ (d.afterName.text ++ '(' :: (d.inside.text ++
    ([','].intercalate (d.arguments.map Argument.text) ++ ')' :: (d.afterArguments.text ++ [';'])))))

def method (d : Declaration) : Method := ⟨d.name.text, d.arguments.map Argument.pair⟩

/-- There is a space next to each comma. -/
def Separated (d : Declaration) : Prop :=
  d.arguments.IsChain fun a b => a.after ≠ [] ∨ b.before ≠ []

end Declaration

/-- A line within the braces. -/
inductive Line where
  | empty (tail : Tail)
  | declaration (d : Declaration) (tail : Tail)
  deriving DecidableEq

namespace Line

def text : Line → Text
  | .empty t => t.text
  | .declaration d t => d.text ++ t.text

def tail : Line → Tail
  | .empty t | .declaration _ t => t

def declaration? : Line → Option Declaration
  | .empty _ => none
  | .declaration d _ => some d

end Line

/-! ### Files -/

def keyword : Text := ['i', 'n', 't', 'e', 'r', 'f', 'a', 'c', 'e']

/-- One space is between the keyword and the name. -/
theorem Gap.space_ne : Gap.blank [.space] ≠ .blank [] := fun h => nomatch h

/-- A `.magen` file. The first line of the `body` is the rest of the line of the opening brace; the
    closing brace may share its line with the `last` declaration. -/
structure Layout where
  leading : List Tail := []
  indent : Blank := []
  toName : Gap
  apart : toName ≠ .blank []
  name : Ident
  toBrace : Gap
  body : List Line
  last : Option Declaration := none
  beforeBrace : Blank := []
  tail : Tail := {}
  trailing : List Tail := []
  deriving DecidableEq

namespace Layout
variable (L : Layout)

/-- What precedes the opening brace. -/
def header : Page :=
  let p := L.toName.extend (L.leading.map Tail.text, L.indent.text ++ keyword)
  L.toBrace.extend (p.1, p.2 ++ L.name.text)

/-- The line of the closing brace. -/
def closing : Text :=
  (L.last.map Declaration.text).getD [] ++ (L.beforeBrace.text ++ '}' :: L.tail.text)

/-- The lines that follow the opening brace. -/
def lines : List Text := L.body.map Line.text ++ L.closing :: L.trailing.map Tail.text

def text : Text :=
  ['\n'].intercalate (L.header.1 ++ [L.header.2]) ++ '{' :: ['\n'].intercalate L.lines

/-- All that is declared. -/
def declarations : List Declaration := L.body.filterMap Line.declaration? ++ L.last.toList

def interface : Interface := ⟨L.name.text, L.declarations.map Declaration.method⟩

/-- All places where a comment can be. -/
def tails : List Tail :=
  L.leading ++ (L.toName.tails ++ (L.toBrace.tails ++
    (L.body.map Line.tail ++ L.tail :: L.trailing)))

end Layout

/-! ### What the parser copes with -/

/-- The line is completely empty, or has a comment. -/
def Tail.Removable (t : Tail) : Prop := t.blank = [] ∨ t.comment ≠ none

/-- A line with a declaration has no comment, and spaces are next to its commas. -/
def Line.Plain : Line → Prop
  | .empty t => t.Removable
  | .declaration d t => t.comment = none ∧ d.Separated

/-- The layouts that the parser copes with. -/
structure Layout.Plain (L : Layout) : Prop where
  /-- No brace is opened in a comment. -/
  comments : ∀ t ∈ L.tails, ∀ c, t.comment = some c → '{' ∉ c.text
  /-- The interface, its name and the brace are in one line. -/
  header : (∃ b, L.toName = .blank b) ∧ ∃ b, L.toBrace = .blank b
  body : ∀ l ∈ L.body, l.Plain
  /-- The closing brace has a line to itself. -/
  closing : L.last = none ∧ L.beforeBrace = [] ∧ L.tail = {}
  trailing : ∀ t ∈ L.trailing, t.Removable

end Mage.Magen
