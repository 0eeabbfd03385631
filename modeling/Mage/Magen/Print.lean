import Mage.Magen.Tokens

/-! Parsing undoes printing: an interface that is printed the way the `.magen` files of the repository
    are written is read back as it was. -/

namespace Mage.Magen
open Lib

/-- What is declared of a method. -/
structure Signature where
  name : Ident
  /-- Types and names. -/
  arguments : List (Ident × Ident)
  deriving DecidableEq

def Signature.method (m : Signature) : Method :=
  ⟨m.name.text, m.arguments.map fun a => (a.1.text, a.2.text)⟩

/-- A comment that opens no brace. -/
structure Remark extends Comment where
  brace : '{' ∉ text
  deriving DecidableEq

/-- A line between the braces. -/
inductive Item where
  | method (m : Signature)
  | empty
  | comment (c : Remark)
  deriving DecidableEq

def Item.method? : Item → Option Signature
  | .method m => some m
  | _ => none

/-! ### Printing -/

section
variable (indent : ℕ)

def spaces (n : ℕ) : Text := List.replicate n ' '

/-- `type name` -/
def printArgument (a : Ident × Ident) : Text := a.1.text ++ ' ' :: a.2.text

/-- `  Method(type name, type name);` -/
def printMethod (m : Signature) : Text :=
  spaces indent ++ (m.name.text ++ '(' ::
    ([',', ' '].intercalate (m.arguments.map printArgument) ++ [')', ';']))

def printItem : Item → Text
  | .method m => printMethod indent m
  | .empty => []
  | .comment c => spaces indent ++ '/' :: '/' :: c.text

/-- Comments, the interface, what is in it, and the closing brace, whose line may have an end. -/
def print (leading : List Remark) (name : Ident) (items : List Item) (newline : Bool) : Text :=
  ['\n'].intercalate (leading.map (fun c => '/' :: '/' :: c.text) ++
    (keyword ++ ' ' :: (name.text ++ [' ', '{'])) :: (items.map (printItem indent) ++
      ['}'] :: if newline then [[]] else []))

end

/-! ### The layout of what is printed -/

section
variable (indent : ℕ) (leading : List Remark) (name : Ident) (items : List Item) (newline : Bool)

/-- An argument, with some space before it. -/
def argument (before : Blank) (a : Ident × Ident) : Argument where
  before := before
  type := a.1
  between := [.space]
  apart := Blank.space_ne
  name := a.2

def argumentsOf : List (Ident × Ident) → List Argument
  | [] => []
  | a :: l => argument [] a :: l.map (argument [.space])

def Signature.declaration (m : Signature) : Declaration where
  indent := List.replicate indent .space
  name := m.name
  arguments := argumentsOf m.arguments

def Item.line : Item → Line
  | .method m => .declaration (m.declaration indent) {}
  | .empty => .empty {}
  | .comment c => .empty { blank := List.replicate indent .space, comment := some c.toComment }

def printed : Layout where
  leading := leading.map fun c => { comment := some c.toComment }
  toName := .blank [.space]
  apart := Gap.space_ne
  name := name
  toBrace := .blank [.space]
  body := .empty {} :: items.map (Item.line indent)
  trailing := if newline then [{}] else []

theorem text_replicate (n : ℕ) : Blank.text (List.replicate n .space) = spaces n := by
  simp [Blank.text, spaces, Space.char]

theorem text_arguments (l : List (Ident × Ident)) :
    [','].intercalate ((argumentsOf l).map Argument.text) =
      [',', ' '].intercalate (l.map printArgument) := by
  have hfirst : ∀ a, (argument [] a).text = printArgument a := by
    intro a
    simp [argument, Argument.text, printArgument, Blank.text, Space.char]
  have hlater : ∀ a, (argument [.space] a).text = ' ' :: printArgument a := by
    intro a
    simp [argument, Argument.text, printArgument, Blank.text, Space.char]
  cases l with
  | nil => rfl
  | cons a l =>
    rw [argumentsOf, List.map_cons, List.map_cons, ← intercalate_map_cons, List.map_map,
      List.map_map, hfirst]
    congr 3
    exact funext hlater

theorem text_line (i : Item) : (i.line indent).text = printItem indent i := by
  have hempty : ({} : Tail).text = [] := rfl
  cases i with
  | method m =>
    rw [Item.line, Line.text, hempty, List.append_nil, Signature.declaration, Declaration.text,
      text_replicate, text_arguments]
    rfl
  | empty => rfl
  | comment c =>
    rw [Item.line, Line.text, Tail.text, text_replicate]
    rfl

/-- What is printed is laid out so. -/
theorem text_printed : (printed indent leading name items newline).text =
    print indent leading name items newline := by
  have hheader : (printed indent leading name items newline).header =
      (leading.map (fun c => '/' :: '/' :: c.text), keyword ++ ' ' :: (name.text ++ [' '])) := by
    simp [Layout.header, printed, Gap.extend, Blank.text, Space.char, Tail.text, Function.comp_def]
  have hlines : (printed indent leading name items newline).lines =
      [] :: (items.map (printItem indent) ++ ['}'] :: if newline then [[]] else []) := by
    have hitems : (items.map (Item.line indent)).map Line.text = items.map (printItem indent) := by
      rw [List.map_map]
      exact List.map_congr_left fun i _ => text_line indent i
    rw [Layout.lines, printed, List.map_cons, hitems]
    cases newline <;> rfl
  have hline : keyword ++ ' ' :: (name.text ++ [' ', '{']) =
      (keyword ++ ' ' :: (name.text ++ [' '])) ++ ['{'] := by simp
  rw [Layout.text, hheader, hlines, print, hline,
    intercalate_append_cons ['\n'] (keyword ++ ' ' :: (name.text ++ [' '])),
    List.intercalate_cons_cons_left]

theorem interface_printed : (printed indent leading name items newline).interface =
    ⟨name.text, (items.filterMap Item.method?).map Signature.method⟩ := by
  have hmethod : ∀ m : Signature, (m.declaration indent).method = m.method := by
    intro m
    cases m with
    | mk name arguments =>
      cases arguments <;> simp [Signature.declaration, Declaration.method, Signature.method,
        argumentsOf, argument, Argument.pair]
  have hbody : (items.map (Item.line indent)).filterMap Line.declaration? =
      (items.filterMap Item.method?).map (Signature.declaration indent) := by
    rw [List.filterMap_map, List.map_filterMap]
    refine List.filterMap_congr fun i _ => ?_
    cases i <;> rfl
  rw [Layout.interface, Layout.declarations, printed]
  simp only [List.filterMap_cons, Line.declaration?, Option.toList_none, List.append_nil, hbody,
    List.map_map]
  simp [Function.comp_def, hmethod]

/-- After each comma is a space. -/
theorem separated_declaration (m : Signature) : (m.declaration indent).Separated := by
  have hlater : ∀ (a : Argument) (l : List (Ident × Ident)),
      (a :: l.map (argument [.space])).IsChain fun a b => a.after ≠ [] ∨ b.before ≠ [] := by
    intro a l
    induction l generalizing a with
    | nil => exact .singleton a
    | cons b l ih =>
      rw [List.map_cons, List.isChain_cons_cons]
      exact ⟨.inr (by simp [argument]), ih _⟩
  rw [Declaration.Separated, Signature.declaration]
  cases m.arguments with
  | nil => exact .nil
  | cons a l => exact hlater _ l

theorem plain_printed : (printed indent leading name items newline).Plain where
  comments := by
    have htail : ∀ i : Item, ∀ c, (i.line indent).tail.comment = some c → '{' ∉ c.text := by
      intro i c hc
      cases i with
      | comment r =>
        obtain rfl := Option.some.inj hc
        exact r.brace
      | method m => cases hc
      | empty => cases hc
    intro t ht c hc
    simp only [Layout.tails, printed, Gap.tails, List.nil_append, List.map_cons, List.map_map,
      List.mem_append, List.mem_cons, List.mem_map] at ht
    rcases ht with ⟨r, -, rfl⟩ | (rfl | ⟨i, -, rfl⟩) | rfl | ht
    · obtain rfl := Option.some.inj hc
      exact r.brace
    · cases hc
    · exact htail i c hc
    · cases hc
    · cases newline with
      | false => cases ht
      | true =>
        obtain rfl := List.mem_singleton.1 ht
        cases hc
  header := ⟨⟨_, rfl⟩, _, rfl⟩
  body := by
    rw [printed, List.forall_mem_cons]
    refine ⟨.inl rfl, fun l hl => ?_⟩
    obtain ⟨i, -, rfl⟩ := List.mem_map.1 hl
    cases i with
    | method m => exact ⟨rfl, separated_declaration indent m⟩
    | empty => exact .inl rfl
    | comment c => exact .inr (by simp)
  closing := ⟨rfl, rfl, rfl⟩
  trailing := by
    cases newline with
    | false => exact fun t ht => by cases ht
    | true => exact fun t ht => (by rw [List.mem_singleton.1 ht]; exact .inl rfl)

/-- Parsing undoes printing. -/
theorem parse_print : parse (print indent leading name items newline) =
    .ok ⟨name.text, (items.filterMap Item.method?).map Signature.method⟩ := by
  rw [← text_printed, ← interface_printed indent leading name items newline]
  exact (Layout.parse_iff _).2 (plain_printed indent leading name items newline)

end

end Mage.Magen
