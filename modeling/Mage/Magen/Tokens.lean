import Mage.Magen.Layout

/-! What `gen.py` makes of a file depends on its layout: the exact condition under which the parser
    returns what is declared. -/

namespace Mage.Magen
open Lib

/-! ### Characters -/

/-- The replacements of parentheses. -/
def unparen (s : Text) : Text := replace ')' ' ' (replace '(' ' ' s)

/-- All replacements of characters that a line goes through. -/
def normal (s : Text) : Text := Magen.erase ',' (replace ';' ' ' (unparen s))

section
variable (s t : Text) (b : Blank) (i : Ident) (a : Argument) (d : Declaration)

theorem unparen_append : unparen (s ++ t) = unparen s ++ unparen t := by
  simp [unparen, replace]

theorem normal_append : normal (s ++ t) = normal s ++ normal t := by
  simp [normal, unparen, replace, Magen.erase]

variable {s}

theorem unparen_eq (h : ∀ c ∈ s, c ≠ '(' ∧ c ≠ ')') : unparen s = s := by
  have hmap : ∀ c ∈ s, (fun c => if c = ')' then ' ' else c) ((fun c => if c = '(' then ' ' else c) c) = c := by
    intro c hc
    simp [h c hc]
  rw [unparen, replace, replace, List.map_map]
  exact (List.map_congr_left hmap).trans (List.map_id _)

theorem normal_eq (h : ∀ c ∈ s, c ∉ punctuation) : normal s = s := by
  have hnot : ∀ c ∈ s, c ≠ '(' ∧ c ≠ ')' ∧ c ≠ ',' ∧ c ≠ ';' := by
    intro c hc
    have := h c hc
    simp only [punctuation, List.mem_cons, not_or] at this
    exact ⟨this.1, this.2.1, this.2.2.2.2.1, this.2.2.2.2.2.1⟩
  rw [normal, unparen_eq fun c hc => ⟨(hnot c hc).1, (hnot c hc).2.1⟩, replace, Magen.erase]
  have hmap : s.map (fun c => if c = ';' then ' ' else c) = s := by
    refine (List.map_congr_left fun c hc => ?_).trans (List.map_id _)
    simp [hnot c hc]
  rw [hmap, List.filter_eq_self]
  intro c hc
  simpa using (hnot c hc).2.2.1

theorem mem_replace {old new c : Char} (ho : c ≠ old) (hn : c ≠ new) :
    c ∈ replace old new s ↔ c ∈ s := by
  rw [replace, List.mem_map]
  constructor
  · rintro ⟨d, hd, rfl⟩
    split_ifs at hn ⊢ with hold
    · exact absurd rfl hn
    · exact hd
  · exact fun hc => ⟨c, hc, if_neg ho⟩

/-- Replacing parentheses touches no other character. -/
theorem mem_unparen {c : Char} (h : c ≠ ' ' ∧ c ≠ '(' ∧ c ≠ ')') : c ∈ unparen s ↔ c ∈ s := by
  rw [unparen, mem_replace h.2.2 h.1, mem_replace h.2.1 h.1]

theorem Blank.mem_text {c : Char} (h : c ∈ b.text) : c = ' ' ∨ c = '\t' := by
  rw [Blank.text, List.mem_map] at h
  obtain ⟨x, -, rfl⟩ := h
  cases x
  · exact .inl rfl
  · exact .inr rfl

theorem Blank.isSpace {c : Char} (h : c ∈ b.text) : isSpace c := by
  rcases b.mem_text h with rfl | rfl <;> decide

theorem Blank.text_eq_nil : b.text = [] ↔ b = [] := List.map_eq_nil_iff

theorem Blank.normal : normal b.text = b.text := by
  refine normal_eq fun c hc => ?_
  rcases b.mem_text hc with rfl | rfl <;> decide

theorem Blank.unparen : unparen b.text = b.text := by
  refine unparen_eq fun c hc => ?_
  rcases b.mem_text hc with rfl | rfl <;> decide

theorem Ident.normal : normal i.text = i.text := normal_eq fun _ hc => (i.char hc).2

theorem Argument.normal : normal a.text = a.text := by
  simp only [Argument.text, normal_append, Blank.normal, Ident.normal]

theorem normal_arguments (l : List Argument) :
    Magen.normal ([','].intercalate (l.map Argument.text)) = l.flatMap Argument.text := by
  have hcomma : Magen.normal [','] = [] := by decide
  induction l with
  | nil => rfl
  | cons a l ih =>
    cases l with
    | nil => rw [List.map_singleton, List.intercalate_singleton, a.normal, List.flatMap_singleton]
    | cons b l =>
      rw [List.map_cons, List.map_cons, List.intercalate_cons_cons, ← List.map_cons, normal_append,
        normal_append, ih, a.normal, hcomma, List.append_nil, ← List.flatMap_cons]

/-- The commas are gone, and the other punctuation has become space. -/
theorem Declaration.normal : normal (d.text ++ b.text) = d.indent.text ++ (d.name.text ++
    (d.afterName.text ++ ' ' :: (d.inside.text ++ (d.arguments.flatMap Argument.text ++
      ' ' :: (d.afterArguments.text ++ ' ' :: b.text))))) := by
  have hopen : Magen.normal ['('] = [' '] := by decide
  have hclose : Magen.normal [')'] = [' '] := by decide
  have hsemi : Magen.normal [';'] = [' '] := by decide
  simp only [Declaration.text, ← List.singleton_append (l := _ ++ _), List.append_assoc,
    normal_append, Blank.normal, Ident.normal, normal_arguments, hopen, hclose, hsemi]
  rfl

end

/-! ### Words -/

section
variable {s : Text} {r : Text} (b : Blank) (i : Ident) (d : Declaration)

theorem split_blank : split b.text = [] := words_seps fun _ => b.isSpace

theorem split_blank_append : split (b.text ++ s) = split s :=
  words_seps_append _ fun _ => b.isSpace

theorem split_append_blank : split (s ++ b.text) = split s :=
  words_append_seps _ fun _ => b.isSpace

theorem split_append_space (s r : Text) : split (s ++ ' ' :: r) = split s ++ split r :=
  words_append_sep s r rfl

theorem split_space : split (' ' :: s) = split s := words_sep_cons rfl

theorem split_ident : split i.text = [i.text] := words_word (fun _ hc => (i.char hc).1) i.nonempty

variable {b} in
theorem split_ident_blank (hb : b ≠ []) : split (i.text ++ (b.text ++ s)) = i.text :: split s :=
  words_word_seps (fun _ hc => (i.char hc).1) i.nonempty (fun _ => b.isSpace)
    (mt (Blank.text_eq_nil b).1 hb)

/-- `strip` removes only separators. -/
theorem strip_spec (s : Text) : ∃ a b, s = a ++ (strip s ++ b) ∧ (∀ c ∈ a, isBlank c) ∧
    ∀ c ∈ b, isBlank c := by
  refine ⟨s.takeWhile isBlank, (s.dropWhile isBlank).rtakeWhile isBlank, ?_,
    fun c => List.mem_takeWhile_imp, fun c => List.mem_rtakeWhile_imp⟩
  rw [strip, List.rdropWhile_append_rtakeWhile, List.takeWhile_append_dropWhile]

theorem isSpace_of_isBlank {c : Char} (h : isBlank c) : isSpace c := by
  simp only [isBlank, Bool.or_eq_true, beq_iff_eq] at h
  rcases h with (rfl | rfl) | rfl <;> decide

theorem split_tidy : split (tidy s) = split (replace ';' ' ' s) := by
  obtain ⟨a, b, hs, ha, hb⟩ := strip_spec (replace ';' ' ' s)
  rw [hs, split, split, words_seps_append a fun c hc => isSpace_of_isBlank (ha c hc),
    words_append_seps b fun c hc => isSpace_of_isBlank (hb c hc)]
  rfl

theorem split_erase_tidy : split (Magen.erase ',' (tidy s)) =
    split (Magen.erase ',' (replace ';' ' ' s)) := by
  obtain ⟨a, b, hs, ha, hb⟩ := strip_spec (replace ';' ' ' s)
  have hsep : ∀ l : Text, (∀ c ∈ l, isBlank c) → ∀ c ∈ Magen.erase ',' l, isSpace c :=
    fun l hl c hc => isSpace_of_isBlank (hl c (List.mem_of_mem_filter hc))
  have herase : Magen.erase ',' (replace ';' ' ' s) =
      Magen.erase ',' a ++ (Magen.erase ',' (tidy s) ++ Magen.erase ',' b) := by
    conv_lhs => rw [hs]
    simp only [Magen.erase, List.filter_append]
    rfl
  rw [herase, split, split, words_seps_append _ (hsep a ha), words_append_seps _ (hsep b hb)]

/-! ### Arguments -/

/-- Without a space next to the comma, the name of `a` and the type of `b` are one word. -/
theorem split_glued {a b : Argument} (h : a.after = [] ∧ b.before = []) (s : Text) :
    split (a.name.text ++ (a.after.text ++ (b.before.text ++ (b.type.text ++ (b.between.text ++ s))))) =
      (a.name.text ++ b.type.text) :: split s := by
  rw [h.1, h.2]
  change split (a.name.text ++ (b.type.text ++ (b.between.text ++ s))) = _
  rw [← List.append_assoc]
  refine words_word_seps (fun c hc => ?_) ?_ (fun _ => b.between.isSpace)
    (mt (Blank.text_eq_nil _).1 b.apart)
  · rcases List.mem_append.1 hc with hc | hc
    · exact (a.name.char hc).1
    · exact (b.type.char hc).1
  · exact fun h => a.name.nonempty (List.append_eq_nil_iff.1 h).1

theorem split_separated {a b : Argument} (h : a.after ≠ [] ∨ b.before ≠ []) (s : Text) :
    split (a.name.text ++ (a.after.text ++ (b.before.text ++ (b.type.text ++ (b.between.text ++ s))))) =
      a.name.text :: b.type.text :: split s := by
  have hne : a.after ++ b.before ≠ [] := by
    rw [Ne, List.append_eq_nil_iff, not_and_or]
    exact h
  have hblank : Blank.text (a.after ++ b.before) = a.after.text ++ b.before.text := List.map_append
  rw [← List.append_assoc a.after.text, ← hblank, split_ident_blank _ hne,
    split_ident_blank _ b.apart]

/-- From the name of an argument on: as long as spaces are next to the commas, each type and each name
    is a word, and else two of them are one word. -/
theorem split_arguments_from (a : Argument) (l : List Argument) :
    ((a :: l).IsChain (fun a b => a.after ≠ [] ∨ b.before ≠ []) →
      split (a.name.text ++ (a.after.text ++ l.flatMap Argument.text)) =
        a.name.text :: unpaired (l.map Argument.pair)) ∧
    (¬ (a :: l).IsChain (fun a b => a.after ≠ [] ∨ b.before ≠ []) →
      (split (a.name.text ++ (a.after.text ++ l.flatMap Argument.text))).length <
        1 + 2 * l.length) := by
  induction l generalizing a with
  | nil =>
    refine ⟨fun _ => ?_, fun h => absurd (.singleton a) h⟩
    rw [List.flatMap_nil, List.append_nil, split_append_blank, split_ident]
    rfl
  | cons b l ih =>
    obtain ⟨hchain, hbroken⟩ := ih b
    have htext : (b :: l).flatMap Argument.text = b.before.text ++ (b.type.text ++ (b.between.text ++
        (b.name.text ++ (b.after.text ++ l.flatMap Argument.text)))) := by
      simp only [List.flatMap_cons, Argument.text, List.append_assoc]
    rw [List.isChain_cons_cons, htext]
    by_cases hgap : a.after ≠ [] ∨ b.before ≠ []
    · rw [split_separated hgap]
      refine ⟨fun h => ?_, fun h => ?_⟩
      · rw [hchain h.2]
        rfl
      · have := hbroken fun hl => h ⟨hgap, hl⟩
        simp only [List.length_cons]
        omega
    · rw [not_or, not_not, not_not] at hgap
      rw [split_glued hgap]
      refine ⟨fun h => ?_, fun _ => ?_⟩
      · exact absurd hgap (by tauto)
      · have hle : (split (b.name.text ++ (b.after.text ++ l.flatMap Argument.text))).length ≤
            1 + 2 * l.length := by
          by_cases h : (b :: l).IsChain fun a b => a.after ≠ [] ∨ b.before ≠ []
          · rw [hchain h, List.length_cons, length_unpaired, List.length_map]
            omega
          · exact (hbroken h).le
        simp only [List.length_cons]
        omega

/-- What the parser takes the arguments to be: all of them, if there are spaces next to the commas, and
    fewer otherwise. -/
theorem arguments_iff (l : List Argument) :
    (everyOther (split (l.flatMap Argument.text))).zip
        (everyOther ((split (l.flatMap Argument.text)).drop 1)) = l.map Argument.pair ↔
      l.IsChain fun a b => a.after ≠ [] ∨ b.before ≠ [] := by
  cases l with
  | nil => simp [split, everyOther]
  | cons a l =>
    obtain ⟨hchain, hbroken⟩ := split_arguments_from a l
    have hfirst : split ((a :: l).flatMap Argument.text) =
        a.type.text :: split (a.name.text ++ (a.after.text ++ l.flatMap Argument.text)) := by
      rw [List.flatMap_cons, Argument.text]
      simp only [List.append_assoc]
      rw [split_blank_append, split_ident_blank _ a.apart]
    refine ⟨fun h => ?_, fun h => ?_⟩
    · by_contra hne
      have hlen := congrArg List.length h
      rw [length_zip_everyOther, hfirst, List.length_cons, List.length_map, List.length_cons] at hlen
      have := hbroken hne
      omega
    · rw [hfirst, hchain h]
      exact zip_everyOther_unpaired ((a :: l).map Argument.pair)

/-- A declaration is understood just when there is a space next to each comma. -/
theorem getMethod_iff (d : Declaration) (b : Blank) :
    getMethod (tidy (unparen (d.text ++ b.text))) = .ok d.method ↔ d.Separated := by
  have hwords : split (Magen.erase ',' (tidy (unparen (d.text ++ b.text)))) =
      d.name.text :: split (d.arguments.flatMap Argument.text) := by
    have hopen : ∀ s : Text, d.afterName.text ++ ' ' :: s =
        Blank.text (d.afterName ++ [.space]) ++ s := by
      simp [Blank.text, Space.char]
    have hclose : split (d.arguments.flatMap Argument.text ++
        ' ' :: (d.afterArguments.text ++ ' ' :: b.text)) = split (d.arguments.flatMap Argument.text) := by
      rw [split_append_space, split_blank_append, split_space, split_blank, List.append_nil]
    rw [split_erase_tidy, ← normal, d.normal b, split_blank_append, hopen,
      split_ident_blank _ (by simp), split_blank_append, hclose]
  have hget : getMethod (tidy (unparen (d.text ++ b.text))) = .ok ⟨d.name.text,
      (everyOther (split (d.arguments.flatMap Argument.text))).zip
        (everyOther ((split (d.arguments.flatMap Argument.text)).drop 1))⟩ := by
    rw [getMethod, hwords]
    rfl
  rw [hget, Declaration.method, Except.ok.injEq, Method.mk.injEq, arguments_iff,
    Declaration.Separated]
  exact and_iff_right rfl

end

/-! ### Lines -/

section
variable (t : Tail) (d : Declaration)

theorem slash_mem {s : Text} (h : ['/', '/'] <:+: s) : '/' ∈ s := h.subset (by simp)

/-- Characters that are in no declaration. -/
def foreign : List Char := ['/', '{', '}', '\n', '\r']

theorem Blank.notMem (b : Blank) {c : Char} (h : c ∈ foreign) : c ∉ b.text := by
  intro hc
  rcases b.mem_text hc with rfl | rfl <;> exact absurd h (by decide)

theorem Ident.notMem (i : Ident) {c : Char} (h : c ∈ foreign) : c ∉ i.text := by
  intro hc
  obtain ⟨hspace, hpunct⟩ := i.char hc
  simp only [foreign, List.mem_cons, List.not_mem_nil, or_false] at h
  rcases h with rfl | rfl | rfl | rfl | rfl
  iterate 3 exact hpunct (by decide)
  iterate 2 exact absurd hspace (by decide)

theorem Argument.notMem (a : Argument) {c : Char} (h : c ∈ foreign) : c ∉ a.text := by
  simp only [Argument.text, List.mem_append, not_or]
  exact ⟨Blank.notMem _ h, a.type.notMem h, Blank.notMem _ h, a.name.notMem h, Blank.notMem _ h⟩

theorem Declaration.notMem {c : Char} (h : c ∈ foreign) : c ∉ d.text := by
  have hne : c ≠ '(' ∧ c ≠ ')' ∧ c ≠ ',' ∧ c ≠ ';' := by
    refine ⟨?_, ?_, ?_, ?_⟩
    all_goals
      rintro rfl
      exact absurd h (by decide)
  have hargs : c ∉ [','].intercalate (d.arguments.map Argument.text) := by
    rw [mem_intercalate hne.2.2.1]
    rintro ⟨l, hl, hc⟩
    obtain ⟨a, -, rfl⟩ := List.mem_map.1 hl
    exact a.notMem h hc
  simp only [Declaration.text, List.mem_append, List.mem_cons, List.not_mem_nil, or_false, not_or]
  exact ⟨Blank.notMem _ h, d.name.notMem h, Blank.notMem _ h, hne.1, Blank.notMem _ h, hargs,
    hne.2.1, Blank.notMem _ h, hne.2.2.2⟩

theorem removed_comment {s : Text} {c : Comment} (h : t.comment = some c) :
    Removed (unparen (s ++ t.text)) := by
  refine .inr ⟨unparen (s ++ t.blank.text), unparen c.text, ?_⟩
  rw [Tail.text, h, ← List.append_assoc s, unparen_append (s ++ t.blank.text)]
  simp [unparen, replace]

/-- A line that is not empty is removed only for a comment. -/
theorem not_removed {s : Text} (hne : s ≠ []) (hs : '/' ∉ s) : ¬ Removed (unparen s) := by
  rintro (h | h)
  · simp [unparen, replace, hne] at h
  · exact hs ((mem_unparen (by decide)).1 (slash_mem h))

theorem removed_tail : Removed (unparen t.text) ↔ t.Removable := by
  cases h : t.comment with
  | some c => exact iff_of_true (removed_comment t (s := []) h) (.inr (by simp [h]))
  | none =>
    have htext : t.text = t.blank.text := by simp [Tail.text, h]
    rw [htext, Tail.Removable, h]
    by_cases hb : t.blank = []
    · simp [hb, Removed, unparen, replace, Blank.text]
    · refine iff_of_false (not_removed (mt (Blank.text_eq_nil _).1 hb) ?_) (by simp [hb])
      exact Blank.notMem _ (by decide)

theorem removed_declaration : Removed (unparen (d.text ++ t.text)) ↔ t.comment ≠ none := by
  cases h : t.comment with
  | some c => exact iff_of_true (removed_comment t h) (by simp)
  | none =>
    refine iff_of_false (not_removed ?_ ?_) (by simp)
    · simp [Declaration.text]
    · simp only [Tail.text, h, Option.map_none, Option.getD_none, List.append_nil, List.mem_append,
        not_or]
      exact ⟨d.notMem (by decide), Blank.notMem _ (by decide)⟩

end

/-- A successful run, line by line. -/
theorem parseLines_eq_ok {ls : List Text} {r : Interface} : parseLines ls = .ok r ↔
    ∃ first rest, ls.filter (¬ Removed ·) = first :: rest ++ [['}']] ∧
      getInterfaceName (tidy first) = .ok r.interfaceName ∧
      List.Forall₂ (fun l m => getMethod (tidy l) = .ok m) rest r.listOfMethods := by
  have hremoved : (ls.filter (Removed ·)).foldl List.erase ls = ls.filter (¬ Removed ·) := by
    rw [foldl_erase_filter]
    exact List.filter_congr fun l _ => (decide_not).symm
  rw [parseLines]
  simp only [hremoved, bind_eq_ok, orFail_eq_ok, check_eq_ok, pure_eq_ok]
  constructor
  · rintro ⟨last, hlast, -, rfl, first, hfirst, name, hname, methods, hmethods, rfl⟩
    obtain ⟨init, hinit⟩ := List.getLast?_eq_some_iff.1 hlast
    rw [hinit, List.dropLast_concat] at hfirst hmethods
    cases init with
    | nil => cases hfirst
    | cons l rest =>
      rw [List.map_cons, List.getElem?_cons_zero, Option.some.injEq] at hfirst
      subst hfirst
      rw [List.map_cons, List.drop_one, List.tail_cons, getListOfMethods, mapM_eq_ok,
        List.forall₂_map_left_iff] at hmethods
      exact ⟨l, rest, hinit, hname, hmethods⟩
  · rintro ⟨first, rest, hkept, hname, hmethods⟩
    refine ⟨['}'], ?_, (), rfl, tidy first, ?_, _, hname, r.listOfMethods, ?_, rfl⟩
    · rw [hkept, List.getLast?_concat]
    · rw [hkept, List.dropLast_concat]
      rfl
    · rw [hkept, List.dropLast_concat, List.map_cons, List.drop_one, List.tail_cons,
        getListOfMethods, mapM_eq_ok, List.forall₂_map_left_iff]
      exact hmethods

/-! ### Files -/

theorem read_eq {s : Text} (h : '\r' ∉ s) : read s = s := by
  induction s using read.induct with
  | case1 s ih => exact absurd List.mem_cons_self h
  | case2 s hs ih => exact absurd List.mem_cons_self h
  | case3 c s h1 h2 ih =>
    rw [read, ih fun hs => h (List.mem_cons_of_mem c hs)]
    · exact h1
    · exact h2
  | case4 => rfl

section
variable {c : Char} (L : Layout)

/-- The lines of a page, with the last one. -/
def Page.lines (p : Page) : List Text := p.1 ++ [p.2]

theorem Tail.mem_text (t : Tail) (h : c ∈ foreign) (hc : c ≠ '/') :
    c ∈ t.text ↔ ∃ cm, t.comment = some cm ∧ c ∈ cm.text := by
  cases hcm : t.comment with
  | none => simp [Tail.text, hcm, Blank.notMem _ h]
  | some cm => simp [Tail.text, hcm, Blank.notMem _ h, hc]

/-- What is between two tokens can have a character only in its comments. -/
theorem Gap.mem_extend (g : Gap) (p : Page) (h : c ∈ foreign) :
    (∃ l ∈ (g.extend p).lines, c ∈ l) ↔ (∃ l ∈ p.lines, c ∈ l) ∨ ∃ t ∈ g.tails, c ∈ t.text := by
  cases g with
  | blank b => simp [Gap.extend, Page.lines, Gap.tails, or_and_right, exists_or, Blank.notMem _ h]
  | broken tail between indent =>
    simp [Gap.extend, Page.lines, Gap.tails, or_and_right, exists_or, Blank.notMem _ h, or_assoc]

theorem Layout.mem_header (h : c ∈ foreign) : (∃ l ∈ L.header.lines, c ∈ l) ↔
    ∃ t ∈ L.leading ++ (L.toName.tails ++ L.toBrace.tails), c ∈ t.text := by
  have hkeyword : c ∉ keyword := by
    intro hc
    simp only [foreign, List.mem_cons, List.not_mem_nil, or_false] at h
    rcases h with rfl | rfl | rfl | rfl | rfl <;> exact absurd hc (by decide)
  have hname : ∀ p : Page, (∃ l ∈ Page.lines (p.1, p.2 ++ L.name.text), c ∈ l) ↔
      ∃ l ∈ p.lines, c ∈ l := by
    intro p
    simp [Page.lines, or_and_right, exists_or, L.name.notMem h]
  rw [header, Gap.mem_extend _ _ h, hname, Gap.mem_extend _ _ h]
  simp [Page.lines, or_and_right, exists_or, Blank.notMem _ h, hkeyword, or_assoc]

theorem Line.mem_text (l : Line) (h : c ∈ foreign) : c ∈ l.text ↔ c ∈ l.tail.text := by
  cases l with
  | empty t => rfl
  | declaration d t => simp [Line.text, Line.tail, d.notMem h]

theorem Layout.mem_lines (h : c ∈ foreign) (hc : c ≠ '}') : (∃ l ∈ L.lines, c ∈ l) ↔
    ∃ t ∈ L.body.map Line.tail ++ L.tail :: L.trailing, c ∈ t.text := by
  have hlast : c ∉ (L.last.map Declaration.text).getD [] := by
    cases L.last with
    | none => simp
    | some d => simpa using d.notMem h
  have hclosing : c ∈ L.closing ↔ c ∈ L.tail.text := by
    simp [closing, hlast, Blank.notMem _ h, hc]
  simp [lines, or_and_right, exists_or, hclosing, Line.mem_text _ h]

/-- No line has a line end in it. -/
theorem Layout.single (h : c = '\n' ∨ c = '\r') :
    (∀ l ∈ L.header.lines, c ∉ l) ∧ ∀ l ∈ L.lines, c ∉ l := by
  have hc : c ∈ foreign ∧ c ≠ '/' ∧ c ≠ '}' := by rcases h with rfl | rfl <;> decide
  have htail : ∀ t : Tail, c ∉ t.text := by
    intro t ht
    obtain ⟨cm, -, hmem⟩ := (t.mem_text hc.1 hc.2.1).1 ht
    rcases h with rfl | rfl
    · exact (cm.char hmem).1 rfl
    · exact (cm.char hmem).2 rfl
  refine ⟨fun l hl hm => ?_, fun l hl hm => ?_⟩
  · obtain ⟨t, -, ht⟩ := (L.mem_header hc.1).1 ⟨l, hl, hm⟩
    exact htail t ht
  · obtain ⟨t, -, ht⟩ := (L.mem_lines hc.1 hc.2.2).1 ⟨l, hl, hm⟩
    exact htail t ht

/-- An opening brace is the one of the interface, or in a comment. -/
theorem Layout.brace_mem : ((∃ l ∈ L.header.lines, '{' ∈ l) ∨ ∃ l ∈ L.lines, '{' ∈ l) ↔
    ∃ t ∈ L.tails, ∃ cm, t.comment = some cm ∧ '{' ∈ cm.text := by
  rw [L.mem_header (by decide), L.mem_lines (by decide) (by decide)]
  simp only [tails, List.mem_append, or_and_right, exists_or, or_assoc,
    Tail.mem_text _ (show '{' ∈ foreign by decide) (show '{' ≠ '/' by decide)]

theorem unparen_intercalate (ls : List Text) :
    unparen (['\n'].intercalate ls) = ['\n'].intercalate (ls.map unparen) := by
  rw [unparen, replace, replace, map_intercalate, map_intercalate, List.map_map]
  rfl

/-- The parts of a text before and after the brace of the interface. -/
theorem Layout.unparen_read : unparen (read L.text) =
    ['\n'].intercalate (L.header.lines.map unparen) ++
      '{' :: ['\n'].intercalate (L.lines.map unparen) := by
  have hread : '\r' ∉ L.text := by
    obtain ⟨hheader, hlines⟩ := L.single (c := '\r') (.inr rfl)
    rw [text, List.mem_append, List.mem_cons, mem_intercalate (by decide),
      mem_intercalate (by decide)]
    rintro (⟨l, hl, h⟩ | h | ⟨l, hl, h⟩)
    · exact hheader l hl h
    · exact absurd h (by decide)
    · exact hlines l hl h
  have hbrace : unparen ['{'] = ['{'] := by decide
  rw [read_eq hread, text, ← List.singleton_append (l := ['\n'].intercalate _), unparen_append,
    unparen_append, hbrace, unparen_intercalate, unparen_intercalate]
  rfl

theorem mem_intercalate_unparen (ls : List Text) :
    '{' ∈ ['\n'].intercalate (ls.map unparen) ↔ ∃ l ∈ ls, '{' ∈ l := by
  rw [mem_intercalate (by decide)]
  simp only [List.mem_map, exists_exists_and_eq_and,
    mem_unparen (show '{' ≠ ' ' ∧ '{' ≠ '(' ∧ '{' ≠ ')' by decide)]

/-- With a brace in a comment, there are too many parts. -/
theorem Layout.parse_brace (h : ∃ t ∈ L.tails, ∃ cm, t.comment = some cm ∧ '{' ∈ cm.text) :
    parse L.text = .error .assertionError := by
  have hlen : (((unparen (read L.text)).splitOn '{').length) ≠ 2 := by
    rw [L.unparen_read, length_splitOn, List.count_append, List.count_cons_self]
    rcases L.brace_mem.2 h with h | h
    · have := List.count_pos_iff.2 ((mem_intercalate_unparen _).2 h)
      omega
    · have := List.count_pos_iff.2 ((mem_intercalate_unparen _).2 h)
      omega
  rw [parse, ← unparen]
  split
  · next heq =>
    rw [heq] at hlen
    exact absurd rfl hlen
  · rfl

/-- What the script makes of a file otherwise: the last line before the brace, and the lines after it. -/
theorem Layout.parse_text (h : ¬ ∃ t ∈ L.tails, ∃ cm, t.comment = some cm ∧ '{' ∈ cm.text) :
    parse L.text = parseLines (unparen L.header.2 :: L.lines.map unparen) := by
  rw [← L.brace_mem, not_or] at h
  have hsplit : (unparen (read L.text)).splitOn '{' =
      [['\n'].intercalate (L.header.lines.map unparen), ['\n'].intercalate (L.lines.map unparen)] := by
    rw [L.unparen_read, List.splitOn_append_cons_self,
      List.splitOn_eq_singleton (mt (mem_intercalate_unparen _).1 h.1),
      List.splitOn_eq_singleton (mt (mem_intercalate_unparen _).1 h.2)]
    rfl
  have hlines : ∀ ls : List Text, ls ≠ [] → (∀ l ∈ ls, '\n' ∉ l) →
      (['\n'].intercalate (ls.map unparen)).splitOn '\n' = ls.map unparen := by
    intro ls hne hls
    refine List.splitOn_intercalate '\n' (fun l hl => ?_) (by simpa using hne)
    obtain ⟨l', hl', rfl⟩ := List.mem_map.1 hl
    rw [mem_unparen (by decide)]
    exact hls l' hl'
  obtain ⟨hheader, hbody⟩ := L.single (c := '\n') (.inl rfl)
  rw [parse, ← unparen, hsplit]
  simp only
  rw [hlines _ (by simp [Page.lines]) hheader, hlines _ (by simp [lines]) hbody, Page.lines,
    List.map_append, List.map_singleton, List.getLastD_concat]

end

/-! ### The condition -/

section
variable (L : Layout) (b : Blank)

/-- From a line of spaces only, nothing can be read. -/
theorem getMethod_blank (m : Method) : getMethod (tidy (unparen b.text)) ≠ .ok m := by
  have hwords : split (Magen.erase ',' (tidy (unparen b.text))) = [] := by
    rw [split_erase_tidy, ← normal, b.normal, split_blank]
  rw [getMethod, hwords]
  exact fun h => by cases h

theorem split_tidy_eq {s : Text} (h : ∀ c ∈ s, c ≠ '(' ∧ c ≠ ')' ∧ c ≠ ';') :
    split (tidy (unparen s)) = split s := by
  rw [split_tidy, unparen_eq fun c hc => ⟨(h c hc).1, (h c hc).2.1⟩, replace]
  congr 1
  refine (List.map_congr_left fun c hc => ?_).trans (List.map_id _)
  simp [h c hc]

theorem getInterfaceName_blank (n : Text) : getInterfaceName (tidy (unparen b.text)) ≠ .ok n := by
  have hwords : split (tidy (unparen b.text)) = [] := by
    rw [split_tidy_eq, split_blank]
    intro c hc
    rcases b.mem_text hc with rfl | rfl <;> decide
  rw [getInterfaceName, hwords]
  exact fun h => by cases h

/-- The keyword as a token. -/
def interfaceToken : Ident := ⟨keyword, List.cons_ne_nil _ _, rfl⟩

/-- The line of the brace, as far as the brace. -/
theorem Layout.header_last : L.header.2 = match L.toName, L.toBrace with
    | .blank a, .blank b => L.indent.text ++ (interfaceToken.text ++
        (a.text ++ (L.name.text ++ b.text)))
    | .broken _ _ i, .blank b => i.text ++ (L.name.text ++ b.text)
    | _, .broken _ _ i => i.text := by
  rw [header]
  cases L.toName <;> cases L.toBrace <;> simp [Gap.extend, interfaceToken]

/-- Nothing but names and spaces are in that line. -/
theorem Layout.header_plain {c : Char} (hc : c ∈ punctuation) : c ∉ L.header.2 := by
  have hblank : ∀ b : Blank, c ∉ b.text := by
    intro b hb
    rcases b.mem_text hb with rfl | rfl <;> exact absurd hc (by decide)
  have hident : ∀ i : Ident, c ∉ i.text := fun i hi => (i.char hi).2 hc
  rw [L.header_last]
  split <;> simp [hblank, hident]

/-- The name of the interface is found just if it stands between the keyword and the brace, in one
    line. -/
theorem Layout.getInterfaceName_iff : getInterfaceName (tidy (unparen L.header.2)) =
    .ok L.name.text ↔ (∃ b, L.toName = .blank b) ∧ ∃ b, L.toBrace = .blank b := by
  have hsplit : split (tidy (unparen L.header.2)) = split L.header.2 := by
    refine split_tidy_eq fun c hc => ⟨?_, ?_, ?_⟩
    all_goals
      rintro rfl
      exact L.header_plain (by decide) hc
  have hapart := L.apart
  have hlast := L.header_last
  rw [getInterfaceName, hsplit, orFail_eq_ok]
  cases hname : L.toName with
  | blank a =>
    cases hbrace : L.toBrace with
    | blank b =>
      rw [hname] at hapart
      simp only [hname, hbrace] at hlast
      refine iff_of_true ?_ ⟨⟨a, rfl⟩, b, rfl⟩
      rw [hlast, split_blank_append, split_ident_blank _ (by simpa using hapart),
        split_append_blank, split_ident]
      rfl
    | broken t j i =>
      simp only [hname, hbrace] at hlast
      rw [hlast, split_blank]
      simp
  | broken t j i =>
    cases hbrace : L.toBrace with
    | blank b =>
      simp only [hname, hbrace] at hlast
      rw [hlast, split_blank_append, split_append_blank, split_ident]
      simp
    | broken t j i =>
      simp only [hname, hbrace] at hlast
      rw [hlast, split_blank]
      simp

/-- The last line before the brace is kept, if the whole header is in it. -/
theorem Layout.header_kept (h : getInterfaceName (tidy (unparen L.header.2)) = .ok L.name.text) :
    ¬ Removed (unparen L.header.2) := by
  refine not_removed (fun hnil => ?_) (L.header_plain (by decide))
  rw [hnil] at h
  cases h

theorem Layout.header_brace : '}' ∉ unparen L.header.2 := by
  rw [mem_unparen (by decide)]
  exact L.header_plain (by decide)

theorem length_unparen (s : Text) : (unparen s).length = s.length := by simp [unparen, replace]

/-- The closing brace is recognized just if nothing else is in its line. -/
theorem Layout.closing_iff : unparen L.closing = ['}'] ↔
    L.last = none ∧ L.beforeBrace = [] ∧ L.tail = {} := by
  constructor
  · intro h
    have hlen := congrArg List.length h
    rw [length_unparen, closing] at hlen
    simp only [List.length_append, List.length_cons, List.length_nil] at hlen
    have hbefore : L.beforeBrace.text = [] := List.eq_nil_of_length_eq_zero (by omega)
    have htail : L.tail.text = [] := List.eq_nil_of_length_eq_zero (by omega)
    have hlast : (L.last.map Declaration.text).getD [] = [] :=
      List.eq_nil_of_length_eq_zero (by omega)
    refine ⟨?_, (Blank.text_eq_nil _).1 hbefore, ?_⟩
    · cases hd : L.last with
      | none => rfl
      | some d => simp [hd, Declaration.text] at hlast
    · rw [Tail.text, List.append_eq_nil_iff, Blank.text_eq_nil] at htail
      obtain ⟨hblank, hcomment⟩ := htail
      cases ht : L.tail with
      | mk blank comment =>
        rw [ht] at hblank hcomment
        cases comment with
        | none => rw [show blank = [] from hblank]
        | some c => simp at hcomment
  · rintro ⟨hlast, hbefore, htail⟩
    rw [closing, hlast, hbefore, htail]
    rfl

theorem Line.removed_iff (l : Line) : Removed (unparen l.text) ↔ match l with
    | .empty t => t.Removable
    | .declaration _ t => t.comment ≠ none := by
  cases l with
  | empty t => exact removed_tail t
  | declaration d t => exact removed_declaration t d

/-- If all but the declarations is removed, then all methods are found just if the lines are plain. -/
theorem forall₂_body {body : List Line}
    (h : ∀ l ∈ body, ¬ Removed (unparen l.text) ↔ l.declaration?.isSome) :
    List.Forall₂ (fun l m => getMethod (tidy l) = .ok m)
        ((body.map fun l => unparen l.text).filter (¬ Removed ·))
        ((body.filterMap Line.declaration?).map Declaration.method) ↔ ∀ l ∈ body, l.Plain := by
  induction body with
  | nil => simp
  | cons l body ih =>
    have hl := h l List.mem_cons_self
    have hbody := ih fun l' hl' => h l' (List.mem_cons_of_mem l hl')
    rw [List.forall_mem_cons, ← hbody, List.map_cons]
    cases l with
    | empty t =>
      have hremoved : Removed (unparen (Line.empty t).text) := by
        by_contra hne
        exact absurd (hl.1 hne) (by simp [Line.declaration?])
      rw [List.filter_cons_of_neg (by simpa using hremoved), List.filterMap_cons_none rfl]
      exact (and_iff_right ((Line.removed_iff _).1 hremoved)).symm
    | declaration d t =>
      have hkept : ¬ Removed (unparen (Line.declaration d t).text) := hl.2 rfl
      have hcomment : t.comment = none := by simpa using mt (Line.removed_iff _).2 hkept
      have htext : (Line.declaration d t).text = d.text ++ t.blank.text := by
        simp [Line.text, Tail.text, hcomment]
      rw [List.filter_cons_of_pos (by simpa using hkept), List.filterMap_cons_some (f := Line.declaration?) rfl,
        List.map_cons, List.forall₂_cons, htext, getMethod_iff]
      simp [Line.Plain, hcomment]

/-- No line that is left has a closing brace, other than that of the interface. -/
theorem Line.brace_notMem {l : Line} (h : ¬ Removed (unparen l.text)) : '}' ∉ unparen l.text := by
  have hcomment : l.tail.comment = none := by
    cases l with
    | empty t => exact not_not.1 fun hne => h ((removed_tail t).2 (.inr hne))
    | declaration d t => exact not_not.1 (mt (removed_declaration t d).2 h)
  rw [mem_unparen (by decide), l.mem_text (by decide), Tail.text, hcomment, Option.map_none,
    Option.getD_none, List.append_nil]
  exact Blank.notMem _ (by decide)

/-- The lines that are left. -/
theorem Layout.kept_lines :
    (unparen L.header.2 :: L.lines.map unparen).filter (¬ Removed ·) =
      [unparen L.header.2].filter (¬ Removed ·) ++
        ((L.body.map fun l => unparen l.text).filter (¬ Removed ·) ++
          ([unparen L.closing].filter (¬ Removed ·) ++
            (L.trailing.map fun t => unparen t.text).filter (¬ Removed ·))) := by
  rw [← List.filter_append, ← List.filter_append, ← List.filter_append, lines, List.map_append,
    List.map_cons, List.map_map, List.map_map]
  rfl

/-- The closing brace is found last just if it has a line to itself and only empty lines and comments
    follow it. -/
theorem Layout.getLast_kept :
    ((unparen L.header.2 :: L.lines.map unparen).filter (¬ Removed ·)).getLast? = some ['}'] ↔
      unparen L.closing = ['}'] ∧ ∀ t ∈ L.trailing, t.Removable := by
  have hbody : ((L.body.map fun l => unparen l.text).filter (¬ Removed ·)).getLast? ≠ some ['}'] := by
    intro h
    have hmem := List.mem_of_getLast? h
    rw [List.mem_filter, List.mem_map] at hmem
    obtain ⟨⟨l, -, hl⟩, hkept⟩ := hmem
    rw [← hl] at hkept
    exact Line.brace_notMem (by simpa using hkept) (by rw [hl]; decide)
  have htrailing : (L.trailing.map fun t => unparen t.text).filter (¬ Removed ·) = [] ↔
      ∀ t ∈ L.trailing, t.Removable := by
    simp [List.filter_eq_nil_iff, removed_tail]
  have hheader : ([unparen L.header.2].filter (¬ Removed ·)).getLast? ≠ some ['}'] := by
    intro h
    have hmem := List.mem_singleton.1 (List.mem_of_mem_filter (List.mem_of_getLast? h))
    exact L.header_brace (by rw [← hmem]; decide)
  rw [L.kept_lines, List.getLast?_append, List.getLast?_append, List.getLast?_append]
  cases hlast : ((L.trailing.map fun t => unparen t.text).filter (¬ Removed ·)).getLast? with
  | some x =>
    have hmem := List.mem_of_getLast? hlast
    have hne := List.ne_nil_of_mem hmem
    rw [List.mem_filter, List.mem_map] at hmem
    obtain ⟨⟨t, -, ht⟩, hkept⟩ := hmem
    rw [← ht] at hkept
    have hbrace : '}' ∉ unparen t.text := Line.brace_notMem (l := .empty t) (of_decide_eq_true hkept)
    refine iff_of_false (fun h => ?_) fun h => hne (htrailing.2 h.2)
    rw [Option.some_or, Option.some_or, Option.some_or, Option.some.injEq] at h
    exact hbrace (by rw [ht, h]; decide)
  | none =>
    rw [List.getLast?_eq_none_iff] at hlast
    rw [Option.none_or, and_iff_left (htrailing.1 hlast)]
    by_cases hclosing : Removed (unparen L.closing)
    · rw [List.filter_cons_of_neg (by simpa using hclosing), List.filter_nil, List.getLast?_nil,
        Option.none_or]
      refine iff_of_false (fun h => ?_) fun h => ?_
      · rcases Option.or_eq_some_iff.1 h with h | ⟨-, h⟩
        · exact hbody h
        · exact hheader h
      · rw [h] at hclosing
        exact absurd hclosing (by decide)
    · rw [List.filter_cons_of_pos (by simpa using hclosing), List.filter_nil,
        List.getLast?_singleton, Option.some_or, Option.some_or, Option.some.injEq]

/-- What the parser makes of the lines of a file without braces in comments. -/
theorem Layout.parseLines_iff :
    parseLines (unparen L.header.2 :: L.lines.map unparen) = .ok L.interface ↔
      ((∃ b, L.toName = .blank b) ∧ ∃ b, L.toBrace = .blank b) ∧ (∀ l ∈ L.body, l.Plain) ∧
        (L.last = none ∧ L.beforeBrace = [] ∧ L.tail = {}) ∧ ∀ t ∈ L.trailing, t.Removable := by
  rw [parseLines_eq_ok]
  constructor
  · rintro ⟨first, rest, hkept, hname, hmethods⟩
    have hlast := L.getLast_kept.1 (by rw [hkept, List.getLast?_concat])
    have hclosing := L.closing_iff.1 hlast.1
    have htrailing : (L.trailing.map fun t => unparen t.text).filter (¬ Removed ·) = [] := by
      simpa [List.filter_eq_nil_iff, removed_tail] using hlast.2
    rw [L.kept_lines, hlast.1, htrailing, ← List.append_assoc] at hkept
    have hinit : first :: rest = [unparen L.header.2].filter (¬ Removed ·) ++
        (L.body.map fun l => unparen l.text).filter (¬ Removed ·) :=
      (List.append_cancel_right hkept).symm
    -- Only declarations are left, since nothing can be read from spaces.
    have hkind : ∀ l ∈ L.body, decide (¬ Removed (unparen l.text)) → l.declaration?.isSome := by
      intro l hl hleft
      have hmem : unparen l.text ∈ first :: rest := by
        rw [hinit, List.mem_append, List.mem_filter, List.mem_filter]
        exact .inr ⟨List.mem_map_of_mem hl, hleft⟩
      cases l with
      | declaration d t => rfl
      | empty t =>
        have hcomment : t.comment = none :=
          not_not.1 fun hne => of_decide_eq_true hleft ((removed_tail t).2 (.inr hne))
        have htext : (Line.empty t).text = t.blank.text := by simp [Line.text, Tail.text, hcomment]
        rw [htext] at hmem
        rcases List.mem_cons.1 hmem with rfl | hmem
        · exact absurd hname (getInterfaceName_blank _ _)
        · have hread := hmethods.imp fun l m hm =>
            (⟨⟨m, hm⟩, hm⟩ : (∃ m, getMethod (tidy l) = .ok m) ∧ getMethod (tidy l) = .ok m)
          obtain ⟨m, hm⟩ := ((List.forall₂_and_left _ _).1 hread).1 _ hmem
          exact absurd hm (getMethod_blank _ m)
    -- There are as many of them as there are methods.
    obtain ⟨hle, hall⟩ := length_filter_le_filterMap hkind
    have hcount : rest.length = (L.body.filterMap Line.declaration?).length := by
      rw [hmethods.length_eq]
      simp [interface, declarations, hclosing.1]
    have hbody : ((L.body.map fun l => unparen l.text).filter (¬ Removed ·)).length =
        (L.body.filter fun l => ¬ Removed (unparen l.text)).length := by
      rw [List.filter_map, List.length_map]
      rfl
    have hlen := congrArg List.length hinit
    rw [List.length_cons, List.length_append, hbody, hcount] at hlen
    have hheader : [unparen L.header.2].filter (¬ Removed ·) = [unparen L.header.2] := by
      refine List.filter_eq_self.2 fun x hx => ?_
      by_contra hne
      rw [List.mem_singleton.1 hx] at hne
      rw [List.filter_cons_of_neg (p := fun l => decide (¬ Removed l)) hne, List.filter_nil,
        List.length_nil] at hlen
      omega
    rw [hheader, List.length_singleton] at hlen
    rw [hheader, List.singleton_append, List.cons.injEq] at hinit
    obtain ⟨rfl, rfl⟩ := hinit
    have hiff : ∀ l ∈ L.body, ¬ Removed (unparen l.text) ↔ l.declaration?.isSome := fun l hl =>
      ⟨fun h => hkind l hl (decide_eq_true h), fun h => of_decide_eq_true (hall (by omega) l hl h)⟩
    have hplain : ∀ l ∈ L.body, l.Plain := by
      rw [← forall₂_body hiff]
      simpa [interface, declarations, hclosing.1] using hmethods
    exact ⟨L.getInterfaceName_iff.1 hname, hplain, hclosing, hlast.2⟩
  · rintro ⟨hheader, hbody, hclosing, htrailing⟩
    have hname := L.getInterfaceName_iff.2 hheader
    have hiff : ∀ l ∈ L.body, ¬ Removed (unparen l.text) ↔ l.declaration?.isSome := by
      intro l hl
      have hplain := hbody l hl
      rw [l.removed_iff]
      cases l with
      | empty t => exact iff_of_false (not_not.2 hplain) (by simp [Line.declaration?])
      | declaration d t => simp [Line.declaration?, hplain.1]
    have hkept : [unparen L.header.2].filter (¬ Removed ·) = [unparen L.header.2] := by
      rw [List.filter_cons_of_pos (p := fun l => decide (¬ Removed l))
        (decide_eq_true (L.header_kept hname)), List.filter_nil]
    have hbrace : ([['}']] : List Text).filter (¬ Removed ·) = [['}']] := by decide
    have hempty : (L.trailing.map fun t => unparen t.text).filter (¬ Removed ·) = [] := by
      simpa [List.filter_eq_nil_iff, removed_tail] using htrailing
    refine ⟨_, (L.body.map fun l => unparen l.text).filter (¬ Removed ·), ?_, hname, ?_⟩
    · rw [L.kept_lines, L.closing_iff.2 hclosing, hkept, hbrace, hempty]
      rfl
    · rw [interface, declarations, hclosing.1, Option.toList_none, List.append_nil]
      exact (forall₂_body hiff).2 hbody

end

/-- What the parser makes of a file is what the file declares, just if its layout is plain. -/
theorem Layout.parse_iff (L : Layout) : parse L.text = .ok L.interface ↔ L.Plain := by
  by_cases hbrace : ∃ t ∈ L.tails, ∃ cm, t.comment = some cm ∧ '{' ∈ cm.text
  · rw [L.parse_brace hbrace]
    refine iff_of_false (fun h => by cases h) fun h => ?_
    obtain ⟨t, ht, cm, hcm, hmem⟩ := hbrace
    exact h.comments t ht cm hcm hmem
  · rw [L.parse_text hbrace, L.parseLines_iff]
    push Not at hbrace
    exact ⟨fun ⟨hheader, hbody, hclosing, htrailing⟩ =>
      ⟨hbrace, hheader, hbody, hclosing, htrailing⟩,
      fun h => ⟨h.header, h.body, h.closing, h.trailing⟩⟩

/-- Both files are accepted and understood alike, and nothing that they declare is lost. -/
def Agree (L L' : Layout) : Prop :=
  ∃ r, parse L.text = .ok r ∧ parse L'.text = .ok r ∧ r = L.interface

/-- Two layouts of the same declarations are understood alike just if both are plain. -/
theorem agree_iff (L L' : Layout) (h : L'.interface = L.interface) :
    Agree L L' ↔ L.Plain ∧ L'.Plain := by
  rw [← L.parse_iff, ← L'.parse_iff, h]
  constructor
  · rintro ⟨r, hL, hL', rfl⟩
    exact ⟨hL, hL'⟩
  · rintro ⟨hL, hL'⟩
    exact ⟨_, hL, hL', rfl⟩

namespace Sample

/-- `Send(int amount);` -/
def send : Declaration where
  indent := [.space, .space]
  name := ⟨['S', 'e', 'n', 'd'], List.cons_ne_nil _ _, rfl⟩
  arguments := [{
    type := ⟨['i', 'n', 't'], List.cons_ne_nil _ _, rfl⟩
    between := [.space]
    apart := Blank.space_ne
    name := ⟨['a', 'm', 'o', 'u', 'n', 't'], List.cons_ne_nil _ _, rfl⟩ }]

/-- An interface with one method, which has `comment` after its declaration. -/
def file (comment : Option Comment) : Layout where
  toName := .blank [.space]
  apart := Gap.space_ne
  name := ⟨['M', 'o', 'n', 'e', 'y'], List.cons_ne_nil _ _, rfl⟩
  toBrace := .blank [.space]
  body := [.empty {}, .declaration send { blank := [.space], comment }]

end Sample

/-- A comment after a declaration removes the method from the interface, without an error. -/
theorem comment_drops_method :
    let L := Sample.file none
    let L' := Sample.file (some ⟨[' ', 'a'], rfl⟩)
    parse L.text = .ok L.interface ∧ parse L'.text = .ok ⟨['M', 'o', 'n', 'e', 'y'], []⟩ ∧
      ¬ (L'.interface = L.interface → Agree L L') := by
  have hparse : parse (Sample.file (some ⟨[' ', 'a'], rfl⟩)).text =
      .ok ⟨['M', 'o', 'n', 'e', 'y'], []⟩ := by decide +kernel
  refine ⟨by decide +kernel, hparse, fun h => ?_⟩
  obtain ⟨r, -, hr, hall⟩ := h rfl
  rw [hparse, Except.ok.injEq] at hr
  exact absurd (hr.trans hall) (by decide)

/-- An empty line before the interface changes nothing. -/
theorem agree_iff_sample : Agree (Sample.file none) { Sample.file none with leading := [{}] } := by
  refine (agree_iff (Sample.file none) { Sample.file none with leading := [{}] } rfl).2 ⟨?_, ?_⟩
  · exact (Layout.parse_iff _).1 (by decide +kernel)
  · exact (Layout.parse_iff _).1 (by decide +kernel)

end Mage.Magen
