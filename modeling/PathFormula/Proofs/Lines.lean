import Mathlib.Data.List.Nodup
import PathFormula.Proofs.Names
import PathFormula.Script

/-!
# The lines of a script

The text of a script has one command a line. A line that declares a symbol tells its name and its
sort (`Symbol.declarationLine_injective`) and is no line that asserts a term or asks the solver. So
the lines of a text tell which symbols it declares and where, whatever the names are (`Introduces`).
-/
namespace PathFormula

/-- Symbols whose names tell their sorts have names of their own. -/
theorem Symbol.nodup_names {symbols : List Symbol} (hn : symbols.Nodup)
    (h : ∀ a ∈ symbols, ∀ b ∈ symbols, a.name = b.name → a.sort = b.sort) :
    (symbols.map Symbol.name).Nodup := by
  apply hn.map_on
  intro a ha b hb hname
  have hsort := h a ha b hb hname
  cases a
  cases b
  simp_all

/-! ### Kinds of lines -/

namespace Symbol

/-- The line that declares a symbol as a constant of its sort. -/
def declarationLine (s : Symbol) : String :=
  match s.sort with
  | .bool => "(declare-const " ++ s.name ++ " Bool)"
  | .int => "(declare-const " ++ s.name ++ " Int)"

theorem declaration_eq_line (s : Symbol) : s.declaration = s.declarationLine := by
  apply String.toList_inj.1
  unfold declaration declarationLine
  cases s.sort <;> simp [TermSort.text]

theorem toList_declarationLine (s : Symbol) :
    s.declarationLine.toList =
      ("(declare-const ".toList ++ s.name.toList) ++ ' ' :: (s.sort.text.toList ++ [')']) := by
  unfold declarationLine
  cases s.sort <;> simp [TermSort.text]

theorem blank_not_mem_sort (sort : TermSort) : ' ' ∉ sort.text.toList ++ [')'] := by
  cases sort <;> simp [TermSort.text]

/-- A declaration ends with the sort, and the name is what stands before. -/
theorem declarationLine_injective {a b : Symbol} (h : a.declarationLine = b.declarationLine) :
    a = b := by
  have hl := congrArg String.toList h
  rw [toList_declarationLine, toList_declarationLine] at hl
  obtain ⟨hname, hsort⟩ :=
    Names.split_unique (blank_not_mem_sort a.sort) (blank_not_mem_sort b.sort) hl
  have hn : a.name = b.name := String.toList_inj.1 (List.append_cancel_left hname)
  have hs : a.sort.text = b.sort.text := String.toList_inj.1 (List.append_cancel_right hsort)
  obtain ⟨name, sort⟩ := a
  obtain ⟨name', sort'⟩ := b
  obtain rfl : name = name' := hn
  cases sort <;> cases sort' <;> simp [TermSort.text] at hs ⊢

/-- No other line begins as a declaration does. -/
theorem declarationLine_ne {s : Symbol} {line : String} {c : Char} {rest : List Char}
    (h : line.toList = '(' :: c :: rest) (hc : c ≠ 'd') : s.declarationLine ≠ line := by
  intro heq
  rw [← heq, toList_declarationLine] at h
  simp [hc.symm] at h

end Symbol

/-- The line that asserts a term. -/
def Term.assertionLine (t : Term) : String := "(assert " ++ t.text ++ ")"

theorem Term.toList_assertionLine (t : Term) :
    t.assertionLine.toList = '(' :: 'a' :: ("ssert ".toList ++ t.text.toList ++ [')']) := by
  simp [assertionLine]

theorem Term.assertionLine_ne_checkSat (t : Term) : t.assertionLine ≠ "(check-sat)" := by
  intro h
  have hl := t.toList_assertionLine
  simp [h] at hl

theorem Symbol.declarationLine_ne_assertionLine (s : Symbol) (t : Term) :
    s.declarationLine ≠ t.assertionLine :=
  declarationLine_ne t.toList_assertionLine (by decide)

theorem Symbol.declarationLine_ne_checkSat (s : Symbol) : s.declarationLine ≠ "(check-sat)" :=
  declarationLine_ne (c := 'c') rfl (by decide)

def Command.declared? : Command → Option Symbol
  | .declare s => some s
  | _ => none

namespace Script

def declarations (script : Script) : List Symbol := script.filterMap Command.declared?

@[simp] theorem declarations_append (a b : Script) :
    declarations (a ++ b) = declarations a ++ declarations b := List.filterMap_append

@[simp] theorem declarations_declare (symbols : List Symbol) :
    declarations (symbols.map .declare) = symbols := by
  rw [declarations, List.filterMap_map]
  exact List.filterMap_some

@[simp] theorem declarations_assert (terms : List Term) :
    declarations (terms.map .assert) = [] := by
  rw [declarations, List.filterMap_map]
  exact List.filterMap_eq_nil_iff.2 fun _ _ => rfl

/-! ### Texts -/

/-- The lines of a script that declares symbols and then asserts terms. -/
def lines (symbols : List Symbol) (terms : List Term) : List String :=
  symbols.map Symbol.declarationLine ++ terms.map Term.assertionLine

theorem map_text_declare (symbols : List Symbol) :
    (symbols.map Command.declare).map Command.text = symbols.map Symbol.declarationLine := by
  rw [List.map_map]
  exact List.map_congr_left fun s _ => s.declaration_eq_line

theorem map_text_assert (terms : List Term) :
    (terms.map Command.assert).map Command.text = terms.map Term.assertionLine :=
  List.map_map

/-- The text of a script is its lines, joined by line feeds. -/
theorem text_eq_lines (symbols : List Symbol) (terms : List Term) :
    text (symbols.map .declare ++ terms.map .assert) = "\n".intercalate (lines symbols terms) := by
  rw [text, List.map_append, map_text_declare, map_text_assert, lines]

/-! ### Introducing symbols -/

/-- Among the lines of a text the symbol is declared once, and no other of its name. Before that
line the solver is not asked, and none of the terms is asserted that have the symbol. -/
structure Introduces (lines : List String) (terms : List Term) (s : Symbol) : Prop where
  once : lines.count s.declarationLine = 1
  alone : ∀ other : Symbol, other.name = s.name → other.declarationLine ∈ lines → other = s
  inTime : ∃ before after, lines = before ++ s.declarationLine :: after ∧
    "(check-sat)" ∉ before ∧ ∀ t ∈ terms, s ∈ t.symbols → t.assertionLine ∉ before

variable {symbols : List Symbol} {terms : List Term} {s : Symbol}

theorem declarationLine_not_mem_map_assertionLine (s : Symbol) (terms : List Term) :
    s.declarationLine ∉ terms.map Term.assertionLine := by
  intro h
  obtain ⟨t, -, ht⟩ := List.mem_map.1 h
  exact s.declarationLine_ne_assertionLine t ht.symm

theorem mem_map_declarationLine_iff :
    s.declarationLine ∈ symbols.map Symbol.declarationLine ↔ s ∈ symbols :=
  List.mem_map_of_injective fun _ _ => Symbol.declarationLine_injective

/-- Declarations under different names introduce each of their symbols, wherever they stand between
lines that do not interfere. -/
theorem introduces_of_mem (first last : List String) (hn : (symbols.map Symbol.name).Nodup)
    (hs : s ∈ symbols) (hf : ∀ other : Symbol, other.name = s.name →
      other.declarationLine ∉ first ∧ other.declarationLine ∉ last)
    (hc : "(check-sat)" ∉ first) (ht : ∀ t ∈ terms, s ∈ t.symbols → t.assertionLine ∉ first) :
    Introduces (first ++ symbols.map Symbol.declarationLine ++ last) terms s := by
  have hlines : (symbols.map Symbol.declarationLine).Nodup :=
    (List.Nodup.of_map _ hn).map fun _ _ => Symbol.declarationLine_injective
  refine ⟨?_, fun other hname hm => ?_, ?_⟩
  · rw [List.count_append, List.count_append, List.count_eq_zero.2 (hf s rfl).1,
      List.count_eq_zero.2 (hf s rfl).2,
      List.count_eq_one_of_mem hlines (mem_map_declarationLine_iff.2 hs)]
  · rcases List.mem_append.1 hm with hm | hm
    · rcases List.mem_append.1 hm with hm | hm
      · exact absurd hm (hf other hname).1
      · exact List.inj_on_of_nodup_map hn (mem_map_declarationLine_iff.1 hm) hs hname
    · exact absurd hm (hf other hname).2
  · obtain ⟨before, after, rfl⟩ := List.append_of_mem hs
    refine ⟨first ++ before.map Symbol.declarationLine, after.map Symbol.declarationLine ++ last,
      by simp, ?_, fun t hm hst => ?_⟩
    · rw [List.mem_append, not_or]
      refine ⟨hc, fun h => ?_⟩
      obtain ⟨other, -, ho⟩ := List.mem_map.1 h
      exact other.declarationLine_ne_checkSat ho
    · rw [List.mem_append, not_or]
      refine ⟨ht t hm hst, fun h => ?_⟩
      obtain ⟨other, -, ho⟩ := List.mem_map.1 h
      exact other.declarationLine_ne_assertionLine t ho

theorem checkSat_not_mem_lines : "(check-sat)" ∉ lines symbols terms := by
  intro h
  rcases List.mem_append.1 h with h | h
  · obtain ⟨other, -, ho⟩ := List.mem_map.1 h
    exact other.declarationLine_ne_checkSat ho
  · obtain ⟨t, -, ht⟩ := List.mem_map.1 h
    exact t.assertionLine_ne_checkSat ht

/-- A script that declares symbols under different names before all assertions introduces them. -/
theorem introduces_lines (hn : (symbols.map Symbol.name).Nodup) (hs : s ∈ symbols) :
    Introduces (lines symbols terms) terms s :=
  introduces_of_mem [] (terms.map Term.assertionLine) hn hs
    (fun other _ => ⟨List.not_mem_nil, declarationLine_not_mem_map_assertionLine other terms⟩)
    List.not_mem_nil fun _ _ _ => List.not_mem_nil

end Script

end PathFormula
