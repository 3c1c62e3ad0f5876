import PathFormula.Proofs.Declarations
import PathFormula.Proofs.Frozen
import PathFormula.Proofs.Scopes

/-!
# Outputs of a draft

The constraints of a draft leave it as one formula, as a script, or as assertions in a session. The
formula joins them, the script declares their symbols ahead of all of them, and the session declares
what each one needs just before it. All three say the same (`outputs_agree`).
-/
namespace PathFormula

open Solver Source

/-! ### Symbols of a conjunction -/

namespace Term

theorem symbols_foldl_and (first : Term) (rest : List Term) :
    (rest.foldl and first).symbols = first.symbols ++ rest.flatMap symbols := by
  induction rest generalizing first with
  | nil => simp
  | cons t rest ih =>
    rw [List.foldl_cons, ih, symbols, List.flatMap_cons, List.append_assoc]

theorem symbols_conjunction (terms : List Term) :
    (conjunction terms).symbols = terms.flatMap symbols := by
  cases terms with
  | nil => rfl
  | cons first rest => exact symbols_foldl_and first rest

theorem freeSymbols_conjunction (terms : List Term) :
    (conjunction terms).freeSymbols = freeSymbolsOf terms := by
  rw [freeSymbols, symbols_conjunction, freeSymbolsOf]

/-- No name is free in the term at two sorts. -/
def HasOneSort (t : Term) : Prop :=
  ∀ a ∈ t.freeSymbols, ∀ b ∈ t.freeSymbols, a.name = b.name → a.sort = b.sort

instance (t : Term) : Decidable t.HasOneSort :=
  inferInstanceAs (Decidable (∀ _ ∈ _, ∀ _ ∈ _, _ → _))

theorem HasOneSort.nodup_names {t : Term} (h : t.HasOneSort) :
    (t.freeSymbols.map Symbol.name).Nodup :=
  Symbol.nodup_names t.nodup_freeSymbols h

end Term

/-! ### Assertions of a session -/

namespace Solver.Session

/-- The innermost frame is the last one of a session. -/
theorem assertions_modifyInnermost (session : Session) (change : Frame → Frame)
    (added : List Term) (h : ∀ frame, (change frame).assertions = frame.assertions ++ added) :
    (session.modifyInnermost change).assertions = session.assertions ++ added := by
  obtain ⟨frame, outer, hstack, hgrown, -⟩ := exists_innermost session change
  simp only [assertions, frames_eq, hstack, hgrown, List.reverse_cons, List.flatMap_append,
    List.flatMap_singleton, h, List.append_assoc]

theorem assertions_declare (session : Session) (s : Symbol) :
    (session.declare s).assertions = session.assertions := by
  unfold declare
  split
  · rfl
  · rw [assertions_modifyInnermost _ _ [] (by simp), List.append_nil]
    rfl

theorem assertions_assert (session : Session) (t : Term) :
    (session.assert t).assertions = session.assertions ++ [t] := by
  have hall : ∀ symbols : List Symbol,
      (symbols.foldl declare session).assertions = session.assertions := by
    intro symbols
    induction symbols generalizing session with
    | nil => rfl
    | cons s rest ih => rw [List.foldl_cons, ih, assertions_declare]
  rw [assert, assertions_modifyInnermost _ _ [t] (by simp), hall]

end Solver.Session

/-! ### The three outputs -/

namespace Draft

variable (d : Draft)

theorem freeSymbols_formula : d.formula.freeSymbols = d.script.declarations := by
  rw [formula, Term.freeSymbols_conjunction, declarations_script]

theorem mem_freeSymbols_formula {s : Symbol} :
    s ∈ d.formula.freeSymbols ↔ ∃ c ∈ d.constraints, s ∈ c.term.symbols := by
  rw [freeSymbols_formula, mem_declarations_script]

theorem assert_mem_script {t : Term} :
    .assert t ∈ d.script ↔ ∃ c ∈ d.constraints, c.term = t := by
  simp [script, Script.ofAssertions]

/-- One assertion for each constraint, after what was asserted before. -/
theorem assertions_assertInto (session : Session) :
    (d.assertInto session).assertions =
      session.assertions ++ d.constraints.map Constraint.term := by
  unfold assertInto
  induction d.constraints generalizing session with
  | nil => simp
  | cons c rest ih =>
    rw [List.foldl_cons, ih, Session.assertions_assert, List.map_cons, List.append_assoc]
    rfl

theorem assertions_assertInto_new (runner : Option Runner) :
    (d.assertInto { runner }).assertions = d.constraints.map Constraint.term :=
  assertions_assertInto d _

theorem isTidy_assertInto (runner : Option Runner) :
    (d.assertInto { runner }).IsTidy (· ∈ d.formula.freeSymbols) := by
  rw [assertInto_eq]
  apply (Session.IsTidy.new runner).after
  intro s hs
  rw [List.flatMap_map] at hs
  obtain ⟨t, ht, hs⟩ := List.mem_flatMap.1 hs
  obtain ⟨c, hc, rfl⟩ := List.mem_map.1 ht
  exact d.mem_freeSymbols_formula.2 ⟨c, hc, hs⟩

/-- A session that declares by name declares every symbol, as long as the name tells the sort. -/
theorem declarations_assertInto (runner : Option Runner) (h : d.formula.HasOneSort) :
    (d.assertInto { runner }).declarations.Perm d.formula.freeSymbols := by
  have htidy := d.isTidy_assertInto runner
  rw [List.perm_ext_iff_of_nodup (List.Nodup.of_map _ htidy.nodup)
    (List.Nodup.of_map _ h.nodup_names)]
  intro s
  constructor
  · exact fun hs => htidy.used_of_mem hs
  · intro hs
    -- an assertion has the symbol, so its name is declared, and the name tells the sort
    obtain ⟨c, hc, hsymbol⟩ := d.mem_freeSymbols_formula.1 hs
    have ht : c.term ∈ (d.assertInto { runner }).assertions := by
      rw [assertions_assertInto_new]
      exact List.mem_map_of_mem hc
    have hdeclared := (htidy.of_asserted ht hsymbol).2
    exact htidy.mem_declarations (fun a b ha hb => h a ha b hb) hs hdeclared

/-- The symbols that the text of a draft declares are the free symbols of its formula. -/
theorem lines_eq :
    d.lines = Script.lines d.formula.freeSymbols (d.constraints.map Constraint.term) := by
  rw [lines, freeSymbols_formula]

/-- **All outputs of a draft say the same.** In every model its formula is true if and only if every
constraint has its fact true or its guard false, if and only if every assertion of the script is
true, if and only if every assertion of a session into which the draft was asserted is true. The
text declares the free symbols of the formula, a line for each, and then asserts each constraint. If
each name has one sort, it introduces these symbols, and the formula, the script and the session
have the same symbols, each name once. -/
theorem outputs_agree (runner : Option Runner) :
    let session := d.assertInto { runner }
    let terms := d.constraints.map Constraint.term
    (∀ m : Model,
      (d.formula.Holds m ↔ ∀ c ∈ d.constraints, c.guard.Holds m → c.fact.Holds m) ∧
      (d.formula.Holds m ↔ ∀ t, .assert t ∈ d.script → t.Holds m) ∧
      (d.formula.Holds m ↔ ∀ t ∈ session.assertions, t.Holds m)) ∧
    d.text = "\n".intercalate (Script.lines d.formula.freeSymbols terms) ∧
    (d.formula.HasOneSort →
      (∀ s ∈ d.formula.freeSymbols,
        Script.Introduces (Script.lines d.formula.freeSymbols terms) terms s) ∧
      (∀ s, s ∈ d.script.declarations ↔ s ∈ d.formula.freeSymbols) ∧
      (∀ s, s ∈ session.declarations ↔ s ∈ d.formula.freeSymbols) ∧
      (d.formula.freeSymbols.map Symbol.name).Nodup ∧
      (d.script.declarations.map Symbol.name).Nodup ∧
      (session.declarations.map Symbol.name).Nodup) := by
  intro session terms
  have hassertions : session.assertions = terms := d.assertions_assertInto_new runner
  refine ⟨fun m => ?_, d.lines_eq ▸ d.text_eq_lines, fun h => ?_⟩
  · have hformula : d.formula.Holds m ↔ ∀ c ∈ d.constraints, c.term.Holds m := by
      simp [formula, Term.holds_conjunction]
    refine ⟨holds_formula, ?_, ?_⟩
    · simp [hformula, assert_mem_script]
    · simp [hformula, hassertions, terms]
  · have hsession : session.declarations.Perm d.formula.freeSymbols :=
      d.declarations_assertInto runner h
    have hnames := h.nodup_names
    refine ⟨fun s hs => Script.introduces_lines hnames hs, fun s => ?_, fun s => hsession.mem_iff,
      hnames, ?_, ?_⟩
    · rw [freeSymbols_formula]
    · rw [← freeSymbols_formula]
      exact hnames
    · exact (hsession.map _).nodup_iff.2 hnames

def pivot : Expr := .identifier ⟨1, {}, .bool⟩ "b" (some 12) false

/-- A draft with constraints under no condition, under one and under two, which share symbols. -/
def branching : Draft :=
  afterAll [.startRegistration "C" "f",
    .register .parameter ⟨11, "x", .integer ⟨8, false⟩, {}, none⟩,
    .register .local ⟨12, "b", .bool, {}, none⟩, .startEncoding,
    .call (.defineFromVariable pivot 12), .pushPath pivot true,
    .call (.assign 11 (.ofInt 7) {}), .pushPath pivot false, .call (.forget 11 {}), .popPath,
    .popPath, .call (.assume pivot)] {}

theorem branching_outputs :
    branching.depth = 0 ∧ branching.formula.HasOneSort ∧
      (∀ m : Model, branching.formula.Holds m ↔
        ∀ t ∈ (branching.assertInto {}).assertions, t.Holds m) ∧
      branching.text = "\n".intercalate [
        "(declare-const b-12_0 Bool)", "(declare-const expr_1 Bool)",
        "(declare-const x-11_0 Int)", "(declare-const x-11_1 Int)", "(declare-const x-11_2 Int)",
        "(assert (and (>= x-11_0 0) (<= x-11_0 255)))", "(assert (= b-12_0 false))",
        "(assert (= expr_1 b-12_0))", "(assert (or (not expr_1) (= x-11_1 7)))",
        "(assert (or (not (and expr_1 (not expr_1))) (and (>= x-11_2 0) (<= x-11_2 255))))",
        "(assert expr_1)"] ∧
      Script.Introduces (Script.lines branching.formula.freeSymbols
        (branching.constraints.map Constraint.term)) (branching.constraints.map Constraint.term)
        ⟨"expr_1", .bool⟩ ∧
      (∀ s, s ∈ (branching.assertInto {}).declarations ↔ s ∈ branching.script.declarations) := by
  have hsort : branching.formula.HasOneSort := by decide +kernel
  obtain ⟨hmodels, htext, hnames⟩ := outputs_agree branching none
  obtain ⟨hintroduced, hscript, hsession, -⟩ := hnames hsort
  exact ⟨by decide +kernel, hsort, fun m => (hmodels m).2.2, htext.trans (by decide +kernel),
    hintroduced ⟨"expr_1", .bool⟩ (by decide +kernel),
    fun s => (hsession s).trans (hscript s).symm⟩

end Draft

end PathFormula
