import PathFormula.Proofs.BodyTraces
import PathFormula.Proofs.Mentions
import PathFormula.Proofs.Sessions

/-!
# Declarations of a formula

A draft only uses symbols that it has issued: those of its expressions, each at the sort it was
given, and the versions of its variables. Different ones have different names. Every step of an
encoding keeps to them (`Step.issued`), so that no name has two sorts in a formula and its script
declares every free symbol once, whatever the annotations are and however numbers clash
(`one_declaration`).
-/
namespace PathFormula

open Source

namespace Draft

/-- The symbols that a draft can use. -/
inductive Issued (d : Draft) : Symbol → Prop
  | expression {id : Nat} {sort : TermSort} (h : d.known.lookup id = some sort) :
      Issued d (expressionSymbol id sort)
  | version {id : Nat} {v : Registered} (h : d.registered? id = some v) (k : Nat) :
      Issued d (v.symbol k)

/-- The term only has symbols that the draft can use. -/
abbrev Knows (d : Draft) (t : Term) : Prop := t.Within d.Issued

variable {U : Uses} {d d' : Draft} {t : Term}

/-- A name is issued at one sort. -/
theorem Issued.sort_eq {r s : Symbol} (hr : d.Issued r) (hs : d.Issued s) (h : r.name = s.name) :
    r.sort = s.sort := by
  cases hr with
  | expression hr =>
    cases hs with
    | expression hs =>
      rw [expressionName_injective h, hs] at hr
      cases hr
      rfl
    | version hs k => exact absurd h.symm (name_ne_expressionName _ k _)
  | version hr k =>
    cases hs with
    | expression hs => exact absurd h (name_ne_expressionName _ k _)
    | version hs n =>
      have hid := (Variable.name_injective h).2.1
      rw [id_of_registered? hr, id_of_registered? hs] at hid
      subst hid
      cases hr.symm.trans hs
      rfl

theorem Issued.later (h : Later d d') {s : Symbol} (hs : d.Issued s) : d'.Issued s := by
  cases hs with
  | expression hk => exact .expression (h.known _ _ hk)
  | version hv k =>
    obtain ⟨n, hn⟩ := h.version hv
    exact .version hn k

theorem knows_version {id k : Nat} (h : d.term? id k = some t) : d.Knows t := by
  obtain ⟨v, hv, rfl⟩ := Option.map_eq_some_iff.1 h
  exact Term.within_symbol.2 (.version hv k)

theorem knows_current {id k : Nat} {v : Registered} (h : d.registered? id = some v) :
    d.Knows (v.term k) :=
  knows_version (by rw [term?, h]; rfl)

theorem knows_expression {id : Nat} (h : d.expression? id = some t) : d.Knows t := by
  obtain ⟨sort, hk, rfl⟩ := Option.map_eq_some_iff.1 h
  exact Term.within_symbol.2 (.expression hk)

theorem Knows.later (h : Later d d') (ht : d.Knows t) : d'.Knows t :=
  ht.mono fun _ hs => hs.later h

/-! ### What steps say -/

theorem knows_assigns {e : Expr} {id : Nat} (h : Assigns d e id t) : d.Knows t := by
  cases h with
  | plain _ ht => exact knows_expression ht
  | compound _ hold ht =>
    exact Term.within_arithmetic _ _ (knows_version hold) (knows_expression ht)
  | step _ hold => exact Term.within_stepped _ (knows_version hold)

theorem knows_defines {e : Expr} (h : Defines d e t) : d.Knows t := by
  cases h with
  | bool | number => exact Term.within_leaf
  | read ht | before _ ht => exact knows_version ht
  | not _ ht => exact Term.within_not.2 (knows_expression ht)
  | plus ht | component ht => exact knows_expression ht
  | minus ht => exact Term.within_neg.2 (knows_expression ht)
  | arithmetic hl hr => exact Term.within_arithmetic _ _ (knows_expression hl) (knows_expression hr)
  | comparison hl hr => exact Term.within_comparison _ (knows_expression hl) (knows_expression hr)
  | connective hl hr => exact Term.within_connective _ (knows_expression hl) (knows_expression hr)
  | assigned ha => exact knows_assigns ha

theorem knows_guard (h : Guard U d t) : d.Knows t := by
  induction h with
  | always => exact Term.within_leaf
  | test _ _ ht => exact knows_expression ht
  | not _ ih => exact Term.within_not.2 ih
  | and _ _ iha ihb | or _ _ iha ihb => exact Term.within_dyadic.2 ⟨iha, ihb⟩

theorem knows_gives {id : Nat} (h : Gives U d id t) : d.Knows t := by
  cases h with
  | zero => exact Term.within_zero
  | value _ _ ht => exact knows_expression ht
  | operation _ ha => exact knows_assigns ha
  | version ht => exact knows_version ht
  | join hg ha hb => exact Term.within_ite.2 ⟨knows_guard hg, knows_version ha, knows_version hb⟩

/-! ### Drafts that keep to their symbols -/

/-- All terms in the draft only have symbols that it can use. -/
structure KeepsToSymbols (d : Draft) : Prop where
  path : ∀ t ∈ d.path, d.Knows t
  constraints : ∀ c ∈ d.constraints, d.Knows c.guard ∧ d.Knows c.fact

namespace KeepsToSymbols

theorem later (h : d.KeepsToSymbols) (hl : Later d d') (hp : d'.path = d.path)
    (hc : d'.constraints = d.constraints) : d'.KeepsToSymbols where
  path t ht := (h.path t (hp ▸ ht)).later hl
  constraints c hc' :=
    let ⟨hg, hf⟩ := h.constraints c (hc ▸ hc')
    ⟨hg.later hl, hf.later hl⟩

theorem emitted (h : d.KeepsToSymbols) (ht : d.Knows t) (location : Location) :
    (d.emitted t location).KeepsToSymbols where
  path x hx := (h.path x hx).later .emitted
  constraints c hc := by
    rcases List.mem_append.1 hc with hc | hc
    · exact ⟨(h.constraints c hc).1.later .emitted, (h.constraints c hc).2.later .emitted⟩
    · obtain rfl := List.mem_singleton.1 hc
      have hpath : d.Knows d.pathCondition := forall_pathCondition Term.within_ofBool h.path
      exact ⟨hpath.later .emitted, ht.later .emitted⟩

theorem advanced (h : d.KeepsToSymbols) (id : Nat) : (d.advanced id).KeepsToSymbols :=
  h.later .advanced rfl rfl

/-- A step only uses symbols that the draft has then. -/
theorem step (h : d.KeepsToSymbols) (hs : Step U d d') : d'.KeepsToSymbols := by
  cases hs with
  | warned => exact h.later .warned rfl rfl
  | named _ hk => exact h.later (.named hk) rfl rfl
  | @defined e sort t location _ hk ht =>
    have hself : d.expression? e.id = some (.symbol (expressionSymbol e.id sort)) := by
      rw [expression?, hk]
      rfl
    exact h.emitted (Term.within_dyadic.2 ⟨knows_expression hself, knows_defines ht⟩) location
  | @wrote id v t location hv ht =>
    have hv' : (d.advanced id).registered? id = some (v.later 1) := by
      rw [registered?_advanced, hv]
      simp
    have hnew : (d.advanced id).Knows (v.term (v.version + 1)) := by
      rw [← Registered.term_later v 1]
      exact knows_current hv'
    exact (h.advanced id).emitted
      (Term.within_dyadic.2 ⟨hnew, (knows_gives ht).later .advanced⟩) location
  | @forgot id v location hv =>
    have hv' : (d.advanced id).registered? id = some (v.later 1) := by
      rw [registered?_advanced, hv]
      simp
    exact (h.advanced id).emitted (Term.within_rangeFact (knows_current hv')) location
  | stated location _ _ ht => exact h.emitted (knows_expression ht) location
  | divided location _ _ ht =>
    exact h.emitted (Term.within_comparison .ne (knows_expression ht) Term.within_ofInt) location
  | @opened condition hc =>
    have hpath : ∀ t ∈ (d.pushed condition).path, d.Knows t :=
      forall_path_pushed Term.within_ofBool (fun _ _ ha hb => Term.within_dyadic.2 ⟨ha, hb⟩) h.path
        (knows_guard hc)
    exact ⟨fun t ht => (hpath t ht).later .pushed, fun c hc =>
      ⟨(h.constraints c hc).1.later .pushed, (h.constraints c hc).2.later .pushed⟩⟩
  | closed =>
    refine ⟨fun x hx => ?_, fun c hc => ?_⟩
    · exact (h.path x (List.mem_of_mem_tail hx)).later .withPath
    · exact ⟨(h.constraints c hc).1.later .withPath, (h.constraints c hc).2.later .withPath⟩

theorem traces (h : d.KeepsToSymbols) (ht : Traces U d d') : d'.KeepsToSymbols := by
  induction ht with
  | refl => exact h
  | tail _ hs ih => exact ih.step hs

end KeepsToSymbols

variable {contract : Contract} {f : Function} {settings : Settings}

theorem knows_startFact {partition : Partition} {v : Registered} (h : d.registered? v.id = some v) :
    d.Knows (partition.startFact v.toVariable) := by
  have hv : d.Knows v.current := knows_current h
  cases partition with
  | state | parameter => exact Term.within_rangeFact hv
  | «local» | «return» => exact Term.within_dyadic.2 ⟨hv, Term.within_zero⟩

theorem Opening.keepsToSymbols (h : Opening contract f settings d) : d.KeepsToSymbols where
  path t ht := by simp [h.path] at ht
  constraints c hc := by
    rw [h.constraints] at hc
    obtain ⟨p, hp, hc⟩ := List.mem_filterMap.1 hc
    obtain ⟨v, hv, rfl⟩ := Option.map_eq_some_iff.1 hc
    have hmem : v ∈ d.registry := h.registry.mem_iff.2 (List.mem_filterMap.2 ⟨p, hp, hv⟩)
    exact ⟨Term.within_leaf, knows_startFact (h.of_mem hmem).1⟩

theorem KeepsToSymbols.term (h : d.KeepsToSymbols) {c : Constraint} (hc : c ∈ d.constraints) :
    d.Knows c.term := by
  obtain ⟨hg, hf⟩ := h.constraints c hc
  unfold Constraint.term
  split
  · exact hf
  · exact Term.within_implies.2 ⟨hg, hf⟩

/-- Every draft that can be finished keeps to its symbols. -/
theorem exists_keepsToSymbols (h : (f.analyze settings contract).outcome = .ok d) :
    ∃ d₁ : Draft, d₁.KeepsToSymbols ∧ d = d₁.finished := by
  obtain ⟨d₀, d₁, ho, ht, rfl⟩ := exists_traces h
  exact ⟨d₁, ho.keepsToSymbols.traces ht, rfl⟩

/-! ### The script -/

theorem declarations_script (d : Draft) :
    d.script.declarations = Term.freeSymbolsOf (d.constraints.map Constraint.term) := by
  rw [script, Script.ofAssertions, Script.declarations_append, Script.declarations_declare,
    Script.declarations_assert, List.append_nil]

/-- The lines of the text of a draft. -/
def lines (d : Draft) : List String :=
  Script.lines d.script.declarations (d.constraints.map Constraint.term)

theorem text_eq_lines (d : Draft) : d.text = "\n".intercalate d.lines := by
  rw [lines, declarations_script, ← Script.text_eq_lines]
  rfl

theorem mem_declarations_script {s : Symbol} :
    s ∈ d.script.declarations ↔ ∃ c ∈ d.constraints, s ∈ c.term.symbols := by
  rw [declarations_script, Term.mem_freeSymbolsOf]
  simp

theorem KeepsToSymbols.sort_eq (h : d.KeepsToSymbols) {r s : Symbol}
    (hr : r ∈ d.script.declarations) (hs : s ∈ d.script.declarations) (hn : r.name = s.name) :
    r.sort = s.sort := by
  obtain ⟨c, hc, hr⟩ := mem_declarations_script.1 hr
  obtain ⟨c', hc', hs⟩ := mem_declarations_script.1 hs
  exact (h.term hc r hr).sort_eq (h.term hc' s hs) hn

theorem KeepsToSymbols.nodup_names (h : d.KeepsToSymbols) :
    (d.script.declarations.map Symbol.name).Nodup := by
  have hn : d.script.declarations.Nodup := declarations_script d ▸ Term.nodup_freeSymbolsOf _
  exact Symbol.nodup_names hn fun r hr s hs => h.sort_eq hr hs

/-- **Every name is declared once.** However names, numbers and types clash in a function that is
encoded, no name is free in its statements at two sorts, and the script declares exactly their free
symbols, under names of their own. Its text has a line for each of them, before any line that needs
it. A name tells the version of the variable or the node that it stands for. -/
theorem one_declaration (h : (f.analyze settings contract).outcome = .ok d) :
    (∀ c ∈ d.constraints, ∀ c' ∈ d.constraints, ∀ r ∈ c.term.symbols, ∀ s ∈ c'.term.symbols,
      r.name = s.name → r.sort = s.sort) ∧
    (d.script.declarations.map Symbol.name).Nodup ∧
    (∀ s, s ∈ d.script.declarations ↔ ∃ c ∈ d.constraints, s ∈ c.term.symbols) ∧
    (d.text = "\n".intercalate d.lines ∧ ∀ s ∈ d.script.declarations,
      Script.Introduces d.lines (d.constraints.map Constraint.term) s) ∧
    (∀ (v w : Variable) (k n : Nat),
      (v.symbol k).name = (w.symbol n).name ↔ v.name = w.name ∧ v.id = w.id ∧ k = n) ∧
    (∀ (i j : Nat) (a b : TermSort),
      (expressionSymbol i a).name = (expressionSymbol j b).name ↔ i = j) ∧
    ∀ (v : Variable) (k i : Nat) (a : TermSort),
      (v.symbol k).name ≠ (expressionSymbol i a).name := by
  obtain ⟨d, hd, rfl⟩ := exists_keepsToSymbols h
  refine ⟨fun c hc c' hc' r hr s hs hn => ?_, hd.nodup_names, fun s => mem_declarations_script,
    ⟨text_eq_lines _, fun s hs => Script.introduces_lines hd.nodup_names hs⟩,
    fun v w k n => ⟨Variable.name_injective, ?_⟩, fun i j a b => ⟨expressionName_injective, ?_⟩,
    fun v k i a => name_ne_expressionName v k i⟩
  · exact (hd.term hc r hr).sort_eq (hd.term hc' s hs) hn
  · rintro ⟨hname, hid, rfl⟩
    simp only [Variable.symbol, hname, hid]
  · rintro rfl
    rfl

/-- A function with a boolean and a number under one node number, which is also the number of a
parameter, and with a parameter whose name looks like a version of the other. -/
def clashing : Function where
  id := 1
  name := "f"
  location := {}
  parameters := [
    { id := 1, name := "a", ty := .bool, location := {} },
    { id := 12, name := "a-1_0", ty := .integer ⟨8, false⟩, location := {} }]
  returns := []
  body := [
    .expression {} (.literal ⟨1, {}, .bool⟩ (.bool true)),
    .expression {} (.literal ⟨1, {}, .rational 1⟩ (.number 1)),
    .expression {} (.identifier ⟨2, {}, .bool⟩ "a" (some 1) false)]

theorem clashing_declares_once :
    ∃ d, (clashing.analyze {} ⟨0, "C", {}, [], [clashing]⟩).outcome = .ok d ∧
      d.script.declarations.length = 4 ∧ (d.script.declarations.map Symbol.name).Nodup := by
  have hok : (clashing.analyze {} ⟨0, "C", {}, [], [clashing]⟩).outcome.toOption.map
      (fun d => d.script.declarations.length) = some 4 := by
    decide +kernel
  cases hd : (clashing.analyze {} ⟨0, "C", {}, [], [clashing]⟩).outcome with
  | error e =>
    rw [hd] at hok
    cases hok
  | ok d =>
    rw [hd] at hok
    exact ⟨d, rfl, Option.some.inj hok, (one_declaration hd).2.1⟩

end Draft

end PathFormula
