import PathFormula.Proofs.Lines
import PathFormula.Solver.Session

/-!
# Declarations of a session

Whatever is done to a new session, its open scopes declare no name twice, what counts as declared
is what they declare, and an assertion is in scope of the declarations that it needs
(`Session.Tidy`). Where every name is used at one sort, the script of a session and the queries it
sends therefore introduce every free symbol once, before it is needed (`declares_before_use`).
-/
namespace PathFormula

namespace Solver

/-! ### Actions -/

/-- What can be done with a session. -/
inductive Action where
  | constant (name : String) (sort : TermSort)
  | assert (t : Term)
  | check (terms : List Term)
  | push
  | pop
  | reset
  | attach (runner : Runner)

namespace Action

/-- A pop that fails leaves the session as it is. -/
def run (session : Session) : Action → Session
  | .constant name sort => (session.constant name sort).2
  | .assert t => session.assert t
  | .check terms => (session.check terms).2
  | .push => session.push
  | .pop => session.pop.toOption.getD session
  | .reset => session.reset
  | .attach runner => session.withRunner runner

/-- The symbols that an action hands to the session. -/
def symbols : Action → List Symbol
  | .constant name sort => [⟨name, sort⟩]
  | .assert t => t.symbols
  | .check terms => terms.flatMap Term.symbols
  | .push | .pop | .reset | .attach _ => []

end Action

/-- No name is used at two sorts. -/
def OneSort (actions : List Action) : Prop :=
  ∀ a ∈ actions.flatMap Action.symbols, ∀ b ∈ actions.flatMap Action.symbols,
    a.name = b.name → a.sort = b.sort

instance (actions : List Action) : Decidable (OneSort actions) :=
  inferInstanceAs (Decidable (∀ _ ∈ _, ∀ _ ∈ _, _ → _))

namespace Session

def after (session : Session) (actions : List Action) : Session := actions.foldl Action.run session

theorem after_concat (session : Session) (actions : List Action) (action : Action) :
    session.after (actions ++ [action]) = action.run (session.after actions) := by
  simp [after]

end Session

/-! ### Tidy sessions -/

def Frame.names (frame : Frame) : List String := frame.declarations.map Symbol.name

/-- Every assertion mentions names of its own frame and of frames further out only; the innermost
frame comes first. -/
def Covered : List Frame → Prop
  | [] => True
  | frame :: outer =>
      (∀ t ∈ frame.assertions, ∀ s ∈ t.symbols, s.name ∈ (frame :: outer).flatMap Frame.names) ∧
        Covered outer

/-- An assertion of the frame at position `i` from the base is in scope of what it mentions. -/
theorem Covered.exists_outer {stack : List Frame} (h : Covered stack) {i : Nat} {frame : Frame}
    (hi : stack.reverse[i]? = some frame) {t : Term} (ht : t ∈ frame.assertions) {s : Symbol}
    (hs : s ∈ t.symbols) :
    ∃ j ≤ i, ∃ outer, stack.reverse[j]? = some outer ∧ s.name ∈ outer.names := by
  induction stack with
  | nil => simp at hi
  | cons top rest ih =>
    obtain ⟨htop, hrest⟩ := h
    rw [List.reverse_cons] at hi ⊢
    by_cases hlt : i < rest.reverse.length
    · rw [List.getElem?_append_left hlt] at hi
      obtain ⟨j, hj, outer, ho, hn⟩ := ih hrest hi
      refine ⟨j, hj, outer, ?_, hn⟩
      rwa [List.getElem?_append_left (Nat.lt_of_le_of_lt hj hlt)]
    · have hle := Nat.le_of_not_lt hlt
      have hframe : top = frame := by
        rw [List.getElem?_append_right hle, List.getElem?_singleton] at hi
        split at hi <;> cases hi
        rfl
      subst hframe
      rcases List.mem_append.1 (List.flatMap_cons ▸ htop t ht s hs) with hn | hn
      · exact ⟨rest.reverse.length, hle, top, by simp, hn⟩
      · obtain ⟨outer, ho, hn⟩ := List.mem_flatMap.1 hn
        obtain ⟨j, hj⟩ := List.mem_iff_getElem?.1 (List.mem_reverse.2 ho)
        have hlt' := (List.getElem?_eq_some_iff.1 hj).1
        refine ⟨j, Nat.le_trans (Nat.le_of_lt hlt') hle, outer, ?_, hn⟩
        rwa [List.getElem?_append_left hlt']

/-- No name is declared twice in the open frames, the declared names are theirs, every assertion is
in scope of what it mentions, and all symbols are among those that were `used`. -/
structure Tidy (used : Symbol → Prop) (stack : List Frame) (declared : List String) : Prop where
  distinct : (stack.flatMap Frame.names).Nodup
  declared_iff : ∀ name, name ∈ declared ↔ name ∈ stack.flatMap Frame.names
  covered : Covered stack
  declarations : ∀ frame ∈ stack, ∀ s ∈ frame.declarations, used s
  assertions : ∀ frame ∈ stack, ∀ t ∈ frame.assertions, ∀ s ∈ t.symbols, used s

namespace Tidy

variable {used : Symbol → Prop} {frame : Frame} {outer stack : List Frame} {declared : List String}

theorem base : Tidy used [{}] [] := by
  refine ⟨?_, ?_, ⟨?_, trivial⟩, ?_, ?_⟩ <;> simp [Frame.names]

theorem declare (h : Tidy used (frame :: outer) declared) {s : Symbol} (hs : used s)
    (hn : s.name ∉ declared) :
    Tidy used ({ frame with declarations := frame.declarations ++ [s] } :: outer)
      (s.name :: declared) := by
  have hnames : (({ frame with declarations := frame.declarations ++ [s] } :: outer).flatMap
      Frame.names).Perm (s.name :: (frame :: outer).flatMap Frame.names) := by
    simp only [List.flatMap_cons, Frame.names, List.map_append, List.map_cons, List.map_nil,
      List.append_assoc, List.singleton_append]
    exact List.perm_middle
  refine ⟨?_, fun name => ?_, ⟨fun t ht x hx => ?_, h.covered.2⟩, ?_, ?_⟩
  · rw [hnames.nodup_iff, List.nodup_cons]
    exact ⟨mt (h.declared_iff s.name).2 hn, h.distinct⟩
  · rw [hnames.mem_iff, List.mem_cons, List.mem_cons, h.declared_iff name]
  · rw [hnames.mem_iff]
    exact List.mem_cons_of_mem _ (h.covered.1 t ht x hx)
  · obtain ⟨hframe, houter⟩ := List.forall_mem_cons.1 h.declarations
    refine List.forall_mem_cons.2 ⟨fun x hx => ?_, houter⟩
    rcases List.mem_append.1 hx with hx | hx
    · exact hframe x hx
    · exact List.mem_singleton.1 hx ▸ hs
  · exact List.forall_mem_cons.2 (List.forall_mem_cons.1 h.assertions)

theorem assert (h : Tidy used (frame :: outer) declared) {t : Term} (ht : ∀ s ∈ t.symbols, used s)
    (hd : ∀ s ∈ t.symbols, s.name ∈ declared) :
    Tidy used ({ frame with assertions := frame.assertions ++ [t] } :: outer) declared := by
  refine ⟨h.distinct, h.declared_iff, ⟨fun x hx s hs => ?_, h.covered.2⟩, ?_, ?_⟩
  · rcases List.mem_append.1 hx with hx | hx
    · exact h.covered.1 x hx s hs
    · obtain rfl := List.mem_singleton.1 hx
      exact (h.declared_iff s.name).1 (hd s hs)
  · exact List.forall_mem_cons.2 (List.forall_mem_cons.1 h.declarations)
  · obtain ⟨hframe, houter⟩ := List.forall_mem_cons.1 h.assertions
    refine List.forall_mem_cons.2 ⟨fun x hx => ?_, houter⟩
    rcases List.mem_append.1 hx with hx | hx
    · exact hframe x hx
    · exact List.mem_singleton.1 hx ▸ ht

theorem push (h : Tidy used stack declared) : Tidy used ({} :: stack) declared := by
  refine ⟨h.distinct, h.declared_iff, ⟨by simp, h.covered⟩, ?_, ?_⟩
  · exact List.forall_mem_cons.2 ⟨by simp, h.declarations⟩
  · exact List.forall_mem_cons.2 ⟨by simp, h.assertions⟩

theorem pop (h : Tidy used (frame :: outer) declared) :
    Tidy used outer (declared.filter fun name => name ∉ frame.names) := by
  have hdistinct := h.distinct
  rw [List.flatMap_cons, List.nodup_append] at hdistinct
  obtain ⟨-, houter, hdisjoint⟩ := hdistinct
  refine ⟨houter, fun name => ?_, h.covered.2, ?_, ?_⟩
  · rw [List.mem_filter, h.declared_iff, List.flatMap_cons, List.mem_append, decide_eq_true_eq]
    constructor
    · rintro ⟨hn | hn, hf⟩
      · exact absurd hn hf
      · exact hn
    · exact fun hn => ⟨.inr hn, fun hf => hdisjoint name hf name hn rfl⟩
  · exact (List.forall_mem_cons.1 h.declarations).2
  · exact (List.forall_mem_cons.1 h.assertions).2

end Tidy

namespace Session

/-- The open frames, the innermost first. -/
def stack (session : Session) : List Frame := session.scopes ++ [session.base]

theorem frames_eq (session : Session) : session.frames = session.stack.reverse := by
  simp [frames, stack]

/-- There is an innermost frame, and only it is modified. -/
theorem exists_innermost (session : Session) (change : Frame → Frame) :
    ∃ frame outer, session.stack = frame :: outer ∧
      (session.modifyInnermost change).stack = change frame :: outer ∧
        (session.modifyInnermost change).declared = session.declared := by
  unfold modifyInnermost stack
  cases session.scopes with
  | nil => exact ⟨session.base, [], rfl, rfl, rfl⟩
  | cons frame outer => exact ⟨frame, outer ++ [session.base], rfl, rfl, rfl⟩

def IsTidy (used : Symbol → Prop) (session : Session) : Prop :=
  Tidy used session.stack session.declared

namespace IsTidy

variable {used : Symbol → Prop} {session : Session}

theorem declare (h : session.IsTidy used) {s : Symbol} (hs : used s) :
    (session.declare s).IsTidy used ∧
      ∀ name, name = s.name ∨ name ∈ session.declared → name ∈ (session.declare s).declared := by
  unfold Session.declare
  split
  · rename_i hn
    refine ⟨h, ?_⟩
    rintro name (rfl | hm)
    · exact hn
    · exact hm
  · rename_i hn
    obtain ⟨frame, outer, hstack, hgrown, hdeclared⟩ :=
      exists_innermost { session with declared := s.name :: session.declared } fun frame =>
        { frame with declarations := frame.declarations ++ [s] }
    have h' : Tidy used (frame :: outer) session.declared := hstack ▸ h
    rw [IsTidy, hgrown, hdeclared]
    exact ⟨h'.declare hs hn, fun name hm => List.mem_cons.2 hm⟩

theorem declareAll (h : session.IsTidy used) {symbols : List Symbol} (hs : ∀ s ∈ symbols, used s) :
    (symbols.foldl Session.declare session).IsTidy used ∧
      ∀ name, name ∈ symbols.map Symbol.name ∨ name ∈ session.declared →
        name ∈ (symbols.foldl Session.declare session).declared := by
  induction symbols generalizing session with
  | nil => exact ⟨h, fun name hm => hm.resolve_left List.not_mem_nil⟩
  | cons s rest ih =>
    obtain ⟨hs, hrest⟩ := List.forall_mem_cons.1 hs
    obtain ⟨hd, hkept⟩ := h.declare hs
    obtain ⟨hr, hkepts⟩ := ih hd hrest
    refine ⟨hr, fun name hm => hkepts name ?_⟩
    rw [List.map_cons, List.mem_cons, or_assoc] at hm
    obtain hm | hm | hm := hm
    · exact .inr (hkept name (.inl hm))
    · exact .inl hm
    · exact .inr (hkept name (.inr hm))

theorem assert (h : session.IsTidy used) {t : Term} (ht : ∀ s ∈ t.symbols, used s) :
    (session.assert t).IsTidy used := by
  obtain ⟨hall, hnames⟩ := h.declareAll fun s hs => ht s (Term.mem_freeSymbols.1 hs)
  obtain ⟨frame, outer, hstack, hgrown, hdeclared⟩ :=
    exists_innermost (t.freeSymbols.foldl Session.declare session) fun frame =>
      { frame with assertions := frame.assertions ++ [t] }
  rw [IsTidy, Session.assert, hgrown, hdeclared]
  rw [IsTidy, hstack] at hall
  refine hall.assert ht fun s hs => hnames s.name (.inl ?_)
  exact List.mem_map_of_mem (Term.mem_freeSymbols.2 hs)

theorem pop (h : session.IsTidy used) : (Action.pop.run session).IsTidy used := by
  unfold Action.run Session.pop
  cases hs : session.scopes with
  | nil => exact h
  | cons frame outer =>
    rw [IsTidy, stack, hs] at h
    exact Tidy.pop h

theorem check (h : session.IsTidy used) (terms : List Term) :
    (session.check terms).2.IsTidy used := by
  unfold Session.check
  split
  · exact h
  · dsimp only
    split
    · exact h
    · split <;> exact h

/-- Every action on the symbols that are in use keeps a session tidy. -/
theorem run (h : session.IsTidy used) {action : Action} (ha : ∀ s ∈ action.symbols, used s) :
    (action.run session).IsTidy used := by
  cases action with
  | constant name sort => exact (h.declare (ha _ List.mem_cons_self)).1
  | assert t => exact h.assert ha
  | check terms => exact h.check terms
  | push => exact Tidy.push h
  | pop => exact h.pop
  | reset => exact Tidy.base
  | attach runner => exact h

theorem after (h : session.IsTidy used) {actions : List Action}
    (ha : ∀ s ∈ actions.flatMap Action.symbols, used s) : (session.after actions).IsTidy used := by
  induction actions generalizing session with
  | nil => exact h
  | cons action rest ih =>
    rw [List.flatMap_cons, List.forall_mem_append] at ha
    exact ih (h.run ha.1) ha.2

theorem new (runner : Option Runner) : IsTidy used { runner } := Tidy.base

end IsTidy

/-! ### Scripts and queries -/

/-- The lines of the text of a session. -/
def lines (session : Session) : List String :=
  Script.lines session.declarations session.assertions

/-- Values are announced before the script. -/
def optionLines (terms : List Term) : List String :=
  if terms.isEmpty then [] else ["(set-option :produce-models true)"]

/-- The line that asks for the values of terms. -/
def valueLine (terms : List Term) : String :=
  "(get-value (" ++ " ".intercalate (terms.map Term.text) ++ "))"

/-- The solver is asked after the script, and for values last. -/
def questionLines (terms : List Term) : List String :=
  "(check-sat)" :: if terms.isEmpty then [] else [valueLine terms]

/-- The lines of a query. -/
def queryLines (session : Session) (terms : List Term) : List String :=
  optionLines terms ++ session.lines ++ (session.missing terms).map Symbol.declarationLine ++
    questionLines terms

theorem text_eq_lines (session : Session) : session.text = "\n".intercalate session.lines :=
  Script.text_eq_lines session.declarations session.assertions

theorem queryText_eq_lines (session : Session) (terms : List Term) :
    session.queryText terms = "\n".intercalate (session.queryLines terms) ++ "\n" := by
  have hscript : session.script.map Command.text = session.lines := by
    rw [script, List.map_append, Script.map_text_declare, Script.map_text_assert]
    rfl
  have hlines : (session.query terms).map Command.text = session.queryLines terms := by
    simp only [query, queryLines, List.map_append, hscript, Script.map_text_declare,
      List.append_assoc]
    unfold optionLines questionLines
    split
    · rfl
    · rfl
  rw [queryText, Script.text, hlines]

theorem declarationLine_not_mem_optionLines (s : Symbol) (terms : List Term) :
    s.declarationLine ∉ optionLines terms := by
  unfold optionLines
  split
  · exact List.not_mem_nil
  · rw [List.mem_singleton]
    exact Symbol.declarationLine_ne rfl (by decide)

theorem assertionLine_not_mem_optionLines (t : Term) (terms : List Term) :
    t.assertionLine ∉ optionLines terms := by
  unfold optionLines
  split
  · exact List.not_mem_nil
  · rw [List.mem_singleton]
    intro h
    have hl := t.toList_assertionLine
    simp [h] at hl

theorem toList_valueLine (terms : List Term) :
    (valueLine terms).toList = '(' :: 'g' ::
      ("et-value (".toList ++ (" ".intercalate (terms.map Term.text)).toList ++ [')', ')']) := by
  simp [valueLine]

theorem declarationLine_not_mem_questionLines (s : Symbol) (terms : List Term) :
    s.declarationLine ∉ questionLines terms := by
  have hvalue : s.declarationLine ≠ valueLine terms :=
    Symbol.declarationLine_ne (toList_valueLine terms) (by decide)
  unfold questionLines
  split <;> simp [s.declarationLine_ne_checkSat, hvalue]

/-- A check hands the text of its query to the runner. -/
theorem asked_check {session : Session} {runner : Runner} (h : session.runner = some runner)
    (terms : List Term) :
    ∃ runner', (session.check terms).2.runner = some runner' ∧
      runner'.asked = runner.asked ++ ["\n".intercalate (session.queryLines terms) ++ "\n"] := by
  rw [← queryText_eq_lines]
  refine ⟨(runner.ask (session.queryText terms)).2, ?_, rfl⟩
  unfold check
  rw [h]
  dsimp only
  split
  · rfl
  · split <;> rfl

namespace IsTidy

variable {used : Symbol → Prop} {session : Session} {s : Symbol}

theorem names_declarations (session : Session) :
    (session.declarations.map Symbol.name).Perm (session.stack.flatMap Frame.names) := by
  have hmap : session.declarations.map Symbol.name = session.frames.flatMap Frame.names := by
    rw [declarations, List.map_flatMap]
    rfl
  rw [hmap, frames_eq]
  exact (List.reverse_perm _).flatMap_right _

theorem nodup (h : session.IsTidy used) : (session.declarations.map Symbol.name).Nodup :=
  (names_declarations session).nodup_iff.2 h.distinct

theorem mem_declared_iff (h : session.IsTidy used) {name : String} :
    name ∈ session.declared ↔ name ∈ session.declarations.map Symbol.name :=
  (h.declared_iff name).trans (names_declarations session).mem_iff.symm

theorem mem_stack_of_mem_frames {frame : Frame} (h : frame ∈ session.frames) :
    frame ∈ session.stack := List.mem_reverse.1 (session.frames_eq ▸ h)

theorem used_of_mem (h : session.IsTidy used) (hs : s ∈ session.declarations) : used s := by
  obtain ⟨frame, hf, hs⟩ := List.mem_flatMap.1 hs
  exact h.declarations frame (mem_stack_of_mem_frames hf) s hs

theorem exists_index_of_asserted (h : session.IsTidy used) {t : Term} {i : Nat} {frame : Frame}
    (hi : session.frames[i]? = some frame) (ht : t ∈ frame.assertions) (hs : s ∈ t.symbols) :
    ∃ j ≤ i, ∃ outer, session.frames[j]? = some outer ∧ s.name ∈ outer.names := by
  rw [frames_eq] at hi ⊢
  exact h.covered.exists_outer hi ht hs

theorem of_asserted (h : session.IsTidy used) {t : Term} (ht : t ∈ session.assertions)
    (hs : s ∈ t.symbols) : used s ∧ s.name ∈ session.declared := by
  obtain ⟨frame, hf, ht⟩ := List.mem_flatMap.1 ht
  refine ⟨h.assertions frame (mem_stack_of_mem_frames hf) t ht s hs, ?_⟩
  obtain ⟨i, hi⟩ := List.mem_iff_getElem?.1 hf
  obtain ⟨j, -, outer, hj, hn⟩ := h.exists_index_of_asserted hi ht hs
  rw [h.declared_iff]
  have ho := mem_stack_of_mem_frames (List.mem_of_getElem? hj)
  exact List.mem_flatMap.2 ⟨outer, ho, hn⟩

section OneSort

variable (hu : ∀ a b, used a → used b → a.name = b.name → a.sort = b.sort)

include hu

/-- What is used and counts as declared is declared at its own sort. -/
theorem mem_declarations (h : session.IsTidy used) (hs : used s) (hd : s.name ∈ session.declared) :
    s ∈ session.declarations := by
  obtain ⟨other, ho, hname⟩ := List.mem_map.1 (h.mem_declared_iff.1 hd)
  have hsort := hu other s (h.used_of_mem ho) hs hname
  have heq : other = s := by
    cases other
    cases s
    simp_all
  exact heq ▸ ho

theorem introduces (h : session.IsTidy used) (hs : used s) (hd : s.name ∈ session.declared) :
    Script.Introduces session.lines session.assertions s :=
  Script.introduces_lines h.nodup (h.mem_declarations hu hs hd)

theorem nodup_missing {terms : List Term} (ht : ∀ t ∈ terms, ∀ s ∈ t.symbols, used s) :
    ((session.missing terms).map Symbol.name).Nodup := by
  have hmem : ∀ a ∈ session.missing terms, used a := by
    intro a ha
    obtain ⟨t, hm, ha⟩ := Term.mem_freeSymbolsOf.1 (List.mem_filter.1 ha).1
    exact ht t hm a ha
  apply Symbol.nodup_names ((Term.nodup_freeSymbolsOf terms).filter _)
  exact fun a ha b hb => hu a b (hmem a ha) (hmem b hb)

theorem query_introduces (h : session.IsTidy used) {terms : List Term}
    (ht : ∀ t ∈ terms, ∀ s ∈ t.symbols, used s) (hs : used s)
    (hd : s.name ∈ session.declared ∨ ∃ t ∈ terms, s ∈ t.symbols) :
    Script.Introduces (session.queryLines terms) session.assertions s := by
  have hmissing : ∀ other ∈ session.missing terms, other.name ∉ session.declared := by
    intro other ho
    simpa using (List.mem_filter.1 ho).2
  have hoption : "(check-sat)" ∉ optionLines terms := by
    unfold optionLines
    split <;> decide
  by_cases hdeclared : s.name ∈ session.declared
  · have hi := Script.introduces_of_mem (optionLines terms)
      (session.assertions.map Term.assertionLine ++
        ((session.missing terms).map Symbol.declarationLine ++ questionLines terms))
      h.nodup (h.mem_declarations hu hs hdeclared) (fun other hname => ?_) hoption
      fun (t : Term) (_ : t ∈ session.assertions) _ => assertionLine_not_mem_optionLines t terms
    · simpa [queryLines, lines, Script.lines] using hi
    · refine ⟨declarationLine_not_mem_optionLines other terms, ?_⟩
      simp only [List.mem_append, not_or]
      refine ⟨Script.declarationLine_not_mem_map_assertionLine other _, fun hm => ?_,
        declarationLine_not_mem_questionLines other terms⟩
      exact hmissing other (Script.mem_map_declarationLine_iff.1 hm) (hname ▸ hdeclared)
  · obtain ⟨t, hm, hst⟩ := hd.resolve_left hdeclared
    have hmem : s ∈ session.missing terms :=
      List.mem_filter.2 ⟨Term.mem_freeSymbolsOf.2 ⟨t, hm, hst⟩, by simpa using hdeclared⟩
    refine Script.introduces_of_mem (optionLines terms ++ session.lines) (questionLines terms)
      (nodup_missing hu ht) hmem (fun other hname => ?_) ?_ fun t hlive hst => ?_
    · refine ⟨?_, declarationLine_not_mem_questionLines other terms⟩
      simp only [List.mem_append, not_or, lines, Script.lines]
      refine ⟨declarationLine_not_mem_optionLines other terms, fun ho => ?_,
        Script.declarationLine_not_mem_map_assertionLine other _⟩
      have ho := Script.mem_map_declarationLine_iff.1 ho
      exact hdeclared (h.mem_declared_iff.2 (hname ▸ List.mem_map_of_mem ho))
    · rw [List.mem_append, not_or]
      exact ⟨hoption, Script.checkSat_not_mem_lines⟩
    · -- the name of a symbol in a live assertion counts as declared
      exact absurd (h.of_asserted hlive hst).2 hdeclared

end OneSort

end IsTidy

end Session

theorem OneSort.sort_eq {actions : List Action} (h : OneSort actions) (a b : Symbol)
    (ha : a ∈ actions.flatMap Action.symbols) (hb : b ∈ actions.flatMap Action.symbols)
    (hname : a.name = b.name) : a.sort = b.sort := h a ha b hb hname

/-- **Every name is declared before it is used.** Whatever is done to a new session, no name is
declared twice in its open frames, the names that count as declared are those, and an assertion of a
frame mentions names of that frame or of frames before it. As long as every name is used at one
sort, the text of the session introduces each free symbol of its assertions, and the text that a
check sends introduces those of the terms to evaluate as well. -/
theorem declares_before_use (runner : Option Runner) (actions : List Action) :
    let session := Session.after { runner } actions
    (session.declarations.map Symbol.name).Nodup ∧
      (∀ name, name ∈ session.declared ↔ name ∈ session.declarations.map Symbol.name) ∧
      (∀ (i : Nat) (frame : Frame), session.frames[i]? = some frame →
        ∀ t ∈ frame.assertions, ∀ s ∈ t.freeSymbols,
          ∃ j ≤ i, ∃ outer, session.frames[j]? = some outer ∧ s.name ∈ outer.names) ∧
      session.text = "\n".intercalate session.lines ∧
      (OneSort actions → ∀ s ∈ Term.freeSymbolsOf session.assertions,
        Script.Introduces session.lines session.assertions s) ∧
      ∀ terms,
        (∀ r, session.runner = some r → ∃ r', (session.check terms).2.runner = some r' ∧
          r'.asked = r.asked ++ ["\n".intercalate (session.queryLines terms) ++ "\n"]) ∧
        (OneSort (actions ++ [.check terms]) →
          ∀ s ∈ Term.freeSymbolsOf (session.assertions ++ terms),
            Script.Introduces (session.queryLines terms) session.assertions s) := by
  intro session
  have htidy : session.IsTidy (· ∈ actions.flatMap Action.symbols) :=
    (Session.IsTidy.new runner).after fun _ hs => hs
  refine ⟨htidy.nodup, fun _ => htidy.mem_declared_iff, ?_, session.text_eq_lines,
    fun ho s hs => ?_, fun terms => ⟨fun r hr => Session.asked_check hr terms, fun ho s hs => ?_⟩⟩
  · intro i frame hi t ht s hs
    exact htidy.exists_index_of_asserted hi ht (Term.mem_freeSymbols.1 hs)
  · obtain ⟨t, ht, hs⟩ := Term.mem_freeSymbolsOf.1 hs
    obtain ⟨hused, hdeclared⟩ := htidy.of_asserted ht hs
    exact htidy.introduces ho.sort_eq hused hdeclared
  · have hmem : ∀ x, x ∈ (actions ++ [Action.check terms]).flatMap Action.symbols ↔
        x ∈ actions.flatMap Action.symbols ∨ ∃ t ∈ terms, x ∈ t.symbols := by
      intro x
      rw [List.flatMap_append, List.flatMap_singleton, List.mem_append, Action.symbols,
        List.mem_flatMap (f := Term.symbols)]
    have htidy' : session.IsTidy (· ∈ (actions ++ [Action.check terms]).flatMap Action.symbols) :=
      (Session.IsTidy.new runner).after fun x hx => (hmem x).2 (.inl hx)
    have hterms : ∀ t ∈ terms, ∀ x ∈ t.symbols,
        x ∈ (actions ++ [Action.check terms]).flatMap Action.symbols :=
      fun t ht x hx => (hmem x).2 (.inr ⟨t, ht, hx⟩)
    obtain ⟨t, ht, hs⟩ := Term.mem_freeSymbolsOf.1 hs
    rcases List.mem_append.1 ht with ht | ht
    · obtain ⟨hused, hdeclared⟩ := htidy'.of_asserted ht hs
      exact htidy'.query_introduces ho.sort_eq hterms hused (.inl hdeclared)
    · exact htidy'.query_introduces ho.sort_eq hterms (hterms t ht s hs) (.inr ⟨t, ht, hs⟩)

/-- A name goes out of scope and is declared again further out; a query declares one more. -/
def redeclaring : List Action :=
  let x : Symbol := ⟨"x", .int⟩
  let y : Symbol := ⟨"y", .bool⟩
  [.constant "x" .int, .push, .assert (.and (.symbol y) (.lt (.symbol x) (.ofInt 3))), .pop,
    .assert (.not (.symbol y))]

theorem redeclaring_declares :
    let session := Session.after { runner := some (.prepared []) } redeclaring
    session.text = "(declare-const x Int)\n(declare-const y Bool)\n(assert (not y))" ∧
      Script.Introduces session.lines session.assertions ⟨"y", .bool⟩ ∧
      Script.Introduces (session.queryLines [.symbol ⟨"z", .int⟩]) session.assertions
        ⟨"z", .int⟩ ∧
      ∃ r, (session.check [.symbol ⟨"z", .int⟩]).2.runner = some r ∧
        r.asked = ["(set-option :produce-models true)\n(declare-const x Int)\n" ++
          "(declare-const y Bool)\n(assert (not y))\n(declare-const z Int)\n(check-sat)\n" ++
          "(get-value (z))\n"] := by
  intro session
  obtain ⟨-, -, -, htext, hlive, hquery⟩ :=
    declares_before_use (some (.prepared [])) redeclaring
  obtain ⟨hasked, hintroduced⟩ := hquery [.symbol ⟨"z", .int⟩]
  obtain ⟨r, hr, hlast⟩ := hasked (.prepared []) rfl
  exact ⟨htext.trans (by decide +kernel), hlive (by decide) _ (by decide),
    hintroduced (by decide) _ (by decide), r, hr, hlast.trans (by decide +kernel)⟩

end Solver

end PathFormula
