import PathFormula.Proofs.Replies
import PathFormula.Proofs.Sessions

/-!
# Terms in queries and replies

The terms whose values a query asks for are printed by the query and repeated by the reply. Their
text is the canonical text of an S-expression, so that every layout of it is read back
(`spells_text_expression`), and a session gets from a reply what the solver says about each term
(`check_fits_reply`).
-/
namespace PathFormula

open SExpr (Spells IsWord)

namespace Term

/-! ### The expression of a term -/

/-- A negative number is printed as a list. -/
def leafExpression (text : String) : SExpr :=
  match readInteger? text with
  | some n => if n < 0 then .list [.atom "-", .atom (toString n.natAbs)] else .atom text
  | none => .atom text

/-- What a reader makes of the text of a term. -/
def expression : Term → SExpr
  | .leaf text _ => leafExpression text
  | .symbol s => .atom s.name
  | .not a => .list [.atom Operator.not.symbol, a.expression]
  | .dyadic op a b => .list [.atom op.symbol, a.expression, b.expression]
  | .ite condition yes no =>
      .list [.atom Operator.ite.symbol, condition.expression, yes.expression, no.expression]

/-- Leaves and symbols are written as words, or as numbers of either sign. -/
def Readable : Term → Prop
  | .leaf text _ => IsWord text ∨ ∃ n, text = integerText n
  | .symbol s => IsWord s.name
  | .not a => a.Readable
  | .dyadic _ a b => a.Readable ∧ b.Readable
  | .ite condition yes no => condition.Readable ∧ yes.Readable ∧ no.Readable

theorem text_leafExpression (text : String) : (leafExpression text).text = text := by
  unfold leafExpression
  split
  · rename_i n hn
    split
    · rename_i hneg
      rw [readInteger?_eq_some hn, ← String.toList_inj]
      simp [SExpr.text, SExpr.itemsText, integerText, hneg]
    · rfl
  · rfl

theorem text_expression (t : Term) : t.expression.text = t.text := by
  induction t with
  | leaf text sort => exact text_leafExpression text
  | symbol s => rfl
  | not a ha =>
    rw [← String.toList_inj]
    simp [expression, SExpr.text, SExpr.itemsText, ha, Term.text, render]
  | dyadic op a b ha hb =>
    rw [← String.toList_inj]
    simp [expression, SExpr.text, SExpr.itemsText, ha, hb, Term.text, render]
  | ite condition yes no hc hy hn =>
    rw [← String.toList_inj]
    simp [expression, SExpr.text, SExpr.itemsText, hc, hy, hn, Term.text, render]

theorem expression_ofInt (n : Int) :
    (ofInt n).expression =
      if n < 0 then .list [.atom "-", .atom (toString n.natAbs)]
      else .atom (toString n.natAbs) := by
  simp only [ofInt, expression, leafExpression, readInteger?_integerText]
  split
  · rfl
  · rename_i h
    rw [integerText_of_nonneg (Int.not_lt.1 h)]

theorem isPlain_of_isDigit {c : Char} (h : c.isDigit = true) : SExpr.isPlain c = true := by
  have hl : c ≠ '(' := by rintro rfl; exact absurd h (by decide)
  have hr : c ≠ ')' := by rintro rfl; exact absurd h (by decide)
  have hb : Text.isBlank c = false := by
    obtain ⟨hlow, hhigh⟩ : 48 ≤ c.toNat ∧ c.toNat ≤ 57 := Char.isDigit_iff_toNat.1 h
    rw [Bool.eq_false_iff]
    intro hblank
    obtain ⟨range, hmem, hc⟩ := List.any_eq_true.1 hblank
    rw [Bool.and_eq_true, decide_eq_true_eq, decide_eq_true_eq] at hc
    have : ∀ range ∈ Text.blankRanges, range.2 < 48 ∨ 57 < range.1 := by decide
    have := this range hmem
    omega
  simp [SExpr.isPlain, hl, hr, hb]

theorem isWord_toString (n : Nat) : IsWord (toString n) := by
  refine ⟨fun hnil => ?_, fun c hc => isPlain_of_isDigit (isDigit_of_mem_toString hc)⟩
  exact Nat.toDigits_ne_nil (Nat.toList_repr.symm.trans hnil)

theorem isWord_symbol (op : Operator) : IsWord op.symbol := by
  cases op with
  | not => decide
  | dyadic op => cases op <;> decide
  | ite => decide

theorem worded_leafExpression {text : String} (h : IsWord text ∨ ∃ n, text = integerText n) :
    (leafExpression text).Worded := by
  unfold leafExpression
  split
  · rename_i n hn
    split
    · exact ⟨isWord_symbol (.dyadic .sub), isWord_toString _, trivial⟩
    · rename_i hpos
      have htext := readInteger?_eq_some hn
      rw [integerText_of_nonneg (Int.not_lt.1 hpos)] at htext
      exact htext ▸ isWord_toString _
  · rename_i hn
    rcases h with h | ⟨n, rfl⟩
    · exact h
    · rw [readInteger?_integerText] at hn
      cases hn

theorem Readable.worded {t : Term} (h : t.Readable) : t.expression.Worded := by
  induction t with
  | leaf text sort => exact worded_leafExpression h
  | symbol s => exact h
  | not a ha => exact ⟨isWord_symbol .not, ha h, trivial⟩
  | dyadic op a b ha hb => exact ⟨isWord_symbol (.dyadic op), ha h.1, hb h.2, trivial⟩
  | ite condition yes no hc hy hn =>
    exact ⟨isWord_symbol .ite, hc h.1, hy h.2.1, hn h.2.2, trivial⟩

theorem spells_text_expression {t : Term} (h : t.Readable) :
    Spells t.expression.tokens t.text.toList :=
  text_expression t ▸ SExpr.spells_text h.worded

end Term

/-- What stands between the parentheses of a request for values. -/
theorem Command.spells_getValue {terms : List Term} (h : ∀ t ∈ terms, t.Readable) :
    Spells (SExpr.list [.atom "get-value", .list (terms.map Term.expression)]).tokens
      (Command.getValue terms).text.toList := by
  have hall : SExpr.WordedAll (terms.map Term.expression) := by
    refine SExpr.wordedAll_iff.2 fun e he => ?_
    obtain ⟨t, ht, rfl⟩ := List.mem_map.1 he
    exact (h t ht).worded
  have hs := SExpr.spells_text (e := .list [.atom "get-value", .list (terms.map Term.expression)])
    ⟨(by decide : IsWord "get-value"), hall, trivial⟩
  have htexts : (terms.map Term.expression).map SExpr.text = terms.map Term.text := by
    simp [Term.text_expression]
  have htext : (SExpr.list [.atom "get-value", .list (terms.map Term.expression)]).text =
      (Command.getValue terms).text := by
    have hvalue : (Command.getValue terms).text = Solver.Session.valueLine terms := rfl
    rw [hvalue, ← String.toList_inj]
    simp [SExpr.text, SExpr.itemsText, SExpr.itemsText_eq, htexts, Solver.Session.valueLine]
  rwa [htext] at hs

namespace Solver

namespace Session

/-- What the solver writes in reply to a query, where there is a runner and it does not fail. -/
def reply? (session : Session) (terms : List Term) : Option String :=
  session.runner.bind fun runner => (runner.ask (session.queryText terms)).1.toOption

theorem check_fst (session : Session) (terms : List Term) :
    (session.check terms).1 =
      ((session.reply? terms).bind fun output =>
        (readReply output "" terms.length).toOption).getD .error := by
  unfold check reply?
  split
  · rename_i hr
    simp [hr]
  · rename_i runner hr
    simp only [hr, Option.bind_some]
    cases (runner.ask (session.queryText terms)).1 with
    | error e => rfl
    | ok output =>
      cases hread : readReply output "" terms.length with
      | error e => simp [hread, Except.toOption]
      | ok outcome => simp [hread, Except.toOption]

theorem check_fst_of_answers {session : Session} {terms : List Term} {output : String}
    {outcome : Outcome} (hr : session.reply? terms = some output)
    (ha : Answers terms.length output.toList outcome) : (session.check terms).1 = outcome := by
  rw [check_fst, hr, Option.bind_some, readReply_eq_ok_iff.2 ha]
  rfl

/-- The outcome of a check is what the reply says, or an error without an answer. -/
theorem check_fst_cases (session : Session) (terms : List Term) :
    (∃ output, session.reply? terms = some output ∧
      Answers terms.length output.toList (session.check terms).1) ∨
    (session.check terms).1 = .error := by
  rw [check_fst]
  cases hr : session.reply? terms with
  | none => exact .inr rfl
  | some output =>
    cases hread : readReply output "" terms.length with
    | error e => exact .inr (by simp [hread, Except.toOption])
    | ok outcome =>
      refine .inl ⟨output, rfl, ?_⟩
      rw [Option.bind_some, hread]
      exact readReply_eq_ok_iff.1 hread

/-- The request for values is the last line of a query. -/
theorem exists_queryLines (session : Session) {terms : List Term} (h : terms ≠ []) :
    ∃ before, session.queryLines terms =
      before ++ ["(check-sat)", (Command.getValue terms).text] := by
  have hq : questionLines terms = ["(check-sat)", (Command.getValue terms).text] := by
    cases terms with
    | nil => exact absurd rfl h
    | cons t rest => rfl
  exact ⟨_, by rw [queryLines, hq]⟩

theorem getValue_mem_query {session : Session} {terms : List Term} (h : terms ≠ []) :
    .getValue terms ∈ session.query terms := by
  simp [query, h]

end Session

/-! ### What a reply says -/

/-- The reply is `sat`, with a pair for each of the `count` terms if there are any. -/
def SaysSat (count : Nat) (reply : List Char) : Prop :=
  ∃ rest, Leads "sat" rest reply ∧
    (count ≠ 0 → ∃ pairs : List (SExpr × SExpr), pairs.length = count ∧
      Spells (valueBlock pairs).tokens rest)

def SaysUnsat (reply : List Char) : Prop := ∃ rest, Leads "unsat" rest reply

def SaysUnknown (reply : List Char) : Prop :=
  ∃ rest, Leads "unknown" rest reply ∨ Leads "timeout" rest reply

theorem Answers.says {count : Nat} {reply : List Char} {outcome : Outcome}
    (h : Answers count reply outcome) :
    (outcome.verdict = .satisfiable ∧ SaysSat count reply) ∨
    (outcome = .bare .unsatisfiable ∧ SaysUnsat reply) ∨
    (outcome = .bare .unknown ∧ SaysUnknown reply) := by
  cases h with
  | unsatisfiable h => exact .inr (.inl ⟨rfl, _, h⟩)
  | unknown h => exact .inr (.inr ⟨rfl, _, .inl h⟩)
  | timeout h => exact .inr (.inr ⟨rfl, _, .inr h⟩)
  | satisfiable h hcount => exact .inl ⟨rfl, _, h, fun hne => absurd hcount hne⟩
  | model h hcount hlen hs => exact .inl ⟨rfl, _, h, fun _ => ⟨_, hlen, hs⟩⟩

theorem SaysSat.exists_answers {count : Nat} {reply : List Char} (h : SaysSat count reply) :
    ∃ values, Answers count reply ⟨.satisfiable, values⟩ := by
  obtain ⟨rest, hl, hpairs⟩ := h
  by_cases hcount : count = 0
  · exact ⟨[], .satisfiable hl hcount⟩
  · obtain ⟨pairs, hlen, hs⟩ := hpairs hcount
    exact ⟨_, .model hl hcount hlen hs⟩

theorem SaysUnsat.answers {reply : List Char} (h : SaysUnsat reply) (count : Nat) :
    Answers count reply (.bare .unsatisfiable) := by
  obtain ⟨rest, hl⟩ := h
  exact .unsatisfiable hl

theorem SaysUnknown.answers {reply : List Char} (h : SaysUnknown reply) (count : Nat) :
    Answers count reply (.bare .unknown) := by
  obtain ⟨rest, hl | hl⟩ := h
  · exact .unknown hl
  · exact .timeout hl

/-- A block with a pair for each term asked gives each term its value, in any layout. -/
theorem answers_valueBlock {terms : List Term} {values : List SExpr} {rest reply : List Char}
    (hlen : values.length = terms.length) (hl : Leads "sat" rest reply)
    (hs : Spells (valueBlock ((terms.map Term.expression).zip values)).tokens rest) :
    Answers terms.length reply ⟨.satisfiable, values.map SExpr.text⟩ := by
  by_cases hcount : terms.length = 0
  · rw [List.eq_nil_of_length_eq_zero (hlen.trans hcount)]
    exact .satisfiable hl hcount
  · have hpairs : ((terms.map Term.expression).zip values).length = terms.length := by
      simp [hlen]
    have hvalues : ((terms.map Term.expression).zip values).map (fun pair => pair.2.text) =
        values.map SExpr.text := by
      have hsnd : ((terms.map Term.expression).zip values).map Prod.snd = values :=
        List.map_snd_zip (by simp [hlen])
      have htext := congrArg (List.map SExpr.text) hsnd
      rw [List.map_map] at htext
      exact htext
    exact hvalues ▸ .model hl hcount hpairs hs

section

variable (session : Session) (terms : List Term)

theorem verdict_eq_satisfiable_iff :
    (session.check terms).1.verdict = .satisfiable ↔
      ∃ output, session.reply? terms = some output ∧ SaysSat terms.length output.toList := by
  constructor
  · intro h
    rcases session.check_fst_cases terms with ⟨output, hr, ha⟩ | he
    · rcases ha.says with ⟨-, hs⟩ | ⟨ho, -⟩ | ⟨ho, -⟩
      · exact ⟨output, hr, hs⟩
      · rw [ho] at h; cases h
      · rw [ho] at h; cases h
    · rw [he] at h; cases h
  · rintro ⟨output, hr, hs⟩
    obtain ⟨values, ha⟩ := hs.exists_answers
    rw [Session.check_fst_of_answers hr ha]

theorem verdict_eq_unsatisfiable_iff :
    (session.check terms).1.verdict = .unsatisfiable ↔
      ∃ output, session.reply? terms = some output ∧ SaysUnsat output.toList := by
  constructor
  · intro h
    rcases session.check_fst_cases terms with ⟨output, hr, ha⟩ | he
    · rcases ha.says with ⟨ho, -⟩ | ⟨-, hs⟩ | ⟨ho, -⟩
      · rw [ho] at h; cases h
      · exact ⟨output, hr, hs⟩
      · rw [ho] at h; cases h
    · rw [he] at h; cases h
  · rintro ⟨output, hr, hs⟩
    rw [Session.check_fst_of_answers hr (hs.answers _)]
    rfl

theorem verdict_eq_unknown_iff :
    (session.check terms).1.verdict = .unknown ↔
      ∃ output, session.reply? terms = some output ∧ SaysUnknown output.toList := by
  constructor
  · intro h
    rcases session.check_fst_cases terms with ⟨output, hr, ha⟩ | he
    · rcases ha.says with ⟨ho, -⟩ | ⟨ho, -⟩ | ⟨-, hs⟩
      · rw [ho] at h; cases h
      · rw [ho] at h; cases h
      · exact ⟨output, hr, hs⟩
    · rw [he] at h; cases h
  · rintro ⟨output, hr, hs⟩
    rw [Session.check_fst_of_answers hr (hs.answers _)]
    rfl

theorem verdict_eq_error_iff :
    (session.check terms).1.verdict = .error ↔
      ∀ output, session.reply? terms = some output →
        ¬ SaysSat terms.length output.toList ∧ ¬ SaysUnsat output.toList ∧
          ¬ SaysUnknown output.toList := by
  constructor
  · intro h output hr
    refine ⟨fun hs => ?_, fun hs => ?_, fun hs => ?_⟩
    · rw [(verdict_eq_satisfiable_iff session terms).2 ⟨output, hr, hs⟩] at h; cases h
    · rw [(verdict_eq_unsatisfiable_iff session terms).2 ⟨output, hr, hs⟩] at h; cases h
    · rw [(verdict_eq_unknown_iff session terms).2 ⟨output, hr, hs⟩] at h; cases h
  · intro h
    rcases session.check_fst_cases terms with ⟨output, hr, ha⟩ | he
    · obtain ⟨hsat, hunsat, hunknown⟩ := h output hr
      rcases ha.says with ⟨-, hs⟩ | ⟨-, hs⟩ | ⟨-, hs⟩
      · exact absurd hs hsat
      · exact absurd hs hunsat
      · exact absurd hs hunknown
    · rw [he]; rfl

theorem values_eq_nil (h : (session.check terms).1.verdict ≠ .satisfiable) :
    (session.check terms).1.values = [] := by
  rcases session.check_fst_cases terms with ⟨output, hr, ha⟩ | he
  · rcases ha.says with ⟨ho, -⟩ | ⟨ho, -⟩ | ⟨ho, -⟩
    · exact absurd ho h
    · rw [ho]; rfl
    · rw [ho]; rfl
  · rw [he]; rfl

end

/-- **A session and its solver understand each other.** The last line of a query asks for its terms
in a form that is read back. A reply that gives each of them a value, in any layout, is understood
as these values. Whatever the reply is, the verdict is satisfiable, unsatisfiable or unknown only
where the reply says so on its first line that is not blank, and an error everywhere else. -/
theorem check_fits_reply (session : Session) (terms : List Term) :
    (session.queryText terms = "\n".intercalate (session.queryLines terms) ++ "\n" ∧
      (terms ≠ [] → ∃ before, session.queryLines terms =
        before ++ ["(check-sat)", (Command.getValue terms).text])) ∧
    ((∀ t ∈ terms, t.Readable) → terms ≠ [] →
      .getValue terms ∈ session.query terms ∧
      Spells (SExpr.list [.atom "get-value", .list (terms.map Term.expression)]).tokens
        (Command.getValue terms).text.toList ∧
      ∀ t ∈ terms, Spells t.expression.tokens t.text.toList) ∧
    (∀ (values : List SExpr) (output : String) (rest : List Char),
      values.length = terms.length → session.reply? terms = some output →
      Leads "sat" rest output.toList →
      Spells (valueBlock ((terms.map Term.expression).zip values)).tokens rest →
      (session.check terms).1 = ⟨.satisfiable, values.map SExpr.text⟩) ∧
    ((session.check terms).1.verdict = .satisfiable ↔
      ∃ output, session.reply? terms = some output ∧ SaysSat terms.length output.toList) ∧
    ((session.check terms).1.verdict = .unsatisfiable ↔
      ∃ output, session.reply? terms = some output ∧ SaysUnsat output.toList) ∧
    ((session.check terms).1.verdict = .unknown ↔
      ∃ output, session.reply? terms = some output ∧ SaysUnknown output.toList) ∧
    ((session.check terms).1.verdict = .error ↔
      ∀ output, session.reply? terms = some output →
        ¬ SaysSat terms.length output.toList ∧ ¬ SaysUnsat output.toList ∧
          ¬ SaysUnknown output.toList) ∧
    ((session.check terms).1.verdict ≠ .satisfiable → (session.check terms).1.values = []) := by
  refine ⟨⟨session.queryText_eq_lines terms, session.exists_queryLines⟩, fun h hne => ?_,
    fun values output rest hlen hr hl hs => ?_, verdict_eq_satisfiable_iff session terms,
    verdict_eq_unsatisfiable_iff session terms, verdict_eq_unknown_iff session terms,
    verdict_eq_error_iff session terms, values_eq_nil session terms⟩
  · exact ⟨Session.getValue_mem_query hne, Command.spells_getValue h, fun t ht =>
      Term.spells_text_expression (h t ht)⟩
  · exact Session.check_fst_of_answers hr (answers_valueBlock hlen hl hs)

/-- Two terms, the second with a negative constant. -/
def askedTerms : List Term :=
  [.symbol ⟨"x", .int⟩, .add (.symbol ⟨"x", .int⟩) (.ofInt (-3))]

/-- What a solver may write about them after its verdict. -/
def layoutBlock : String := "\t\n((x 1)\n ( (+ x(- 3 ))\n(- 2) ))\n"

def answeredSession : Session := { runner := some (.prepared [.ok ("\n sat" ++ layoutBlock)]) }

theorem readable_askedTerms : ∀ t ∈ askedTerms, t.Readable := by
  have hx : IsWord "x" := by decide
  have hnumber : (Term.ofInt (-3)).Readable := .inr ⟨-3, rfl⟩
  exact List.forall_mem_cons.2 ⟨hx, List.forall_mem_cons.2 ⟨⟨hx, hnumber⟩, fun _ h => nomatch h⟩⟩

theorem expression_askedTerms :
    askedTerms.map Term.expression =
      [.atom "x", .list [.atom "+", .atom "x", .list [.atom "-", .atom "3"]]] := by
  simp only [askedTerms, Term.expression, Term.expression_ofInt, Dyadic.symbol, List.map_cons,
    List.map_nil]
  rfl

theorem check_askedTerms :
    .getValue askedTerms ∈ answeredSession.query askedTerms ∧
      (answeredSession.check askedTerms).1 = ⟨.satisfiable, ["1", "(- 2)"]⟩ := by
  obtain ⟨-, hask, hanswer, -⟩ := check_fits_reply answeredSession askedTerms
  have hleads : Leads "sat" layoutBlock.toList ("\n sat" ++ layoutBlock).toList :=
    ⟨['\n', ' '], by decide, by decide, by decide⟩
  refine ⟨(hask readable_askedTerms (by decide)).1, ?_⟩
  refine hanswer [.atom "1", .list [.atom "-", .atom "2"]] _ _ rfl rfl hleads ?_
  rw [expression_askedTerms]
  exact SExpr.tokenize_eq_iff.1 (by decide +kernel)

end Solver

end PathFormula
