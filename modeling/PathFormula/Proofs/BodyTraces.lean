import PathFormula.Proofs.Traces

/-!
# Traces of bodies

The expressions in a body, its conditions, and the values that its declarations and returns give to
a variable are read off the tree (`Stmt.usesOfAll`). A statement is encoded in steps that these
allow, under conditions that a path is made of, and answers for returns under such conditions
(`Stmt.traces_encode`). So is every function that is encoded (`exists_traces`).
-/
namespace PathFormula

open Source

namespace Source.Stmt

/-- The value that is given to the only one of some variables. -/
def givenTo : List Declaration → Option Expr → List (Nat × Expr)
  | [slot], some e => [(slot.id, e)]
  | _, _ => []

mutual

/-- The conditions in a statement. -/
def tests : Stmt → List Expr
  | .block _ body => testsOfAll body
  | .declare .. | .expression .. | .ret .. => []
  | .branch _ condition yes no => condition :: (yes.tests ++ testsOfOption no)
  | .whileLoop _ condition body _ => condition :: body.tests
  | .forLoop _ start condition _ body => testsOfOption start ++ (condition.toList ++ body.tests)

def testsOfAll : List Stmt → List Expr
  | [] => []
  | s :: rest => s.tests ++ testsOfAll rest

def testsOfOption : Option Stmt → List Expr
  | none => []
  | some s => s.tests

end

mutual

/-- The values that a statement gives to a declared variable or to the only return slot. -/
def gifts (returns : List Declaration) : Stmt → List (Nat × Expr)
  | .block _ body => giftsOfAll returns body
  | .declare _ declarations initial => givenTo declarations initial
  | .expression .. => []
  | .branch _ _ yes no => yes.gifts returns ++ giftsOfOption returns no
  | .whileLoop _ _ body _ => body.gifts returns
  | .forLoop _ start _ _ body => giftsOfOption returns start ++ body.gifts returns
  | .ret _ value => givenTo returns value

def giftsOfAll (returns : List Declaration) : List Stmt → List (Nat × Expr)
  | [] => []
  | s :: rest => s.gifts returns ++ giftsOfAll returns rest

def giftsOfOption (returns : List Declaration) : Option Stmt → List (Nat × Expr)
  | none => []
  | some s => s.gifts returns

end

/-- What a body is made of. -/
def usesOfAll (returns : List Declaration) (body : List Stmt) : Uses where
  nodes := nodesOfAll body
  tests := testsOfAll body
  gifts := giftsOfAll returns body

/-- The parts of a statement are among the parts of a body. -/
structure UsedBy (U : Uses) (returns : List Declaration) (s : Stmt) : Prop where
  nodes : s.nodes ⊆ U.nodes
  tests : s.tests ⊆ U.tests
  gifts : s.gifts returns ⊆ U.gifts

end Source.Stmt

namespace Draft

variable {U : Uses} {d d₁ d' : Draft} {exits later : List Term} {location : Location}

/-- Steps that answer for some returns, all under conditions that a path is made of. -/
structure TracesTo (U : Uses) (d : Draft) (exits : List Term) (d' : Draft) : Prop where
  traces : Traces U d d'
  guards : ∀ x ∈ exits, Guard U d' x

namespace TracesTo

theorem nil (h : Traces U d d') : TracesTo U d [] d' := ⟨h, by simp⟩

theorem after (h₁ : Traces U d d₁) (h₂ : TracesTo U d₁ exits d') : TracesTo U d exits d' :=
  { h₂ with traces := h₁.trans h₂.traces }

theorem before (h₁ : TracesTo U d exits d₁) (h₂ : Traces U d₁ d') (hl : Later d₁ d') :
    TracesTo U d exits d' where
  traces := h₁.traces.trans h₂
  guards x hx := (h₁.guards x hx).later hl

theorem append (h₁ : TracesTo U d exits d₁) (h₂ : TracesTo U d₁ later d') (hl : Later d₁ d') :
    TracesTo U d (exits ++ later) d' where
  traces := h₁.traces.trans h₂.traces
  guards x hx := (List.mem_append.1 hx).elim (fun hx => (h₁.guards x hx).later hl) (h₂.guards x)

/-- A branch is closed again. -/
theorem popped (h : TracesTo U d exits d') : TracesTo U d exits d'.popped :=
  h.before (.single .closed) .withPath

end TracesTo

/-- A branch is opened by the value of a condition or by its negation. -/
theorem traces_pushPath {condition : Expr} {sign : Bool} {u : Unit} (hn : U.Has condition)
    (ht : condition ∈ U.tests) (hd : Steered U d) (h : Yields (pushPath condition sign) d u d') :
    Traces U d d' ∧ Steered U d' := by
  obtain ⟨t, d₁, hv, rfl⟩ := yields_pushPath.1 h
  obtain ⟨htr, hk⟩ := traces_valueOf hn hv
  have hguard : Guard U d₁ (if sign then t else .not t) := by
    split
    · exact .test hn ht hk
    · exact .not (.test hn ht hk)
  exact ⟨htr.tail (.opened hguard), (hd.continues (continues_valueOf hv)).pushed hguard⟩

end Draft

namespace Source.Stmt

open Draft

variable {U : Uses} {returns : List Declaration} {location : Location} {d d₁ d' : Draft}
  {exits : List Term}

/-- Every encoding of the statement is a row of steps. -/
def Traces (U : Uses) (returns : List Declaration) (s : Stmt) : Prop :=
  ∀ ⦃d : Draft⦄ ⦃exits : List Term⦄ ⦃d' : Draft⦄, s.UsedBy U returns → Steered U d →
    Yields (s.encode returns) d exits d' → TracesTo U d exits d'

theorem traces_encodeOptional {e : Option Expr} (he : nodesOfExpr e ⊆ U.nodes)
    (h : Yields (encodeOptional e) d () d') : Draft.Traces U d d' := by
  cases e with
  | none =>
    obtain ⟨-, rfl⟩ := yields_pure.1 h
    exact .refl
  | some e => exact e.traces_encode he h

theorem traces_declare {declarations : List Declaration} {initial : Option Expr}
    (hn : nodesOfExpr initial ⊆ U.nodes) (hg : givenTo declarations initial ⊆ U.gifts)
    (h : Yields (Draft.declare location declarations initial) d () d') : Draft.Traces U d d' := by
  by_cases hm : ∃ declaration, declarations = [declaration]
  · obtain ⟨declaration, rfl⟩ := hm
    cases initial with
    | none =>
      obtain ⟨-, rfl⟩ | ⟨v, hv, ha⟩ := yields_declare_none.1 h
      · exact .refl
      · exact traces_assign (.zero (by rw [sort?, hv]; rfl)) ha
    | some e =>
      obtain ⟨d₁, he, ⟨-, rfl⟩ | ⟨-, ha⟩⟩ := yields_declare_some.1 h
      · exact e.traces_encode hn he
      · exact (e.traces_encode hn he).trans
          (traces_assignFrom hn (hg List.mem_cons_self) ha)
  · obtain ⟨d₁, he, hf⟩ := (yields_declare_many fun x hx => hm ⟨x, hx⟩).1 h
    exact (traces_encodeOptional hn he).trans (traces_warned.trans (traces_forgetAll hf))

theorem traces_ret {value : Option Expr} : Traces U returns (.ret location value) := by
  intro d exits d' hs hd h
  have hc := continues_ret h
  have hguard : ∀ x ∈ [d'.pathCondition], Guard U d' x := by
    simpa using (hd.continues hc).guard
  cases value with
  | none =>
    obtain ⟨rfl, rfl⟩ := yields_ret_none.1 h
    exact ⟨.refl, hguard⟩
  | some e =>
    obtain ⟨d₁, he, hg, rfl⟩ := yields_ret_some.1 h
    refine ⟨(e.traces_encode hs.nodes he).trans ?_, hguard⟩
    by_cases hm : ∃ slot, returns = [slot]
    · obtain ⟨slot, rfl⟩ := hm
      obtain ⟨-, rfl⟩ | ⟨-, ha⟩ := yields_giveBack_one.1 hg
      · exact .refl
      · exact traces_assignFrom hs.nodes (hs.gifts List.mem_cons_self) ha
    · obtain rfl := (yields_giveBack_many fun x hx => hm ⟨x, hx⟩).1 hg
      exact traces_warned

theorem traces_encodeElse {condition : Expr} {before afterYes : Versions} {no : Option Stmt}
    (hn : U.Has condition) (ht : condition ∈ U.tests) (hno : ∀ s ∈ no, s.Traces U returns)
    (hu : ∀ s ∈ no, s.UsedBy U returns) (hd : Steered U d)
    (h : Yields (encodeElse returns location condition before afterYes no) d exits d') :
    TracesTo U d exits d' := by
  cases no with
  | none =>
    obtain ⟨rfl, rfl⟩ := yields_pure.1 h
    exact .nil .refl
  | some no =>
    obtain ⟨d₁, d₂, d₃, hp, hr, hs, -, rfl⟩ := yields_encodeElse.1 h
    obtain ⟨htr, hd₁⟩ := traces_pushPath hn ht hd hp
    have hd₂ := hd₁.continues (continues_assignAll (yields_restore.1 hr))
    exact .popped (.after (htr.trans (traces_restore hr)) (hno no rfl (hu no rfl) hd₂ hs))

theorem traces_branch {condition : Expr} {yes : Stmt} {no : Option Stmt}
    (hy : yes.Traces U returns) (hno : ∀ s ∈ no, s.Traces U returns) :
    Traces U returns (.branch location condition yes no) := by
  intro d exits d' hs hd h
  obtain ⟨d₁, guard, d₂, d₃, yesExits, d₄, noExits, d₅, hc, hg, hp, hyes, -, he, hj, rfl⟩ :=
    yields_branch.1 h
  obtain ⟨hnc, hnr⟩ := List.append_subset.1 hs.nodes
  obtain ⟨hny, hnn⟩ := List.append_subset.1 hnr
  obtain ⟨htc, htr⟩ := List.cons_subset.1 hs.tests
  obtain ⟨hty, htn⟩ := List.append_subset.1 htr
  obtain ⟨hgy, hgn⟩ := List.append_subset.1 hs.gifts
  have hmem : U.Has condition := hnc
  have hused : ∀ s ∈ no, s.UsedBy U returns := by
    rintro s rfl
    exact ⟨hnn, htn, hgn⟩
  obtain ⟨hvt, hv⟩ := traces_valueOf hmem hg
  have hd₂ := (hd.continues (Draft.continues_encode hc)).continues (continues_valueOf hg)
  obtain ⟨hpt, hd₃⟩ := traces_pushPath hmem htc hd₂ hp
  have hty := (hy ⟨hny, hty, hgy⟩ hd₃ hyes).popped
  have hcy := Draft.continues_branch hp (continues_encode returns yes hyes)
  have hte := traces_encodeElse hmem htc hno hused (hd₂.continues hcy) he
  have hce := continues_encodeElse (fun s _ => continues_encode returns s) he
  have hguard : Guard U d₅ guard :=
    ((Guard.test hmem htc hv).later hcy.later).later hce.later
  have hcj := continues_assignAll (yields_mergeVersions.1 hj)
  exact .after ((condition.traces_encode hnc hc).trans (hvt.trans hpt))
    ((hty.append hte hce.later).before (traces_mergeVersions hguard hj) hcj.later)

theorem traces_turn {written : List Nat} {condition step : Option Expr} {body : Stmt}
    (hnc : nodesOfExpr condition ⊆ U.nodes) (htc : ∀ e ∈ condition, e ∈ U.tests)
    (hns : nodesOfExpr step ⊆ U.nodes) (hb : body.Traces U returns) (hu : body.UsedBy U returns)
    (hd : Steered U d)
    (h : EncodesTurn returns location written condition step body d exits d') :
    TracesTo U d exits d' := by
  obtain ⟨d₁, d₂, d₃, d₄, d₅, hf, he, hbody, hs, hl, hf'⟩ := h
  have hd₁ : Steered U d₁ := hd.continues (.trans ⟨.warned, rfl⟩ (continues_forgetAll hf))
  have hstart : Draft.Traces U d d₁ := traces_warned.trans (traces_forgetAll hf)
  have hcs := continues_encodeOptional hs
  have hend := continues_forgetAll hf'
  cases condition with
  | none =>
    obtain ⟨-, rfl⟩ := yields_pure.1 he
    obtain ⟨-, rfl⟩ := yields_pure.1 hl
    exact .after hstart (((hb hu hd₁ hbody).before (traces_encodeOptional hns hs) hcs.later).before
      (traces_forgetAll hf') hend.later)
  | some condition =>
    obtain ⟨d₆, hc, hp⟩ := yields_seq.1 he
    obtain ⟨-, rfl⟩ := yields_popPath.1 hl
    obtain ⟨hpt, hd₂⟩ := traces_pushPath hnc (htc condition rfl)
      (hd₁.continues (Draft.continues_encode hc)) hp
    have hturn := ((hb hu hd₂ hbody).before (traces_encodeOptional hns hs) hcs.later).popped
    exact .after (hstart.trans ((condition.traces_encode hnc hc).trans hpt))
      (hturn.before (traces_forgetAll hf') hend.later)

theorem UsedBy.whileBody {condition : Expr} {body : Stmt} {isBodyFirst : Bool}
    (h : UsedBy U returns (.whileLoop location condition body isBodyFirst)) :
    condition.nodes ⊆ U.nodes ∧ condition ∈ U.tests ∧ body.UsedBy U returns := by
  obtain ⟨hnc, hnb⟩ := List.append_subset.1 h.nodes
  obtain ⟨htc, htb⟩ := List.cons_subset.1 h.tests
  exact ⟨hnc, htc, hnb, htb, h.gifts⟩

theorem UsedBy.forParts {first : Option Stmt} {condition step : Option Expr} {body : Stmt}
    (h : UsedBy U returns (.forLoop location first condition step body)) :
    (∀ s ∈ first, s.UsedBy U returns) ∧ nodesOfExpr condition ⊆ U.nodes ∧
      (∀ e ∈ condition, e ∈ U.tests) ∧ nodesOfExpr step ⊆ U.nodes ∧ body.UsedBy U returns := by
  obtain ⟨hnf, hnr⟩ := List.append_subset.1 h.nodes
  obtain ⟨hnc, hnr⟩ := List.append_subset.1 hnr
  obtain ⟨hnb, hns⟩ := List.append_subset.1 hnr
  obtain ⟨htf, htr⟩ := List.append_subset.1 h.tests
  obtain ⟨htc, htb⟩ := List.append_subset.1 htr
  obtain ⟨hgf, hgb⟩ := List.append_subset.1 h.gifts
  refine ⟨?_, hnc, fun e he => htc (Option.mem_toList.2 he), hns, hnb, htb, hgb⟩
  rintro s rfl
  exact ⟨hnf, htf, hgf⟩

mutual

theorem traces_encode (U : Uses) (returns : List Declaration) (s : Stmt) : s.Traces U returns := by
  intro d exits d' hu hd h
  cases s with
  | block _ body => exact traces_encodeAll U returns body hu.nodes hu.tests hu.gifts hd h
  | declare _ declarations initial =>
    obtain ⟨rfl, hy⟩ := yields_declare.1 h
    exact .nil (traces_declare hu.nodes hu.gifts hy)
  | expression _ e =>
    obtain ⟨rfl, hy⟩ := yields_expression.1 h
    exact .nil (e.traces_encode hu.nodes hy)
  | branch _ condition yes no =>
    cases no with
    | none => exact traces_branch (traces_encode U returns yes) (by simp) hu hd h
    | some no =>
      refine traces_branch (traces_encode U returns yes) (fun s hs => ?_) hu hd h
      exact Option.some.inj hs ▸ traces_encode U returns no
  | whileLoop _ condition body isBodyFirst =>
    obtain ⟨hnc, htc, hub⟩ := hu.whileBody
    cases isBodyFirst
    · refine traces_turn ?_ ?_ (List.nil_subset _) (traces_encode U returns body) hub hd
        (yields_whileLoop_testFirst.1 h)
      · exact hnc
      · exact fun e he => Option.some.inj he ▸ htc
    · refine traces_turn (List.nil_subset _) ?_ ?_ (traces_encode U returns body) hub hd
        (yields_whileLoop_bodyFirst.1 h)
      · exact fun e he => nomatch he
      · exact hnc
  | forLoop _ first condition step body =>
    obtain ⟨huf, hnc, htc, hns, hub⟩ := hu.forParts
    obtain ⟨startExits, d₀, bodyExits, hs, ht, rfl⟩ := yields_forLoop.1 h
    have hlater := (continues_turn (continues_encode returns body) ht).later
    cases first with
    | none =>
      obtain ⟨rfl, rfl⟩ := yields_pure.1 hs
      exact traces_turn hnc htc hns (traces_encode U returns body) hub hd ht
    | some first =>
      have hfirst := traces_encode U returns first (huf first rfl) hd hs
      have hd₀ := hd.continues (continues_encode returns first hs)
      exact hfirst.append
        (traces_turn hnc htc hns (traces_encode U returns body) hub hd₀ ht) hlater
  | ret _ value => exact traces_ret hu hd h

theorem traces_encodeAll (U : Uses) (returns : List Declaration) (body : List Stmt) {d : Draft}
    {exits : List Term} {d' : Draft} (hn : nodesOfAll body ⊆ U.nodes)
    (ht : testsOfAll body ⊆ U.tests) (hg : giftsOfAll returns body ⊆ U.gifts) (hd : Steered U d)
    (h : Yields (encodeAll returns body) d exits d') : TracesTo U d exits d' := by
  cases body with
  | nil =>
    obtain ⟨rfl, rfl⟩ := yields_encodeAll_nil.1 h
    exact .nil .refl
  | cons s rest =>
    obtain ⟨hns, hnr⟩ := List.append_subset.1 hn
    obtain ⟨hts, htr⟩ := List.append_subset.1 ht
    obtain ⟨hgs, hgr⟩ := List.append_subset.1 hg
    obtain ⟨first, d₁, hs, ⟨hnone, hr⟩ | ⟨taken, later, d₂, htaken, hr, -, hj, rfl⟩⟩ :=
      yields_encodeAll_cons.1 h
    · have hfirst := traces_encode U returns s ⟨hns, hts, hgs⟩ hd hs
      have hd₁ := hd.continues (continues_encode returns s hs)
      exact .after hfirst.traces (traces_encodeAll U returns rest hnr htr hgr hd₁ hr)
    · -- The rest is a branch of its own, under the negation of the returns before it.
      have hfirst := traces_encode U returns s ⟨hns, hts, hgs⟩ hd hs
      have hd₁ := hd.continues (continues_encode returns s hs)
      have hguard : Guard U d₁ (.not taken) := .not (guard_disjunction htaken hfirst.guards)
      have hrest := traces_encodeAll U returns rest hnr htr hgr (hd₁.pushed hguard) hr
      have hgate : TracesTo U d₁ later d₂.popped := .after (.single (.opened hguard)) hrest.popped
      have hc := (continues_encodeAll returns rest hr).popped
      have hcj := continues_assignAll (yields_mergeVersions.1 hj)
      exact (hfirst.append hgate hc.later).before
        (traces_mergeVersions (hguard.later hc.later) hj) hcj.later

end

end Source.Stmt

namespace Draft

/-- The encoding of a function is a row of steps from the draft that is prepared for it. -/
theorem exists_traces {contract : Contract} {f : Function} {settings : Settings} {e : Draft}
    (h : (f.analyze settings contract).outcome = .ok e) :
    ∃ d d₁, Opening contract f settings d ∧
      Traces (Stmt.usesOfAll f.returns f.body) d d₁ ∧ e = d₁.finished := by
  obtain ⟨d, exits, d₁, ho, hb, rfl⟩ := exists_opening h
  have hd : Steered (Stmt.usesOfAll f.returns f.body) d := fun t ht => by
    rw [ho.path] at ht
    cases ht
  exact ⟨d, d₁, ho, (Stmt.traces_encodeAll _ f.returns f.body (List.Subset.refl _)
    (List.Subset.refl _) (List.Subset.refl _) hd hb).traces, rfl⟩

end Draft

end PathFormula
