import PathFormula.Proofs.Declarations
import PathFormula.Proofs.Discipline

/-!
# Unknown values

Where a formula leaves the value of an expression open, a warning says so, with one exception: a
number literal that is no integer but has an integer type is given a symbol and nothing else
(`unknowns_explained`).
-/
namespace PathFormula

open Source

namespace Draft

variable {α : Type} {K : Mandate} {xs : List Expr} {x : Drafting α} {d d₁ d' : Draft}

/-- Why an expression has a symbol: an equation says what it is, a warning that it is unknown, or it
may be left open. -/
def Explains (K : Mandate) (d : Draft) (id : Nat) (sort : TermSort) : Prop :=
  (∃ c ∈ d.constraints, ∃ t, c.fact = .eq (.symbol (expressionSymbol id sort)) t) ∨
    (∃ e, K.nodes e ∧ e.id = id ∧ ∃ w ∈ d.diagnostics, w.severity = .warning ∧
      w.location = e.location) ∨
    ∃ e, K.opens e ∧ e.id = id ∧ e.termSort = .ok sort

/-- All symbols of expressions are explained. -/
def ExplainsAll (K : Mandate) (d : Draft) : Prop :=
  ∀ id sort, d.known.lookup id = some sort → d.Explains K id sort

theorem Explains.grow {id : Nat} {sort : TermSort} (h : d.Explains K id sort)
    (hc : d.constraints ⊆ d'.constraints) (hw : d.diagnostics ⊆ d'.diagnostics) :
    d'.Explains K id sort := by
  rcases h with ⟨c, hmem, ht⟩ | ⟨e, he, hid, w, hmem, hw'⟩ | h
  · exact .inl ⟨c, hc hmem, ht⟩
  · exact .inr (.inl ⟨e, he, hid, w, hw hmem, hw'⟩)
  · exact .inr (.inr h)

theorem ExplainsAll.grow (h : d.ExplainsAll K) (hk : d'.known = d.known)
    (hc : d.constraints ⊆ d'.constraints) (hw : d.diagnostics ⊆ d'.diagnostics) :
    d'.ExplainsAll K := by
  intro id sort hs
  rw [hk] at hs
  exact (h id sort hs).grow hc hw

theorem ExplainsAll.warned (h : d.ExplainsAll K) (location : Location) (notice : Notice) :
    (d.warned location notice).ExplainsAll K :=
  h.grow rfl (List.Subset.refl _) (List.subset_append_left _ _)

theorem ExplainsAll.emitted (h : d.ExplainsAll K) (fact : Term) (location : Location) :
    (d.emitted fact location).ExplainsAll K :=
  h.grow rfl (List.subset_append_left _ _) (List.Subset.refl _)

/-- A symbol that is given out comes with its explanation. -/
theorem ExplainsAll.add {id : Nat} {sort : TermSort} (h : d.ExplainsAll K)
    (hk : d'.known = (id, sort) :: d.known) (hc : d.constraints ⊆ d'.constraints)
    (hw : d.diagnostics ⊆ d'.diagnostics) (he : d'.Explains K id sort) : d'.ExplainsAll K := by
  intro i s hs
  rw [hk, List.lookup_cons] at hs
  cases hi : i == id with
  | true =>
    rw [hi] at hs
    cases hs
    rw [beq_iff_eq.1 hi]
    exact he
  | false =>
    rw [hi] at hs
    exact (h i s hs).grow hc hw

theorem mem_warned (d : Draft) (location : Location) (notice : Notice) :
    ⟨.warning, location, notice⟩ ∈ (d.warned location notice).diagnostics :=
  List.mem_append_right _ (List.mem_singleton_self _)

/-- Encoding explains every symbol that it gives out. -/
theorem Composed.explainsAll {a : α} (h : Composed K xs x) (hr : d.isRegistered = K.registered)
    (hd : d.ExplainsAll K) (hy : Yields x d a d') : d'.ExplainsAll K := by
  induction h generalizing d d' with
  | pure a =>
    obtain ⟨-, rfl⟩ := yields_pure.1 hy
    exact hd
  | reject h => exact absurd hy yields_throw
  | bind hx hf ihx ihf =>
    obtain ⟨b, d₁, hb, hy⟩ := yields_bind.1 hy
    exact ihf b (hx.isRegistered hr hb) (ihx hr hd hb) hy
  | read hv _ ih => exact ih d hr hr hd hy
  | demand =>
    obtain ⟨-, rfl⟩ := yields_requireEncoding.1 hy
    exact hd
  | warn location notice =>
    obtain rfl := yields_warn.1 hy
    exact hd.warned _ _
  | emit fact location =>
    obtain rfl := yields_emit.1 hy
    exact hd.emitted _ _
  | @value _ _ e _ he hf ih =>
    obtain ⟨t, d₁, hv, hrest⟩ := yields_bind.1 hy
    have hr₁ := (continues_valueOf hv).later.isRegistered_eq.trans hr
    obtain ⟨sort, rfl, ⟨-, rfl⟩ | ⟨-, -, -, -, rfl⟩⟩ := yields_valueOf.1 hv
    · exact ih sort hr hd hrest
    · refine ih sort hr₁ ?_ hrest
      refine (hd.warned e.location .undefinedExpression).add rfl (List.Subset.refl _)
        (List.Subset.refl _) (.inr (.inl ⟨e, he, rfl, _, mem_warned d _ _, rfl, rfl⟩))
  | define e t =>
    obtain ⟨-, sort, ⟨-, rfl⟩ | ⟨-, -, rfl⟩⟩ := yields_define.1 hy
    · exact hd.emitted _ _
    · refine hd.add rfl (List.subset_append_left _ _) (List.Subset.refl _) ?_
      exact .inl ⟨_, List.mem_append_right _ (List.mem_singleton_self _), t, rfl⟩
  | @create e he =>
    obtain ⟨-, ⟨-, rfl⟩ | ⟨-, sort, hs, rfl⟩⟩ := yields_create.1 hy
    · exact hd.warned _ _
    · exact hd.add rfl (List.Subset.refl _) (List.Subset.refl _) (.inr (.inr ⟨e, he, rfl, hs⟩))
  | @announce e he notice =>
    have hd₁ := hd.warned e.location notice
    obtain ⟨-, ⟨-, rfl⟩ | ⟨-, sort, hs, rfl⟩⟩ := yields_create.1 (yields_warn_bind.1 hy)
    · exact hd₁.warned _ _
    · exact hd₁.add rfl (List.Subset.refl _) (List.Subset.refl _)
        (.inr (.inl ⟨e, he, rfl, _, mem_warned d _ _, rfl, rfl⟩))
  | write hid location fact =>
    obtain ⟨-, ⟨-, rfl⟩ | ⟨v, -, rfl⟩⟩ := yields_write.1 hy
    · exact hd.warned _ _
    · exact hd.grow rfl (List.subset_append_left _ _) (List.Subset.refl _)
  | branch _ condition hx ih =>
    simp only [yields_bind, yields_pushCondition, yields_popPath, yields_pure] at hy
    obtain ⟨_, _, rfl, b, d₂, hb, _, _, ⟨-, rfl⟩, -, rfl⟩ := hy
    have hpushed : (d.pushed condition).ExplainsAll K :=
      hd.grow rfl (List.Subset.refl _) (List.Subset.refl _)
    exact (ih (d := d.pushed condition) hr hpushed hb).grow rfl (List.Subset.refl _)
      (List.Subset.refl _)
  | divide _ _ _ _ ih =>
    obtain ⟨q, d₁, ha, hrest⟩ := yields_bind.1 hy
    obtain ⟨-, rfl⟩ := yields_arithmetic.1 ha
    split at hrest
    · exact ih _ (d := d.emitted _ _) hr (hd.emitted _ _) hrest
    · exact ih _ hr hd hrest

/-! ### Analyses -/

variable {contract : Contract} {f : Function} {settings : Settings}

/-- What is reported of a function that is encoded was said while it was. -/
theorem exists_encoded {e : Draft} (h : (f.analyze settings contract).outcome = .ok e) :
    ∃ d exits d₁, Opening contract f settings d ∧
      Yields (Stmt.encodeAll f.returns f.body) d exits d₁ ∧ e = d₁.finished ∧
        (f.analyze settings contract).diagnostics = d₁.diagnostics := by
  obtain ⟨d₀, d, exits, d₁, h₀, h₁, h₂, he⟩ := outcome_eq_ok.1 h
  have hrun : Yields (f.encode contract) { settings } () d₁ :=
    yields_seq.2 ⟨d₀, h₀, yields_seq.2 ⟨d, h₁, yields_map.2 ⟨exits, h₂, rfl⟩⟩⟩
  have hreport : (f.analyze settings contract).diagnostics = d₁.diagnostics := by
    unfold Yields at hrun
    simp only [Function.analyze, hrun]
  obtain ⟨ds, rfl⟩ := yields_warnings h₀
  exact ⟨d, exits, d₁, .of_yields h₁, h₂, he, hreport⟩

theorem KeepsToSymbols.lookup (h : d.KeepsToSymbols) {c : Constraint} (hc : c ∈ d.constraints)
    {id : Nat} {sort : TermSort} (hs : expressionSymbol id sort ∈ c.guard.symbols ∨
      expressionSymbol id sort ∈ c.fact.symbols) : d.known.lookup id = some sort := by
  have hissued : d.Issued (expressionSymbol id sort) := by
    obtain ⟨hg, hf⟩ := h.constraints c hc
    exact hs.elim (hg _) (hf _)
  generalize hsymbol : expressionSymbol id sort = s at hissued
  cases hissued with
  | @expression i _ hk =>
    have hid : id = i := expressionName_injective (Symbol.mk.inj hsymbol).1
    obtain rfl := (Symbol.mk.inj hsymbol).2
    exact hid ▸ hk
  | version hv k => exact absurd (congrArg Symbol.name hsymbol).symm (name_ne_expressionName _ k _)

theorem termSort_of_isFraction {e : Expr} {sort : TermSort} (h : e.isFraction = true)
    (hs : e.termSort = .ok sort) : ∃ node n, e = .literal node (.number n) ∧ n.den ≠ 1 ∧
      sort = .int := by
  unfold Expr.isFraction at h
  split at h
  · rename_i node n
    simp only [Bool.and_eq_true, decide_eq_true_eq, Bool.not_eq_true'] at h
    refine ⟨node, n, rfl, h.1, ?_⟩
    unfold Expr.termSort at hs
    split at hs
    · split at hs <;> cases hs
      rfl
    · cases hs
      rfl
    · rename_i hty
      simp [Expr.ty, Expr.node] at hty
      simp [hty, Ty.isBool] at h
    · cases hs
  · cases h

/-- Such a literal gets a symbol and nothing else. -/
theorem eq_named_of_yields_encode {node : Node} {n : Rat} (hn : n.den ≠ 1)
    (hs : (Expr.literal node (.number n)).termSort = .ok .int)
    (hk : d.known.lookup node.id = none)
    (h : Yields (Expr.encode (.literal node (.number n))) d () d') :
    d' = d.named node.id .int := by
  have hform : literal (.literal node (.number n)) (.number n) =
      create (.literal node (.number n)) := by
    unfold Expr.termSort Expr.ty Expr.node at hs
    unfold literal Expr.ty Expr.node
    cases hty : node.ty with
    | integer _ | rational _ => simp [hn]
    | _ => simp [hty] at hs
  change Yields (literal (.literal node (.number n)) (.number n)) d () d' at h
  rw [hform] at h
  obtain ⟨-, ⟨⟨sort, hk'⟩, -⟩ | ⟨-, sort, hs', rfl⟩⟩ := yields_create.1 h
  · cases hk.symm.trans hk'
  · cases hs.symm.trans hs'
    rfl

/-- **Unknown values are announced.** -/
theorem unknowns_explained (h : (f.analyze settings contract).outcome = .ok d) :
    (∀ c ∈ d.constraints, ∀ id sort, expressionSymbol id sort ∈ c.guard.symbols ∨
        expressionSymbol id sort ∈ c.fact.symbols →
      (∃ c' ∈ d.constraints, ∃ t, c'.fact = .eq (.symbol (expressionSymbol id sort)) t) ∨
      (∃ e ∈ Stmt.nodesOfAll f.body, e.id = id ∧
        ∃ w ∈ (f.analyze settings contract).diagnostics, w.severity = .warning ∧
          w.location = e.location) ∨
      ∃ node n, .literal node (.number n) ∈ Stmt.nodesOfAll f.body ∧ node.id = id ∧ n.den ≠ 1 ∧
        (Expr.literal node (.number n)).termSort = .ok .int ∧ sort = .int) ∧
    ∀ node n o o', n.den ≠ 1 → (Expr.literal node (.number n)).termSort = .ok .int →
      o.known.lookup node.id = none → Yields (Expr.encode (.literal node (.number n))) o () o' →
        o' = o.named node.id .int := by
  obtain ⟨o, exits, d₁, ho, hy, rfl, hreport⟩ := exists_encoded h
  obtain ⟨d₂, hk, he⟩ := exists_keepsToSymbols h
  have hcomposed := composed_encodeAll_body f.returns f.body o.isRegistered
  have hknown : d₂.known = d₁.known := (congrArg Draft.known he).symm
  have hconstraints : d₂.constraints = d₁.constraints := (congrArg Draft.constraints he).symm
  have hstart : o.ExplainsAll (bodyMandate f.body o.isRegistered) := by
    intro id sort hs
    rw [ho.known] at hs
    cases hs
  have hall := hcomposed.explainsAll rfl hstart hy
  refine ⟨fun c hc id sort hs => ?_, fun node n o o' hn hty hk hy => ?_⟩
  · have hlookup := hk.lookup (hconstraints ▸ hc) hs
    rw [hknown] at hlookup
    rcases hall id sort hlookup with
      hequation | ⟨e, he, hid, w, hw, hw'⟩ | ⟨e, ⟨he, hfraction⟩, hid, hs⟩
    · exact .inl hequation
    · exact .inr (.inl ⟨e, he, hid, w, hreport ▸ hw, hw'⟩)
    · obtain ⟨node, n, rfl, hn, rfl⟩ := termSort_of_isFraction hfraction hs
      exact .inr (.inr ⟨node, n, he, hid, hn, hs, rfl⟩)
  · exact eq_named_of_yields_encode hn hty hk hy

/-- The number `0.5` under an integer type. -/
def half : Expr := .literal ⟨3, {}, .integer ⟨8, false⟩⟩ (.number (mkRat 1 2))

/-- The assignment `x = 0.5`, in which the type of the number is that of `x`. -/
def rounding : Function where
  id := 1
  name := "f"
  location := {}
  parameters := [{ id := 1, name := "x", ty := .integer ⟨8, false⟩, location := {} }]
  returns := []
  body := [.expression {} (.assignment ⟨4, {}, .integer ⟨8, false⟩⟩ .plain
    (.identifier ⟨2, {}, .integer ⟨8, false⟩⟩ "x" (some 1) true) half)]

theorem rounding_leaves_open :
    ∃ d, (rounding.analyze {} ⟨0, "C", {}, [], [rounding]⟩).outcome = .ok d ∧
      (rounding.analyze {} ⟨0, "C", {}, [], [rounding]⟩).diagnostics = [] ∧
      (∃ c ∈ d.constraints, expressionSymbol 3 .int ∈ c.fact.symbols) ∧
      (∀ c ∈ d.constraints, ∀ t, c.fact ≠ .eq (.symbol (expressionSymbol 3 .int)) t) ∧
      (∃ node n, .literal node (.number n) ∈ Stmt.nodesOfAll rounding.body ∧ node.id = 3 ∧
        n.den ≠ 1) ∧
      ∃ o', Yields half.encode { phase := .encoding } () o' ∧
        o' = ({ phase := .encoding } : Draft).named 3 .int := by
  let x : Variable := { id := 1, name := "x", domain := .integer ⟨8, false⟩ }
  let three : Term := .symbol (expressionSymbol 3 .int)
  have hfacts : (rounding.analyze {} ⟨0, "C", {}, [], [rounding]⟩).outcome.toOption.map
      (fun d => d.constraints.map Constraint.fact) =
        some [x.rangeFact, .eq (x.term 1) three,
          .eq (.symbol (expressionSymbol 4 .int)) three] := by
    decide +kernel
  have hdiagnostics : (rounding.analyze {} ⟨0, "C", {}, [], [rounding]⟩).diagnostics = [] := by
    decide +kernel
  cases hd : (rounding.analyze {} ⟨0, "C", {}, [], [rounding]⟩).outcome with
  | error e =>
    rw [hd] at hfacts
    cases hfacts
  | ok d =>
    rw [hd] at hfacts
    have hfacts : d.constraints.map Constraint.fact = _ := Option.some.inj hfacts
    have hno : ∀ c ∈ d.constraints, ∀ t, c.fact ≠ .eq three t := by
      intro c hc t ht
      have hmem : c.fact ∈ d.constraints.map Constraint.fact := List.mem_map_of_mem hc
      rw [hfacts, ht] at hmem
      simp only [List.mem_cons, List.not_mem_nil, or_false] at hmem
      rcases hmem with hrange | hassigned | hvalue
      · cases hrange
      · injection hassigned with _ hleft
        exact absurd hleft (by decide)
      · injection hvalue with _ hleft
        exact absurd hleft (by decide)
    obtain ⟨c, hc, hfact⟩ : ∃ c ∈ d.constraints, c.fact = .eq (x.term 1) three := by
      refine List.mem_map.1 ?_
      rw [hfacts]
      simp
    have hsymbol : expressionSymbol 3 .int ∈ c.fact.symbols := by
      rw [hfact]
      decide
    obtain ⟨o', ho'⟩ : ∃ o', Yields half.encode { phase := .encoding } () o' := ⟨_, rfl⟩
    have hnamed := (unknowns_explained hd).2 _ _ _ o' (by decide) rfl rfl ho'
    refine ⟨d, rfl, hdiagnostics, ⟨c, hc, hsymbol⟩, hno, ?_, o', ho', hnamed⟩
    rcases (unknowns_explained hd).1 c hc 3 .int (.inr hsymbol) with
      ⟨c', hc', t, ht⟩ | ⟨e, -, -, w, hw, -⟩ | ⟨node, n, hn, hid, hden, -⟩
    · exact absurd ht (hno c' hc' t)
    · rw [hdiagnostics] at hw
      cases hw
    · exact ⟨node, n, hn, hid, hden⟩

end Draft

end PathFormula
