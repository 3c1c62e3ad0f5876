import PathFormula.Proofs.DivisionGuards
import PathFormula.Proofs.NaturalRuns

/-!
# Unsigned quotients

A division at an unsigned type is encoded as the quotient of its operands as they are
(`exists_divides`), which is truncated exactly where the dividend is not negative or divided evenly.
Nothing keeps a difference of unsigned numbers from being negative, so this is not always the case
(`halving_sees_negative`); it is where nothing that is visited up to the division brings a number
below zero into an unsigned type (`unsigned_operands_nonneg`).
-/
namespace PathFormula

open Source

theorem Source.Ty.eq_integer {t : Ty} {ty : IntegerType} (h : t.integer? = some ty) :
    t = .integer ty := by
  cases t <;> cases h
  rfl

theorem Source.IntegerType.isNatural {ty : IntegerType} (h : ty.signed = false) :
    (Ty.integer ty).isNatural = true := by
  rw [Ty.isNatural, h]
  rfl

namespace Source.Expr

/-- The type at which a division is made. -/
def quotientTy? : Expr → Option IntegerType
  | .binary _ (.arithmetic .div) _ _ common => common.integer?
  | .assignment _ (.arithmetic .div) target _ => target.ty.integer?
  | _ => none

end Source.Expr

namespace Draft

section

variable (D b : Draft)

/-- The dividend and the divisor of a division. The dividend of an assignment is the value that its
variable has in the draft from which the division is performed. -/
inductive Divides : Expr → Term → Term → Prop where
  | binary {node : Node} {left right : Expr} {common : Ty} {l r : Term}
      (hl : D.expression? left.id = some l) (hr : D.expression? right.id = some r) :
      Divides (.binary node (.arithmetic .div) left right common) l r
  | assignment {node n : Node} {name : String} {id : Nat} {isTarget : Bool} {value : Expr}
      {v : Registered} {r : Term} (hv : b.registered? id = some v)
      (hr : D.expression? value.id = some r) :
      Divides (.assignment node (.arithmetic .div) (.identifier n name (some id) isTarget) value)
        v.current r

end

variable {Γ : Nat → Option Domain} {D b b' : Draft} {m : Model} {x : Expr} {ty : IntegerType}
  {l r : Term} {known : Nat → Bool}

theorem Divides.finished (h : Divides D b x l r) : Divides D.finished b x l r := by
  cases h with
  | binary hl hr => exact .binary hl hr
  | assignment hv hr => exact .assignment hv hr

section Encoding

variable {node : Node} {left right target value : Expr} {common : Ty}

theorem exists_divides_binary (hl : Later b' D) (hc : common.integer? = some ty)
    (hs : ty.signed = false)
    (h : Yields (Expr.binary node (.arithmetic .div) left right common).operate b () b') :
    ∃ s l r, Divides D b (.binary node (.arithmetic .div) left right common) l r ∧
      ⟨b.pathCondition, .eq ((Expr.binary node (.arithmetic .div) left right common).term s)
        (.div l r), node.location⟩ ∈ D.constraints := by
  obtain ⟨ty', l, d₁, r, d₂, t, d₃, hc', hl₁, hr₁, ha, hdef⟩ := yields_binaryArithmetic.1 h
  obtain rfl := Option.some.inj (hc.symm.trans hc')
  obtain ⟨sort, rfl, -⟩ := yields_valueOf.1 hr₁
  have harith : Emits (fun _ => False) _ d₂ d₃ := emits_arithmetic ha
  have hr₂ := continues_valueOf hr₁
  have hpath : Continues b d₃ := (continues_valueOf hl₁).trans (hr₂.trans harith.toContinues)
  have hl₂ : Later d₂ D := harith.later.trans ((later_define hdef).trans hl)
  obtain ⟨rfl, -⟩ := yields_arithmetic.1 ha
  obtain ⟨s, hstated⟩ := constraints_of_yields_define hdef
  have hmem := hl.constraints.subset (hstated ▸ List.mem_append_right _ (.head _))
  refine ⟨s, l, _, .binary ((hr₂.later.trans hl₂).expression? (expression?_valueOf hl₁))
    (hl₂.expression? (expression?_valueOf hr₁)), ?_⟩
  rw [hpath.pathCondition, Arithmetic.term, quotient, hs] at hmem
  exact hmem

theorem exists_divides_assignment (hl : Later b' D) (hc : target.ty.integer? = some ty)
    (hs : ty.signed = false) (hr : ∀ id, target.place? = some id → b.isRegistered id = true)
    (h : Yields (Expr.assignment node (.arithmetic .div) target value).operate b () b') :
    ∃ s l r, Divides D b (.assignment node (.arithmetic .div) target value) l r ∧
      ⟨b.pathCondition, .eq ((Expr.assignment node (.arithmetic .div) target value).term s)
        (.div l r), node.location⟩ ∈ D.constraints := by
  obtain ⟨n, name, id, isTarget, rfl⟩ := exists_of_yields_assignment h
  obtain ⟨⟨err, herr⟩, -⟩ | ⟨-, t, d₁, q, d₂, hval, hq, h⟩ := yields_assignment.1 h
  · have hinteger : n.ty = .integer ty := Ty.eq_integer hc
    rw [hinteger] at herr
    cases herr
  · obtain ⟨sort, rfl, -⟩ := yields_valueOf.1 hval
    have hvalue : Emits (fun _ => False) [] b d₁ := emits_valueOf hval
    have hassigned : Emits (fun _ => False) _ d₁ d₂ := emits_assignedValue hq
    obtain ⟨v, hv⟩ := Option.isSome_iff_exists.1 (hr id rfl)
    have hsame : d₁.registered? id = some v := (hvalue.unwritten id (fun h => h)).trans hv
    obtain ⟨hplain, -⟩ | ⟨aop, ty', haop, hc', ⟨hnone, -⟩ | ⟨w, t, hw, rfl, ha⟩⟩ :=
      yields_assignedValue.1 hq
    · cases hplain
    · rw [hsame] at hnone
      cases hnone
    · cases haop
      obtain rfl := Option.some.inj (hc.symm.trans hc')
      obtain rfl := Option.some.inj (hsame.symm.trans hw)
      obtain ⟨hnone, -⟩ | ⟨t', d₃, ht, hwrite, hdef⟩ := h
      · cases hnone
      · obtain rfl := Option.some.inj ht
        obtain ⟨rfl, -⟩ := yields_arithmetic.1 ha
        have hl₁ : Later d₁ D :=
          hassigned.later.trans ((later_assign hwrite).trans ((later_define hdef).trans hl))
        have hwritten : Emits (fun _ => True) [] d₂ d₃ := emits_assign trivial hwrite
        have hpath : Continues b d₃ :=
          (hvalue.trans hassigned).toContinues.trans hwritten.toContinues
        obtain ⟨s, hstated⟩ := constraints_of_yields_define hdef
        have hmem := hl.constraints.subset (hstated ▸ List.mem_append_right _ (.head _))
        refine ⟨s, v.current, _, .assignment hv (hl₁.expression? (expression?_valueOf hval)), ?_⟩
        rw [hpath.pathCondition, Arithmetic.term, quotient, hs] at hmem
        exact hmem

/-- A division at an unsigned type is encoded as the quotient of its operands. -/
theorem exists_divides (h : Yields x.operate b () b') (hl : Later b' D)
    (hty : x.quotientTy? = some ty) (hs : ty.signed = false)
    (hd : x.divides b.isRegistered = true) :
    ∃ s l r, Divides D b x l r ∧
      ⟨b.pathCondition, .eq (x.term s) (.div l r), x.location⟩ ∈ D.constraints := by
  unfold Expr.quotientTy? at hty
  split at hty
  · exact exists_divides_binary hl hty hs h
  · rw [Expr.divides, Bool.and_eq_true] at hd
    refine exists_divides_assignment hl hty hs (fun id hid => ?_) h
    have hwritten := hd.2
    rw [Expr.written?, hid] at hwritten
    exact hwritten
  · cases hty

end Encoding

/-- The operands of a division whose parts and variables are not negative. -/
theorem Divides.nonneg (h : Divides D b x l r) (hR : Reading Γ D m) (hb : Later b D)
    (hty : x.quotientTy? = some ty) (hs : ty.signed = false) (hx : x.SignsAgree Γ)
    (hp : ∀ a ∈ x.visitedParts, a.SignsAgree Γ) (hn : Store.Natural Γ (b.store m))
    (hv : ∀ a ∈ x.visitedParts, a.ty.isNatural = true → 0 ≤ D.number m a) :
    0 ≤ (l.value m).number ∧ 0 ≤ (r.value m).number := by
  cases h with
  | @binary node left right common _ _ hl hr =>
    obtain rfl := Ty.eq_integer hty
    have hparts := hx.2 (IntegerType.isNatural hs)
    rw [← number_of_expression? (.refl D) hl, ← number_of_expression? (.refl D) hr]
    exact ⟨hv left (.head _) hparts.1, hv right (.tail _ (.head _)) hparts.2⟩
  | @assignment node n name id isTarget value v _ hreg hr =>
    have hdomain := hR.domain hb hreg
    have hsame : n.ty = v.domain.ty :=
      hp (.identifier n name (some id) isTarget) (.tail _ (.head _)) _ hdomain
    have htarget : n.ty.isNatural = true := by
      have hinteger : n.ty = .integer ty := Ty.eq_integer hty
      rw [hinteger]
      exact IntegerType.isNatural hs
    rw [← number_of_expression? (.refl D) hr]
    exact ⟨hn id v.domain _ hdomain (hsame ▸ htarget) (store_eq_some hreg m),
      hv value (.head _) (hx.2 htarget)⟩

/-! ### Functions -/

variable {contract : Contract} {f : Function} {settings : Settings} {o : Draft}

/-- Every draft of an encoding is read in the models of the formula. -/
theorem Opening.reading (h : Opening contract f settings o) (hl : Later o D) (hm : D.HoldsIn m) :
    Reading (domain? contract f) D m where
  distinct := hl.nodup h.distinct
  declares id := by
    obtain ⟨k, hk⟩ := hl.registered id
    rw [domain?, ← h.role? id, hk, Option.map_map, Option.map_map]
    rfl
  holds := hm

theorem Opening.natural (h : Opening contract f settings o) (hm : o.HoldsIn m) :
    Store.Natural (domain? contract f) (o.store m) := by
  intro id domain x hd hnat hx
  have hranged := ranged_of_starts (h.holdsIn_iff_starts.1 hm) id
  rw [hd] at hranged
  obtain ⟨y, hy, hadmits⟩ := hranged
  obtain rfl := Option.some.inj (hx.symm.trans hy)
  exact Visit.natural_of_admits hnat hadmits

end Draft

namespace Visit

open Draft

variable {contract : Contract} {f : Function} {settings : Settings} {d : Draft}

theorem Tame.of_finished {Γ : Nat → Option Domain} {m : Model} {returns : List Declaration}
    {v : Visit} {last : Draft} (h : Tame Γ d.finished m returns v last) :
    Tame Γ d m returns v last where
  nodes := h.nodes
  slots := h.slots
  signs := h.signs

/-- **Unsigned divisions.** Every division at an unsigned type that is visited is encoded, under the
path condition of its visit, as the quotient of its operands. In a model where the path is taken,
the quotient is truncated exactly if the dividend is not negative or the divisor divides it. If the
types agree and nothing that is visited up to the expression of the division brings a number below
zero into an unsigned type, neither operand is negative. -/
theorem unsigned_operands_nonneg (h : (f.analyze settings contract).outcome = .ok d) :
    ∃ o, Yields (do f.warnings; prepare contract f) { settings } () o ∧
      (∀ v, Reaches f.returns ⟨.sequence f.body, o⟩ v →
        (∃ exits c, v.Runs f.returns exits c) ∧
          ∀ role q, (role, q) ∈ v.piece.parts → ∃ c, Part f.returns role v ⟨q, c⟩) ∧
      ∀ e c x ty, Reaches f.returns ⟨.sequence f.body, o⟩ ⟨.expression e, c⟩ → e.Visits x →
        x.quotientTy? = some ty → ty.signed = false → x.divides (registers contract f) = true →
          ∃ b s l r, Performs e c x b ∧ Divides d b x l r ∧
            ⟨c.pathCondition, .eq (x.term s) (.div l r), x.location⟩ ∈ d.constraints ∧
              ∀ m, d.formula.Holds m → c.Open m →
                (Tame (domain? contract f) d m f.returns ⟨.sequence f.body, o⟩ c →
                  0 ≤ (l.value m).number ∧ 0 ≤ (r.value m).number) ∧
                ((r.value m).number ≠ 0 →
                  ((Term.div l r).value m = .int ((l.value m).number.tdiv (r.value m).number) ↔
                    0 ≤ (l.value m).number ∨ (r.value m).number ∣ (l.value m).number)) := by
  obtain ⟨d₀, o, exits, d₁, hw, hp, hb, rfl⟩ := outcome_eq_ok.1 h
  have hrun : Visit.Runs f.returns ⟨.sequence f.body, o⟩ exits d₁ := hb
  obtain ⟨ds, rfl⟩ := yields_warnings hw
  have hopening := Opening.of_yields hp
  refine ⟨o, yields_seq.2 ⟨_, hw, hp⟩, fun v hv => ?_, ?_⟩
  · obtain ⟨inner, c, hwithin⟩ := hv.runs hrun
    exact ⟨⟨inner, c, hwithin.runs⟩, fun role q hq => exists_part hwithin.runs hq⟩
  · intro e c x ty hreach hx hty hsigned hdivides
    obtain ⟨inner, c', hwithin⟩ := hreach.runs hrun
    obtain ⟨-, he⟩ := hwithin.runs
    have hafter : Later c d₁ := (continues_encode he).later.trans hwithin.after
    -- the operation is performed inside the expression, under the path of the visit
    obtain ⟨b, b', hperforms, hop, hlb⟩ := exists_performs hx he
    have hlast : Later b' d₁ := hlb.trans hwithin.after
    have hregistered : b.isRegistered = registers contract f :=
      (hreach.later.trans hperforms.continues.later).isRegistered_eq.trans hopening.isRegistered
    obtain ⟨s, l, r, hdiv, hmem⟩ := exists_divides hop hlast hty hsigned (hregistered ▸ hdivides)
    rw [hperforms.continues.pathCondition] at hmem
    refine ⟨b, s, l, r, hperforms, hdiv.finished, hmem,
      fun m hm ho => ⟨fun ht => ?_, fun hne => ?_⟩⟩
    · have hR := hopening.reading (hreach.later.trans hafter) (holds_formula.1 hm)
      have hbefore : Later b d₁ := (continues_operate hop).later.trans hlast
      have hn := natural_reaches hreach hR hrun hafter (.refl c) ho ht.of_finished
        (hopening.natural ((hreach.later.trans hafter).holdsIn hR.holds))
      have hharmless : ∀ a, e.Visits a → a.Harmless (domain? contract f) d₁ m :=
        fun a ha => (ht.of_finished.reaches hreach).harmless (.refl c) ho ha
      obtain ⟨hnb, hparts⟩ := natural_performs hperforms hR hbefore ho hharmless hn
      exact hdiv.nonneg hR hbefore hty hsigned (hharmless x hx).signs
        (fun a ha => (hharmless a (hx.tail ha)).signs) hnb hparts
    · rw [Term.value_div, Model.quotient_of_ne_zero _ _ hne, Value.int.injEq]
      exact Term.ediv_eq_tdiv_iff hne

/-- The difference `x - y` of two unsigned numbers. -/
def difference : Expr :=
  .binary ⟨5, {}, .integer ⟨8, false⟩⟩ (.arithmetic .sub)
    (.identifier ⟨3, {}, .integer ⟨8, false⟩⟩ "x" (some 1) false)
    (.identifier ⟨4, {}, .integer ⟨8, false⟩⟩ "y" (some 2) false) (.integer ⟨8, false⟩)

def two : Expr := .literal ⟨6, {}, .rational 2⟩ (.number 2)

def halved : Expr :=
  .binary ⟨7, {}, .integer ⟨8, false⟩⟩ (.arithmetic .div) difference two (.integer ⟨8, false⟩)

/-- The assignment `x = (x - y) / 2`. -/
def halfway : Expr :=
  .assignment ⟨9, {}, .integer ⟨8, false⟩⟩ .plain
    (.identifier ⟨8, {}, .integer ⟨8, false⟩⟩ "x" (some 1) true) halved

def halving : Function where
  id := 3
  name := "f"
  location := {}
  parameters := [{ id := 1, name := "x", ty := .integer ⟨8, false⟩, location := {} },
    { id := 2, name := "y", ty := .integer ⟨8, false⟩, location := {} }]
  returns := []
  body := [.expression {} halfway]

/-- What the formula of `halving` says. -/
def halvingFacts : List Term :=
  let x : Variable := { id := 1, name := "x", domain := .integer ⟨8, false⟩ }
  let y : Variable := { id := 2, name := "y", domain := .integer ⟨8, false⟩ }
  let value (id : Nat) : Term := .symbol (expressionSymbol id .int)
  [x.rangeFact, y.rangeFact, .eq (value 3) x.current, .eq (value 4) y.current,
    .eq (value 5) (.sub (value 3) (value 4)), .eq (value 6) (.ofInt 2),
    .eq (value 7) (.div (value 5) (value 6)), .eq (x.term 1) (value 7),
    .eq (value 9) (value 7)]

/-- The run of `halving` from two numbers. -/
def halvingModel (x y : Int) : Model where
  bool _ := false
  int name := (List.lookup name [("x-1_0", x), ("y-2_0", y), ("expr_3", x), ("expr_4", y),
    ("expr_5", x - y), ("expr_6", 2), ("expr_7", (x - y) / 2), ("x-1_1", (x - y) / 2),
    ("expr_9", (x - y) / 2)]).getD 0
  byZero _ := 0

theorem halving_holds {x y : Int} (hx : 0 ≤ x ∧ x ≤ 255) (hy : 0 ≤ y ∧ y ≤ 255)
    (h : (halving.analyze {} ⟨0, "C", {}, [], [halving]⟩).outcome = .ok d) :
    d.HoldsIn (halvingModel x y) := by
  have hfacts : (halving.analyze {} ⟨0, "C", {}, [], [halving]⟩).outcome.toOption.map
      (fun d => d.constraints.map Constraint.fact) = some halvingFacts := by
    decide +kernel
  rw [h] at hfacts
  have hfacts : d.constraints.map Constraint.fact = _ := Option.some.inj hfacts
  intro c hc _
  have hmem : c.fact ∈ d.constraints.map Constraint.fact := List.mem_map_of_mem hc
  rw [hfacts] at hmem
  simp only [halvingFacts, List.mem_cons, List.not_mem_nil, or_false] at hmem
  have hrange : ∀ n : Int, 0 ≤ n ∧ n ≤ 255 → (Domain.integer ⟨8, false⟩).admits (.int n) := by
    intro n hn
    rw [Domain.admits, Bool.and_eq_true, decide_eq_true_eq, decide_eq_true_eq]
    exact hn
  rcases hmem with hfact | hfact | hfact | hfact | hfact | hfact | hfact | hfact | hfact <;>
    rw [hfact]
  · exact holds_rangeFact.2 (hrange x hx)
  · exact holds_rangeFact.2 (hrange y hy)
  · exact Term.holds_eq.2 rfl
  · exact Term.holds_eq.2 rfl
  · exact Term.holds_eq.2 rfl
  · exact Term.holds_eq.2 (Term.value_ofInt _ 2).symm
  · exact Term.holds_eq.2 rfl
  · exact Term.holds_eq.2 rfl
  · exact Term.holds_eq.2 rfl

theorem contains_halving {q : Piece} (h : (Piece.sequence halving.body).Contains q) :
    q = .sequence halving.body ∨ q = .statement (.expression {} halfway) ∨ q = .sequence [] ∨
      q = .expression halfway := by
  induction h with
  | refl => exact .inl rfl
  | tail _ hp ih =>
    obtain ⟨role, hp⟩ := hp
    obtain rfl | rfl | rfl | rfl := ih <;>
      simp only [Piece.parts, Stmt.parts, halving, List.mem_cons, List.not_mem_nil, or_false,
        Prod.mk.injEq] at hp
    · exact hp.elim (fun h => .inr (.inl h.2)) fun h => .inr (.inr (.inl h.2))
    · exact .inr (.inr (.inr hp.2))

theorem visits_halfway {e : Expr} (h : halfway.Visits e) :
    e = halfway ∨ e = halved ∨ e = difference ∨ e = two ∨
      e = .identifier ⟨3, {}, .integer ⟨8, false⟩⟩ "x" (some 1) false ∨
      e = .identifier ⟨4, {}, .integer ⟨8, false⟩⟩ "y" (some 2) false ∨
      e = .identifier ⟨8, {}, .integer ⟨8, false⟩⟩ "x" (some 1) true := by
  induction h with
  | refl => exact .inl rfl
  | tail _ hp ih =>
    obtain rfl | rfl | rfl | rfl | rfl | rfl | rfl := ih <;>
      simp only [halfway, halved, difference, two, Expr.visitedParts, List.mem_cons,
        List.not_mem_nil, or_false] at hp ⊢ <;>
      tauto

/-- The types of `halving` agree, and nothing in it is negative where the difference is not. -/
theorem halving_tame {x y : Int} (o last : Draft) (hxy : y ≤ x)
    (h : (halving.analyze {} ⟨0, "C", {}, [], [halving]⟩).outcome = .ok d) :
    Tame (domain? ⟨0, "C", {}, [], [halving]⟩ halving) d (halvingModel x y) []
      ⟨.sequence halving.body, o⟩ last := by
  have hsymbols : (halving.analyze {} ⟨0, "C", {}, [], [halving]⟩).outcome.toOption.map
      (fun d => (d.expression? 5, d.expression? 6, d.expression? 8)) =
        some (some (.symbol (expressionSymbol 5 .int)), some (.symbol (expressionSymbol 6 .int)),
          none) := by
    decide +kernel
  rw [h] at hsymbols
  obtain ⟨hdifference, hrest⟩ := Prod.mk.inj (Option.some.inj hsymbols)
  obtain ⟨htwo, htarget⟩ := Prod.mk.inj hrest
  have hnumber : d.number (halvingModel x y) two = 2 :=
    number_of_expression? (e := two) (.refl d) htwo
  have hnodes : ∀ e, halfway.Visits e →
      e.Harmless (domain? ⟨0, "C", {}, [], [halving]⟩ halving) d (halvingModel x y) := by
    intro e he
    obtain rfl | rfl | rfl | rfl | rfl | rfl | rfl := visits_halfway he
    · exact ⟨⟨.rfl, fun _ => rfl⟩, fun hu => hu.2.1 ⟨⟨1, rfl, rfl⟩, nofun⟩⟩
    · refine ⟨⟨fun _ => rfl, fun _ => ⟨rfl, rfl⟩⟩, fun hu => hu.2.1 ?_⟩
      exact hnumber.trans_ne (by decide)
    · refine ⟨⟨fun _ => rfl, fun _ => ⟨rfl, rfl⟩⟩, fun hu => ?_⟩
      have hvalue : d.number (halvingModel x y) difference = x - y :=
        number_of_expression? (e := difference) (.refl d) hdifference
      have hneg : d.number (halvingModel x y) difference < 0 := hu.2.2
      omega
    · refine ⟨trivial, fun hu => ?_⟩
      have hneg : d.number (halvingModel x y) two < 0 := hu.2.2
      omega
    · exact ⟨by rintro domain ⟨⟩; rfl, fun hu => hu.2.1 rfl⟩
    · exact ⟨by rintro domain ⟨⟩; rfl, fun hu => hu.2.1 rfl⟩
    · refine ⟨by rintro domain ⟨⟩; rfl, fun hu => ?_⟩
      have hneg : ((d.expression? 8).map fun t => (t.value (halvingModel x y)).number).getD 0 < 0 :=
        hu.2.2
      rw [htarget] at hneg
      exact absurd hneg (lt_irrefl 0)
  refine ⟨⟨fun e b hr _ _ x hx => ?_, fun location written condition step body b exits b' hr => ?_⟩,
    fun q hq => ?_⟩
  · obtain he | he | he | he := contains_halving hr.contains <;> cases he
    exact (hnodes x hx).value
  · obtain he | he | he | he := contains_halving hr.contains <;> cases he
  · obtain rfl | rfl | rfl | rfl := contains_halving hq
    · trivial
    · trivial
    · trivial
    · exact fun x hx => (hnodes x hx).signs

theorem halving_sees_negative :
    ∃ d o b l r, (halving.analyze {} ⟨0, "C", {}, [], [halving]⟩).outcome = .ok d ∧
      Reaches [] ⟨.sequence halving.body, o⟩ ⟨.expression halfway, o⟩ ∧
        halfway.Visits halved ∧ Divides d b halved l r ∧
          (∃ m, d.formula.Holds m ∧ o.Open m ∧ (l.value m).number = -1 ∧ (r.value m).number = 2 ∧
            (Term.div l r).value m ≠ .int (Int.tdiv (-1) 2)) ∧
          ∃ m, d.formula.Holds m ∧ o.Open m ∧
            Tame (domain? ⟨0, "C", {}, [], [halving]⟩ halving) d m []
              ⟨.sequence halving.body, o⟩ o ∧
            0 ≤ (l.value m).number ∧ 0 ≤ (r.value m).number := by
  have hsymbols : (halving.analyze {} ⟨0, "C", {}, [], [halving]⟩).outcome.toOption.map
      (fun d => (d.expression? 5, d.expression? 6)) =
        some (some (.symbol (expressionSymbol 5 .int)),
          some (.symbol (expressionSymbol 6 .int))) := by
    decide +kernel
  cases hd : (halving.analyze {} ⟨0, "C", {}, [], [halving]⟩).outcome with
  | error e =>
    rw [hd] at hsymbols
    cases hsymbols
  | ok d =>
    rw [hd] at hsymbols
    obtain ⟨hdividend, hdivisor⟩ := Prod.mk.inj (Option.some.inj hsymbols)
    obtain ⟨o, hprepare, -, hdivisions⟩ := unsigned_operands_nonneg hd
    have hreach : Reaches [] ⟨.sequence halving.body, o⟩ ⟨.expression halfway, o⟩ :=
      (Part.reaches .first).then .expression
    have heval : halfway.Visits halved := .single (.head _)
    obtain ⟨b, s, l, r, -, hdiv, -, hmodels⟩ :=
      hdivisions halfway o halved ⟨8, false⟩ hreach heval rfl rfl (by decide)
    obtain ⟨_, hw, hp⟩ := yields_seq.1 hprepare
    obtain ⟨ds, rfl⟩ := yields_warnings hw
    have ho : ∀ m, o.Open m := fun m => by
      rw [Open, pathCondition, (Opening.of_yields hp).path]
      exact Term.holds_of_isTrue rfl
    have hneg : d.formula.Holds (halvingModel 0 1) :=
      holds_formula.2 (halving_holds (by decide) (by decide) hd)
    have hpos : d.formula.Holds (halvingModel 3 1) :=
      holds_formula.2 (halving_holds (by decide) (by decide) hd)
    have htame := halving_tame o o (show (1 : Int) ≤ 3 by decide) hd
    have hnonneg := (hmodels _ hpos (ho _)).1 htame
    have hexact := (hmodels _ hneg (ho _)).2
    obtain ⟨rfl, rfl⟩ : l = .symbol (expressionSymbol 5 .int) ∧
        r = .symbol (expressionSymbol 6 .int) := by
      cases hdiv with
      | binary hl hr =>
        exact ⟨Option.some.inj (hl.symm.trans hdividend), Option.some.inj (hr.symm.trans hdivisor)⟩
    refine ⟨d, o, b, _, _, rfl, hreach, heval, hdiv, ⟨_, hneg, ho _, rfl, rfl, fun heq => ?_⟩,
      _, hpos, ho _, htame, hnonneg⟩
    obtain hdividend | hdivides := (hexact (by decide)).1 heq
    · exact absurd hdividend (by decide)
    · exact absurd hdivides (by decide)

end Visit

end PathFormula
