import PathFormula.Proofs.Bodies
import PathFormula.Proofs.Evaluation
import PathFormula.Proofs.Preservation

/-!
# Encoded statements say what their runs do

A model of the encoding of a statement without loops gives the variables the values that they have
before and after a run of it, and the conditions of its returns hold where the run returns
(`Plain.exact`). The path conditions and joins are read off the lemmas on joins, and a run decides
which side of each it is.
-/
namespace PathFormula

open Source

/-- How a statement ends that returned under some conditions. -/
def Draft.flow (exits : List Term) (m : Model) : Flow :=
  if exits.any fun x => (x.value m).truth then .returned else .next

namespace Draft

variable {Γ : Nat → Option Domain} {scope : List Expr} {L : Licence} {d d₁ d' : Draft}
  {exits later : List Term} {m m' : Model} {location : Location}

theorem flow_returned : flow exits m = .returned ↔ ∃ x ∈ exits, x.Holds m := by
  simp [flow, Term.Holds]

theorem flow_next : flow exits m = .next ↔ ∀ x ∈ exits, ¬ x.Holds m := by
  simp [flow, Term.Holds]

@[simp] theorem flow_nil : flow [] m = .next := rfl

theorem flow_append_of_next (h : flow exits m = .next) : flow
    (exits ++ later) m = flow later m := by
  have hn := flow_next.1 h
  simp only [Term.Holds, Bool.not_eq_true] at hn
  have hf : (exits.any fun x => (x.value m).truth) = false := by simpa using hn
  simp [flow, hf]

theorem flow_append_of_later (h : flow later m = .next) : flow
    (exits ++ later) m = flow exits m := by
  have hn := flow_next.1 h
  simp only [Term.Holds, Bool.not_eq_true] at hn
  have hf : (later.any fun x => (x.value m).truth) = false := by simpa using hn
  simp [flow, hf]

theorem flow_append_of_returned (h : flow exits m = .returned) :
    flow (exits ++ later) m = .returned := by
  obtain ⟨x, hx, hm⟩ := flow_returned.1 h
  exact flow_returned.2 ⟨x, List.mem_append_left _ hx, hm⟩

/-- Where the path is not taken nothing returns. -/
theorem GrowsTo.flow_of_not_open (h : GrowsTo L d exits d') (ho : ¬ d.Open m) :
    flow exits m = .next :=
  flow_next.2 fun x hx hm => ho (h.opens x hx m hm)

theorem GrowsTo.flow_eq (h : GrowsTo L d exits d') (ha : m.AgreeOn d'.Owns m') :
    flow exits m' = flow exits m := by
  have hiff : ∀ x ∈ exits, (x.Holds m' ↔ x.Holds m) :=
    fun x hx => Term.holds_iff_of_agreeOn ha (h.covers x hx)
  cases hf : flow exits m with
  | next => exact flow_next.2 fun x hx => mt (hiff x hx).1 (flow_next.1 hf x hx)
  | returned =>
    obtain ⟨x, hx, hm⟩ := flow_returned.1 hf
    exact flow_returned.2 ⟨x, hx, (hiff x hx).2 hm⟩

theorem holds_foldl_or (rest : List Term) (first : Term) :
    (rest.foldl Term.or first).Holds m ↔ first.Holds m ∨ ∃ t ∈ rest, t.Holds m := by
  induction rest generalizing first with
  | nil => simp
  | cons t rest ih => simp [ih, Term.holds_or, or_assoc]

/-- The condition under which a statement returned. -/
theorem holds_disjunction {taken : Term} (h : Term.disjunction? exits = some taken) :
    taken.Holds m ↔ flow exits m = .returned := by
  cases exits with
  | nil => simp [Term.disjunction?, Term.joined] at h
  | cons first rest =>
    simp only [Term.disjunction?, Term.joined, Option.some.injEq] at h
    rw [← h, holds_foldl_or, flow_returned]
    simp

theorem eq_nil_of_disjunction (h : Term.disjunction? exits = none) : exits = [] := by
  cases exits with
  | nil => rfl
  | cons first rest => simp [Term.disjunction?, Term.joined] at h

/-! ### Writes -/

theorem give_unregistered {rules : Rules} {id : Nat} {x : Value} (hv : d.registered? id = none) :
    rules.give (d.store m) id x = some (d.store m) := by
  simp [Rules.give, store_eq_none hv]

theorem give_assign {id : Nat} {t : Term} {v : Registered} (hv : d.registered? id = some v)
    (h : Yields (assign id t location) d () d') (hm : d'.HoldsIn m) (ho : d.Open m) :
    (Rules.unbounded m.byZero).give (d.store m) id (t.value m) = some (d'.store m) := by
  rw [store_assign h hv hm ho]
  simp [Rules.give, Rules.write, Rules.unbounded, store_eq_some hv]

/-- A variable takes the value of an expression, unless it was left out. -/
theorem give_assignFrom {e : Expr} {sort : TermSort} {id : Nat} (h : Evaluates e sort d d₁)
    (hy : (d₁.registered? id = none ∧ d' = d₁) ∨
      (d₁.registered? id).isSome ∧ Yields (assignFrom id e location) d₁ () d')
    (hm : d'.HoldsIn m) (ho : d₁.Open m) :
    d₁.HoldsIn m ∧ (Rules.unbounded m.byZero).give (d₁.store m) id ((e.term sort).value m) =
      some (d'.store m) := by
  obtain ⟨hv, rfl⟩ | ⟨hv, ha⟩ := hy
  · exact ⟨hm, give_unregistered hv⟩
  · obtain ⟨v, hv⟩ := Option.isSome_iff_exists.1 hv
    obtain ⟨t, d₂, ht, hset⟩ := yields_bind.1 ha
    obtain ⟨rfl, rfl⟩ := (yields_valueOf_known h.known).1 ht
    exact ⟨(later_assign hset).holdsIn hm, give_assign hv hset hm ho⟩

end Draft

/-- The declarations have the types at which variables with their numbers are registered. -/
def Source.Declares (Γ : Nat → Option Domain) (declarations : List Declaration) : Prop :=
  ∀ x ∈ declarations, ∀ domain ∈ Γ x.id, x.ty.domain = .ok domain

namespace Source.Declares

variable {Γ : Nat → Option Domain} {xs ys : List Declaration}

theorem left (h : Declares Γ (xs ++ ys)) : Declares Γ xs :=
  fun x hx => h x (List.mem_append_left _ hx)

theorem right (h : Declares Γ (xs ++ ys)) : Declares Γ ys :=
  fun x hx => h x (List.mem_append_right _ hx)

end Source.Declares

namespace Source.Stmt

open Draft

variable {Γ : Nat → Option Domain} {scope : List Expr} {returns : List Declaration}
  {d d₁ d₂ d' e : Draft} {exits : List Term} {m : Model} {location : Location}

/-- In a model of what it emits, on a path that is taken, a statement runs from the variables before
it to those after it. -/
def Exact (Γ : Nat → Option Domain) (scope : List Expr) (returns : List Declaration) (s : Stmt) :
    Prop :=
  ∀ ⦃d d' : Draft⦄ ⦃exits : List Term⦄, Stage Γ scope s.nodes d → d.Unguarded →
    Yields (s.encode returns) d exits d' → ∀ m, d'.HoldsIn m → d.Open m → ∀ fuel,
      s.exec (.unbounded m.byZero) returns fuel (d.store m) = some (flow exits m, d'.store m)

theorem zero_declared {declaration : Declaration} {v : Registered}
    (hd : Declares Γ [declaration]) (hv : Γ declaration.id = some v.domain) :
    declaration.zero = (Term.zero v.sort).value m := by
  rw [Declaration.zero, hd declaration (by simp) v.domain hv, Term.value_zero]
  rfl

theorem exact_declare {loops : Prop} {declarations : List Declaration} {initial : Option Expr}
    (hp : (declare location declarations initial).Plain loops Γ returns)
    (hd : Declares Γ declarations) : (declare location declarations initial).Exact Γ scope returns
    := by
  intro d d' exits hst hu hy m hm ho fuel
  obtain ⟨declaration, rfl, hi⟩ := hp
  obtain ⟨rfl, hd₁⟩ := yields_declare.1 hy
  refine exec_declare.2 ⟨rfl, ?_⟩
  cases initial with
  | none =>
    refine ⟨_, _, rfl, ?_⟩
    obtain ⟨hv, rfl⟩ | ⟨v, hv, ha⟩ := yields_declare_none.1 hd₁
    · exact give_unregistered hv
    · rw [zero_declared hd (hst.ready.domain hv)]
      exact give_assign hv ha hm ho
  | some e =>
    obtain ⟨sort, ht, -⟩ := hi e rfl
    obtain ⟨d₁, he, ha⟩ := yields_declare_some.1 hd₁
    have hev := ht.evaluates_of_yields hst hu he
    have ho₁ : d₁.Open m := (ht.grows hst he).open_iff.2 ho
    obtain ⟨hm₁, hg⟩ := give_assignFrom hev ha hm ho₁
    exact ⟨_, _, hev.eval m hm₁ ho, hg⟩

theorem exact_expression {loops : Prop} {e : Expr}
    (hp : (expression location e).Plain loops Γ returns) :
    (expression location e).Exact Γ scope returns := by
  intro d d' exits hst hu hy m hm ho fuel
  obtain ⟨rfl, he⟩ := yields_expression.1 hy
  rcases hp with ⟨sort, ht⟩ | ⟨-, condition, ha, ht⟩
  · have hev := ht.evaluates_of_yields hst hu he
    exact (exec_expression ht.not_asserted).2 ⟨rfl, _, hev.eval m hm ho⟩
  · obtain ⟨d₁, -, hev, hg, rfl⟩ := Expr.assertion_evaluated ha ht hst hu he
    obtain ⟨hm₁, hfact⟩ := holdsIn_emitted.1 hm
    exact (exec_assertion ha).2 ⟨rfl, hev.test_of_holds hm₁ ho (hfact (hg.open_iff.2 ho))⟩

theorem exact_ret {loops : Prop} {value : Option Expr}
    (hp : (ret location value).Plain loops Γ returns) :
    (ret location value).Exact Γ scope returns := by
  intro d d' exits hst hu hy m hm ho fuel
  have hret : d'.Open m → flow [d'.pathCondition] m = .returned :=
    fun h => flow_returned.2 ⟨_, List.mem_singleton_self _, h⟩
  cases value with
  | none =>
    obtain ⟨rfl, rfl⟩ := yields_ret_none.1 hy
    rw [hret ho]
    rfl
  | some e =>
    obtain ⟨slot, domain, rfl, -, ht⟩ := hp e rfl
    obtain ⟨d₁, h₁, h₂, rfl⟩ := yields_ret_some.1 hy
    have hev := ht.evaluates_of_yields hst hu h₁
    have ho₁ : d₁.Open m := (ht.grows hst h₁).open_iff.2 ho
    obtain ⟨hm₁, hg⟩ := give_assignFrom hev (yields_giveBack_one.1 h₂) hm ho₁
    have ho' : d'.Open m := by
      obtain ⟨-, rfl⟩ | ⟨-, ha⟩ := yields_giveBack_one.1 h₂
      · exact ho₁
      · obtain ⟨t, d₂, hv, hset⟩ := yields_bind.1 ha
        obtain ⟨rfl, rfl⟩ := (yields_valueOf_known hev.known).1 hv
        exact (open_assign hset).2 ho₁
    exact exec_ret_some.2 ⟨hret ho', _, _, hev.eval m hm₁ ho, .inl ⟨slot, rfl, hg⟩⟩

/-! ### Branches -/

/-- The encoded parts of a branch, with its condition evaluated. -/
theorem branch_evaluated {loops : Prop} {condition : Expr} {yes : Stmt} {no : Option Stmt}
    (hp : (branch location condition yes no).Plain loops Γ returns)
    (hst : Stage Γ scope (branch location condition yes no).nodes d) (hu : d.Unguarded)
    (hy : Yields ((branch location condition yes no).encode returns) d exits d') :
    ∃ d₁ yesExits e noExits d₂, Evaluates condition .bool d d₁ ∧
      Grows (bodyLicence condition.nodes d.settings) d d₁ ∧
      Stage Γ scope yes.nodes (d₁.pushed (condition.term .bool)) ∧
      Yields (yes.encode returns) (d₁.pushed (condition.term .bool)) yesExits e ∧
      GrowsTo (bodyLicence yes.nodes d.settings) (d₁.pushed (condition.term .bool)) yesExits e ∧
      GrowsTo (bodyLicence yes.nodes d.settings) d₁ yesExits e.popped ∧
      Stage Γ scope (nodesOfOption no) e.popped ∧
      Yields (encodeElse returns location condition d₁.versions e.popped.versions no) e.popped
        noExits d₂ ∧
      Yields (mergeVersions (condition.term .bool) d₁.versions e.popped.versions d₂.versions
        location) d₂ () d' ∧ exits = yesExits ++ noExits := by
  obtain ⟨d₁, _, yesExits, e, noExits, d₂, h₁, h₂, hk, hg, hstp, h₃, hgy, hste, h₄, h₅, rfl⟩ :=
    branch_parts (grows_encode yes) hst hp.consistent hy
  have hev := hp.1.evaluates_of_yields hst.left hu h₁
  obtain ⟨-, rfl⟩ := (yields_valueOf_known hev.known).1 h₂
  exact ⟨_, yesExits, e, noExits, d₂, hev, hg, hstp.left, h₃, hgy,
    hgy.gated (covers_expression hk) (Term.hasSort_expression _ _), hste, h₄, h₅, rfl⟩

theorem exact_else {loops : Prop} {condition : Expr} {no : Option Stmt} {d₀ : Draft}
    (hpn : PlainOption loops Γ returns no) (hno : ∀ s ∈ no, s.Exact Γ scope returns)
    (hl : Later d₀ d) (hk : d.known.lookup condition.id = some .bool)
    (hst : Stage Γ scope (nodesOfOption no) d) (hu : d.Unguarded)
    (hy : Yields (encodeElse returns location condition d₀.versions d.versions no) d exits d₁)
    (hj : Yields (mergeVersions (condition.term .bool) d₀.versions d.versions d₁.versions location)
      d₁ () d') (hm : d'.HoldsIn m) (ho : d.Open m) (fuel : Nat) :
    d.HoldsIn m ∧
      ((condition.term .bool).Holds m → flow exits m = .next ∧ d'.store m = d.store m) ∧
      (¬ (condition.term .bool).Holds m →
        execOption (.unbounded m.byZero) returns fuel no (d₀.store m) =
          some (flow exits m, d'.store m)) := by
  have hn : (d₀.registry.map (·.id)).Nodup := hl.ids ▸ hst.ready.ids
  cases no with
  | none =>
    obtain ⟨rfl, rfl⟩ := yields_pure.1 hy
    obtain ⟨hyes, hskip⟩ := store_merge_optional hn hl (.inl rfl) hj hm ho
    refine ⟨(later_assignAll (yields_mergeVersions.1 hj)).holdsIn hm,
      fun hg => ⟨rfl, hyes hg⟩, fun hg => ?_⟩
    rw [hskip hg]
    rfl
  | some no =>
    obtain ⟨e₁, e₂, hr, hgr, hst₁, he, hle, hgn, rfl⟩ :=
      encodeElse_parts (grows_encode no) (Plain.consistent hpn) hl hk hst hy
    have hcov : d.Covers (.not (condition.term .bool)) := covers_not.2 (covers_expression hk)
    have hgate := hgn.gated hcov (.not (Term.hasSort_expression _ _))
    have hm₂ : e₂.popped.HoldsIn m := (later_assignAll (yields_mergeVersions.1 hj)).holdsIn hm
    obtain ⟨hyes, helse⟩ := store_merge_both hn hl hr (hle.trans .withPath) hj hm
      (hgate.grows.open_iff.2 ho)
    refine ⟨hgate.grows.later.holdsIn hm₂, fun hg => ⟨hgn.flow_of_not_open ?_, hyes hg⟩,
      fun hg => ?_⟩
    · exact fun hopen => Term.holds_not.1 (open_pushed.1 hopen).2 hg
    · have hopen : (d.pushed (.not (condition.term .bool))).Open m :=
        open_pushed.2 ⟨ho, Term.holds_not.2 hg⟩
      have hback : e₁.store m = d₀.store m :=
        store_restore (hl.trans .pushed) hn hr (hle.holdsIn hm₂) hopen
      rw [helse hg, ← hback]
      exact hno no rfl hst₁ (hu.later (Later.pushed.trans hgr.later)) he m hm₂
        (hgr.open_iff.2 hopen) fuel

theorem exact_branch {loops : Prop} {condition : Expr} {yes : Stmt} {no : Option Stmt}
    (hp : (branch location condition yes no).Plain loops Γ returns)
    (hyes : yes.Exact Γ scope returns) (hno : ∀ s ∈ no, s.Exact Γ scope returns) :
    (branch location condition yes no).Exact Γ scope returns := by
  intro d d' exits hst hu hy m hm ho fuel
  obtain ⟨d₁, yesExits, e, noExits, d₂, hev, hg, hsty, h₁, hgy, hgate, hste, h₂, h₃, rfl⟩ :=
    branch_evaluated hp hst hu hy
  have hu₁ := hu.later hg.later
  have hle := hgate.grows.later
  have ho₁ : d₁.Open m := hg.open_iff.2 ho
  obtain ⟨hme, htaken, hother⟩ := exact_else hp.2.2 hno hle (hle.known _ _ hev.known) hste
    (hu₁.later hle) h₂ h₃ hm (hgate.grows.open_iff.2 ho₁) fuel
  have hm₁ : d₁.HoldsIn m := hle.holdsIn hme
  by_cases hc : (condition.term .bool).Holds m
  · obtain ⟨hflow, hstore⟩ := htaken hc
    refine exec_branch.2 (.inl ⟨_, hev.test_of_holds hm₁ ho hc, ?_⟩)
    rw [hstore, flow_append_of_later hflow]
    exact hyes hsty ⟨hu₁.phase, hu₁.settings⟩ h₁ m hme (open_pushed.2 ⟨ho₁, hc⟩) fuel
  · refine exec_branch.2 (.inr ⟨_, hev.test_of_not_holds hm₁ ho hc, ?_⟩)
    have hflow : flow yesExits m = .next :=
      hgy.flow_of_not_open fun hopen => hc (open_pushed.1 hopen).2
    rw [flow_append_of_next hflow]
    exact hother hc

/-! ### Sequences -/

theorem exact_cons {loops : Prop} {s : Stmt} {rest : List Stmt}
    (hp : PlainAll loops Γ returns (s :: rest)) (hs : s.Exact Γ scope returns)
    (hrest : ∀ {d d' : Draft} {exits : List Term}, Stage Γ scope (nodesOfAll rest) d → d.Unguarded →
      Yields (encodeAll returns rest) d exits d' → ∀ m, d'.HoldsIn m → d.Open m → ∀ fuel,
        execAll (.unbounded m.byZero) returns fuel rest (d.store m) =
          some (flow exits m, d'.store m))
    (hst : Stage Γ scope (nodesOfAll (s :: rest)) d) (hu : d.Unguarded)
    (hy : Yields (encodeAll returns (s :: rest)) d exits d') (m : Model) (hm : d'.HoldsIn m)
    (ho : d.Open m) (fuel : Nat) :
    execAll (.unbounded m.byZero) returns fuel (s :: rest) (d.store m) =
      some (flow exits m, d'.store m) := by
  obtain ⟨first, d₁, h₁, hg, hst₁, ⟨ht, h₂⟩ | ⟨taken, later, e, ht, hcov, hsort, h₂, h₃, rfl⟩⟩ :=
    sequence_parts (grows_encode s) hst hp.consistent hy
  · obtain rfl := eq_nil_of_disjunction ht
    have hu₁ := hu.later hg.grows.later
    have hm₁ : d₁.HoldsIn m := (grows_encodeAll rest hst₁ hp.2.consistent h₂).grows.later.holdsIn hm
    exact execAll_cons.2 (.inl ⟨_, hs hst.left hu h₁ m hm₁ ho fuel,
      hrest hst₁ hu₁ h₂ m hm (hg.grows.open_iff.2 ho) fuel⟩)
  · have hu₁ := hu.later hg.grows.later
    have hstp := hst₁.pushed hcov hsort
    have hgr := grows_encodeAll rest hstp hp.2.consistent h₂
    have hgate := hgr.gated hcov hsort
    have hle := hgate.grows.later
    have hme : e.popped.HoldsIn m := (later_assignAll (yields_mergeVersions.1 h₃)).holdsIn hm
    have ho₁ : d₁.Open m := hg.grows.open_iff.2 ho
    have hexec := hs hst.left hu h₁ m (hle.holdsIn hme) ho fuel
    obtain ⟨hrun, hskip⟩ := store_merge_optional hst₁.ready.ids hle (.inr rfl) h₃ hm
      (hgate.grows.open_iff.2 ho₁)
    cases hf : flow first m with
    | returned =>
      have htaken : ¬ (Term.not taken).Holds m :=
        fun hn => Term.holds_not.1 hn ((holds_disjunction ht).2 hf)
      rw [hf, ← hskip htaken] at hexec
      exact execAll_cons.2 (.inr ⟨flow_append_of_returned hf, hexec⟩)
    | next =>
      have htaken : (Term.not taken).Holds m := by
        rw [Term.holds_not, holds_disjunction ht, hf]
        exact Flow.noConfusion
      rw [hf] at hexec
      refine execAll_cons.2 (.inl ⟨_, hexec, ?_⟩)
      rw [hrun htaken, flow_append_of_next hf]
      exact hrest hstp ⟨hu₁.phase, hu₁.settings⟩ h₂ m hme (open_pushed.2 ⟨ho₁, htaken⟩) fuel

mutual

/-- Every statement of the fragment without loops is encoded exactly. -/
theorem Plain.exact : ∀ {s : Stmt}, s.Plain False Γ returns → Declares Γ s.locals →
    s.Exact Γ scope returns
  | .block _ _, h, hd => fun _ _ _ hst hu hy m hm ho fuel =>
    PlainAll.exact h hd hst hu hy m hm ho fuel
  | .declare _ _ _, h, hd => exact_declare h hd
  | .expression _ _, h, _ => exact_expression h
  | .branch _ _ _ none, h, hd => exact_branch h (h.2.1.exact hd.left) (by simp)
  | .branch _ _ _ (some no), h, hd => by
    have hno : no.Plain False Γ returns := h.2.2
    exact exact_branch h (h.2.1.exact hd.left)
      (fun s hs => Option.some.inj hs ▸ hno.exact hd.right)
  | .whileLoop _ _ _ _, h, _ => h.1.elim
  | .forLoop _ _ _ _ _, h, _ => h.1.elim
  | .ret _ _, h, _ => exact_ret h

theorem PlainAll.exact : ∀ {body : List Stmt}, PlainAll False Γ returns body →
    Declares Γ (localsOfAll body) → ∀ {d d' : Draft} {exits : List Term},
      Stage Γ scope (nodesOfAll body) d → d.Unguarded →
        Yields (encodeAll returns body) d exits d' → ∀ m, d'.HoldsIn m → d.Open m → ∀ fuel,
          execAll (.unbounded m.byZero) returns fuel body (d.store m) =
            some (flow exits m, d'.store m)
  | [], _, _, d, d', exits, _, _, hy, m, _, _, fuel => by
    obtain ⟨rfl, rfl⟩ := yields_encodeAll_nil.1 hy
    rfl
  | _ :: _, h, hd, _, _, _, hst, hu, hy, m, hm, ho, fuel =>
    exact_cons h (h.1.exact hd.left)
      (fun hst hu hy m hm ho fuel => PlainAll.exact h.2 hd.right hst hu hy m hm ho fuel)
      hst hu hy m hm ho fuel

end

end Source.Stmt

end PathFormula
