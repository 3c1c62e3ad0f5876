import PathFormula.Proofs.Exactness

/-!
# Runs have models

Every run of a statement of the fragment is found in a model of its encoding: a model of the draft
before extends to one of the draft after in which the variables have the values that the run leaves
(`Plain.realised`). A side of a branch that a run does not take is encoded under a condition that is
false, so that a model extends to it in any case. A loop is followed in its last turn only, since
forgetting what it writes allows all values that the turns before could have left.
-/
namespace PathFormula

open Source

namespace Draft

variable {Γ : Nat → Option Domain} {scope : List Expr} {L : Licence} {d d₀ d₁ d₂ d' : Draft}
  {exits : List Term} {m m₁ m₂ m' : Model} {location : Location}

/-- The second model is like the first on what a draft is about, and satisfies a later one. -/
structure Extends (d : Draft) (m : Model) (d' : Draft) (m' : Model) : Prop where
  agrees : m.AgreeOn d.Owns m'
  holds : d'.HoldsIn m'

namespace Extends

theorem trans (h₁ : Extends d m d₁ m₁) (hl : Later d d₁) (h₂ : Extends d₁ m₁ d₂ m₂) :
    Extends d m d₂ m₂ :=
  ⟨h₁.agrees.trans (hl.agreeOn h₂.agrees), h₂.holds⟩

theorem store (h : Extends d m d' m') (hl : Later d₀ d) : d₀.store m' = d₀.store m :=
  store_of_agreeOn (hl.agreeOn h.agrees)

theorem holds_iff (h : Extends d m d' m') {t : Term} (ht : d.Covers t) : t.Holds m' ↔ t.Holds m :=
  Term.holds_iff_of_agreeOn h.agrees ht

/-- What happens under one more path condition happens. -/
theorem gated {t : Term} (h : Extends (d.pushed t) m d' m') : Extends d m d'.popped m' :=
  ⟨h.agrees, h.holds⟩

end Extends

/-- A model extends to a later draft so that the variables have some values and a return was taken
or not. -/
def Reaches (d : Draft) (m : Model) (d' : Draft) (exits : List Term) (flow : Flow) (τ : Store) :
    Prop :=
  ∃ m', Extends d m d' m' ∧ d'.store m' = τ ∧ Draft.flow exits m' = flow

/-- A model extends to growth that assumes nothing. -/
theorem Grows.exists_extends (h : Grows L d d') (ha : ¬ L.asserts) (hd : d.Closed)
    (hm : d.HoldsIn m) :
    ∃ m', Extends d m d' m' := by
  obtain ⟨m', hag, hm'⟩ := h.extension ha hd hm
  exact ⟨m', hag, hm'⟩

/-- A model extends to all growth on a path that is not taken. -/
theorem Grows.exists_untaken (h : Grows L d d') (hd : d.Closed) (hm : d.HoldsIn m)
    (ho : ¬ d.Open m) : ∃ m', Extends d m d' m' ∧ d'.store m' = d.store m := by
  obtain ⟨m', hag, hm', hs⟩ := h.untaken hd hm ho
  exact ⟨m', ⟨hag, hm'⟩, hs⟩

theorem licence_not_asserts {nodes : List Expr} {writes : Nat → Prop} (hu : d.Unguarded)
    (h : ∀ x ∈ nodes, x.isAssertion = false) : ¬ (licence nodes writes d.settings).asserts := by
  rintro (⟨x, hx, ha⟩ | hg)
  · rw [h x hx] at ha
    cases ha
  · rw [hu.settings] at hg
    cases hg

/-! ### Joins -/

section Joins

variable {dy dn e : Draft} {guard t : Term}

/-- Joins only define new versions. -/
theorem exists_merge (hn : (d₀.registry.map (·.id)).Nodup) (hl : Later d₀ d) (hly : Later dy d)
    (hln : Later dn d) (hc : d.Covers guard) (hs : guard.HasSort .bool) (hd : d.Closed)
    (hm : d.HoldsIn m)
    (h : Yields (mergeVersions guard d₀.versions dy.versions dn.versions location) d () d') :
    ∃ m', Extends d m d' m' := by
  have hg : Grows ⟨[], fun _ => True, False⟩ d d' :=
    grows_mergeVersions hn hl hly hln hc hs (fun _ => trivial) h
  exact hg.exists_extends id hd hm

/-- A model extends to the join at the end of a side that can be passed by. -/
theorem exists_merge_optional (hn : (d₀.registry.map (·.id)).Nodup) (hl : Later d₀ d)
    (hdn : dn = d ∨ dn = d₀) (hc : d.Covers guard) (hs : guard.HasSort .bool) (hd : d.Closed)
    (hm : d.HoldsIn m) (ho : d.Open m)
    (h : Yields (mergeVersions guard d₀.versions d.versions dn.versions location) d () d') :
    ∃ m', Extends d m d' m' ∧ (guard.Holds m → d'.store m' = d.store m) ∧
      (¬ guard.Holds m → d'.store m' = d₀.store m) := by
  have hln : Later dn d := hdn.elim (fun he => he ▸ .refl d) (fun he => he ▸ hl)
  obtain ⟨m', hx⟩ := exists_merge hn hl (.refl d) hln hc hs hd hm h
  obtain ⟨hyes, hskip⟩ :=
    store_merge_optional hn hl hdn h hx.holds ((hd.open_iff hx.agrees).2 ho)
  rw [hx.holds_iff hc, hx.store (.refl d)] at hyes
  rw [hx.holds_iff hc, hx.store hl] at hskip
  exact ⟨m', hx, hyes, hskip⟩

/-- A model extends to the join at the end of two sides. -/
theorem exists_merge_both (hn : (d₀.registry.map (·.id)).Nodup) (hl : Later d₀ d₁)
    (hr : Yields (restore d₀.versions d₁.versions location) (d₁.pushed t) () e) (hle : Later e d)
    (hc : d.Covers guard) (hs : guard.HasSort .bool) (hd : d.Closed) (hm : d.HoldsIn m)
    (ho : d.Open m)
    (h : Yields (mergeVersions guard d₀.versions d₁.versions d.versions location) d () d') :
    ∃ m', Extends d m d' m' ∧ (guard.Holds m → d'.store m' = d₁.store m) ∧
      (¬ guard.Holds m → d'.store m' = d.store m) := by
  have hl₁ : Later d₁ d := (Later.pushed.trans (later_assignAll (yields_restore.1 hr))).trans hle
  obtain ⟨m', hx⟩ := exists_merge hn (hl.trans hl₁) hl₁ (.refl d) hc hs hd hm h
  obtain ⟨hyes, hno⟩ := store_merge_both hn hl hr hle h hx.holds ((hd.open_iff hx.agrees).2 ho)
  rw [hx.holds_iff hc, hx.store hl₁] at hyes
  rw [hx.holds_iff hc, hx.store (.refl d)] at hno
  exact ⟨m', hx, hyes, hno⟩

end Joins

end Draft

namespace Source

open Draft

variable {loops : Prop} {Γ : Nat → Option Domain} {scope : List Expr} {returns : List Declaration}
  {rules : Rules} {d d₀ d₁ d₂ d' : Draft} {exits : List Term} {m m' : Model} {σ τ : Store}
  {location : Location} {fuel : Nat} {flow : Flow}

/-- A run from a store has the quotients by zero of a model. Where there are loops, its variables
stay in the ranges of their types. -/
structure Follows (loops : Prop) (Γ : Nat → Option Domain) (rules : Rules) (m : Model) (σ : Store) :
    Prop where
  within : rules.Within m.byZero
  bounds : loops → rules.Bounds Γ
  ranged : loops → Ranged Γ σ

namespace Follows

theorem extended (h : Follows loops Γ rules m σ) (hx : Extends d m d' m') :
    Follows loops Γ rules m' σ :=
  { h with within := hx.agrees.byZero ▸ h.within }

theorem test (h : Follows loops Γ rules m σ) {condition : Expr} {b : Bool}
    (hr : condition.test rules σ = some (b, τ)) : Follows loops Γ rules m τ :=
  { h with
    ranged := fun hl => Stmt.keeps_test
      (Expr.eval_preserves (W := fun _ => True) (h.bounds hl).preserves condition
        fun _ _ => trivial) (h.ranged hl) hr }

theorem testOf (h : Follows loops Γ rules m σ) {condition : Option Expr} {b : Bool}
    (hr : Stmt.testOf rules condition σ = some (b, τ)) : Follows loops Γ rules m τ := by
  cases condition with
  | none =>
    cases hr
    exact h
  | some e => exact h.test hr

theorem exec (h : Follows loops Γ rules m σ) {s : Stmt}
    (hr : s.exec rules returns fuel σ = some (flow, τ)) : Follows loops Γ rules m τ :=
  { h with
    ranged := fun hl => Stmt.exec_preserves (W := fun _ => True) (h.bounds hl).preserves s
      (fun _ _ => trivial) (fun _ _ _ => trivial) (h.ranged hl) hr }

theorem execOption (h : Follows loops Γ rules m σ) {s : Option Stmt}
    (hr : Stmt.execOption rules returns fuel s σ = some (flow, τ)) : Follows loops Γ rules m τ := by
  cases s with
  | none =>
    cases hr
    exact h
  | some s => exact h.exec hr

end Follows

/-! ### Expressions -/

namespace Expr

variable {e : Expr} {sort : TermSort}

theorem Typed.exists_extends (h : Typed Γ e sort) (hst : Stage Γ scope e.nodes d) (hu : d.Unguarded)
    (hy : Yields e.encode d () d') (hm : d.HoldsIn m) : ∃ m', Extends d m d' m' :=
  (h.grows hst hy).exists_extends (licence_not_asserts hu h.not_isAssertion) hst.ready.closed hm

/-- A condition is tested with the truth of its symbol. -/
theorem Typed.exists_test {condition : Expr} {b : Bool} (h : Typed Γ condition .bool)
    (hst : Stage Γ scope condition.nodes d) (hu : d.Unguarded)
    (hev : Evaluates condition .bool d d') (hm : d.HoldsIn m) (ho : d.Open m)
    (hw : rules.Within m.byZero) (hr : condition.test rules (d.store m) = some (b, τ)) :
    ∃ m', Extends d m d' m' ∧ d'.store m' = τ ∧ ((condition.term .bool).Holds m' ↔ b = true) := by
  obtain ⟨m', hx⟩ := h.exists_extends hst hu hev.yields hm
  obtain ⟨⟨x, τ'⟩, hr, he⟩ := Option.map_eq_some_iff.1 hr
  cases he
  have heval := hev.eval m' hx.holds ((hst.ready.closed.open_iff hx.agrees).2 ho)
  rw [hx.store (.refl d), hx.agrees.byZero, h.eval_within hw hr] at heval
  cases heval
  exact ⟨m', hx, rfl, Iff.rfl⟩

end Expr

namespace Stmt

/-- Every run of a statement is found in a model of its encoding. -/
def Realised (loops : Prop) (Γ : Nat → Option Domain) (scope : List Expr)
    (returns : List Declaration) (s : Stmt) : Prop :=
  ∀ ⦃rules : Rules⦄ ⦃d d' : Draft⦄ ⦃exits : List Term⦄, Stage Γ scope s.nodes d → d.Unguarded →
    Yields (s.encode returns) d exits d' → ∀ m, d.HoldsIn m → d.Open m →
      Follows loops Γ rules m (d.store m) → ∀ fuel flow τ,
        s.exec rules returns fuel (d.store m) = some (flow, τ) → Reaches d m d' exits flow τ

/-! ### Single steps -/

theorem give_within {byZero : Int → Int} {id : Nat} {x : Value} (h : rules.give σ id x = some τ) :
    (Rules.unbounded byZero).give σ id x = some τ := by
  unfold Rules.give at h ⊢
  split at h
  · rw [if_pos ‹_›]
    exact Rules.write_within h
  · rwa [if_neg ‹_›]

/-- What is encoded exactly and assumes nothing has a model for every run. -/
theorem realised_of_exact {s : Stmt} (hs : s.Exact Γ scope returns) (hc : s.Consistent Γ returns)
    (ha : ∀ x ∈ s.nodes, x.isAssertion = false)
    (hw : ∀ {rules : Rules} {byZero : Int → Int} {fuel : Nat} {σ τ : Store} {flow : Flow},
      rules.Within byZero → s.exec rules returns fuel σ = some (flow, τ) →
        s.exec (.unbounded byZero) returns fuel σ = some (flow, τ)) :
    s.Realised loops Γ scope returns := by
  intro rules d d' exits hst hu hy m hm ho hf fuel flow τ hr
  have hg := grows_encode s hst hc hy
  obtain ⟨m', hx⟩ := hg.grows.exists_extends (licence_not_asserts hu ha) hst.ready.closed hm
  have hrun := hs hst hu hy m' hx.holds ((hst.ready.closed.open_iff hx.agrees).2 ho) fuel
  rw [hx.store (.refl d), hx.agrees.byZero, hw hf.within hr] at hrun
  cases hrun
  exact ⟨m', hx, rfl, rfl⟩

theorem realised_declare {declarations : List Declaration} {initial : Option Expr}
    (hp : (declare location declarations initial).Plain loops Γ returns)
    (hd : Declares Γ declarations) :
    (declare location declarations initial).Realised loops Γ scope returns := by
  refine realised_of_exact (exact_declare hp hd) hp.consistent ?_ ?_
  · obtain ⟨declaration, rfl, hi⟩ := hp
    cases initial with
    | none => simp [nodes, nodesOfExpr]
    | some e =>
      obtain ⟨sort, ht, -⟩ := hi e rfl
      exact ht.not_isAssertion
  · intro rules byZero fuel σ τ flow hw h
    obtain ⟨declaration, rfl, hi⟩ := hp
    obtain ⟨rfl, x, σ₁, hx, hg⟩ := exec_declare.1 h
    refine exec_declare.2 ⟨rfl, x, σ₁, ?_, give_within hg⟩
    cases initial with
    | none => exact hx
    | some e =>
      obtain ⟨sort, ht, -⟩ := hi e rfl
      exact ht.eval_within hw hx

theorem realised_ret {value : Option Expr} (hp : (ret location value).Plain loops Γ returns) :
    (ret location value).Realised loops Γ scope returns := by
  refine realised_of_exact (exact_ret hp) hp.consistent ?_ ?_
  · cases value with
    | none => simp [nodes, nodesOfExpr]
    | some e =>
      obtain ⟨_, _, -, -, ht⟩ := hp e rfl
      exact ht.not_isAssertion
  · intro rules byZero fuel σ τ flow hw h
    cases value with
    | none => exact h
    | some e =>
      obtain ⟨_, _, rfl, -, ht⟩ := hp e rfl
      obtain ⟨rfl, x, σ₁, hx, ⟨slot, hslot, hg⟩ | ⟨hn, -⟩⟩ := exec_ret_some.1 h
      · exact exec_ret_some.2 ⟨rfl, x, σ₁, ht.eval_within hw hx, .inl ⟨slot, hslot, give_within hg⟩⟩
      · exact absurd rfl (hn _)

/-- A run that passes an assertion satisfies the fact that it emits. -/
theorem realised_assertion {e condition : Expr} (ha : e.asserted? = some condition)
    (ht : Expr.Typed Γ condition .bool) :
    (expression location e).Realised loops Γ scope returns := by
  intro rules d d' exits hst hu hy m hm ho hf fuel flow τ hr
  obtain ⟨rfl, he⟩ := yields_expression.1 hy
  obtain ⟨rfl, ht'⟩ := (exec_assertion ha).1 hr
  obtain ⟨d₁, hst', hev, hg, rfl⟩ := Expr.assertion_evaluated ha ht hst hu he
  obtain ⟨m', hx, hτ, hc⟩ := ht.exists_test hst' hu hev hm ho hf.within ht'
  exact ⟨m', ⟨hx.agrees, holdsIn_emitted.2 ⟨hx.holds, fun _ => hc.2 rfl⟩⟩, hτ, rfl⟩

theorem realised_expression {e : Expr} (hp : (expression location e).Plain loops Γ returns) :
    (expression location e).Realised loops Γ scope returns := by
  rcases hp with ⟨sort, ht⟩ | ⟨-, condition, ha, ht⟩
  · have hp : (expression location e).Plain loops Γ returns := .inl ⟨sort, ht⟩
    refine realised_of_exact (exact_expression hp) hp.consistent ht.not_isAssertion ?_
    intro rules byZero fuel σ τ flow hw h
    obtain ⟨rfl, x, hx⟩ := (exec_expression ht.not_asserted).1 h
    exact (exec_expression ht.not_asserted).2 ⟨rfl, x, ht.eval_within hw hx⟩
  · exact realised_assertion ha ht

/-! ### Branches -/

theorem realised_else {condition : Expr} {no : Option Stmt}
    (hpn : PlainOption loops Γ returns no) (hno : ∀ s ∈ no, s.Realised loops Γ scope returns)
    (hl : Later d₀ d) (hk : d.known.lookup condition.id = some .bool)
    (hst : Stage Γ scope (nodesOfOption no) d) (hu : d.Unguarded)
    (hy : Yields (encodeElse returns location condition d₀.versions d.versions no) d exits d₁)
    (hj : Yields (mergeVersions (condition.term .bool) d₀.versions d.versions d₁.versions location)
      d₁ () d') (hm : d.HoldsIn m) (ho : d.Open m) :
    ((condition.term .bool).Holds m → Reaches d m d' exits .next (d.store m)) ∧
      (¬ (condition.term .bool).Holds m → ∀ {rules : Rules} {fuel : Nat} {flow : Flow} {τ : Store},
        Follows loops Γ rules m (d₀.store m) →
          execOption rules returns fuel no (d₀.store m) = some (flow, τ) →
            Reaches d m d' exits flow τ) := by
  have hn : (d₀.registry.map (·.id)).Nodup := hl.ids ▸ hst.ready.ids
  have hclosed := hst.ready.closed
  have hcov : d.Covers (condition.term .bool) := covers_expression hk
  have hsort : (condition.term .bool).HasSort .bool := Term.hasSort_expression _ _
  cases no with
  | none =>
    obtain ⟨rfl, rfl⟩ := yields_pure.1 hy
    obtain ⟨m', hx, hyes, hskip⟩ :=
      exists_merge_optional hn hl (.inl rfl) hcov hsort hclosed hm ho hj
    refine ⟨fun hg => ⟨m', hx, hyes hg, rfl⟩, fun hg _ _ _ _ _ hr => ?_⟩
    cases hr
    exact ⟨m', hx, hskip hg, rfl⟩
  | some no =>
    obtain ⟨e₁, e₂, hr, hgr, hst₁, he, hle, hgn, rfl⟩ :=
      encodeElse_parts (grows_encode no) (Plain.consistent hpn) hl hk hst hy
    have hgate := hgn.gated (covers_not.2 hcov) (.not hsort)
    have hlate := hgate.grows.later
    have hclosed' := hclosed.pushed (covers_not.2 hcov)
    have hjoin : ∀ {m₂ : Model}, Extends d m e₂.popped m₂ → _ := fun {m₂} hx₂ =>
      exists_merge_both hn hl hr (hle.trans .withPath) (hlate.covers hcov) hsort
        (hgate.grows.closed hclosed) hx₂.holds
        (hgate.grows.open_iff.2 ((hclosed.open_iff hx₂.agrees).2 ho)) hj
    refine ⟨fun hg => ?_, fun hg rules fuel flow τ hf hrun => ?_⟩
    · have hnot : ¬ (d.pushed (.not (condition.term .bool))).Open m :=
        fun hopen => Term.holds_not.1 (open_pushed.1 hopen).2 hg
      obtain ⟨m₂, hx₂, -⟩ := hgn.grows.exists_untaken hclosed' hm hnot
      obtain ⟨m', hx, hyes, -⟩ := hjoin hx₂.gated
      have hx' : Extends d m d' m' := hx₂.gated.trans hlate hx
      refine ⟨m', hx', (hyes ((hx₂.holds_iff hcov).2 hg)).trans (hx₂.gated.store (.refl d)),
        hgn.flow_of_not_open fun hopen => ?_⟩
      exact Term.holds_not.1 (open_pushed.1 hopen).2 ((hx'.holds_iff hcov).2 hg)
    · have hopen : (d.pushed (.not (condition.term .bool))).Open m :=
        open_pushed.2 ⟨ho, Term.holds_not.2 hg⟩
      obtain ⟨m₁, hx₁⟩ := hgr.exists_extends (licence_not_asserts hu (by simp)) hclosed' hm
      have hopen₁ := (hclosed'.open_iff hx₁.agrees).2 hopen
      have hback : e₁.store m₁ = d₀.store m := by
        rw [store_restore (hl.trans .pushed) hn hr hx₁.holds hopen₁]
        exact hx₁.store (hl.trans .pushed)
      rw [← hback] at hf hrun
      obtain ⟨m₂, hx₂, hτ, hflow⟩ := hno no rfl hst₁ (hu.later (Later.pushed.trans hgr.later)) he m₁
        hx₁.holds (hgr.open_iff.2 hopen₁) (hf.extended hx₁) fuel flow τ hrun
      have hx₁₂ : Extends d m e₂.popped m₂ := (hx₁.trans hgr.later hx₂).gated
      obtain ⟨m', hx, -, helse⟩ := hjoin hx₁₂
      have hnot := mt (hx₁₂.holds_iff hcov).1 hg
      exact ⟨m', hx₁₂.trans hlate hx, (helse hnot).trans hτ, (hgn.flow_eq hx.agrees).trans hflow⟩

theorem realised_branch {condition : Expr} {yes : Stmt} {no : Option Stmt}
    (hp : (branch location condition yes no).Plain loops Γ returns)
    (hyes : yes.Realised loops Γ scope returns) (hno : ∀ s ∈ no, s.Realised loops Γ scope returns) :
    (branch location condition yes no).Realised loops Γ scope returns := by
  intro rules d d' exits hst hu hy m hm ho hf fuel flow τ hr
  obtain ⟨d₁, yesExits, e, noExits, d₂, hev, hg, hsty, h₁, hgy, hgate, hste, h₂, h₃, rfl⟩ :=
    branch_evaluated hp hst hu hy
  have hu₁ := hu.later hg.later
  have hle := hgate.grows.later
  have hcov : d₁.Covers (condition.term .bool) := covers_expression hev.known
  have hclosed := hst.ready.closed
  have hclosed₁ := hg.closed hclosed
  have hte := hgate.grows.later.known _ _ hev.known
  have hcove := hle.covers hcov
  obtain ⟨σ₁, ht, hrun⟩ | ⟨σ₁, ht, hrun⟩ := exec_branch.1 hr
  · obtain ⟨m₁, hx₁, rfl, hc⟩ := hp.1.exists_test hst.left hu hev hm ho hf.within ht
    have ho₁ : d₁.Open m₁ := hg.open_iff.2 ((hclosed.open_iff hx₁.agrees).2 ho)
    obtain ⟨m₂, hx₂, rfl, hflow⟩ := hyes hsty ⟨hu₁.phase, hu₁.settings⟩ h₁ m₁ hx₁.holds
      (open_pushed.2 ⟨ho₁, hc.2 rfl⟩) ((hf.test ht).extended hx₁) fuel flow τ hrun
    have ho₂ : e.popped.Open m₂ :=
      hgate.grows.open_iff.2 ((hclosed₁.open_iff hx₂.gated.agrees).2 ho₁)
    obtain ⟨m', hx, hτ, hnext⟩ := (realised_else hp.2.2 hno hle hte hste (hu₁.later hle) h₂ h₃
      hx₂.holds ho₂).1 ((hx₂.holds_iff hcov).2 (hc.2 rfl))
    refine ⟨m', hx₁.trans hg.later (hx₂.gated.trans hle hx), hτ, ?_⟩
    rw [flow_append_of_later hnext, hgy.flow_eq hx.agrees, hflow]
  · obtain ⟨m₁, hx₁, rfl, hc⟩ := hp.1.exists_test hst.left hu hev hm ho hf.within ht
    have ho₁ : d₁.Open m₁ := hg.open_iff.2 ((hclosed.open_iff hx₁.agrees).2 ho)
    have hnot : ¬ (condition.term .bool).Holds m₁ := by simp [hc]
    obtain ⟨m₂, hx₂, -⟩ := hgy.grows.exists_untaken (hclosed₁.pushed hcov) hx₁.holds
      fun hopen => hnot (open_pushed.1 hopen).2
    have hnot₂ := mt (hx₂.holds_iff hcov).1 hnot
    have ho₂ : e.popped.Open m₂ :=
      hgate.grows.open_iff.2 ((hclosed₁.open_iff hx₂.gated.agrees).2 ho₁)
    have hsame : d₁.store m₂ = d₁.store m₁ := hx₂.gated.store (.refl d₁)
    obtain ⟨m', hx, hτ, hflow⟩ := (realised_else hp.2.2 hno hle hte hste (hu₁.later hle) h₂ h₃
      hx₂.holds ho₂).2 hnot₂ (hsame ▸ ((hf.test ht).extended hx₁).extended hx₂) (hsame ▸ hrun)
    have hnext : Draft.flow yesExits m' = .next := hgy.flow_of_not_open fun hopen =>
      hnot₂ ((hx.holds_iff hcove).1 (open_pushed.1 hopen).2)
    refine ⟨m', hx₁.trans hg.later (hx₂.gated.trans hle hx), hτ, ?_⟩
    rw [flow_append_of_next hnext, hflow]

/-! ### Sequences -/

/-- Every run of a list of statements is found in a model of its encoding. -/
def RealisedAll (loops : Prop) (Γ : Nat → Option Domain) (scope : List Expr)
    (returns : List Declaration) (body : List Stmt) : Prop :=
  ∀ ⦃rules : Rules⦄ ⦃d d' : Draft⦄ ⦃exits : List Term⦄, Stage Γ scope (nodesOfAll body) d →
    d.Unguarded → Yields (encodeAll returns body) d exits d' → ∀ m, d.HoldsIn m → d.Open m →
      Follows loops Γ rules m (d.store m) → ∀ fuel flow τ,
        execAll rules returns fuel body (d.store m) = some (flow, τ) → Reaches d m d' exits flow τ

theorem realised_cons {s : Stmt} {rest : List Stmt} (hp : PlainAll loops Γ returns (s :: rest))
    (hs : s.Realised loops Γ scope returns) (hrest : RealisedAll loops Γ scope returns rest) :
    RealisedAll loops Γ scope returns (s :: rest) := by
  intro rules d d' exits hst hu hy m hm ho hf fuel flow τ hr
  have hclosed := hst.ready.closed
  obtain ⟨first, d₁, h₁, hg, hst₁, ⟨ht, h₂⟩ | ⟨taken, later, e, ht, hcov, hsort, h₂, h₃, rfl⟩⟩ :=
    sequence_parts (grows_encode s) hst hp.consistent hy
  · obtain rfl := eq_nil_of_disjunction ht
    have hu₁ := hu.later hg.grows.later
    obtain ⟨σ₁, hr₁, hr₂⟩ | ⟨rfl, hr₁⟩ := execAll_cons.1 hr
    · obtain ⟨m₁, hx₁, rfl, -⟩ := hs hst.left hu h₁ m hm ho hf fuel _ _ hr₁
      have ho₁ := hg.grows.open_iff.2 ((hclosed.open_iff hx₁.agrees).2 ho)
      obtain ⟨m', hx, hτ, hflow⟩ := hrest hst₁ hu₁ h₂ m₁ hx₁.holds ho₁ ((hf.exec hr₁).extended hx₁)
        fuel flow τ hr₂
      exact ⟨m', hx₁.trans hg.grows.later hx, hτ, hflow⟩
    · obtain ⟨m₁, -, -, hflow⟩ := hs hst.left hu h₁ m hm ho hf fuel _ _ hr₁
      cases hflow
  · have hu₁ := hu.later hg.grows.later
    have hclosed₁ := hg.grows.closed hclosed
    have hstp := hst₁.pushed hcov hsort
    have hgr := grows_encodeAll rest hstp hp.2.consistent h₂
    have hgate := hgr.gated hcov hsort
    have hlate := hgate.grows.later
    have hjoin : ∀ {m₁ m₂ : Model}, d₁.Open m₁ → Extends d₁ m₁ e.popped m₂ → _ :=
      fun {m₁ m₂} ho₁ hx₂ => exists_merge_optional hst₁.ready.ids hlate (.inr rfl)
        (hlate.covers hcov) hsort (hgate.grows.closed hclosed₁) hx₂.holds
        (hgate.grows.open_iff.2 ((hclosed₁.open_iff hx₂.agrees).2 ho₁)) h₃
    obtain ⟨σ₁, hr₁, hr₂⟩ | ⟨rfl, hr₁⟩ := execAll_cons.1 hr
    · obtain ⟨m₁, hx₁, rfl, hnext⟩ := hs hst.left hu h₁ m hm ho hf fuel _ _ hr₁
      have ho₁ := hg.grows.open_iff.2 ((hclosed.open_iff hx₁.agrees).2 ho)
      have hgo : (Term.not taken).Holds m₁ := by
        rw [Term.holds_not, holds_disjunction ht, hnext]
        exact Flow.noConfusion
      obtain ⟨m₂, hx₂, hτ, hflow⟩ := hrest hstp ⟨hu₁.phase, hu₁.settings⟩ h₂ m₁ hx₁.holds
        (open_pushed.2 ⟨ho₁, hgo⟩) ((hf.exec hr₁).extended hx₁) fuel flow τ hr₂
      obtain ⟨m', hx, hrun, -⟩ := hjoin ho₁ hx₂.gated
      have hx₂' := hx₂.gated.trans hlate hx
      have hnext' : Draft.flow first m' = .next := (hg.flow_eq hx₂'.agrees).trans hnext
      refine ⟨m', hx₁.trans hg.grows.later hx₂', (hrun ((hx₂.holds_iff hcov).2 hgo)).trans hτ, ?_⟩
      rw [flow_append_of_next hnext', hgr.flow_eq hx.agrees, hflow]
    · obtain ⟨m₁, hx₁, rfl, hret⟩ := hs hst.left hu h₁ m hm ho hf fuel _ _ hr₁
      have ho₁ := hg.grows.open_iff.2 ((hclosed.open_iff hx₁.agrees).2 ho)
      have hstop : ¬ (Term.not taken).Holds m₁ :=
        fun hn => Term.holds_not.1 hn ((holds_disjunction ht).2 hret)
      obtain ⟨m₂, hx₂, -⟩ := hgr.grows.exists_untaken (hclosed₁.pushed hcov) hx₁.holds
        fun hopen => hstop (open_pushed.1 hopen).2
      obtain ⟨m', hx, -, hskip⟩ := hjoin ho₁ hx₂.gated
      have hx₂' := hx₂.gated.trans hlate hx
      refine ⟨m', hx₁.trans hg.grows.later hx₂', ?_, ?_⟩
      · rw [hskip (mt (hx₂.holds_iff hcov).1 hstop), hx₂.gated.store (.refl d₁)]
      · exact flow_append_of_returned ((hg.flow_eq hx₂'.agrees).trans hret)

end Stmt

end Source

end PathFormula
