import PathFormula.Proofs.Bodies
import PathFormula.Proofs.Evaluation

/-!
# Statements of the fragment can be encoded

No operation on the way fails: conditions are known where they are tested, and every path condition
that was opened is closed again.
-/
namespace PathFormula

open Source

namespace Draft

variable {Γ : Nat → Option Domain} {scope : List Expr} {d d₁ d' : Draft} {location : Location}

theorem exists_assign (hp : d.phase = .encoding) (id : Nat) (t : Term) (location : Location) :
    ∃ d', Yields (assign id t location) d () d' := by
  cases hv : d.registered? id with
  | none => exact ⟨_, yields_assign.2 ⟨hp, .inl ⟨hv, rfl⟩⟩⟩
  | some v => exact ⟨_, yields_assign.2 ⟨hp, .inr ⟨v, hv, rfl⟩⟩⟩

theorem exists_assignAll (hp : d.phase = .encoding) (ts : List (Nat × Term)) (location : Location) :
    ∃ d', Yields (assignAll location ts) d () d' := by
  induction ts generalizing d with
  | nil => exact ⟨d, yields_forM_nil.2 rfl⟩
  | cons p rest ih =>
    obtain ⟨d₁, h₁⟩ := exists_assign hp p.1 p.2 location
    obtain ⟨d', h'⟩ := ih ((later_assign h₁).phase.trans hp)
    exact ⟨d', yields_forM_cons.2 ⟨d₁, h₁, h'⟩⟩

theorem exists_restore (hp : d.phase = .encoding) (before yes : Versions) (location : Location) :
    ∃ d', Yields (restore before yes location) d () d' := by
  obtain ⟨d', h⟩ := exists_assignAll hp (d.restored before yes) location
  exact ⟨d', yields_restore.2 h⟩

theorem exists_mergeVersions (hp : d.phase = .encoding) (guard : Term) (before yes no : Versions)
    (location : Location) : ∃ d', Yields (mergeVersions guard before yes no location) d () d' := by
  obtain ⟨d', h⟩ := exists_assignAll hp (d.joined guard before yes no) location
  exact ⟨d', yields_mergeVersions.2 h⟩

theorem exists_forgetAll (hp : d.phase = .encoding) (ids : List Nat) (location : Location) :
    ∃ d', Yields (forgetAll ids location) d () d' := by
  induction ids generalizing d with
  | nil => exact ⟨d, yields_forM_nil.2 rfl⟩
  | cons id rest ih =>
    cases hv : d.registered? id with
    | none =>
      obtain ⟨d', h'⟩ := ih hp
      exact ⟨d', yields_forgetAll_cons.2 ⟨d, .inl ⟨hv, rfl⟩, h'⟩⟩
    | some v =>
      have h₁ : Yields (forget id location) d ()
          ((d.advanced id).emitted v.advance.rangeFact location) :=
        yields_forget.2 ⟨hp, .inr ⟨v, hv, rfl⟩⟩
      obtain ⟨d', h'⟩ := ih (d := (d.advanced id).emitted v.advance.rangeFact location) hp
      exact ⟨d', yields_forgetAll_cons.2 ⟨_, .inr ⟨by simp [hv], h₁⟩, h'⟩⟩

/-- A branch that was opened can be closed. -/
theorem GrowsTo.path_ne_nil {L : Licence} {t : Term} {exits : List Term}
    (h : GrowsTo L (d.pushed t) exits d') : d'.path ≠ [] := by
  rw [h.grows.path]
  exact List.cons_ne_nil _ _

end Draft

namespace Source.Stmt

open Draft

variable {loops : Prop} {Γ : Nat → Option Domain} {scope : List Expr} {returns : List Declaration}
  {d d₁ d' : Draft} {location : Location}

/-- A statement can be encoded wherever it comes next. -/
def Succeeds (Γ : Nat → Option Domain) (scope : List Expr) (returns : List Declaration) (s : Stmt) :
    Prop :=
  ∀ ⦃d : Draft⦄, Stage Γ scope s.nodes d → d.Unguarded →
    ∃ exits d', Yields (s.encode returns) d exits d'

theorem exists_assignFrom {e : Expr} {sort : TermSort} (h : Evaluates e sort d d₁)
    (hp : d₁.phase = .encoding) (id : Nat) (location : Location) :
    ∃ d', Yields (assignFrom id e location) d₁ () d' := by
  obtain ⟨d', ha⟩ := exists_assign hp id (e.term sort) location
  exact ⟨d', yields_bind.2 ⟨_, d₁, h.valueOf (.refl d₁), ha⟩⟩

theorem succeeds_declare {declarations : List Declaration} {initial : Option Expr}
    (hp : (declare location declarations initial).Plain loops Γ returns) :
    (declare location declarations initial).Succeeds Γ scope returns := by
  intro d hst hu
  obtain ⟨declaration, rfl, hi⟩ := hp
  suffices h : ∃ d', Yields (Draft.declare location [declaration] initial) d () d' by
    obtain ⟨d', h⟩ := h
    exact ⟨[], d', yields_declare.2 ⟨rfl, h⟩⟩
  cases initial with
  | none =>
    cases hv : d.registered? declaration.id with
    | none => exact ⟨d, yields_declare_none.2 (.inl ⟨hv, rfl⟩)⟩
    | some v =>
      obtain ⟨d', h⟩ := exists_assign hu.phase declaration.id (.zero v.sort) location
      exact ⟨d', yields_declare_none.2 (.inr ⟨v, hv, h⟩)⟩
  | some e =>
    obtain ⟨sort, ht, -⟩ := hi e rfl
    obtain ⟨d₁, h₁⟩ := ht.evaluates hst hu
    have hu₁ := hu.later (ht.grows hst h₁.yields).later
    cases hv : d₁.registered? declaration.id with
    | none => exact ⟨d₁, yields_declare_some.2 ⟨d₁, h₁.yields, .inl ⟨hv, rfl⟩⟩⟩
    | some v =>
      obtain ⟨d', h⟩ := exists_assignFrom h₁ hu₁.phase declaration.id location
      exact ⟨d', yields_declare_some.2 ⟨d₁, h₁.yields, .inr ⟨by simp [hv], h⟩⟩⟩

theorem succeeds_expression {e : Expr} (hp : (expression location e).Plain loops Γ returns) :
    (expression location e).Succeeds Γ scope returns := by
  intro d hst hu
  suffices h : ∃ d', Yields e.encode d () d' by
    obtain ⟨d', h⟩ := h
    exact ⟨[], d', yields_expression.2 ⟨rfl, h⟩⟩
  rcases hp with ⟨sort, ht⟩ | ⟨-, condition, ha, ht⟩
  · obtain ⟨d', h⟩ := ht.evaluates hst hu
    exact ⟨d', h.yields⟩
  · obtain ⟨rest, hst'⟩ := Expr.stage_asserted ha hst
    obtain ⟨d₁, h₁, -, hu₁⟩ := Expr.condition_evaluates ht hst' hu
    exact ⟨_, (Expr.yields_assertion ha).2 ⟨d₁, h₁.yields,
      (Expr.yields_assume_evaluated ht h₁ hu₁.phase).2 rfl⟩⟩

theorem succeeds_ret {value : Option Expr} (hp : (ret location value).Plain loops Γ returns) :
    (ret location value).Succeeds Γ scope returns := by
  intro d hst hu
  cases value with
  | none => exact ⟨_, d, yields_ret_none.2 ⟨rfl, rfl⟩⟩
  | some e =>
    obtain ⟨slot, domain, rfl, -, ht⟩ := hp e rfl
    obtain ⟨d₁, h₁⟩ := ht.evaluates hst hu
    have hu₁ := hu.later (ht.grows hst h₁.yields).later
    obtain ⟨d', h⟩ : ∃ d', Yields (giveBack location [slot] e) d₁ () d' := by
      cases hv : d₁.registered? slot.id with
      | none => exact ⟨d₁, yields_giveBack_one.2 (.inl ⟨hv, rfl⟩)⟩
      | some v =>
        obtain ⟨d', h⟩ := exists_assignFrom h₁ hu₁.phase slot.id location
        exact ⟨d', yields_giveBack_one.2 (.inr ⟨by simp [hv], h⟩)⟩
    exact ⟨_, d', yields_ret_some.2 ⟨d₁, h₁.yields, h, rfl⟩⟩

theorem succeeds_branch {condition : Expr} {yes : Stmt} {no : Option Stmt}
    (hc : Expr.Typed Γ condition .bool) (hpy : yes.Plain loops Γ returns)
    (hy : yes.Succeeds Γ scope returns) (hno : ∀ s ∈ no, s.Plain loops Γ returns)
    (hn : ∀ s ∈ no, s.Succeeds Γ scope returns) :
    (branch location condition yes no).Succeeds Γ scope returns := by
  intro d hst hu
  obtain ⟨d₁, h₁, hst₁, hu₁⟩ := Expr.condition_evaluates hc hst hu
  have hcov : d₁.Covers (condition.term .bool) := covers_expression h₁.known
  have hsort : (condition.term .bool).HasSort .bool := Term.hasSort_expression _ _
  have hstp := hst₁.pushed hcov hsort
  have hup : (d₁.pushed (condition.term .bool)).Unguarded := ⟨hu₁.phase, hu₁.settings⟩
  obtain ⟨yesExits, e₁, he₁⟩ := hy hstp.left hup
  have hgy := grows_encode yes hstp.left hpy.consistent he₁
  have hgate := hgy.gated hcov hsort
  have hste : Stage Γ scope (nodesOfOption no) e₁.popped :=
    hst₁.next hgate.grows (List.Subset.refl _)
  have hue := hu₁.later hgate.grows.later
  obtain ⟨noExits, d₅, h₅, hp₅⟩ : ∃ noExits d₅,
      Yields (encodeElse returns location condition d₁.versions e₁.popped.versions no) e₁.popped
        noExits d₅ ∧ d₅.phase = .encoding := by
    cases no with
    | none => exact ⟨[], _, yields_pure.2 ⟨rfl, rfl⟩, hue.phase⟩
    | some no =>
      have hk : e₁.popped.known.lookup condition.id = some .bool :=
        hgate.grows.later.known _ _ h₁.known
      have hcov' : e₁.popped.Covers (.not (condition.term .bool)) :=
        covers_not.2 (covers_expression hk)
      have hu' : (e₁.popped.pushed (.not (condition.term .bool))).Unguarded :=
        ⟨hue.phase, hue.settings⟩
      obtain ⟨e₂, hr⟩ := exists_restore hu'.phase d₁.versions e₁.popped.versions location
      have hgr : Grows (bodyLicence [] d.settings)
          (e₁.popped.pushed (.not (condition.term .bool))) e₂ :=
        grows_restore (hgate.grows.later.trans .pushed) hst₁.ready.ids (fun _ => trivial) hr
      have hst₂ := (hste.pushed hcov' (.not hsort)).still hgr (List.Subset.refl _)
      obtain ⟨exits, e₃, he₃⟩ := hn no rfl hst₂ (hu'.later hgr.later)
      have hgn := grows_encode no hst₂ (hno no rfl).consistent he₃
      refine ⟨exits, e₃.popped, yields_encodeElse.2 ⟨_, e₂, e₃,
        (yields_pushPath_known hk).2 rfl, hr,
        he₃, ?_, rfl⟩, ((hu'.later hgr.later).later hgn.grows.later).phase⟩
      rw [hgn.grows.path, hgr.path]
      exact List.cons_ne_nil _ _
  obtain ⟨d', h'⟩ := exists_mergeVersions hp₅ (condition.term .bool) d₁.versions e₁.popped.versions
    d₅.versions location
  exact ⟨_, d', yields_branch.2 ⟨d₁, _, d₁, _, yesExits, e₁, noExits, d₅, h₁.yields,
    h₁.valueOf (.refl d₁), (yields_pushPath_known h₁.known).2 rfl, he₁, hgy.path_ne_nil, h₅, h',
    rfl⟩⟩

theorem succeeds_cons {s : Stmt} {rest : List Stmt} (hps : s.Plain loops Γ returns)
    (hs : s.Succeeds Γ scope returns)
    (hpr : PlainAll loops Γ returns rest)
    (hr : ∀ {d}, Stage Γ scope (nodesOfAll rest) d → d.Unguarded →
      ∃ exits d', Yields (encodeAll returns rest) d exits d')
    (hst : Stage Γ scope (nodesOfAll (s :: rest)) d) (hu : d.Unguarded) :
    ∃ exits d', Yields (encodeAll returns (s :: rest)) d exits d' := by
  obtain ⟨first, d₁, h₁⟩ := hs hst.left hu
  have hg := grows_encode s hst.left hps.consistent h₁
  have hst₁ : Stage Γ scope (nodesOfAll rest) d₁ := hst.next hg.grows (List.Subset.refl _)
  have hu₁ := hu.later hg.grows.later
  cases ht : Term.disjunction? first with
  | none =>
    obtain ⟨exits, d', h'⟩ := hr hst₁ hu₁
    exact ⟨exits, d', yields_encodeAll_cons.2 ⟨first, d₁, h₁, .inl ⟨ht, h'⟩⟩⟩
  | some taken =>
    have hcov : d₁.Covers (.not taken) := covers_not.2 (hg.covers_taken ht)
    have hstp := hst₁.pushed hcov (.not (Term.hasSort_disjunction ht hg.sorts))
    obtain ⟨later, e, he⟩ := hr hstp ⟨hu₁.phase, hu₁.settings⟩
    have hge := grows_encodeAll rest hstp hpr.consistent he
    obtain ⟨d', h'⟩ := exists_mergeVersions (d := e.popped) (hge.grows.later.phase.trans hu₁.phase)
      (.not taken) d₁.versions e.popped.versions d₁.versions s.location
    exact ⟨_, d', yields_encodeAll_cons.2 ⟨first, d₁, h₁, .inr ⟨taken, later, e, ht, he,
      hge.path_ne_nil, h', rfl⟩⟩⟩

/-! ### Loops -/

/-- Forgetting variables leaves the draft ready for what comes next. -/
theorem stage_forgetAll {nodes : List Expr} {ids : List Nat} (hst : Stage Γ scope nodes d)
    (hu : d.Unguarded) (h : Yields (forgetAll ids location) d () d') :
    Stage Γ scope nodes d' ∧ d'.Unguarded := by
  have hg : Grows (bodyLicence [] d.settings) d d' := grows_forgetAll (fun _ _ => trivial) h
  exact ⟨hst.still hg (List.Subset.refl _), hu.later hg.later⟩

theorem exists_enter {condition : Option Expr} {next : List Expr}
    (hc : ∀ e ∈ condition, Expr.Typed Γ e .bool)
    (hst : Stage Γ scope (nodesOfExpr condition ++ next) d) (hu : d.Unguarded) :
    ∃ d', Yields (enter condition) d () d' ∧ Stage Γ scope next d' ∧ d'.Unguarded ∧
      (condition.isSome → d'.path ≠ []) := by
  cases condition with
  | none => exact ⟨d, yields_pure.2 ⟨rfl, rfl⟩, hst, hu, by simp⟩
  | some e =>
    obtain ⟨d₁, h₁, hst₁, hu₁⟩ := Expr.condition_evaluates (hc e rfl) hst hu
    exact ⟨_, yields_seq.2 ⟨d₁, h₁.yields, (yields_pushPath_known h₁.known).2 rfl⟩,
      hst₁.pushed (covers_expression h₁.known) (Term.hasSort_expression _ _),
      ⟨hu₁.phase, hu₁.settings⟩, fun _ => List.cons_ne_nil _ _⟩

theorem exists_leave {condition : Option Expr} (h : condition.isSome → d.path ≠ []) :
    ∃ d', Yields (leave condition) d () d' ∧ d'.phase = d.phase := by
  cases condition with
  | none => exact ⟨d, yields_pure.2 ⟨rfl, rfl⟩, rfl⟩
  | some e => exact ⟨_, yields_popPath.2 ⟨h rfl, rfl⟩, rfl⟩

theorem exists_encodeOptional {step : Option Expr} (hs : ∀ e ∈ step, ∃ sort, Expr.Typed Γ e sort)
    (hst : Stage Γ scope (nodesOfExpr step) d) (hu : d.Unguarded) :
    ∃ d', Yields (encodeOptional step) d () d' := by
  cases step with
  | none => exact ⟨d, yields_pure.2 ⟨rfl, rfl⟩⟩
  | some e =>
    obtain ⟨sort, ht⟩ := hs e rfl
    obtain ⟨d', h⟩ := ht.evaluates hst hu
    exact ⟨d', h.yields⟩

theorem exists_encodesTurn {written : List Nat} {condition step : Option Expr} {body : Stmt}
    (hc : ∀ e ∈ condition, Expr.Typed Γ e .bool) (hs : ∀ e ∈ step, ∃ sort, Expr.Typed Γ e sort)
    (hpb : body.Plain loops Γ returns) (hb : body.Succeeds Γ scope returns)
    (hst : Stage Γ scope (nodesOfExpr condition ++ (body.nodes ++ nodesOfExpr step)) d)
    (hu : d.Unguarded) :
    ∃ exits d', EncodesTurn returns location written condition step body d exits d' := by
  have hw : Stage Γ scope (nodesOfExpr condition ++ (body.nodes ++ nodesOfExpr step))
      (d.warned location .loop) :=
    hst.still (.warned (L := bodyLicence [] d.settings)) (List.Subset.refl _)
  obtain ⟨d₁, h₁⟩ := exists_forgetAll (d := d.warned location .loop) hu.phase written location
  obtain ⟨hst₁, hu₁⟩ := stage_forgetAll hw ⟨hu.phase, hu.settings⟩ h₁
  obtain ⟨d₂, h₂, hst₂, hu₂, hpath⟩ := exists_enter hc hst₁ hu₁
  obtain ⟨exits, d₃, h₃⟩ := hb hst₂.left hu₂
  have hg₃ := grows_encode body hst₂.left hpb.consistent h₃
  have hst₃ : Stage Γ scope (nodesOfExpr step) d₃ := hst₂.next hg₃.grows (List.Subset.refl _)
  have hu₃ := hu₂.later hg₃.grows.later
  obtain ⟨d₄, h₄⟩ := exists_encodeOptional hs hst₃ hu₃
  have hg₄ := grows_encodeOptional hst₃ (fun e he => (hs e he).elim fun _ ht => ht.consistent) h₄
  have hpath₄ : condition.isSome → d₄.path ≠ [] := fun h => by
    rw [hg₄.path, hg₃.grows.path]
    exact hpath h
  obtain ⟨d₅, h₅, hp₅⟩ := exists_leave hpath₄
  obtain ⟨d', h₆⟩ := exists_forgetAll (hp₅.trans (hu₃.later hg₄.later).phase) written location
  exact ⟨exits, d', d₁, d₂, d₃, d₄, d₅, h₁, h₂, h₃, h₄, h₅, h₆⟩

theorem succeeds_whileLoop {condition : Expr} {body : Stmt} {isBodyFirst : Bool}
    (hc : Expr.Typed Γ condition .bool) (hpb : body.Plain loops Γ returns)
    (hb : body.Succeeds Γ scope returns) :
    (whileLoop location condition body isBodyFirst).Succeeds Γ scope returns := by
  intro d hst hu
  cases isBodyFirst with
  | false =>
    obtain ⟨exits, d', h⟩ : ∃ exits d', EncodesTurn returns location
        (ordered (body.writes ++ condition.writes)) (some condition) none body d exits d' :=
      exists_encodesTurn (fun e he => Option.some.inj he ▸ hc) (fun e he => nomatch he) hpb hb
        (stage_whileLoop hst).1 hu
    exact ⟨exits, d', yields_whileLoop_testFirst.2 h⟩
  | true =>
    obtain ⟨exits, d', h⟩ : ∃ exits d', EncodesTurn returns location
        (ordered (body.writes ++ condition.writes)) none (some condition) body d exits d' :=
      exists_encodesTurn (fun e he => nomatch he) (fun e he => Option.some.inj he ▸ ⟨.bool, hc⟩)
        hpb hb (stage_whileLoop hst).2 hu
    exact ⟨exits, d', yields_whileLoop_bodyFirst.2 h⟩

theorem succeeds_forLoop {first : Option Stmt} {condition step : Option Expr} {body : Stmt}
    (hpf : PlainOption loops Γ returns first) (hf : ∀ s ∈ first, s.Succeeds Γ scope returns)
    (hc : ∀ e ∈ condition, Expr.Typed Γ e .bool) (hs : ∀ e ∈ step, ∃ sort, Expr.Typed Γ e sort)
    (hpb : body.Plain loops Γ returns) (hb : body.Succeeds Γ scope returns) :
    (forLoop location first condition step body).Succeeds Γ scope returns := by
  intro d hst hu
  have hst' : Stage Γ scope (nodesOfOption first ++
      (nodesOfExpr condition ++ (body.nodes ++ nodesOfExpr step))) d := hst
  obtain ⟨startExits, d₀, h₀, hst₀, hu₀⟩ : ∃ startExits d₀, Yields
    (start returns first) d startExits d₀ ∧
      Stage Γ scope (nodesOfExpr condition ++ (body.nodes ++ nodesOfExpr step)) d₀ ∧ d₀.Unguarded
      := by
    cases first with
    | none => exact ⟨[], d, yields_pure.2 ⟨rfl, rfl⟩, hst'.right, hu⟩
    | some s =>
      obtain ⟨exits, d₀, h₀⟩ := hf s rfl hst'.left hu
      have hg := grows_encode s hst'.left (Plain.consistent hpf) h₀
      exact ⟨exits, d₀, h₀, hst'.next hg.grows (List.Subset.refl _), hu.later hg.grows.later⟩
  obtain ⟨bodyExits, d', h'⟩ : ∃ exits d', EncodesTurn returns location
      (ordered (body.writes ++ writesOfExpr condition ++ writesOfExpr step)) condition step body d₀
      exits d' :=
    exists_encodesTurn hc hs hpb hb hst₀ hu₀
  exact ⟨_, d', yields_forLoop.2 ⟨startExits, d₀, bodyExits, h₀, h', rfl⟩⟩

mutual

/-- Every statement of the fragment can be encoded. -/
theorem Plain.succeeds : ∀ {s : Stmt}, s.Plain loops Γ returns → s.Succeeds Γ scope returns
  | .block _ _, h => fun _ hst hu => PlainAll.succeeds h hst hu
  | .declare _ _ _, h => succeeds_declare h
  | .expression _ _, h => succeeds_expression h
  | .branch _ _ _ none, h => succeeds_branch h.1 h.2.1 h.2.1.succeeds (by simp) (by simp)
  | .branch _ _ _ (some no), h => by
    have hno : no.Plain loops Γ returns := h.2.2
    exact succeeds_branch h.1 h.2.1 h.2.1.succeeds (fun s hs => Option.some.inj hs ▸ hno)
      (fun s hs => Option.some.inj hs ▸ hno.succeeds)
  | .whileLoop _ _ _ _, h => succeeds_whileLoop h.2.1 h.2.2 h.2.2.succeeds
  | .forLoop _ none _ _ _, h => by
    obtain ⟨-, -, hf, hc, hs, hb⟩ := h
    exact succeeds_forLoop hf (by simp) hc hs hb hb.succeeds
  | .forLoop _ (some first) _ _ _, h => by
    obtain ⟨-, -, hf, hc, hs, hb⟩ := h
    have hfirst : first.Plain loops Γ returns := hf
    exact succeeds_forLoop hf (fun s hs => Option.some.inj hs ▸ hfirst.succeeds) hc hs hb
      hb.succeeds
  | .ret _ _, h => succeeds_ret h

theorem PlainAll.succeeds : ∀ {body : List Stmt}, PlainAll loops Γ returns body → ∀ {d : Draft},
    Stage Γ scope (nodesOfAll body) d → d.Unguarded →
      ∃ exits d', Yields (encodeAll returns body) d exits d'
  | [], _, d, _, _ => ⟨[], d, yields_encodeAll_nil.2 ⟨rfl, rfl⟩⟩
  | _ :: _, h, _, hst, hu =>
    succeeds_cons h.1 h.1.succeeds h.2 (fun hst hu => PlainAll.succeeds h.2 hst hu) hst hu

end

end Source.Stmt

end PathFormula
