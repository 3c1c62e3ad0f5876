import PathFormula.Proofs.DivisionGuards

/-!
# Strict lookups

A strict draft fails where a permissive one warns that a value was never encoded, and does the same
otherwise. An encoding and its strict twin go through the same steps up to the first such warning
(`Composed.shadows`).
-/
namespace PathFormula

open Source

/-- No diagnostic says that a value was never encoded. -/
def Diagnostics.AllDefined (ds : Diagnostics) : Prop := ∀ x ∈ ds, x.notice ≠ .undefinedExpression

theorem Diagnostics.allDefined_append {ds ds' : Diagnostics} :
    AllDefined (ds ++ ds') ↔ ds.AllDefined ∧ ds'.AllDefined :=
  List.forall_mem_append

theorem Diagnostics.AllDefined.report {ds : Diagnostics} (h : ds.AllDefined) {severity : Severity}
    {location : Location} {notice : Notice} (hn : notice ≠ .undefinedExpression) :
    (ds.report severity location notice).AllDefined :=
  Diagnostics.allDefined_append.2 ⟨h, by simpa [Diagnostics.AllDefined]⟩

instance (ds : Diagnostics) : Decidable ds.AllDefined :=
  inferInstanceAs (Decidable (∀ x ∈ ds, x.notice ≠ .undefinedExpression))

namespace Draft

/-- The same draft where every value must be known. -/
def strict (d : Draft) : Draft := { d with settings := { d.settings with isStrict := true } }

section Fields

variable (d : Draft)

@[simp] theorem strict_phase : d.strict.phase = d.phase := rfl
@[simp] theorem strict_known : d.strict.known = d.known := rfl
@[simp] theorem strict_isStrict : d.strict.settings.isStrict = true := rfl
@[simp] theorem strict_guardsDivision :
    d.strict.settings.guardsDivision = d.settings.guardsDivision := rfl
@[simp] theorem strict_phaseError (activity : Activity) :
    d.strict.phaseError activity = d.phaseError activity := rfl
@[simp] theorem strict_registered? (id : Nat) : d.strict.registered? id = d.registered? id := rfl

@[simp] theorem warned_strict (location : Location) (notice : Notice) :
    d.strict.warned location notice = (d.warned location notice).strict := rfl
@[simp] theorem named_strict (id : Nat) (sort : TermSort) :
    d.strict.named id sort = (d.named id sort).strict := rfl
@[simp] theorem advanced_strict (id : Nat) : d.strict.advanced id = (d.advanced id).strict := rfl
@[simp] theorem emitted_strict (fact : Term) (location : Location) :
    d.strict.emitted fact location = (d.emitted fact location).strict := rfl

end Fields

variable {α β : Type} {K : Mandate} {xs : List Expr} {x : Drafting α} {f : α → Drafting β}
  {d d' : Draft}

def Fails (x : Drafting α) (d : Draft) : Prop := ∃ err d', x.run d = .error err d'

theorem Fails.bind (h : Fails x d) : Fails (x >>= f) d := by
  obtain ⟨err, d', h⟩ := h
  exact ⟨err, d', run_bind_of_error h⟩

theorem Fails.of_yields_bind {a : α} (hx : Yields x d a d') (h : Fails (f a) d') :
    Fails (x >>= f) d := by
  obtain ⟨err, e, h⟩ := h
  exact ⟨err, e, by rw [run_bind_of_yields hx, h]⟩

/-- The strict twin of a draft does the same, or fails where a value was never encoded. -/
def Shadows (x : Drafting α) (d : Draft) : Prop :=
  Ends x d
    (fun a d' => ∃ new, d'.diagnostics = d.diagnostics ++ new ∧
      (Yields x d.strict a d'.strict ∨ ¬ new.AllDefined ∧ Fails x d.strict))
    fun _ _ => Fails x d.strict

theorem Shadows.bind (hx : Shadows x d) (hf : ∀ a d', Yields x d a d' → Shadows (f a) d') :
    Shadows (x >>= f) d := by
  refine ends_bind.2 (Ends.mono hx (fun a d₁ hy h₁ => ?_) fun _ _ => Fails.bind)
  obtain ⟨new, hc, h₁⟩ := h₁
  refine Ends.mono (hf a d₁ hy) (fun b d₂ _ h₂ => ?_) fun _ _ h₂ => ?_
  · obtain ⟨new₂, hc₂, h₂⟩ := h₂
    refine ⟨new ++ new₂, by rw [hc₂, hc, List.append_assoc], ?_⟩
    rw [Diagnostics.allDefined_append, not_and_or]
    obtain hrun | ⟨hd, hfail⟩ := h₁
    · exact h₂.imp (fun h => yields_bind.2 ⟨a, _, hrun, h⟩)
        (And.imp .inr (Fails.of_yields_bind hrun))
    · exact .inr ⟨.inl hd, hfail.bind⟩
  · obtain hrun | ⟨-, hfail⟩ := h₁
    · exact h₂.of_yields_bind hrun
    · exact hfail.bind

theorem shadows_get_bind {f : Draft → Drafting β} (hf : f d.strict = f d) (h : Shadows (f d) d) :
    Shadows (get >>= f) d := by
  unfold Shadows Fails Yields at h ⊢
  rwa [ends_get_bind, run_get_bind, hf]

/-- A step that both take. -/
theorem shadows_of_yields {a : α} (h : Yields x d a d')
    (hd : ∃ new, d'.diagnostics = d.diagnostics ++ new) (hs : Yields x d.strict a d'.strict) :
    Shadows x d := by
  obtain ⟨new, hd⟩ := hd
  unfold Yields at h
  rw [Shadows, Ends, h]
  exact ⟨new, hd, .inl hs⟩

theorem shadows_of_error {err : DraftError} (h : x.run d = .error err d') (hs : Fails x d.strict) :
    Shadows x d := by
  rw [Shadows, Ends, h]
  exact hs

theorem shadows_pure {a : α} : Shadows (pure a) d := shadows_of_yields rfl ⟨[], by simp⟩ rfl

theorem shadows_throw {err : DraftError} : Shadows (throw err : Drafting α) d :=
  shadows_of_error rfl ⟨err, d.strict, rfl⟩

theorem shadows_warn {location : Location} {notice : Notice} : Shadows (warn location notice) d :=
  shadows_of_yields rfl ⟨[_], rfl⟩ rfl

theorem shadows_emit {fact : Term} {location : Location} : Shadows (emit fact location) d :=
  shadows_of_yields rfl ⟨[], by simp⟩ rfl

theorem shadows_modify (g : Draft → Draft) (hg : g d.strict = (g d).strict)
    (hd : (g d).diagnostics = d.diagnostics) : Shadows (modify g) d :=
  shadows_of_yields rfl ⟨[], by simp [hd]⟩ (yields_modify.2 hg.symm)

theorem shadows_pushCondition {condition : Term} : Shadows (pushCondition condition) d :=
  shadows_modify _ rfl rfl

theorem shadows_requirePhase {phase : Phase} {activity : Activity} :
    Shadows (requirePhase phase activity) d := by
  by_cases hp : d.phase = phase
  · have hrun (d : Draft) (hp : d.phase = phase) : Yields (requirePhase phase activity) d () d :=
      yields_requirePhase.2 ⟨hp, rfl⟩
    exact shadows_of_yields (hrun d hp) ⟨[], by simp⟩ (hrun d.strict hp)
  · have hrun (d : Draft) (hp : d.phase ≠ phase) :
        (requirePhase phase activity).run d = .error (d.phaseError activity) d := by
      rw [run_requirePhase_eq, if_neg hp]
    exact shadows_of_error (hrun d hp) ⟨_, _, hrun d.strict hp⟩

theorem shadows_popPath : Shadows popPath d := by
  by_cases hp : d.path = []
  · have hrun (d : Draft) (hp : d.path = []) : popPath.run d = .error .emptyPath d := by
      rw [run_popPath, if_pos hp]
    exact shadows_of_error (hrun d hp) ⟨_, _, hrun d.strict hp⟩
  · have hrun (d : Draft) (hp : d.path ≠ []) : Yields popPath d () d.popped :=
      yields_popPath.2 ⟨hp, rfl⟩
    exact shadows_of_yields (hrun d hp) ⟨[], by simp [popped]⟩ (hrun d.strict hp)

variable {e : Expr} {t : Term}

/-- The only step at which the two part. -/
theorem shadows_valueOf : Shadows (valueOf e) d := by
  have hstrict (hk : d.known.lookup e.id = none) : Fails (valueOf e) d.strict :=
    ⟨.undefinedExpression e.id e.location, d.strict, by simp [run_valueOf, hk]⟩
  refine .valueOf (fun sort hk => ⟨[], by simp, .inl ?_⟩) (fun hk _ => hstrict hk)
    (fun sort hk _ _ _ => ⟨[_], rfl, .inr ⟨?_, hstrict hk⟩⟩) (fun _ hk _ _ _ => hstrict hk)
    (fun hk _ _ => hstrict hk)
  · exact (yields_valueOf_known (d := d.strict) hk).2 ⟨rfl, rfl⟩
  · simp [Diagnostics.AllDefined]

theorem shadows_create : Shadows (create e) d := by
  have hrun := run_create e d.strict
  refine .create (fun sort hp hk => ⟨[_], rfl, .inl ?_⟩) (fun sort hp hk ht => ⟨[], ?_, .inl ?_⟩)
    (fun err hp hk ht => ⟨err, d.strict, ?_⟩) (fun hp => ⟨d.phaseError .encode, d.strict, ?_⟩)
  · simpa [Yields, hp, hk] using hrun
  · simp [named]
  · simpa [Yields, hp, hk, ht] using hrun
  · simpa [hp, hk, ht] using hrun
  · simpa [hp] using hrun

theorem shadows_define : Shadows (define e t) d := by
  have hrun := run_define e t d.strict
  refine .define (fun sort hp hk => ⟨[], ?_, .inl ?_⟩) (fun sort hp hk ht => ⟨[], ?_, .inl ?_⟩)
    (fun err hp hk ht => ⟨err, d.strict, ?_⟩) (fun hp => ⟨d.phaseError .encode, d.strict, ?_⟩)
  · simp [emitted]
  · simpa [Yields, hp, hk] using hrun
  · simp [emitted, named]
  · simpa [Yields, hp, hk, ht] using hrun
  · simpa [hp, hk, ht] using hrun
  · simpa [hp] using hrun

theorem shadows_write {id : Nat} {location : Location} {fact : Variable → Term} :
    Shadows (write id location fact) d := by
  have hrun := run_write id location fact d.strict
  refine .write (fun hp hr => ⟨[_], rfl, .inl ?_⟩) (fun v hp hr => ⟨[], ?_, .inl ?_⟩)
    (fun hp => ⟨d.phaseError .encode, d.strict, ?_⟩)
  · simpa [Yields, hp, hr] using hrun
  · simp [emitted, advanced]
  · simpa [Yields, hp, hr] using hrun
  · simpa [hp] using hrun

theorem shadows_arithmetic_div {ty : IntegerType} {l r : Term} {location : Location} :
    Shadows (arithmetic .div ty l r location) d := by
  cases hg : d.settings.guardsDivision with
  | true =>
    exact shadows_of_yields (yields_guarded_division hg) ⟨[], by simp [emitted]⟩
      (yields_guarded_division hg)
  | false =>
    have hrun (d : Draft) (hg : d.settings.guardsDivision = false) :
        Yields (arithmetic .div ty l r location) d (quotient ty l r) d := by
      rw [Yields, run_arithmetic_div, hg]
      rfl
    exact shadows_of_yields (hrun d hg) ⟨[], by simp⟩ (hrun d.strict hg)

/-- What an encoding does, its strict twin does as well, or it fails at an unknown value. -/
theorem Composed.shadows (h : Composed K xs x) (hr : d.isRegistered = K.registered) :
    Shadows x d := by
  induction h generalizing d with
  | pure a => exact shadows_pure
  | reject h => exact shadows_throw
  | bind hx hf ihx ihf => exact (ihx hr).bind fun a d₁ hy => ihf a (hx.isRegistered hr hy)
  | read hv _ ih => exact shadows_get_bind ((hv _).trans (hv d).symm) (ih d hr hr)
  | demand => exact shadows_requirePhase
  | warn location notice => exact shadows_warn
  | emit fact location => exact shadows_emit
  | value he hf ih =>
    refine shadows_valueOf.bind fun t d₁ hy => ?_
    have hl := (continues_valueOf hy).later
    obtain ⟨sort, rfl, -⟩ := yields_valueOf.1 hy
    exact ih sort (hl.isRegistered_eq.trans hr)
  | define e t => exact shadows_define
  | create he => exact shadows_create
  | announce he notice => exact shadows_warn.bind fun _ _ _ => shadows_create
  | write hid location fact => exact shadows_write
  | branch _ condition hx ih =>
    refine shadows_pushCondition.bind fun _ d₁ hy => ?_
    obtain rfl := yields_pushCondition.1 hy
    exact Shadows.bind (ih hr) fun a d₂ _ => shadows_popPath.bind fun _ _ _ => shadows_pure
  | divide _ _ _ _ ih =>
    refine shadows_arithmetic_div.bind fun t d₁ hd => ih t (Eq.trans ?_ hr)
    rw [Yields, run_arithmetic_div] at hd
    cases hd
    split <;> rfl

/-! ### Analyses -/

variable {contract : Contract} {f : Function}

theorem shadows_register {partition : Partition} {declaration : Declaration} :
    Shadows (register partition declaration) d := by
  refine shadows_requirePhase.bind fun _ d₁ _ => ?_
  split
  · exact shadows_warn
  · refine shadows_get_bind rfl ?_
    dsimp only
    split
    · exact shadows_throw
    · have henter (v : Registered) : Shadows (enter v) d₁ := shadows_modify _ rfl rfl
      exact (henter _).bind fun _ _ _ => shadows_emit

theorem shadows_prepare : Shadows (prepare contract f) d := by
  have hdeclarations : ∀ (ds : List (Partition × Declaration)) (d : Draft),
      Shadows (ds.forM fun p => register p.1 p.2) d := by
    intro ds
    induction ds with
    | nil => exact fun d => shadows_pure
    | cons p rest ih => exact fun d => shadows_register.bind fun _ d₁ _ => ih d₁
  have hstart : Shadows (startRegistration contract.name f.name) d :=
    shadows_requirePhase.bind fun _ _ _ => shadows_modify _ rfl rfl
  refine hstart.bind fun _ d₁ _ => (hdeclarations _ d₁).bind fun _ d₂ _ => ?_
  exact shadows_requirePhase.bind fun _ _ _ => shadows_modify _ rfl rfl

theorem shadows_encode (contract : Contract) (f : Function) (guards : Bool) :
    Shadows (f.encode contract) { settings := ⟨guards, false⟩ } := by
  refine ((composed_warnings (K := bodyMandate f.body fun _ => false) f).shadows rfl).bind
    fun _ d₀ hw => shadows_prepare.bind fun _ d hy => ?_
  obtain ⟨ds, rfl⟩ := yields_warnings hw
  exact (composed_encodeAll_body f.returns f.body _).discard.shadows
    (Opening.of_yields hy).isRegistered

end Draft

end PathFormula
