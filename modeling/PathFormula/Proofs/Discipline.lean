import PathFormula.Proofs.Composition

/-!
# Errors of an analysis

An encoding cannot fail for want of a phase or a path condition (`Composed.arises`): the phase is
set before the body and nothing in a body changes it, and every branch is closed where it was
opened. So an analysis that fails does so for a reason in the source, or because a value must be
known, and it reports that as its only error and after all warnings (`analyze_disciplined`).
-/
namespace PathFormula

open Source

theorem DraftError.arises_of_termSort {e : Expr} {err : DraftError} (isStrict : Bool)
    (h : e.termSort = .error err) : err.arises isStrict = true := by
  unfold Expr.termSort at h
  split at h
  · split at h <;> cases h
    rfl
  all_goals cases h
  rfl

theorem DraftError.arises_mono {err : DraftError} (isStrict : Bool)
    (h : err.arises false = true) : err.arises isStrict = true := by
  cases err with
  | undefinedExpression | emptyPath | finalized | wrongPhase => cases h
  | _ => rfl

namespace Draft

variable {α β : Type} {K : Mandate} {xs : List Expr} {x : Drafting α} {d d' : Draft}

/-! ### Errors of encodings -/

/-- A draft that encodes only fails for a reason in the source, or for a value that is unknown. -/
theorem Composed.arises (h : Composed K xs x) (hr : d.isRegistered = K.registered)
    (hp : d.phase = .encoding) :
    Ends x d (fun _ _ => True) fun err _ => err.arises d.settings.isStrict = true := by
  induction h generalizing d with
  | pure a => trivial
  | reject h => exact DraftError.arises_mono _ h
  | bind hx hf ihx ihf =>
    refine (ihx hr hp).bind fun a d₁ hy _ => ?_
    have hl := hx.later hr hy
    rw [← hl.settings]
    exact ihf a (hx.isRegistered hr hy) (hl.phase.trans hp)
  | read hv _ ih => exact ih d hr hr hp
  | demand => exact .requireEncoding (fun _ => trivial) fun hn => absurd hp hn
  | warn location notice => trivial
  | emit fact location => trivial
  | @value _ _ e _ he hf ih =>
    refine ends_bind.2 (.valueOf (fun sort _ => ih sort hr hp) (fun _ hs => hs)
      (fun sort _ _ _ _ => ih sort hr hp) (fun _ _ _ _ => DraftError.arises_of_termSort _)
      fun _ _ hn => absurd hp hn)
  | define e t =>
    exact .define (fun _ _ _ => trivial) (fun _ _ _ _ => trivial)
      (fun _ _ _ => DraftError.arises_of_termSort _) fun hn => absurd hp hn
  | create he =>
    exact .create (fun _ _ _ => trivial) (fun _ _ _ _ => trivial)
      (fun _ _ _ => DraftError.arises_of_termSort _) fun hn => absurd hp hn
  | announce he notice =>
    exact ends_warn_bind.2 (.create (fun _ _ _ => trivial) (fun _ _ _ _ => trivial)
      (fun _ _ _ => DraftError.arises_of_termSort _) fun hn => absurd hp hn)
  | write hid location fact =>
    exact .write (fun _ _ => trivial) (fun _ _ _ => trivial) fun hn => absurd hp hn
  | branch _ condition hx ih =>
    refine ends_pushCondition_bind.2 ((ih (d := d.pushed condition) hr hp).bind fun a d₁ hy _ => ?_)
    have hpath := ((hx.changes (d := d.pushed condition) allows_later hr).of_yields hy).2
    exact .popPath_bind (by rw [hpath]; exact List.cons_ne_nil _ _) trivial
  | divide _ _ _ _ ih =>
    refine .arithmetic_div_bind ?_
    split
    · exact ih _ hr hp
    · exact ih _ hr hp

/-- A later draft with no more errors among its diagnostics. -/
def Warns (d d' : Draft) : Prop :=
  Later d d' ∧ d'.diagnostics.hasErrors = d.diagnostics.hasErrors

theorem hasErrors_report_warning (ds : Diagnostics) (location : Location) (notice : Notice) :
    (ds.report .warning location notice).hasErrors = ds.hasErrors := by
  simp [Diagnostics.report, Diagnostics.hasErrors, Diagnostic.isError]

theorem hasErrors_warned (d : Draft) (location : Location) (notice : Notice) :
    (d.warned location notice).diagnostics.hasErrors = d.diagnostics.hasErrors :=
  hasErrors_report_warning d.diagnostics location notice

theorem allows_warns : K.Allows Warns where
  later h := h.1
  refl d := ⟨.refl d, rfl⟩
  trans h h' := ⟨h.1.trans h'.1, h'.2.trans h.2⟩
  warned d location notice := ⟨.warned, hasErrors_warned d location notice⟩
  emitted _ _ _ := ⟨.emitted, rfl⟩
  named _ hk := ⟨.named hk, rfl⟩
  advanced _ _ _ := ⟨.advanced, rfl⟩
  withPath _ _ _ := ⟨.withPath, rfl⟩

/-! ### The opening -/

variable {contract : Contract} {f : Function} {settings : Settings}

theorem Ends.requirePhase_bind {phase : Phase} {activity : Activity} {g : Unit → Drafting β}
    {P : β → Draft → Prop} {Q : DraftError → Draft → Prop} (hp : d.phase = phase)
    (h : Ends (g ()) d P Q) : Ends (requirePhase phase activity >>= g) d P Q := by
  rwa [Ends, run_requirePhase_bind, if_pos hp]

/-- What every element keeps is kept by all, and every element fails in the same way. -/
theorem Ends.forM {as : List α} {g : α → Drafting Unit} {P : Draft → Prop}
    {Q : DraftError → Draft → Prop} (h : ∀ a d, P d → Ends (g a) d (fun _ => P) Q) (hd : P d) :
    Ends (as.forM g) d (fun _ => P) Q := by
  induction as generalizing d with
  | nil => exact hd
  | cons a rest ih => exact (h a d hd).bind fun _ _ _ => ih

section Registration

variable {P : Diagnostics → Prop} {isStrict : Bool}

/-- Registration only fails for a number that is taken, and says nothing but that a type has no
variables. -/
theorem ends_register {partition : Partition} {declaration : Declaration}
    (hw : ∀ {ds location ty}, P ds → P (ds.report .warning location (.variableType ty)))
    (hp : d.phase = .registering) (hd : P d.diagnostics) :
    Ends (register partition declaration) d
      (fun _ d' => d'.phase = .registering ∧ P d'.diagnostics)
      fun err d' => err.arises isStrict = true ∧ P d'.diagnostics := by
  refine .requirePhase_bind hp ?_
  split
  · exact ⟨hp, hw hd⟩
  · rw [ends_get_bind]
    dsimp only
    split
    · exact ⟨rfl, hd⟩
    · exact ⟨hp, hd⟩

theorem ends_prepare
    (hw : ∀ {ds location ty}, P ds → P (ds.report .warning location (.variableType ty)))
    (hp : d.phase = .created) (hd : P d.diagnostics) :
    Ends (prepare contract f) d (fun _ d' => P d'.diagnostics)
      fun err d' => err.arises isStrict = true ∧ P d'.diagnostics := by
  unfold prepare startRegistration
  rw [bind_assoc]
  refine .requirePhase_bind hp (ends_modify_bind.2 ?_)
  refine .bind (.forM (P := fun d => d.phase = .registering ∧ P d.diagnostics)
    (fun p d hd => ends_register hw hd.1 hd.2) ⟨rfl, hd⟩) fun _ d₁ _ hd => ?_
  exact .requirePhase_bind hd.1 hd.2

end Registration

theorem ends_warnings (f : Function) (d : Draft) :
    Ends f.warnings d (fun _ d' => d'.diagnostics.hasErrors = d.diagnostics.hasErrors)
      fun _ _ => False := by
  unfold Function.warnings
  cases f.isConstructor <;> cases f.modifiers.isEmpty <;> simp [hasErrors_warned]

/-- The mandate of a body: its own expressions, and all variables. -/
def bodyMandate (body : List Stmt) (registered : Nat → Bool) : Mandate where
  nodes e := e ∈ Stmt.nodesOfAll body
  opens e := e ∈ Stmt.nodesOfAll body ∧ e.isFraction = true
  writes _ := True
  registered := registered

theorem composed_encodeAll_body (returns : List Declaration) (body : List Stmt)
    (registered : Nat → Bool) :
    Composed (bodyMandate body registered) (Stmt.divisionsOfAll registered body)
      (Stmt.encodeAll returns body) :=
  composed_body (fun _ => trivial) trivial body fun _ hx =>
    ⟨hx, fun hf => ⟨hx, hf⟩, fun _ _ => trivial⟩

theorem ends_encode (settings : Settings) (contract : Contract) (f : Function) :
    Ends (f.encode contract) { settings }
      (fun _ d' => d'.path = [] ∧ d'.diagnostics.hasErrors = false)
      fun err d' => err.arises settings.isStrict = true ∧ d'.diagnostics.hasErrors = false := by
  refine .bind ((ends_warnings f { settings }).mono (fun _ _ _ h => h) fun _ _ h => h.elim)
    fun _ d₀ hw hd₀ => ?_
  obtain ⟨ds, rfl⟩ := yields_warnings hw
  have hwarned {ds : Diagnostics} {location : Location} {ty : Ty} (h : ds.hasErrors = false) :
      (ds.report .warning location (.variableType ty)).hasErrors = false :=
    (hasErrors_report_warning ds location _).trans h
  refine (ends_prepare (P := (·.hasErrors = false)) hwarned rfl hd₀).bind fun _ d hy hd => ?_
  have ho := Opening.of_yields hy
  have hbody := (composed_encodeAll_body f.returns f.body d.isRegistered).discard
  have hends := (hbody.changes allows_warns rfl).and (hbody.arises rfl ho.phase)
  refine hends.mono (fun _ d' _ h => ⟨h.1.2.trans ho.path, h.1.1.2.trans hd⟩) fun err d' h => ?_
  rw [ho.settings] at h
  exact ⟨h.2, h.1.2.trans hd⟩

/-- **Discipline of an analysis.** A statement that is encoded leaves the path as it was. An
analysis that succeeds ends finalized, under no path condition and without errors. One that fails
does so for a reason in the source, or for an unknown value where values must be known, and reports
that as its only error, after all warnings. -/
theorem analyze_disciplined (settings : Settings) (contract : Contract) (f : Function) :
    (∀ returns s d exits d', Yields (Stmt.encode returns s) d exits d' → d'.path = d.path) ∧
    match (f.analyze settings contract).outcome with
    | .ok d => d.phase = .finalized ∧ d.depth = 0 ∧
        (f.analyze settings contract).diagnostics.hasErrors = false
    | .error err =>
        err ≠ .emptyPath ∧ err ≠ .finalized ∧ (∀ activity phase, err ≠ .wrongPhase activity phase) ∧
        (∀ id location, err = .undefinedExpression id location → settings.isStrict = true) ∧
        ∃ warnings : Diagnostics, warnings.hasErrors = false ∧
          (f.analyze settings contract).diagnostics = warnings ++
            [⟨.error, err.location?.getD f.location, .abandoned contract.name f.name err⟩] := by
  refine ⟨fun returns s d exits d' h => (Stmt.continues_encode returns s h).path, ?_⟩
  have h := ends_encode settings contract f
  unfold Ends at h
  unfold Function.analyze
  cases hrun : (f.encode contract).run { settings } with
  | ok u d =>
    rw [hrun] at h
    exact ⟨rfl, by rw [depth, h.1]; rfl, h.2⟩
  | error err d =>
    rw [hrun] at h
    obtain ⟨ha, he⟩ := h
    refine ⟨?_, ?_, ?_, ?_, d.diagnostics, he, rfl⟩
    · rintro rfl
      cases ha
    · rintro rfl
      cases ha
    · rintro activity phase rfl
      cases ha
    · rintro id location rfl
      exact ha

/-- The statement `if (!b) return;`, in which `b` is marked as a target and so gets no symbol. -/
def peek : Stmt :=
  .branch {} (.unary ⟨3, {}, .bool⟩ .not true (.identifier ⟨2, {}, .bool⟩ "b" (some 1) true))
    (.ret {} none) none

def peeking : Function where
  id := 1
  name := "f"
  location := {}
  parameters := [{ id := 1, name := "b", ty := .bool, location := {} }]
  returns := []
  body := [peek]

theorem peeking_disciplined :
    (∃ exits d', Yields (peek.encode []) { phase := .encoding, path := [.ofBool true] } exits d' ∧
      d'.path = [.ofBool true]) ∧
    (∃ d, (peeking.analyze {} ⟨0, "C", {}, [], [peeking]⟩).outcome = .ok d ∧
      d.phase = .finalized ∧ d.depth = 0) ∧
    ∃ warnings : Diagnostics, warnings.hasErrors = false ∧
      (peeking.analyze { isStrict := true } ⟨0, "C", {}, [], [peeking]⟩).diagnostics = warnings ++
        [⟨.error, {}, .abandoned "C" "f" (.undefinedExpression 2 {})⟩] := by
  have hok : (peeking.analyze {} ⟨0, "C", {}, [], [peeking]⟩).outcome.isOk = true := by
    decide +kernel
  have herror : (match (peeking.analyze { isStrict := true }
      ⟨0, "C", {}, [], [peeking]⟩).outcome with
      | .ok _ => none
      | .error err => some err) = some (.undefinedExpression 2 {}) := by
    decide +kernel
  have hpeek : (match (peek.encode []).run { phase := .encoding, path := [.ofBool true] } with
      | .ok _ _ => true
      | .error _ _ => false) = true := by
    decide +kernel
  refine ⟨?_, ?_, ?_⟩
  · cases hd : (peek.encode []).run { phase := .encoding, path := [.ofBool true] } with
    | error err d =>
      rw [hd] at hpeek
      cases hpeek
    | ok exits d =>
      have hpath := (analyze_disciplined {} ⟨0, "C", {}, [], [peeking]⟩ peeking).1
      exact ⟨exits, d, hd, hpath [] peek _ exits d hd⟩
  · have h := (analyze_disciplined {} ⟨0, "C", {}, [], [peeking]⟩ peeking).2
    cases hd : (peeking.analyze {} ⟨0, "C", {}, [], [peeking]⟩).outcome with
    | error err =>
      rw [hd] at hok
      cases hok
    | ok d =>
      rw [hd] at h
      exact ⟨d, rfl, h.1, h.2.1⟩
  · have h := (analyze_disciplined { isStrict := true } ⟨0, "C", {}, [], [peeking]⟩ peeking).2
    cases hd : (peeking.analyze { isStrict := true } ⟨0, "C", {}, [], [peeking]⟩).outcome with
    | ok d =>
      rw [hd] at herror
      cases herror
    | error err =>
      rw [hd] at h herror
      cases herror
      exact h.2.2.2.2

end Draft

end PathFormula
