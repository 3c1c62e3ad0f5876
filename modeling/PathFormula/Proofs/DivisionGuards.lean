import PathFormula.Proofs.Discipline

/-!
# Guards of divisions

Guarding divisions adds one fact to a formula for every division that is encoded, and changes
nothing else. An encoding and its guarding twin, which has the same draft but for its settings and
constraints, go through the same steps (`Composed.mirrors`).
-/
namespace PathFormula

open Source

/-- All constraints of a division under a condition. They state its quotient: an assignment first
gives it to a new version of its variable, and then the symbol of the division has it. -/
inductive StatesQuotient (x : Expr) (guard quotient : Term) : List Constraint → Prop
  | value (sort : TermSort) (h : x.written? = none) :
      StatesQuotient x guard quotient [⟨guard, .eq (x.term sort) quotient, x.location⟩]
  | assigned (v : Variable) (sort : TermSort) (h : x.written? = some v.id) :
      StatesQuotient x guard quotient
        [⟨guard, .eq (v.term (v.version + 1)) quotient, x.location⟩,
          ⟨guard, .eq (x.term sort) quotient, x.location⟩]

/-- The second constraints are the first with guards for some divisions, in this order: directly
before all constraints of its own, every division has one more, under the same condition and at the
same place, that the divisor is not zero. -/
inductive Guarded : List Expr → List Constraint → List Constraint → Prop
  | nil : Guarded [] [] []
  | keep {xs : List Expr} {cs gs : List Constraint} (c : Constraint) (h : Guarded xs cs gs) :
      Guarded xs (c :: cs) (c :: gs)
  | divided {x y : Expr} {xs : List Expr} {own cs gs : List Constraint} {guard l : Term}
      {ty : IntegerType} {sort : TermSort} (hy : x.divisor? = some y)
      (ho : StatesQuotient x guard (quotient ty l (y.term sort)) own) (h : Guarded xs cs gs) :
      Guarded (x :: xs) (own ++ cs)
        (⟨guard, .ne (y.term sort) (.ofInt 0), x.location⟩ :: (own ++ gs))

namespace Guarded

variable {xs ys : List Expr} {cs cs' gs gs' : List Constraint}

theorem refl (cs : List Constraint) : Guarded [] cs cs := by
  induction cs with
  | nil => exact .nil
  | cons c cs ih => exact .keep c ih

theorem append (h : Guarded xs cs gs) (h' : Guarded ys cs' gs') :
    Guarded (xs ++ ys) (cs ++ cs') (gs ++ gs') := by
  induction h with
  | nil => exact h'
  | keep c _ ih => exact .keep c ih
  | divided hy ho _ ih =>
    rw [List.append_assoc, List.cons_append, List.cons_append, List.append_assoc]
    exact .divided hy ho ih

theorem eq_of_nil (h : Guarded [] cs gs) : gs = cs := by
  generalize hxs : ([] : List Expr) = xs at h
  induction h with
  | nil => rfl
  | keep c _ ih => rw [ih hxs]
  | divided => cases hxs

theorem sublist (h : Guarded xs cs gs) : cs.Sublist gs := by
  induction h with
  | nil => exact .slnil
  | keep c _ ih => exact .cons_cons c ih
  | divided _ _ _ ih => exact .cons _ (ih.append_left _)

theorem length (h : Guarded xs cs gs) : gs.length = cs.length + xs.length := by
  induction h with
  | nil => rfl
  | keep c _ ih =>
    simp only [List.length_cons, ih]
    omega
  | divided _ _ _ ih =>
    simp only [List.length_cons, List.length_append, ih]
    omega

end Guarded

namespace Draft

/-- The same draft where divisions are guarded, with other constraints. -/
def guarding (d : Draft) (gs : List Constraint) : Draft :=
  { d with settings := { d.settings with guardsDivision := true }, constraints := gs }

section Fields

variable (d : Draft) (gs : List Constraint)

@[simp] theorem guarding_phase : (d.guarding gs).phase = d.phase := rfl
@[simp] theorem guarding_known : (d.guarding gs).known = d.known := rfl
@[simp] theorem guarding_isStrict : (d.guarding gs).settings.isStrict = d.settings.isStrict := rfl
@[simp] theorem guarding_registered? (id : Nat) :
    (d.guarding gs).registered? id = d.registered? id := rfl
@[simp] theorem guarding_phaseError (activity : Activity) :
    (d.guarding gs).phaseError activity = d.phaseError activity := rfl

@[simp] theorem warned_guarding (location : Location) (notice : Notice) :
    (d.guarding gs).warned location notice = (d.warned location notice).guarding gs := rfl
@[simp] theorem named_guarding (id : Nat) (sort : TermSort) :
    (d.guarding gs).named id sort = (d.named id sort).guarding gs := rfl
@[simp] theorem advanced_guarding (id : Nat) :
    (d.guarding gs).advanced id = (d.advanced id).guarding gs := rfl
@[simp] theorem emitted_guarding (fact : Term) (location : Location) :
    (d.guarding gs).emitted fact location =
      (d.emitted fact location).guarding (gs ++ [⟨d.pathCondition, fact, location⟩]) := rfl

end Fields

variable {α β : Type} {K : Mandate} {xs ys : List Expr} {x : Drafting α} {f : α → Drafting β}
  {d d' : Draft}

/-- The computation does the same to the guarding twin of a draft, and adds guards for some
divisions to what it emits. -/
def Mirrors (xs : List Expr) (x : Drafting α) (d : Draft) : Prop :=
  ∀ gs, Ends x d
    (fun a d' => ∃ new new', d'.constraints = d.constraints ++ new ∧ Guarded xs new new' ∧
      x.run (d.guarding gs) = .ok a (d'.guarding (gs ++ new')))
    fun err d' => ∃ gs', x.run (d.guarding gs) = .error err (d'.guarding gs')

theorem Mirrors.bind (hx : Mirrors xs x d) (hf : ∀ a d', Yields x d a d' → Mirrors ys (f a) d') :
    Mirrors (xs ++ ys) (x >>= f) d := by
  intro gs
  refine ends_bind.2 ((hx gs).mono (fun a d₁ hy h₁ => ?_) fun err d₁ h₁ => ?_)
  · obtain ⟨new, new', hc, hg, hrun⟩ := h₁
    refine (hf a d₁ hy (gs ++ new')).mono (fun b d₂ _ h₂ => ?_) fun err d₂ h₂ => ?_
    · obtain ⟨new₂, new₂', hc₂, hg₂, hrun₂⟩ := h₂
      refine ⟨new ++ new₂, new' ++ new₂', by rw [hc₂, hc, List.append_assoc], hg.append hg₂, ?_⟩
      rw [run_bind_of_yields hrun, hrun₂, List.append_assoc]
    · obtain ⟨gs', hrun₂⟩ := h₂
      exact ⟨gs', by rw [run_bind_of_yields hrun, hrun₂]⟩
  · obtain ⟨gs', hrun⟩ := h₁
    exact ⟨gs', run_bind_of_error hrun⟩

theorem Mirrors.quiet_bind (hx : Mirrors [] x d)
    (hf : ∀ a d', Yields x d a d' → Mirrors ys (f a) d') : Mirrors ys (x >>= f) d :=
  hx.bind hf

theorem mirrors_get_bind {f : Draft → Drafting β} (hf : ∀ gs, f (d.guarding gs) = f d)
    (h : Mirrors xs (f d) d) : Mirrors xs (get >>= f) d := by
  intro gs
  have hrun : (get >>= f).run (d.guarding gs) = (f d).run (d.guarding gs) := by
    rw [run_get_bind, hf gs]
  rw [ends_get_bind, hrun]
  exact h gs

/-- A step that emits nothing. -/
theorem mirrors_of_silent {a : α} {d' : Draft} (h : x.run d = .ok a d')
    (hc : d'.constraints = d.constraints)
    (hg : ∀ gs, x.run (d.guarding gs) = .ok a (d'.guarding gs)) : Mirrors [] x d := by
  intro gs
  rw [Ends, h]
  exact ⟨[], [], by simp [hc], .nil, by simp [hg]⟩

theorem mirrors_of_error {err : DraftError} {d' : Draft} (h : x.run d = .error err d')
    (hg : ∀ gs, x.run (d.guarding gs) = .error err (d'.guarding gs)) : Mirrors xs x d := by
  intro gs
  rw [Ends, h]
  exact ⟨gs, hg gs⟩

theorem mirrors_warn {location : Location} {notice : Notice} :
    Mirrors [] (warn location notice) d :=
  mirrors_of_silent rfl rfl fun _ => rfl

theorem mirrors_emit {fact : Term} {location : Location} : Mirrors [] (emit fact location) d :=
  fun _ => ⟨[_], [_], rfl, .refl _, rfl⟩

theorem mirrors_requirePhase {phase : Phase} {activity : Activity} :
    Mirrors [] (requirePhase phase activity) d := by
  by_cases hp : d.phase = phase
  · have hrun (d : Draft) (hp : d.phase = phase) :
        (requirePhase phase activity).run d = .ok () d := by
      rw [run_requirePhase_eq, if_pos hp]
    exact mirrors_of_silent (hrun d hp) rfl fun gs => hrun (d.guarding gs) hp
  · have hrun (d : Draft) (hp : d.phase ≠ phase) :
        (requirePhase phase activity).run d = .error (d.phaseError activity) d := by
      rw [run_requirePhase_eq, if_neg hp]
    exact mirrors_of_error (hrun d hp) fun gs => hrun (d.guarding gs) hp

theorem mirrors_popPath : Mirrors [] popPath d := by
  by_cases hp : d.path = []
  · have hrun (d : Draft) (hp : d.path = []) : popPath.run d = .error .emptyPath d := by
      rw [run_popPath, if_pos hp]
    exact mirrors_of_error (hrun d hp) fun gs => hrun (d.guarding gs) hp
  · have hrun (d : Draft) (hp : d.path ≠ []) : popPath.run d = .ok () d.popped := by
      rw [run_popPath, if_neg hp]
    exact mirrors_of_silent (hrun d hp) rfl fun gs => hrun (d.guarding gs) hp

variable {e : Expr} {t : Term}

theorem mirrors_valueOf : Mirrors [] (valueOf e) d := by
  intro gs
  have hrun := run_valueOf e (d.guarding gs)
  refine .valueOf (fun sort hk => ?_) (fun hk hs => ?_) (fun sort hk hs hp ht => ?_)
    (fun err hk hs hp ht => ?_) (fun hk hs hp => ?_)
  · exact ⟨[], [], by simp, .nil, by simpa [hk] using hrun⟩
  · exact ⟨gs, by simpa [hk, hs] using hrun⟩
  · exact ⟨[], [], by simp, .nil, by simpa [hk, hs, hp, run_name, ht] using hrun⟩
  · exact ⟨gs, by simpa [hk, hs, hp, run_name, ht] using hrun⟩
  · exact ⟨gs, by simpa [hk, hs, hp] using hrun⟩

theorem mirrors_create : Mirrors [] (create e) d := by
  intro gs
  have hrun := run_create e (d.guarding gs)
  refine .create (fun sort hp hk => ?_) (fun sort hp hk ht => ?_) (fun err hp hk ht => ?_)
    (fun hp => ?_)
  · exact ⟨[], [], by simp, .nil, by simpa [hp, hk] using hrun⟩
  · exact ⟨[], [], by simp, .nil, by simpa [hp, hk, ht] using hrun⟩
  · exact ⟨gs, by simpa [hp, hk, ht] using hrun⟩
  · exact ⟨gs, by simpa [hp] using hrun⟩

theorem mirrors_define : Mirrors [] (define e t) d := by
  intro gs
  have hrun := run_define e t (d.guarding gs)
  refine .define (fun sort hp hk => ?_) (fun sort hp hk ht => ?_) (fun err hp hk ht => ?_)
    (fun hp => ?_)
  · exact ⟨[_], [_], rfl, .refl _, by simpa [hp, hk] using hrun⟩
  · exact ⟨[_], [_], rfl, .refl _, by simpa [hp, hk, ht] using hrun⟩
  · exact ⟨gs, by simpa [hp, hk, ht] using hrun⟩
  · exact ⟨gs, by simpa [hp] using hrun⟩

theorem mirrors_write {id : Nat} {location : Location} {fact : Variable → Term} :
    Mirrors [] (write id location fact) d := by
  intro gs
  have hrun := run_write id location fact (d.guarding gs)
  refine .write (fun hp hr => ?_) (fun v hp hr => ?_) (fun hp => ?_)
  · exact ⟨[], [], by simp, .nil, by simpa [hp, hr] using hrun⟩
  · exact ⟨[_], [_], rfl, .refl _, by simpa [hp, hr] using hrun⟩
  · exact ⟨gs, by simpa [hp] using hrun⟩

theorem constraints_of_yields_define {u : Unit} (h : Yields (define e t) d u d') :
    ∃ sort, d'.constraints =
      d.constraints ++ [⟨d.pathCondition, .eq (e.term sort) t, e.location⟩] := by
  obtain ⟨-, sort, ⟨-, rfl⟩ | ⟨-, -, rfl⟩⟩ := yields_define.1 h
  · exact ⟨sort, rfl⟩
  · exact ⟨sort, rfl⟩

/-- What is emitted when the quotient of a division is settled. -/
theorem statesQuotient_of_yields_settle {place : Option Nat} {q : Term} {u : Unit}
    (hw : e.written? = place) (hp : ∀ id ∈ place, d.isRegistered id)
    (h : Yields (settle e place q) d u d') :
    ∃ own, d'.constraints = d.constraints ++ own ∧ StatesQuotient e d.pathCondition q own := by
  cases place with
  | none =>
    obtain ⟨sort, hc⟩ := constraints_of_yields_define h
    exact ⟨_, hc, .value sort hw⟩
  | some id =>
    obtain ⟨d₁, ha, hd⟩ := yields_seq.1 h
    obtain ⟨sort, hc⟩ := constraints_of_yields_define hd
    obtain ⟨-, ⟨hn, -⟩ | ⟨v, hv, rfl⟩⟩ := yields_assign.1 ha
    · simpa [isRegistered, hn] using hp id rfl
    · rw [emitted_constraints, advanced_constraints, List.append_assoc] at hc
      obtain rfl := id_of_registered? hv
      exact ⟨_, hc, .assigned v.toVariable sort hw⟩

/-- What an encoding does, its guarding twin does as well. -/
theorem Composed.mirrors (h : Composed K xs x) (hr : d.isRegistered = K.registered)
    (hs : d.settings.guardsDivision = false) : Mirrors xs x d := by
  induction h generalizing d with
  | pure a => exact mirrors_of_silent rfl rfl fun _ => rfl
  | reject h => exact mirrors_of_error rfl fun _ => rfl
  | bind hx hf ihx ihf =>
    refine (ihx hr hs).bind fun a d₁ hy => ihf a (hx.isRegistered hr hy) ?_
    rw [(hx.later hr hy).settings, hs]
  | read hv _ ih => exact mirrors_get_bind (fun gs => (hv _).trans (hv d).symm) (ih d hr hr hs)
  | demand => exact mirrors_requirePhase
  | warn location notice => exact mirrors_warn
  | emit fact location => exact mirrors_emit
  | value he hf ih =>
    refine mirrors_valueOf.quiet_bind fun t d₁ hy => ?_
    have hl := (continues_valueOf hy).later
    obtain ⟨sort, rfl, -⟩ := yields_valueOf.1 hy
    exact ih sort (hl.isRegistered_eq.trans hr) (by rw [hl.settings, hs])
  | define e t => exact mirrors_define
  | create he => exact mirrors_create
  | announce he notice => exact mirrors_warn.quiet_bind fun _ _ _ => mirrors_create
  | write hid location fact => exact mirrors_write
  | branch _ condition hx ih =>
    have hpush : Mirrors [] (pushCondition condition) d := mirrors_of_silent rfl rfl fun _ => rfl
    have hbranch := hpush.bind fun _ d₁ hy => by
      obtain rfl := yields_pushCondition.1 hy
      exact (ih (d := d.pushed condition) hr hs).bind fun a d₂ _ =>
        mirrors_popPath.bind fun _ d₃ _ =>
          mirrors_of_silent (x := Pure.pure a) (d := d₃) rfl rfl fun _ => rfl
    simpa using hbranch
  | @divide x y ty l sort place hy hw hp hf ih =>
    intro gs
    let guard : Constraint := ⟨d.pathCondition, .ne (y.term sort) (.ofInt 0), x.location⟩
    have hrun : (arithmetic .div ty l (y.term sort) x.location >>= settle x place).run
        (d.guarding gs) = (settle x place (quotient ty l (y.term sort))).run
          (d.guarding (gs ++ [guard])) :=
      run_bind_of_yields (yields_guarded_division rfl)
    refine .arithmetic_div_bind ?_
    rw [hs, if_neg Bool.false_ne_true, hrun]
    refine (ih _ hr hs (gs ++ [guard])).mono (fun u d' hset h => ?_) fun _ _ h => h
    obtain ⟨new, new', hc, hg, hrun'⟩ := h
    obtain rfl := hg.eq_of_nil
    -- what the twin adds after the guard are the constraints of the division, and nothing else
    obtain ⟨own, hc', hown⟩ := statesQuotient_of_yields_settle hw (hr ▸ hp) hset
    obtain rfl := List.append_cancel_left (hc.symm.trans hc')
    refine ⟨new', guard :: new', hc, ?_, by rw [hrun', List.append_assoc]; rfl⟩
    simpa using Guarded.divided hy hown .nil

/-! ### Analyses -/

variable {contract : Contract} {f : Function} {settings : Settings}

theorem composed_warnings (f : Function) : Composed K [] f.warnings := by
  have hlast : Composed K [] (if !f.modifiers.isEmpty then
      warn f.location (.modifiers f.modifiers) else Pure.pure ()) := by
    split
    · exact .warn _ _
    · exact .pure ()
  unfold Function.warnings
  dsimp only
  split
  · exact (Composed.warn _ _).quiet_bind fun _ => hlast
  · exact hlast

theorem mirrors_register {partition : Partition} {declaration : Declaration} :
    Mirrors [] (register partition declaration) d := by
  refine mirrors_requirePhase.quiet_bind fun _ d₁ _ => ?_
  split
  · exact mirrors_warn
  · refine mirrors_get_bind (fun _ => rfl) ?_
    dsimp only
    split
    · exact mirrors_of_error rfl fun _ => rfl
    · refine Mirrors.quiet_bind ?_ fun _ _ _ => mirrors_emit
      exact mirrors_of_silent rfl rfl fun _ => rfl

theorem mirrors_prepare : Mirrors [] (prepare contract f) d := by
  have hstart : Mirrors [] (startRegistration contract.name f.name) d :=
    mirrors_requirePhase.quiet_bind fun _ _ _ => mirrors_of_silent rfl rfl fun _ => rfl
  have hdeclarations : ∀ (ds : List (Partition × Declaration)) (d : Draft),
      Mirrors [] (ds.forM fun p => register p.1 p.2) d := by
    intro ds
    induction ds with
    | nil => exact fun d => mirrors_of_silent rfl rfl fun _ => rfl
    | cons p rest ih => exact fun d => mirrors_register.quiet_bind fun _ d₁ _ => ih d₁
  refine hstart.quiet_bind fun _ d₁ _ => (hdeclarations _ d₁).quiet_bind fun _ d₂ _ => ?_
  exact mirrors_requirePhase.quiet_bind fun _ _ _ => mirrors_of_silent rfl rfl fun _ => rfl

/-- The declarations of a function that have variables. -/
def registers (contract : Contract) (f : Function) (id : Nat) : Bool := (role? contract f id).isSome

theorem Opening.isRegistered (h : Opening contract f settings d) :
    d.isRegistered = registers contract f := by
  funext id
  rw [registers, ← h.role? id, Option.isSome_map]
  rfl

theorem mirrors_encode (contract : Contract) (f : Function) (isStrict : Bool) :
    Mirrors (Stmt.divisionsOfAll (registers contract f) f.body) (f.encode contract)
      { settings := ⟨false, isStrict⟩ } := by
  refine ((composed_warnings (K := bodyMandate f.body fun _ => false) f).mirrors rfl rfl).quiet_bind
    fun _ d₀ hw => mirrors_prepare.quiet_bind fun _ d hy => ?_
  obtain ⟨ds, rfl⟩ := yields_warnings hw
  have ho := Opening.of_yields hy
  exact (composed_encodeAll_body f.returns f.body _).discard.mirrors ho.isRegistered
    (by rw [ho.settings])

/-- **Guards only add.** An analysis that guards divisions succeeds or fails as one that does not,
with the same diagnostics and the same error. Where both succeed, they have the same variables,
versions and symbols, and the guarded formula has one more fact for every division of the body,
under the same condition as the facts that state its quotient and directly before the first of them.
So all of its models are models of the other. -/
theorem analyze_guarded (contract : Contract) (f : Function) (isStrict : Bool) :
    (f.analyze ⟨true, isStrict⟩ contract).diagnostics =
      (f.analyze ⟨false, isStrict⟩ contract).diagnostics ∧
    match (f.analyze ⟨false, isStrict⟩ contract).outcome,
        (f.analyze ⟨true, isStrict⟩ contract).outcome with
    | .ok d, .ok g =>
        g.versions = d.versions ∧ g.registry = d.registry ∧ g.known = d.known ∧
        Guarded (Stmt.divisionsOfAll (registers contract f) f.body) d.constraints g.constraints ∧
        g.constraints.length =
          d.constraints.length + (Stmt.divisionsOfAll (registers contract f) f.body).length ∧
        ∀ m, g.formula.Holds m → d.formula.Holds m
    | .error err, .error err' => err' = err
    | _, _ => False := by
  have h := mirrors_encode contract f isStrict []
  unfold Ends at h
  have htwin : ({ settings := ⟨false, isStrict⟩ } : Draft).guarding [] =
      { settings := ⟨true, isStrict⟩ } := rfl
  rw [htwin] at h
  unfold Function.analyze
  cases hrun : (f.encode contract).run { settings := ⟨false, isStrict⟩ } with
  | ok u d =>
    rw [hrun] at h
    obtain ⟨new, new', hc, hg, hrun'⟩ := h
    obtain rfl : d.constraints = new := hc
    rw [hrun']
    refine ⟨rfl, rfl, rfl, rfl, hg, hg.length, fun m hm => ?_⟩
    rw [holds_formula] at hm ⊢
    exact fun c hc => hm c (hg.sublist.subset hc)
  | error err d =>
    rw [hrun] at h
    obtain ⟨gs, hrun'⟩ := h
    rw [hrun']
    exact ⟨rfl, rfl⟩

/-- A function with the only statement `y /= y / 2;`. -/
def dividing : Function where
  id := 1
  name := "f"
  location := {}
  parameters := [{ id := 1, name := "y", ty := .integer ⟨8, true⟩, location := {} }]
  returns := []
  body := [.expression {} (.assignment ⟨6, {}, .integer ⟨8, true⟩⟩ (.arithmetic .div)
    (.identifier ⟨2, {}, .integer ⟨8, true⟩⟩ "y" (some 1) true)
    (.binary ⟨5, {}, .integer ⟨8, true⟩⟩ (.arithmetic .div)
      (.identifier ⟨3, {}, .integer ⟨8, true⟩⟩ "y" (some 1) false)
      (.literal ⟨4, {}, .rational 2⟩ (.number 2)) (.integer ⟨8, true⟩)))]

/-- The guard of `y /= y / 2` stands between its own quotient and that of `y / 2`. -/
theorem dividing_guarded :
    ∃ d g, (dividing.analyze ⟨false, true⟩ ⟨0, "C", {}, [], [dividing]⟩).outcome = .ok d ∧
      (dividing.analyze ⟨true, true⟩ ⟨0, "C", {}, [], [dividing]⟩).outcome = .ok g ∧
      g.constraints.length = d.constraints.length + 2 ∧
      g.constraints.drop 3 = [
        ⟨.ofBool true, .ne (.symbol ⟨"expr_4", .int⟩) (.ofInt 0), {}⟩,
        ⟨.ofBool true, .eq (.symbol ⟨"expr_5", .int⟩)
          (quotient ⟨8, true⟩ (.symbol ⟨"expr_3", .int⟩) (.symbol ⟨"expr_4", .int⟩)), {}⟩,
        ⟨.ofBool true, .ne (.symbol ⟨"expr_5", .int⟩) (.ofInt 0), {}⟩,
        ⟨.ofBool true, .eq (.symbol ⟨"y-1_1", .int⟩)
          (quotient ⟨8, true⟩ (.symbol ⟨"y-1_0", .int⟩) (.symbol ⟨"expr_5", .int⟩)), {}⟩,
        ⟨.ofBool true, .eq (.symbol ⟨"expr_6", .int⟩)
          (quotient ⟨8, true⟩ (.symbol ⟨"y-1_0", .int⟩) (.symbol ⟨"expr_5", .int⟩)), {}⟩] ∧
      ∀ m, g.formula.Holds m → d.formula.Holds m := by
  have hok : (dividing.analyze ⟨false, true⟩ ⟨0, "C", {}, [], [dividing]⟩).outcome.isOk = true := by
    decide +kernel
  have h := (analyze_guarded ⟨0, "C", {}, [], [dividing]⟩ dividing true).2
  cases hd : (dividing.analyze ⟨false, true⟩ ⟨0, "C", {}, [], [dividing]⟩).outcome with
  | error err =>
    rw [hd] at hok
    cases hok
  | ok d =>
    cases hg : (dividing.analyze ⟨true, true⟩ ⟨0, "C", {}, [], [dividing]⟩).outcome with
    | error err =>
      rw [hd, hg] at h
      exact h.elim
    | ok g =>
      rw [hd, hg] at h
      obtain ⟨-, -, -, -, hlength, hmodels⟩ := h
      refine ⟨d, g, rfl, rfl, hlength, ?_, hmodels⟩
      have hlist := congrArg (Except.map fun g => g.constraints.drop 3) hg
      exact Except.ok.inj (hlist.symm.trans (by decide +kernel))

end Draft

end PathFormula
