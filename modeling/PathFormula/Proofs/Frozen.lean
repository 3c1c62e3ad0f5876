import PathFormula.Draft.Registration
import PathFormula.Proofs.Steps

/-!
# Drafts outside of encoding

A draft that is not encoding is meant to take no constraints: every call that encodes something ends
where it asks for the phase, and so it leaves the draft as it was, but for diagnostics. A division
of known operands in a guarding draft emits its guard before the phase is asked for. That is the
only exception, and only finalized drafts have known operands.
-/
namespace PathFormula.Draft

open Source

section Effects

variable {α β : Type} {d d' d'' : Draft} {x : Drafting α} {f : α → Drafting β}

/-- The draft that a computation leaves, whether it succeeds or not. -/
def after (x : Drafting α) (d : Draft) : Draft :=
  match x.run d with
  | .ok _ d' => d'
  | .error _ d' => d'

theorem after_of_yields {a : α} (h : Yields x d a d') : after x d = d' := by
  unfold Yields at h
  rw [after, h]

/-- The second part of a computation starts where the first one succeeds. -/
theorem after_bind : (∃ a d', Yields x d a d' ∧ after (x >>= f) d = after (f a) d') ∨
    after (x >>= f) d = after x d := by
  simp only [after, Yields, EStateM.run_bind]
  cases x.run d with
  | ok a d' => exact .inl ⟨a, d', rfl, rfl⟩
  | error e d' => exact .inr rfl

/-- What a sequence of computations changes is what they change one after the other. -/
theorem after_bind_trans {R : Draft → Draft → Prop}
    (ht : ∀ {d d₁ d' : Draft}, R d d₁ → R d₁ d' → R d d') (hx : R d (after x d))
    (hf : ∀ a d', Yields x d a d' → R d' (after (f a) d')) : R d (after (x >>= f) d) := by
  obtain ⟨a, d', h, ha⟩ | ha := after_bind (x := x) (f := f) (d := d)
  · rw [ha]
    rw [after_of_yields h] at hx
    exact ht hx (hf a d' h)
  · rw [ha]
    exact hx

/-- No phase begins or ends, and outside of encoding only the diagnostics change. -/
def Kept (d d' : Draft) : Prop :=
  d'.phase = d.phase ∧ (d.phase ≠ .encoding → ∃ ds, d' = { d with diagnostics := ds })

theorem Kept.refl (d : Draft) : Kept d d := ⟨rfl, fun _ => ⟨d.diagnostics, rfl⟩⟩

theorem Kept.trans (h : Kept d d') (h' : Kept d' d'') : Kept d d'' := by
  refine ⟨h'.1.trans h.1, fun hp => ?_⟩
  obtain ⟨ds, rfl⟩ := h.2 hp
  exact h'.2 hp

theorem Kept.of_encoding (hp : d.phase = .encoding) (h : d'.phase = .encoding) : Kept d d' :=
  ⟨h.trans hp.symm, fun hn => absurd hp hn⟩

/-- A computation that leaves a draft kept. -/
def Keeps (x : Drafting α) (d : Draft) : Prop := Kept d (after x d)

theorem Keeps.kept {a : α} (hx : Keeps x d) (h : Yields x d a d') : Kept d d' := by
  rw [← after_of_yields h]
  exact hx

theorem Keeps.bind (hx : Keeps x d) (hf : ∀ a d', Yields x d a d' → Keeps (f a) d') :
    Keeps (x >>= f) d :=
  after_bind_trans Kept.trans hx hf

theorem keeps_pure {a : α} : Keeps (pure a) d := .refl d

theorem keeps_throw {e : DraftError} : Keeps (throw e : Drafting α) d := .refl d

theorem keeps_get_bind {f : Draft → Drafting α} (h : Keeps (f d) d) : Keeps (get >>= f) d := h

theorem keeps_throw_bind {e : DraftError} : Keeps (throw e >>= f) d := .refl d

theorem keeps_discard (hx : Keeps x d) : Keeps (discard x) d := by
  have h : discard x = x >>= fun _ => pure () := by
    rw [bind_pure_comp]
    rfl
  rw [h]
  exact hx.bind fun _ _ _ => keeps_pure

variable {e operand left right : Expr} {t : Term} {id : Nat} {location : Location}

theorem keeps_warn {notice : Notice} : Keeps (warn location notice) d := ⟨rfl, fun _ => ⟨_, rfl⟩⟩

theorem keeps_warn_bind {notice : Notice} {f : Unit → Drafting α}
    (h : Keeps (f ()) (d.warned location notice)) : Keeps (warn location notice >>= f) d := by
  have hw : Kept d (d.warned location notice) := keeps_warn
  exact hw.trans h

theorem keeps_requirePhase {phase : Phase} {activity : Activity} :
    Keeps (requirePhase phase activity) d := by
  refine keeps_get_bind ?_
  split
  · exact keeps_pure
  · split <;> exact keeps_throw

/-- What follows a demand for encoding may rely on it. -/
theorem keeps_requireEncoding_bind {f : Unit → Drafting α}
    (h : d.phase = .encoding → Keeps (f ()) d) : Keeps (requireEncoding >>= f) d := by
  refine .bind keeps_requirePhase fun _ d' hy => ?_
  obtain ⟨hp, rfl⟩ := yields_requireEncoding.1 hy
  exact h hp

theorem keeps_emit (hp : d.phase = .encoding) : Keeps (emit t location) d := .of_encoding hp hp

theorem keeps_name (hp : d.phase = .encoding) : Keeps (name e) d := by
  unfold name
  split
  · exact keeps_throw
  · exact .of_encoding hp hp

end Effects

/-! ### What encodes nothing outside of encoding -/

section Calls

variable {d d' : Draft} {e operand left right target : Expr} {t : Term} {id : Nat}
  {location : Location}

theorem keeps_create : Keeps (create e) d := by
  refine keeps_requireEncoding_bind fun hp => keeps_get_bind ?_
  split
  · exact keeps_warn
  · exact keeps_discard (keeps_name hp)

theorem keeps_valueOf : Keeps (valueOf e) d := by
  refine keeps_get_bind ?_
  split
  · exact keeps_pure
  · cases d.settings.isStrict with
    | true => exact keeps_throw_bind
    | false => exact keeps_warn_bind (keeps_requireEncoding_bind fun hp => keeps_name hp)

theorem keeps_define : Keeps (define e t) d := by
  refine keeps_requireEncoding_bind fun hp => keeps_get_bind ?_
  dsimp only
  split
  · exact keeps_emit hp
  · exact .bind (keeps_name hp) fun _ _ hy => keeps_emit (((keeps_name hp).kept hy).1.trans hp)

theorem keeps_defineFrom : Keeps (defineFrom e operand) d :=
  .bind keeps_valueOf fun _ _ _ => keeps_define

theorem keeps_defineFromVariable : Keeps (defineFromVariable e id) d := by
  refine keeps_get_bind ?_
  split
  · exact keeps_define
  · split <;> exact keeps_warn

theorem keeps_write {fact : Variable → Term} : Keeps (write id location fact) d := by
  refine keeps_requireEncoding_bind fun hp => keeps_get_bind ?_
  split
  · exact keeps_warn
  · exact .of_encoding hp hp

theorem keeps_assign : Keeps (assign id t location) d := keeps_write

theorem keeps_assume : Keeps (assume e) d := by
  refine keeps_requireEncoding_bind fun hp => ?_
  split
  · exact .bind keeps_valueOf fun _ d' hy => keeps_emit ((keeps_valueOf.kept hy).1.trans hp)
  · exact keeps_warn

theorem keeps_step {isUp isBefore : Bool} : Keeps (step e isUp isBefore operand) d := by
  unfold step
  dsimp only
  split
  · exact keeps_throw_bind
  · split
    · refine keeps_get_bind ?_
      split
      · exact keeps_warn
      · exact .bind keeps_assign fun _ _ _ => keeps_define
    · exact keeps_warn

theorem keeps_unary : Keeps (unary e) d := by
  unfold unary
  split
  · split
    · split
      · exact keeps_throw_bind
      · exact .bind keeps_valueOf fun _ _ _ => keeps_define
    · exact keeps_step
    · exact keeps_step
    · exact keeps_defineFrom
    · exact .bind keeps_valueOf fun _ _ _ => keeps_define
    · exact keeps_warn
    · exact keeps_warn
  · exact keeps_throw

theorem keeps_comparison {op : Comparison} {common : Ty} :
    Keeps (comparison e op left right common) d := by
  unfold comparison
  split
  · exact keeps_warn
  · split
    · exact keeps_throw_bind
    · exact .bind keeps_valueOf fun _ _ _ => .bind keeps_valueOf fun _ _ _ => keeps_define

theorem keeps_connective {op : Connective} {common : Ty} :
    Keeps (connective e op left right common) d := by
  unfold connective
  split
  · exact .bind keeps_valueOf fun _ _ _ => .bind keeps_valueOf fun _ _ _ => keeps_define
  · exact keeps_warn

end Calls

/-! ### Calls and divisions -/

/-- The calls that encode something. -/
inductive Call where
  | create (e : Expr)
  | valueOf (e : Expr)
  | define (e : Expr) (value : Term)
  | defineFrom (e source : Expr)
  | defineFromVariable (e : Expr) (id : Nat)
  | assign (id : Nat) (value : Term) (location : Location)
  | assignFrom (id : Nat) (source : Expr) (location : Location)
  | assignment (e : Expr)
  | forget (id : Nat) (location : Location)
  | merge (id : Nat) (condition yes no : Term) (location : Location)
  | assume (e : Expr)
  | unary (e : Expr)
  | binary (e : Expr)

namespace Call

def run : Call → Drafting Unit
  | create e => Draft.create e
  | valueOf e => discard (Draft.valueOf e)
  | define e value => Draft.define e value
  | defineFrom e source => Draft.defineFrom e source
  | defineFromVariable e id => Draft.defineFromVariable e id
  | assign id value location => Draft.assign id value location
  | assignFrom id source location => Draft.assignFrom id source location
  | assignment e => Draft.assignment e
  | forget id location => Draft.forget id location
  | merge id condition yes no location => Draft.merge id condition yes no location
  | assume e => Draft.assume e
  | unary e => Draft.unary e
  | binary e => Draft.binary e

/-- The divisor of a call that divides known operands, and the place of the division. -/
def division? (d : Draft) : Call → Option (Term × Location)
  | binary (.binary node (.arithmetic .div) left right common) =>
      if common.integer?.isSome && (d.expression? left.id).isSome then
        (d.expression? right.id).map (·, node.location)
      else none
  | assignment (.assignment node (.arithmetic .div) (.identifier target _ (some id) _) value) =>
      if target.ty.integer?.isSome && (d.current? id).isSome then
        (d.expression? value.id).map (·, node.location)
      else none
  | _ => none

end Call

section Divisions

variable {d d' : Draft} {e left right target value : Expr} {t : Term} {id : Nat}
  {location : Location}

/-- Outside of encoding only known values are read. -/
theorem known_of_yields_valueOf (hp : d.phase ≠ .encoding) (h : Yields (valueOf e) d t d') :
    d.expression? e.id = some t ∧ d' = d := by
  obtain ⟨sort, rfl, ⟨hk, rfl⟩ | ⟨-, -, hp', -⟩⟩ := yields_valueOf.1 h
  · exact ⟨by rw [expression?, hk]; rfl, rfl⟩
  · exact absurd hp' hp

/-- A guard that is emitted now is emitted by a draft that does not encode. -/
def Exposed (d : Draft) : Prop := d.phase ≠ .encoding ∧ d.settings.guardsDivision = true

theorem keeps_arithmetic {op : Arithmetic} {ty : IntegerType} {l r : Term}
    (h : op = .div → ¬ d.Exposed) : Keeps (arithmetic op ty l r location) d := by
  refine keeps_get_bind ?_
  dsimp only
  split
  · rename_i hg
    rw [Bool.and_eq_true, decide_eq_true_eq] at hg
    have hp : d.phase = .encoding := Decidable.byContradiction fun hp => h hg.1 ⟨hp, hg.2⟩
    exact .bind (keeps_emit hp) fun _ _ _ => keeps_pure
  · exact keeps_pure

theorem keeps_binaryArithmetic {op : Arithmetic} {common : Ty}
    (h : op = .div → d.Exposed → common.integer?.isSome → (d.expression? left.id).isSome →
      d.expression? right.id = none) :
    Keeps (binaryArithmetic e op left right common) d := by
  unfold binaryArithmetic
  split
  · exact keeps_throw
  · rename_i ty hc
    refine .bind keeps_valueOf fun l d₁ hl => .bind keeps_valueOf fun r d₂ hr =>
      .bind (keeps_arithmetic fun ho hx => ?_) fun _ _ _ => keeps_define
    have hp₁ : d₁.phase ≠ .encoding := by
      rw [← (keeps_valueOf.kept hr).1]
      exact hx.1
    have hp : d.phase ≠ .encoding := by
      rw [← (keeps_valueOf.kept hl).1]
      exact hp₁
    obtain ⟨hl, rfl⟩ := known_of_yields_valueOf hp hl
    obtain ⟨hr, rfl⟩ := known_of_yields_valueOf hp hr
    have hn := h ho hx (by rw [hc]; rfl) (by rw [hl]; rfl)
    rw [hr] at hn
    cases hn

theorem keeps_binary (h : d.Exposed → (Call.binary e).division? d = none) : Keeps (binary e) d := by
  cases e with
  | binary node op left right common =>
    cases op with
    | arithmetic op =>
      refine keeps_binaryArithmetic fun ho hx hc hl => ?_
      subst ho
      simpa [Call.division?, hc, hl] using h hx
    | comparison op => exact keeps_comparison
    | connective op => exact keeps_connective
    | _ => exact keeps_warn
  | _ => exact keeps_throw

/-- What is assigned is worked out before the phase is asked for. -/
theorem keeps_assignedValue {op : AssignOp}
    (h : op = .arithmetic .div → d.Exposed → target.ty.integer?.isSome → d.current? id = none) :
    Keeps (assignedValue e target op id t) d := by
  unfold assignedValue
  split
  · exact keeps_pure
  · split
    · exact keeps_throw
    · rename_i ty hty
      refine keeps_get_bind ?_
      split
      · exact keeps_warn_bind keeps_pure
      · rename_i current hc
        refine .bind (keeps_arithmetic fun ho hx => ?_) fun _ _ _ => keeps_pure
        have hn := h (congrArg AssignOp.arithmetic ho) hx (by rw [hty]; rfl)
        rw [hc] at hn
        cases hn
  · exact keeps_throw
  · exact keeps_throw

theorem keeps_assignment (h : d.Exposed → (Call.assignment e).division? d = none) :
    Keeps (assignment e) d := by
  unfold assignment
  split
  · split
    · split
      · exact keeps_warn
      · refine .bind keeps_valueOf fun t d₁ hv => .bind (keeps_assignedValue fun ho hx hty => ?_)
          fun a _ _ => ?_
        · have hp := hx.1
          rw [(keeps_valueOf.kept hv).1] at hp
          obtain ⟨hv, rfl⟩ := known_of_yields_valueOf hp hv
          subst ho
          simp only [Expr.ty, Expr.node] at hty
          simpa [Call.division?, hty, hv] using h hx
        · split
          · exact keeps_pure
          · exact .bind keeps_assign fun _ _ _ => keeps_define
    · exact keeps_throw
  · exact keeps_throw

theorem Call.keeps_run (call : Call) (h : d.Exposed → call.division? d = none) :
    Keeps call.run d := by
  cases call with
  | create e => exact keeps_create
  | valueOf e => exact keeps_discard keeps_valueOf
  | define e value => exact keeps_define
  | defineFrom e source => exact keeps_defineFrom
  | defineFromVariable e id => exact keeps_defineFromVariable
  | assign id value location => exact keeps_assign
  | assignFrom id source location => exact .bind keeps_valueOf fun _ _ _ => keeps_assign
  | assignment e => exact keeps_assignment h
  | forget id location => exact keeps_write
  | merge id condition yes no location => exact keeps_assign
  | assume e => exact keeps_assume
  | unary e => exact keeps_unary
  | binary e => exact keeps_binary h

/-! ### What a division leaks -/

theorem run_bind_of_yields {α β : Type} {x : Drafting α} {f : α → Drafting β} {a : α}
    (h : Yields x d a d') : (x >>= f).run d = (f a).run d' := by
  unfold Yields at h
  rw [EStateM.run_bind, h]

theorem run_bind_of_error {α β : Type} {x : Drafting α} {f : α → Drafting β} {err : DraftError}
    (h : x.run d = .error err d') : (x >>= f).run d = .error err d' := by
  rw [EStateM.run_bind, h]

theorem yields_guarded_division {ty : IntegerType} {l r : Term}
    (hg : d.settings.guardsDivision = true) :
    Yields (arithmetic .div ty l r location) d (Arithmetic.div.term ty l r)
      (d.emitted (.ne r (.ofInt 0)) location) := by
  unfold arithmetic
  rw [yields_get_bind]
  simp [hg]

theorem run_requireEncoding_bind_of_finalized {f : Unit → Drafting Unit}
    (hp : d.phase = .finalized) : (requireEncoding >>= f).run d = .error .finalized d := by
  have hr : requireEncoding.run d = .error .finalized d := by
    rw [requireEncoding, run_requirePhase, if_neg (by rw [hp]; decide), if_pos hp]
  rw [EStateM.run_bind, hr]

theorem run_binary_of_division {node : Node} {ty : IntegerType} {common : Ty} {l : Term}
    (hp : d.phase = .finalized) (hg : d.settings.guardsDivision = true)
    (hc : common.integer? = some ty) (hl : d.expression? left.id = some l)
    (hr : d.expression? right.id = some t) :
    (binary (.binary node (.arithmetic .div) left right common)).run d =
      .error .finalized (d.emitted (.ne t (.ofInt 0)) node.location) := by
  change (binaryArithmetic _ .div left right common).run d = _
  unfold binaryArithmetic
  rw [hc]
  dsimp only
  rw [run_bind_of_yields (run_valueOf_of_known hl), run_bind_of_yields (run_valueOf_of_known hr),
    run_bind_of_yields (yields_guarded_division hg)]
  exact run_requireEncoding_bind_of_finalized hp

theorem run_assignment_of_division {node source : Node} {ty : IntegerType} {name : String}
    {isTarget : Bool} {current : Term} (hp : d.phase = .finalized)
    (hg : d.settings.guardsDivision = true) (hty : source.ty.integer? = some ty)
    (hc : d.current? id = some current) (hv : d.expression? value.id = some t) :
    (assignment (.assignment node (.arithmetic .div) (.identifier source name (some id) isTarget)
      value)).run d = .error .finalized (d.emitted (.ne t (.ofInt 0)) node.location) := by
  have hs : (Expr.identifier source name (some id) isTarget).ty.integer? = some ty := hty
  have hsort : source.ty.variableSort = .ok .int := by
    cases hst : source.ty with
    | integer _ => rfl
    | _ => simp [hst, Ty.integer?] at hty
  have ha : Yields (assignedValue (.assignment node (.arithmetic .div)
      (.identifier source name (some id) isTarget) value)
      (.identifier source name (some id) isTarget) (.arithmetic .div) id t) d
      (some (Arithmetic.div.term ty current t)) (d.emitted (.ne t (.ofInt 0)) node.location) := by
    unfold assignedValue
    rw [hs]
    dsimp only
    rw [yields_get_bind, hc]
    dsimp only
    rw [yields_bind]
    exact ⟨_, _, yields_guarded_division hg, yields_pure.2 ⟨rfl, rfl⟩⟩
  unfold assignment
  dsimp only [Expr.ty, Expr.node]
  rw [hsort]
  dsimp only
  rw [run_bind_of_yields (run_valueOf_of_known hv), run_bind_of_yields ha]
  exact run_bind_of_error (run_requireEncoding_bind_of_finalized hp)

/-- A finalized draft keeps the guard of a division that it rejects. -/
theorem Call.run_of_division {call : Call} (hp : d.phase = .finalized)
    (hg : d.settings.guardsDivision = true) (h : call.division? d = some (t, location)) :
    call.run.run d = .error .finalized (d.emitted (.ne t (.ofInt 0)) location) := by
  unfold division? at h
  split at h
  · rename_i node left right common
    split at h
    · rename_i hk
      simp only [Bool.and_eq_true, Option.isSome_iff_exists] at hk
      obtain ⟨⟨ty, hc⟩, l, hl⟩ := hk
      obtain ⟨r, hr, hrt⟩ := Option.map_eq_some_iff.1 h
      cases hrt
      exact run_binary_of_division hp hg hc hl hr
    · cases h
  · rename_i node target name id isTarget value
    split at h
    · rename_i hk
      simp only [Bool.and_eq_true, Option.isSome_iff_exists] at hk
      obtain ⟨⟨ty, hty⟩, current, hc⟩ := hk
      obtain ⟨r, hr, hrt⟩ := Option.map_eq_some_iff.1 h
      cases hrt
      exact run_assignment_of_division hp hg hty hc hr
    · cases h
  · cases h

end Divisions

/-! ### Reachable drafts -/

/-- Everything that can be done to a draft. -/
inductive Operation where
  | startRegistration (contract function : String)
  | register (partition : Partition) (declaration : Declaration)
  | startEncoding
  | prepare (contract : Contract) (function : Function)
  | call (action : Call)
  | pushPath (e : Expr) (sign : Bool)
  | pushCondition (condition : Term)
  | popPath
  | warn (location : Location) (notice : Notice)
  | takeDiagnostics
  | finalize

def Operation.run : Operation → Drafting Unit
  | startRegistration contract function => Draft.startRegistration contract function
  | register partition declaration => Draft.register partition declaration
  | startEncoding => Draft.startEncoding
  | prepare contract function => Draft.prepare contract function
  | call action => action.run
  | pushPath e sign => Draft.pushPath e sign
  | pushCondition condition => Draft.pushCondition condition
  | popPath => Draft.popPath
  | warn location notice => Draft.warn location notice
  | takeDiagnostics => discard Draft.takeDiagnostics
  | finalize => Draft.finalize

/-- The drafts of all sequences of operations, failed ones included. -/
inductive Reachable : Draft → Prop
  | start (settings : Settings) : Reachable { settings }
  | step {d : Draft} (h : Reachable d) (operation : Operation) :
      Reachable (after operation.run d)

/-- The draft that a sequence of operations leaves. -/
def afterAll (operations : List Operation) (d : Draft) : Draft :=
  operations.foldl (fun d operation => after operation.run d) d

theorem Reachable.afterAll {d : Draft} (h : Reachable d) (operations : List Operation) :
    Reachable (afterAll operations d) := by
  induction operations generalizing d with
  | nil => exact h
  | cons operation rest ih => exact ih (h.step operation)

/-- Nothing is known before the encoding starts. -/
def Blank (d : Draft) : Prop := d.phase = .created ∨ d.phase = .registering → d.known = []

section Blank

variable {α β : Type} {d d' : Draft} {x : Drafting α} {f : α → Drafting β}

theorem Blank.of_kept (hb : Blank d) (h : Kept d d') : Blank d' := by
  intro hp
  rw [h.1] at hp
  have hn : d.phase ≠ .encoding := by
    rintro he
    rw [he] at hp
    rcases hp with hp | hp <;> cases hp
  obtain ⟨ds, rfl⟩ := h.2 hn
  exact hb hp

theorem blank_bind (hx : Blank (after x d))
    (hf : ∀ a d', Yields x d a d' → Blank d' → Blank (after (f a) d')) :
    Blank (after (x >>= f) d) := by
  obtain ⟨a, d', h, ha⟩ | ha := after_bind (x := x) (f := f) (d := d)
  · rw [ha]
    refine hf a d' h ?_
    rw [← after_of_yields h]
    exact hx
  · rw [ha]
    exact hx

theorem blank_requirePhase_bind {phase : Phase} {activity : Activity} {f : Unit → Drafting β}
    (hb : Blank d) (hf : d.phase = phase → Blank (after (f ()) d)) :
    Blank (after (requirePhase phase activity >>= f) d) := by
  refine blank_bind (hb.of_kept keeps_requirePhase) fun _ d' h _ => ?_
  obtain ⟨hp, rfl⟩ := yields_requirePhase.1 h
  exact hf hp

theorem blank_startRegistration {contract function : String} (hb : Blank d) :
    Blank (after (startRegistration contract function) d) :=
  blank_requirePhase_bind hb fun hp _ => hb (.inl hp)

theorem blank_startEncoding (hb : Blank d) : Blank (after startEncoding d) := by
  refine blank_requirePhase_bind hb fun _ hp => ?_
  rcases hp with hp | hp <;> cases hp

theorem blank_register {partition : Partition} {declaration : Declaration} (hb : Blank d) :
    Blank (after (register partition declaration) d) := by
  refine blank_requirePhase_bind hb fun _ => ?_
  split
  · exact hb
  · change Blank (after (if d.isRegistered _ then throw _ >>= _ else _) d)
    split
    · exact hb
    · exact hb

theorem blank_registerAll {declared : List (Partition × Declaration)} (hb : Blank d) :
    Blank (after (declared.forM fun p => register p.1 p.2) d) := by
  induction declared generalizing d with
  | nil => exact hb
  | cons p rest ih =>
    change Blank (after (register p.1 p.2 >>= fun _ => rest.forM fun p => register p.1 p.2) d)
    exact blank_bind (blank_register hb) fun _ _ _ hb' => ih hb'

theorem blank_prepare {contract : Contract} {function : Function} (hb : Blank d) :
    Blank (after (prepare contract function) d) :=
  blank_bind (blank_startRegistration hb) fun _ _ _ hb₁ =>
    blank_bind (blank_registerAll hb₁) fun _ _ _ hb₂ => blank_startEncoding hb₂

theorem blank_popPath (hb : Blank d) : Blank (after popPath d) := by
  obtain ⟨_, _, _, _, _, _, path, _, _⟩ := d
  cases path with
  | nil => exact hb
  | cons => exact hb

/-- Known operands are a sign of an encoding that is over. -/
theorem finalized_of_division {call : Call} (hb : Blank d) (hp : d.phase ≠ .encoding)
    (h : (call.division? d).isSome) : d.phase = .finalized := by
  have hk : d.known ≠ [] := by
    intro hk
    have hn : ∀ id, d.expression? id = none := fun id => by rw [expression?, hk]; rfl
    unfold Call.division? at h
    split at h <;> simp [hn] at h
  cases hd : d.phase with
  | created => exact absurd (hb (.inl hd)) hk
  | registering => exact absurd (hb (.inr hd)) hk
  | encoding => exact absurd hd hp
  | finalized => rfl

theorem Call.blank_run (call : Call) (hb : Blank d) : Blank (after call.run d) := by
  by_cases h : d.Exposed → call.division? d = none
  · exact hb.of_kept (call.keeps_run h)
  · obtain ⟨⟨hp, hg⟩, h⟩ := Classical.not_imp.1 h
    obtain ⟨⟨t, location⟩, h⟩ := Option.ne_none_iff_exists'.1 h
    have hf := finalized_of_division hb hp (by rw [h]; rfl)
    have ha : after call.run d = d.emitted (.ne t (.ofInt 0)) location := by
      rw [after, call.run_of_division hf hg h]
    rw [ha]
    exact hb

theorem Operation.blank_run (operation : Operation) (hb : Blank d) :
    Blank (after operation.run d) := by
  cases operation with
  | startRegistration contract function => exact blank_startRegistration hb
  | register partition declaration => exact blank_register hb
  | startEncoding => exact blank_startEncoding hb
  | prepare contract function => exact blank_prepare hb
  | call action => exact action.blank_run hb
  | pushPath e sign => exact blank_bind (hb.of_kept keeps_valueOf) fun _ _ _ hb₁ => hb₁
  | pushCondition condition => exact hb
  | popPath => exact blank_popPath hb
  | warn location notice => exact hb
  | takeDiagnostics => exact hb
  | finalize =>
    rintro (hp | hp) <;> cases hp

theorem Reachable.blank (h : Reachable d) : Blank d := by
  induction h with
  | start settings => exact fun _ => rfl
  | step _ operation ih => exact operation.blank_run ih

end Blank

/-- The constraints, and with them the formula and the script, the versions and what is known. -/
def Frozen (d d' : Draft) : Prop :=
  d'.constraints = d.constraints ∧ d'.formula = d.formula ∧ d'.script = d.script ∧
    d'.versions = d.versions ∧ d'.known = d.known

theorem frozen_of_kept {d d' : Draft} (hp : d.phase ≠ .encoding) (h : Kept d d') : Frozen d d' := by
  obtain ⟨ds, rfl⟩ := h.2 hp
  exact ⟨rfl, rfl, rfl, rfl, rfl⟩

/-- A call on a draft that is not encoding changes nothing, unless it divides known operands and the
draft is guarding. Then the draft is finalized, the call is rejected, and the guard stays. -/
theorem frozen_iff {d : Draft} (h : Reachable d) (hp : d.phase ≠ .encoding) (call : Call) :
    (Frozen d (after call.run d) ↔
      ¬ (d.settings.guardsDivision = true ∧ (call.division? d).isSome)) ∧
    ∀ t location, d.settings.guardsDivision = true → call.division? d = some (t, location) →
      d.phase = .finalized ∧
        call.run.run d = .error .finalized (d.emitted (.ne t (.ofInt 0)) location) := by
  have hleak : ∀ t location, d.settings.guardsDivision = true →
      call.division? d = some (t, location) → d.phase = .finalized ∧
        call.run.run d = .error .finalized (d.emitted (.ne t (.ofInt 0)) location) := by
    intro t location hg hd
    have hf := finalized_of_division h.blank hp (by rw [hd]; rfl)
    exact ⟨hf, call.run_of_division hf hg hd⟩
  refine ⟨⟨?_, fun hn => ?_⟩, hleak⟩
  · rintro ⟨hc, -⟩ ⟨hg, hd⟩
    obtain ⟨⟨t, location⟩, hd⟩ := Option.isSome_iff_exists.1 hd
    rw [after, (hleak t location hg hd).2] at hc
    simp at hc
  · refine frozen_of_kept hp (call.keeps_run fun hx => ?_)
    exact Option.not_isSome_iff_eq_none.1 fun hd => hn ⟨hx.2, hd⟩

def six : Expr := .literal ⟨1, {}, .rational 6⟩ (.number 6)

def two : Expr := .literal ⟨2, {}, .rational 2⟩ (.number 2)

/-- A guarding draft that was finalized after two numbers were named. -/
def halted : Draft :=
  afterAll [.startRegistration "C" "f", .startEncoding, .call (.create six), .call (.create two),
    .finalize] { settings := { guardsDivision := true } }

theorem halted_keeps_guard :
    halted.phase = .finalized ∧ halted.constraints = [] ∧
      ¬ Frozen halted (after (Call.binary (.binary ⟨3, {}, .integer .int256⟩ (.arithmetic .div)
        six two (.integer .int256))).run halted) := by
  have hr : Reachable halted := (Reachable.start _).afterAll _
  refine ⟨by decide, by decide, fun hf => ?_⟩
  exact (frozen_iff hr (by decide) _).1.1 hf ⟨by decide, by decide⟩

end PathFormula.Draft
