import PathFormula.Proofs.Frozen
import PathFormula.Proofs.Continuation

/-!
# How steps on a draft end

`Ends x d P Q` says what holds once a computation is over: `P` of the answer and the draft where it
succeeds, `Q` of the error and the draft where it fails. Operations that ask for the phase, look
symbols up or write variables have one equation each for all of their endings.
-/
namespace PathFormula.Draft

open Source

variable {α β : Type} {d d' : Draft} {x : Drafting α} {f : α → Drafting β}

section Ends

variable {P P' : α → Draft → Prop} {Q Q' : DraftError → Draft → Prop}

def Ends (x : Drafting α) (d : Draft) (P : α → Draft → Prop) (Q : DraftError → Draft → Prop) :
    Prop :=
  match x.run d with
  | .ok a d' => P a d'
  | .error e d' => Q e d'

theorem Ends.of_yields {a : α} (h : Ends x d P Q) (hy : Yields x d a d') : P a d' := by
  unfold Yields at hy
  rwa [Ends, hy] at h

theorem Ends.mono (h : Ends x d P Q) (hP : ∀ a d', Yields x d a d' → P a d' → P' a d')
    (hQ : ∀ e d', Q e d' → Q' e d') : Ends x d P' Q' := by
  unfold Ends at h ⊢
  unfold Yields at hP
  cases hx : x.run d with
  | ok a d' =>
    rw [hx] at h
    exact hP a d' hx h
  | error e d' =>
    rw [hx] at h
    exact hQ e d' h

theorem Ends.and (h : Ends x d P Q) (h' : Ends x d P' Q') :
    Ends x d (fun a d' => P a d' ∧ P' a d') fun e d' => Q e d' ∧ Q' e d' := by
  unfold Ends at h h' ⊢
  cases hx : x.run d with
  | ok a d' =>
    rw [hx] at h h'
    exact ⟨h, h'⟩
  | error e d' =>
    rw [hx] at h h'
    exact ⟨h, h'⟩

theorem Ends.after {R : Draft → Prop} (h : Ends x d (fun _ => R) fun _ => R) : R (after x d) := by
  unfold Ends at h
  unfold Draft.after
  cases hx : x.run d with
  | ok a d' =>
    rw [hx] at h
    exact h
  | error e d' =>
    rw [hx] at h
    exact h

@[simp] theorem ends_pure {a : α} : Ends (pure a) d P Q ↔ P a d := Iff.rfl

end Ends

section Sequences

variable {P : β → Draft → Prop} {Q : DraftError → Draft → Prop}

theorem ends_bind : Ends (x >>= f) d P Q ↔ Ends x d (fun a d' => Ends (f a) d' P Q) Q := by
  unfold Ends
  rw [EStateM.run_bind]
  cases x.run d <;> rfl

theorem Ends.bind {R : α → Draft → Prop} (hx : Ends x d R Q)
    (hf : ∀ a d', Yields x d a d' → R a d' → Ends (f a) d' P Q) : Ends (x >>= f) d P Q :=
  ends_bind.2 (hx.mono hf fun _ _ h => h)

@[simp] theorem ends_get_bind {f : Draft → Drafting β} :
    Ends (get >>= f) d P Q ↔ Ends (f d) d P Q := Iff.rfl

@[simp] theorem ends_modify_bind {g : Draft → Draft} {f : Unit → Drafting β} :
    Ends (modify g >>= f) d P Q ↔ Ends (f ()) (g d) P Q := Iff.rfl

@[simp] theorem ends_warn_bind {location : Location} {notice : Notice} {f : Unit → Drafting β} :
    Ends (warn location notice >>= f) d P Q ↔ Ends (f ()) (d.warned location notice) P Q := Iff.rfl

@[simp] theorem ends_pushCondition_bind {condition : Term} {f : Unit → Drafting β} :
    Ends (pushCondition condition >>= f) d P Q ↔ Ends (f ()) (d.pushed condition) P Q := Iff.rfl

end Sequences

section Steps

variable {P : Unit → Draft → Prop} {Q : DraftError → Draft → Prop}

@[simp] theorem ends_warn {location : Location} {notice : Notice} :
    Ends (warn location notice) d P Q ↔ P () (d.warned location notice) := Iff.rfl

end Steps

/-! ### Operations -/

/-- What a draft that is in the wrong phase answers. -/
def phaseError (d : Draft) (activity : Activity) : DraftError :=
  if d.phase = .finalized then .finalized else .wrongPhase activity d.phase

variable {e : Expr} {t : Term} {id : Nat} {location : Location}

theorem run_get_bind (f : Draft → Drafting β) (d : Draft) : (get >>= f).run d = (f d).run d := rfl

theorem run_requirePhase_eq (phase : Phase) (activity : Activity) (d : Draft) :
    (requirePhase phase activity).run d =
      if d.phase = phase then .ok () d else .error (d.phaseError activity) d := by
  rw [run_requirePhase, phaseError]
  split <;> [rfl; (split <;> rfl)]

theorem run_requirePhase_bind (phase : Phase) (activity : Activity) (f : Unit → Drafting β)
    (d : Draft) :
    (requirePhase phase activity >>= f).run d =
      if d.phase = phase then (f ()).run d else .error (d.phaseError activity) d := by
  rw [EStateM.run_bind, run_requirePhase_eq]
  by_cases hp : d.phase = phase
  · rw [if_pos hp, if_pos hp]
  · rw [if_neg hp, if_neg hp]

theorem run_requireEncoding (d : Draft) :
    requireEncoding.run d =
      if d.phase = .encoding then .ok () d else .error (d.phaseError .encode) d :=
  run_requirePhase_eq _ _ d

theorem run_requireEncoding_bind (f : Unit → Drafting β) (d : Draft) :
    (requireEncoding >>= f).run d =
      if d.phase = .encoding then (f ()).run d else .error (d.phaseError .encode) d :=
  run_requirePhase_bind _ _ f d

theorem run_name (e : Expr) (d : Draft) :
    (name e).run d = match e.termSort with
      | .ok sort => .ok (e.term sort) (d.named e.id sort)
      | .error err => .error err d := by
  unfold name
  cases e.termSort <;> rfl

theorem run_valueOf (e : Expr) (d : Draft) :
    (valueOf e).run d = match d.known.lookup e.id with
      | some sort => .ok (e.term sort) d
      | none =>
          if d.settings.isStrict then .error (.undefinedExpression e.id e.location) d
          else if d.phase = .encoding then
            (name e).run (d.warned e.location .undefinedExpression)
          else .error (d.phaseError .encode) (d.warned e.location .undefinedExpression) := by
  unfold valueOf
  rw [run_get_bind, expression?]
  cases d.known.lookup e.id with
  | some sort => rfl
  | none =>
    dsimp only [Option.map_none]
    cases d.settings.isStrict with
    | true => rfl
    | false => exact run_requireEncoding_bind _ (d.warned e.location .undefinedExpression)

theorem run_create (e : Expr) (d : Draft) :
    (create e).run d =
      if d.phase = .encoding then match d.known.lookup e.id with
        | some _ => .ok () (d.warned e.location .createdTwice)
        | none => match e.termSort with
          | .ok sort => .ok () (d.named e.id sort)
          | .error err => .error err d
      else .error (d.phaseError .encode) d := by
  unfold create
  rw [run_requireEncoding_bind, run_get_bind, expression?]
  refine if_congr Iff.rfl ?_ rfl
  cases d.known.lookup e.id with
  | some sort => rfl
  | none =>
    dsimp only [Option.map_none]
    unfold name
    cases e.termSort <;> rfl

theorem run_define (e : Expr) (t : Term) (d : Draft) :
    (define e t).run d =
      if d.phase = .encoding then match d.known.lookup e.id with
        | some sort => .ok () (d.emitted (.eq (e.term sort) t) e.location)
        | none => match e.termSort with
          | .ok sort => .ok () ((d.named e.id sort).emitted (.eq (e.term sort) t) e.location)
          | .error err => .error err d
      else .error (d.phaseError .encode) d := by
  unfold define
  rw [run_requireEncoding_bind, run_get_bind, expression?]
  refine if_congr Iff.rfl ?_ rfl
  cases d.known.lookup e.id with
  | some sort => rfl
  | none =>
    dsimp only [Option.map_none]
    unfold name
    cases e.termSort <;> rfl

theorem run_write (id : Nat) (location : Location) (fact : Variable → Term) (d : Draft) :
    (write id location fact).run d =
      if d.phase = .encoding then match d.registered? id with
        | none => .ok () (d.warned location (.unknownDeclaration id))
        | some v => .ok () ((d.advanced id).emitted (fact v.advance) location)
      else .error (d.phaseError .encode) d := by
  unfold write
  rw [run_requireEncoding_bind, run_get_bind]
  refine if_congr Iff.rfl ?_ rfl
  cases d.registered? id <;> rfl

theorem run_popPath (d : Draft) :
    popPath.run d = if d.path = [] then .error .emptyPath d else .ok () d.popped := by
  unfold popPath popped
  rw [run_get_bind]
  cases hp : d.path with
  | nil => rfl
  | cons t outer => simp

/-- Only a guarding draft says anything of a divisor. -/
theorem run_arithmetic_div {ty : IntegerType} {l r : Term} (d : Draft) :
    (arithmetic .div ty l r location).run d =
      .ok (quotient ty l r)
        (if d.settings.guardsDivision then d.emitted (.ne r (.ofInt 0)) location else d) := by
  cases hg : d.settings.guardsDivision with
  | true => exact yields_guarded_division hg
  | false => simp [arithmetic, hg, Arithmetic.term]

theorem arithmetic_eq_pure {op : Arithmetic} {ty : IntegerType} {l r : Term} (h : op ≠ .div) :
    arithmetic op ty l r location = pure (op.term ty l r) := by
  unfold arithmetic
  simp only [h, decide_false, Bool.false_and]
  rfl

/-! ### Their endings -/

namespace Ends

variable {Q : DraftError → Draft → Prop}

theorem requireEncoding {P : Unit → Draft → Prop} (encoding : d.phase = .encoding → P () d)
    (phase : d.phase ≠ .encoding → Q (d.phaseError .encode) d) :
    Ends Draft.requireEncoding d P Q := by
  rw [Ends, run_requireEncoding]
  by_cases hp : d.phase = .encoding
  · rw [if_pos hp]
    exact encoding hp
  · rw [if_neg hp]
    exact phase hp

theorem valueOf {P : Term → Draft → Prop}
    (known : ∀ sort, d.known.lookup e.id = some sort → P (e.term sort) d)
    (strict : d.known.lookup e.id = none → d.settings.isStrict = true →
      Q (.undefinedExpression e.id e.location) d)
    (named : ∀ sort, d.known.lookup e.id = none → d.settings.isStrict = false →
      d.phase = .encoding → e.termSort = .ok sort →
        P (e.term sort) ((d.warned e.location .undefinedExpression).named e.id sort))
    (untyped : ∀ err, d.known.lookup e.id = none → d.settings.isStrict = false →
      d.phase = .encoding → e.termSort = .error err →
        Q err (d.warned e.location .undefinedExpression))
    (phase : d.known.lookup e.id = none → d.settings.isStrict = false → d.phase ≠ .encoding →
      Q (d.phaseError .encode) (d.warned e.location .undefinedExpression)) :
    Ends (Draft.valueOf e) d P Q := by
  rw [Ends, run_valueOf]
  cases hk : d.known.lookup e.id with
  | some sort => exact known sort hk
  | none =>
    dsimp only
    cases hs : d.settings.isStrict with
    | true => exact strict hk hs
    | false =>
      rw [if_neg Bool.false_ne_true]
      by_cases hp : d.phase = .encoding
      · rw [if_pos hp, run_name]
        cases ht : e.termSort with
        | ok sort => exact named sort hk hs hp ht
        | error err => exact untyped err hk hs hp ht
      · rw [if_neg hp]
        exact phase hk hs hp

theorem create {P : Unit → Draft → Prop}
    (known : ∀ sort, d.phase = .encoding → d.known.lookup e.id = some sort →
      P () (d.warned e.location .createdTwice))
    (named : ∀ sort, d.phase = .encoding → d.known.lookup e.id = none → e.termSort = .ok sort →
      P () (d.named e.id sort))
    (untyped : ∀ err, d.phase = .encoding → d.known.lookup e.id = none →
      e.termSort = .error err → Q err d)
    (phase : d.phase ≠ .encoding → Q (d.phaseError .encode) d) :
    Ends (Draft.create e) d P Q := by
  rw [Ends, run_create]
  by_cases hp : d.phase = .encoding
  · rw [if_pos hp]
    cases hk : d.known.lookup e.id with
    | some sort => exact known sort hp hk
    | none =>
      cases ht : e.termSort with
      | ok sort => exact named sort hp hk ht
      | error err => exact untyped err hp hk ht
  · rw [if_neg hp]
    exact phase hp

theorem define {P : Unit → Draft → Prop}
    (known : ∀ sort, d.phase = .encoding → d.known.lookup e.id = some sort →
      P () (d.emitted (.eq (e.term sort) t) e.location))
    (named : ∀ sort, d.phase = .encoding → d.known.lookup e.id = none → e.termSort = .ok sort →
      P () ((d.named e.id sort).emitted (.eq (e.term sort) t) e.location))
    (untyped : ∀ err, d.phase = .encoding → d.known.lookup e.id = none →
      e.termSort = .error err → Q err d)
    (phase : d.phase ≠ .encoding → Q (d.phaseError .encode) d) :
    Ends (Draft.define e t) d P Q := by
  rw [Ends, run_define]
  by_cases hp : d.phase = .encoding
  · rw [if_pos hp]
    cases hk : d.known.lookup e.id with
    | some sort => exact known sort hp hk
    | none =>
      cases ht : e.termSort with
      | ok sort => exact named sort hp hk ht
      | error err => exact untyped err hp hk ht
  · rw [if_neg hp]
    exact phase hp

theorem write {P : Unit → Draft → Prop} {fact : Variable → Term}
    (unknown : d.phase = .encoding → d.registered? id = none →
      P () (d.warned location (.unknownDeclaration id)))
    (written : ∀ v, d.phase = .encoding → d.registered? id = some v →
      P () ((d.advanced id).emitted (fact v.advance) location))
    (phase : d.phase ≠ .encoding → Q (d.phaseError .encode) d) :
    Ends (Draft.write id location fact) d P Q := by
  rw [Ends, run_write]
  by_cases hp : d.phase = .encoding
  · rw [if_pos hp]
    cases hr : d.registered? id with
    | none => exact unknown hp hr
    | some v => exact written v hp hr
  · rw [if_neg hp]
    exact phase hp

theorem popPath_bind {P : β → Draft → Prop} {f : Unit → Drafting β} (hp : d.path ≠ [])
    (h : Ends (f ()) d.popped P Q) : Ends (popPath >>= f) d P Q := by
  refine ends_bind.2 ?_
  rw [Ends, run_popPath, if_neg hp]
  exact h

theorem arithmetic_div_bind {P : β → Draft → Prop} {ty : IntegerType} {l r : Term}
    {f : Term → Drafting β}
    (h : Ends (f (quotient ty l r))
      (if d.settings.guardsDivision then d.emitted (.ne r (.ofInt 0)) location else d) P Q) :
    Ends (arithmetic .div ty l r location >>= f) d P Q := by
  refine ends_bind.2 ?_
  rw [Ends, run_arithmetic_div]
  exact h

end Ends

end PathFormula.Draft
