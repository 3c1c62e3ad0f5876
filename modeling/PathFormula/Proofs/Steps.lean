import PathFormula.Draft.Body

/-!
# Successful steps on a draft

`Yields x d a d'` says that a computation succeeds on a draft, with its answer and the draft it
leaves. Every operation that encoding is made of has one lemma that says exactly when it succeeds
and what it leaves then.
-/
namespace PathFormula.Draft

open Source

def Yields {α : Type} (x : Drafting α) (d : Draft) (a : α) (d' : Draft) : Prop :=
  x.run d = .ok a d'

section Combinators

variable {α β : Type} {d d' : Draft}

/-- A computation has one result. -/
theorem Yields.unique {x : Drafting α} {a b : α} {d₁ d₂ : Draft} (h₁ : Yields x d a d₁)
    (h₂ : Yields x d b d₂) : a = b ∧ d₁ = d₂ := by
  cases Eq.trans (Eq.symm h₁) h₂
  exact ⟨rfl, rfl⟩

@[simp] theorem yields_pure {a b : α} : Yields (pure a) d b d' ↔ b = a ∧ d' = d := by
  rw [Yields, EStateM.run_pure]
  constructor
  · intro h
    cases h
    exact ⟨rfl, rfl⟩
  · rintro ⟨rfl, rfl⟩
    rfl

@[simp] theorem yields_throw {e : DraftError} {a : α} : ¬ Yields (throw e) d a d' := by
  exact fun h : EStateM.Result.error e d = .ok a d' => nomatch h

theorem yields_bind {x : Drafting α} {f : α → Drafting β} {b : β} :
    Yields (x >>= f) d b d' ↔ ∃ a d₁, Yields x d a d₁ ∧ Yields (f a) d₁ b d' := by
  simp only [Yields, EStateM.run_bind]
  cases x.run d with
  | ok a d₁ =>
    constructor
    · exact fun h => ⟨a, d₁, rfl, h⟩
    · rintro ⟨a, d₁, h₁, h⟩
      cases h₁
      exact h
  | error e d₁ =>
    constructor
    · exact fun h => nomatch h
    · rintro ⟨a, d₁, h₁, -⟩
      exact nomatch h₁

theorem yields_seq {x : Drafting Unit} {f : Unit → Drafting β} {b : β} :
    Yields (x >>= f) d b d' ↔ ∃ d₁, Yields x d () d₁ ∧ Yields (f ()) d₁ b d' := by
  rw [yields_bind]
  exact ⟨fun ⟨_, d₁, h⟩ => ⟨d₁, h⟩, fun ⟨d₁, h⟩ => ⟨(), d₁, h⟩⟩

@[simp] theorem yields_map {x : Drafting α} {f : α → β} {b : β} :
    Yields (f <$> x) d b d' ↔ ∃ a, Yields x d a d' ∧ b = f a := by
  rw [← bind_pure_comp, yields_bind]
  constructor
  · rintro ⟨a, d₁, h, hb⟩
    obtain ⟨rfl, rfl⟩ := yields_pure.1 hb
    exact ⟨a, h, rfl⟩
  · rintro ⟨a, h, rfl⟩
    exact ⟨a, d', h, yields_pure.2 ⟨rfl, rfl⟩⟩

@[simp] theorem yields_get {a : Draft} : Yields get d a d' ↔ a = d ∧ d' = d := by
  rw [Yields, EStateM.run_get]
  constructor
  · intro h
    cases h
    exact ⟨rfl, rfl⟩
  · rintro ⟨rfl, rfl⟩
    rfl

@[simp] theorem yields_get_bind {f : Draft → Drafting α} {a : α} :
    Yields (get >>= f) d a d' ↔ Yields (f d) d a d' := Iff.rfl

@[simp] theorem yields_modify_bind {f : Draft → Draft} {g : Unit → Drafting α} {a : α} :
    Yields (modify f >>= g) d a d' ↔ Yields (g ()) (f d) a d' := Iff.rfl

@[simp] theorem yields_throw_bind {e : DraftError} {f : α → Drafting β} {b : β} :
    ¬ Yields (throw e >>= f) d b d' := by
  rw [yields_bind]
  rintro ⟨_, _, h, -⟩
  exact yields_throw h

@[simp] theorem yields_modify {f : Draft → Draft} {u : Unit} :
    Yields (modify f) d u d' ↔ d' = f d := by
  rw [Yields, EStateM.run_modify]
  constructor
  · intro h
    cases h
    rfl
  · rintro rfl
    rfl

@[simp] theorem yields_ite {c : Prop} [Decidable c] {x y : Drafting α} {a : α} :
    Yields (if c then x else y) d a d' ↔ if c then Yields x d a d' else Yields y d a d' := by
  split <;> rfl

end Combinators

/-! ### The changes a draft can undergo -/

def warned (d : Draft) (location : Location) (notice : Notice) : Draft :=
  { d with diagnostics := d.diagnostics.report .warning location notice }

def emitted (d : Draft) (fact : Term) (location : Location) : Draft :=
  { d with constraints := d.constraints ++ [⟨d.pathCondition, fact, location⟩] }

def named (d : Draft) (id : Nat) (sort : TermSort) : Draft :=
  { d with known := (id, sort) :: d.known }

def advanced (d : Draft) (id : Nat) : Draft :=
  { d with registry := d.registry.map fun w =>
      if w.id = id then { w with toVariable := w.advance } else w }

def pushed (d : Draft) (condition : Term) : Draft :=
  { d with
    path := (if d.pathCondition.isTrue then condition else .and d.pathCondition condition)
      :: d.path }

section Fields

variable (d : Draft) (fact condition : Term) (location : Location) (notice : Notice) (id : Nat)
  (sort : TermSort)

@[simp] theorem warned_settings : (d.warned location notice).settings = d.settings := rfl
@[simp] theorem warned_phase : (d.warned location notice).phase = d.phase := rfl
@[simp] theorem warned_registry : (d.warned location notice).registry = d.registry := rfl
@[simp] theorem warned_known : (d.warned location notice).known = d.known := rfl
@[simp] theorem warned_path : (d.warned location notice).path = d.path := rfl
@[simp] theorem warned_constraints :
    (d.warned location notice).constraints = d.constraints := rfl

@[simp] theorem emitted_settings : (d.emitted fact location).settings = d.settings := rfl
@[simp] theorem emitted_phase : (d.emitted fact location).phase = d.phase := rfl
@[simp] theorem emitted_registry : (d.emitted fact location).registry = d.registry := rfl
@[simp] theorem emitted_known : (d.emitted fact location).known = d.known := rfl
@[simp] theorem emitted_path : (d.emitted fact location).path = d.path := rfl
@[simp] theorem emitted_constraints : (d.emitted fact location).constraints =
    d.constraints ++ [⟨d.pathCondition, fact, location⟩] := rfl

@[simp] theorem named_settings : (d.named id sort).settings = d.settings := rfl
@[simp] theorem named_phase : (d.named id sort).phase = d.phase := rfl
@[simp] theorem named_registry : (d.named id sort).registry = d.registry := rfl
@[simp] theorem named_known : (d.named id sort).known = (id, sort) :: d.known := rfl
@[simp] theorem named_path : (d.named id sort).path = d.path := rfl
@[simp] theorem named_constraints : (d.named id sort).constraints = d.constraints := rfl

@[simp] theorem advanced_settings : (d.advanced id).settings = d.settings := rfl
@[simp] theorem advanced_phase : (d.advanced id).phase = d.phase := rfl
@[simp] theorem advanced_known : (d.advanced id).known = d.known := rfl
@[simp] theorem advanced_path : (d.advanced id).path = d.path := rfl
@[simp] theorem advanced_constraints : (d.advanced id).constraints = d.constraints := rfl

@[simp] theorem pushed_settings : (d.pushed condition).settings = d.settings := rfl
@[simp] theorem pushed_phase : (d.pushed condition).phase = d.phase := rfl
@[simp] theorem pushed_registry : (d.pushed condition).registry = d.registry := rfl
@[simp] theorem pushed_known : (d.pushed condition).known = d.known := rfl
@[simp] theorem pushed_constraints : (d.pushed condition).constraints = d.constraints := rfl

end Fields

section Path

variable {P : Term → Prop} {d : Draft} {condition : Term}

/-- What holds of all open conditions holds of the innermost. -/
theorem forall_pathCondition (htrue : P (.ofBool true)) (h : ∀ t ∈ d.path, P t) :
    P d.pathCondition := by
  unfold pathCondition
  cases hp : d.path with
  | nil => exact htrue
  | cons t rest => exact h t (by simp [hp])

/-- What holds of all open conditions, of one more and of conjunctions holds once that is open
too. -/
theorem forall_path_pushed (htrue : P (.ofBool true)) (hand : ∀ a b, P a → P b → P (.and a b))
    (h : ∀ t ∈ d.path, P t) (hc : P condition) : ∀ t ∈ (d.pushed condition).path, P t := by
  refine List.forall_mem_cons.2 ⟨?_, h⟩
  split
  · exact hc
  · exact hand _ _ (forall_pathCondition htrue h) hc

end Path

/-! ### The operations -/

variable {α : Type} {d d' : Draft} {u : Unit}

@[simp] theorem yields_warn {location : Location} {notice : Notice} :
    Yields (warn location notice) d u d' ↔ d' = d.warned location notice := yields_modify

@[simp] theorem yields_warn_bind {location : Location} {notice : Notice} {f : Unit → Drafting α}
    {a : α} : Yields (warn location notice >>= f) d a d' ↔
      Yields (f ()) (d.warned location notice) a d' := Iff.rfl

@[simp] theorem yields_emit {fact : Term} {location : Location} :
    Yields (emit fact location) d u d' ↔ d' = d.emitted fact location := yields_modify

@[simp] theorem yields_emit_bind {fact : Term} {location : Location} {f : Unit → Drafting α}
    {a : α} : Yields (emit fact location >>= f) d a d' ↔
      Yields (f ()) (d.emitted fact location) a d' := Iff.rfl

@[simp] theorem yields_requirePhase {phase : Phase} {activity : Activity} :
    Yields (requirePhase phase activity) d u d' ↔ d.phase = phase ∧ d' = d := by
  rw [Yields, run_requirePhase]
  constructor
  · intro h
    split at h
    · cases h
      exact ⟨‹_›, rfl⟩
    · split at h <;> cases h
  · rintro ⟨hp, rfl⟩
    rw [if_pos hp]

@[simp] theorem yields_requirePhase_bind {phase : Phase} {activity : Activity}
    {f : Unit → Drafting α} {a : α} :
    Yields (requirePhase phase activity >>= f) d a d' ↔ d.phase = phase ∧ Yields (f ()) d a d' := by
  rw [yields_bind]
  constructor
  · rintro ⟨_, _, h, hf⟩
    obtain ⟨hp, rfl⟩ := yields_requirePhase.1 h
    exact ⟨hp, hf⟩
  · rintro ⟨hp, hf⟩
    exact ⟨(), d, yields_requirePhase.2 ⟨hp, rfl⟩, hf⟩

@[simp] theorem yields_requireEncoding :
    Yields requireEncoding d u d' ↔ d.phase = .encoding ∧ d' = d := yields_requirePhase

@[simp] theorem yields_requireEncoding_bind {f : Unit → Drafting α} {a : α} :
    Yields (requireEncoding >>= f) d a d' ↔ d.phase = .encoding ∧ Yields (f ()) d a d' :=
  yields_requirePhase_bind

theorem yields_name {e : Expr} {t : Term} :
    Yields (name e) d t d' ↔
      ∃ sort, e.termSort = .ok sort ∧ t = .symbol (expressionSymbol e.id sort) ∧
        d' = d.named e.id sort := by
  unfold name
  cases e.termSort with
  | error err => simp
  | ok sort => simp [named, and_comm]

/-- Reading the value of an expression finds its symbol, or gives it one with a warning. -/
theorem yields_valueOf {e : Expr} {t : Term} :
    Yields (valueOf e) d t d' ↔
      ∃ sort, t = .symbol (expressionSymbol e.id sort) ∧
        (d.known.lookup e.id = some sort ∧ d' = d ∨
          d.known.lookup e.id = none ∧ d.settings.isStrict = false ∧ d.phase = .encoding ∧
            e.termSort = .ok sort ∧
            d' = (d.warned e.location .undefinedExpression).named e.id sort) := by
  unfold valueOf
  rw [yields_get_bind]
  cases hk : d.known.lookup e.id with
  | some sort =>
    simp only [expression?, hk, Option.map_some, yields_pure]
    grind
  | none =>
    cases hs : d.settings.isStrict with
    | true => simp [expression?, hk]
    | false =>
      simp [expression?, hk, yields_name]
      grind

theorem yields_valueOf_known {e : Expr} {sort : TermSort} {t : Term}
    (hk : d.known.lookup e.id = some sort) :
    Yields (valueOf e) d t d' ↔ t = .symbol (expressionSymbol e.id sort) ∧ d' = d := by
  rw [yields_valueOf, hk]
  constructor
  · rintro ⟨s, rfl, ⟨⟨⟩, rfl⟩ | ⟨⟨⟩, -⟩⟩
    exact ⟨rfl, rfl⟩
  · rintro ⟨rfl, rfl⟩
    exact ⟨sort, rfl, .inl ⟨rfl, rfl⟩⟩

theorem yields_create {e : Expr} :
    Yields (create e) d u d' ↔
      d.phase = .encoding ∧
        ((∃ sort, d.known.lookup e.id = some sort) ∧ d' = d.warned e.location .createdTwice ∨
          d.known.lookup e.id = none ∧ ∃ sort, e.termSort = .ok sort ∧ d' = d.named e.id sort) := by
  unfold create
  cases hk : d.known.lookup e.id with
  | some sort => simp [expression?, hk]
  | none =>
    have hd : discard (name e) = (fun _ => ()) <$> name e := rfl
    simp only [yields_requireEncoding_bind, yields_get_bind, expression?, hk, Option.map_none, hd,
      yields_map, yields_name]
    grind

/-- Defining an expression equates its symbol, a new one if it has none, with a term. -/
theorem yields_define {e : Expr} {t : Term} :
    Yields (define e t) d u d' ↔
      d.phase = .encoding ∧ ∃ sort,
        (d.known.lookup e.id = some sort ∧
            d' = d.emitted (.eq (.symbol (expressionSymbol e.id sort)) t) e.location ∨
          d.known.lookup e.id = none ∧ e.termSort = .ok sort ∧
            d' = (d.named e.id sort).emitted (.eq (.symbol (expressionSymbol e.id sort)) t)
              e.location) := by
  unfold define
  cases hk : d.known.lookup e.id with
  | some sort => simp [expression?, hk]
  | none =>
    simp only [yields_requireEncoding_bind, yields_get_bind, expression?, hk, Option.map_none]
    simp only [yields_bind, yields_name, yields_emit]
    grind

theorem yields_write {id : Nat} {location : Location} {fact : Variable → Term} :
    Yields (write id location fact) d u d' ↔
      d.phase = .encoding ∧
        (d.registered? id = none ∧ d' = d.warned location (.unknownDeclaration id) ∨
          ∃ v, d.registered? id = some v ∧
            d' = (d.advanced id).emitted (fact v.advance) location) := by
  unfold write
  cases hr : d.registered? id with
  | none => simp [hr]
  | some v => simp [hr, advanced]

theorem yields_assign {id : Nat} {t : Term} {location : Location} :
    Yields (assign id t location) d u d' ↔
      d.phase = .encoding ∧
        (d.registered? id = none ∧ d' = d.warned location (.unknownDeclaration id) ∨
          ∃ v, d.registered? id = some v ∧
            d' = (d.advanced id).emitted (.eq (v.term (v.version + 1)) t) location) :=
  yields_write

theorem yields_forget {id : Nat} {location : Location} :
    Yields (forget id location) d u d' ↔
      d.phase = .encoding ∧
        (d.registered? id = none ∧ d' = d.warned location (.unknownDeclaration id) ∨
          ∃ v, d.registered? id = some v ∧
            d' = (d.advanced id).emitted v.advance.rangeFact location) :=
  yields_write

@[simp] theorem yields_pushCondition {condition : Term} :
    Yields (pushCondition condition) d u d' ↔ d' = d.pushed condition := yields_modify

theorem yields_pushPath {e : Expr} {sign : Bool} :
    Yields (pushPath e sign) d u d' ↔
      ∃ t d₁, Yields (valueOf e) d t d₁ ∧ d' = d₁.pushed (if sign then t else .not t) := by
  simp [pushPath, yields_bind]

/-- The draft without its innermost condition. -/
def popped (d : Draft) : Draft := { d with path := d.path.tail }

theorem yields_popPath : Yields popPath d u d' ↔ d.path ≠ [] ∧ d' = d.popped := by
  unfold popPath
  rw [yields_get_bind]
  cases hp : d.path with
  | nil => simp
  | cons t outer => simp [popped, hp]

end PathFormula.Draft
