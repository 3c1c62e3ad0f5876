import Mathlib.Control.Traversable.Instances
import PathFormula.Proofs.Bodies
import PathFormula.Proofs.Opening
import PathFormula.Source.Builder

/-!
# Freshness

Every equation in a draft defines a symbol that is new: it occurs neither in the condition and the
right side of the equation nor in anything emitted before. A model of the formula can therefore be
built one constraint after the other, unless the body asserts something.
-/
namespace PathFormula

open Source

/-- An equation has a symbol on its left that occurs nowhere else in it, nor in the constraints
before it. -/
def Constraint.Fresh (before : List Constraint) (c : Constraint) : Prop :=
  ∀ a b, c.fact = .eq a b → ∃ s : Symbol, a = .symbol s ∧ s.name ∉ c.guard.names ∧
    s.name ∉ b.names ∧ ∀ c' ∈ before, s.name ∉ c'.guard.names ∧ s.name ∉ c'.fact.names

namespace Draft

def DefinesFresh (constraints : List Constraint) : Prop :=
  ∀ before c after, constraints = before ++ c :: after → c.Fresh before

variable {L : Licence} {d d' : Draft} {constraints : List Constraint} {c : Constraint}
  {location : Location}

theorem DefinesFresh.append (h : DefinesFresh constraints) (hc : c.Fresh constraints) :
    DefinesFresh (constraints ++ [c]) := by
  intro before c' after he
  rcases List.eq_nil_or_concat after with rfl | ⟨rest, last, rfl⟩
  · obtain ⟨rfl, hlast⟩ := List.append_inj' he rfl
    cases hlast
    exact hc
  · have he' : constraints ++ [c] = (before ++ c' :: rest) ++ [last] := by simpa using he
    exact h before c' rest (List.append_inj' he' rfl).1

/-- A name that a draft does not own occurs nowhere in it. -/
theorem Closed.fresh (hd : d.Closed) {s : Symbol} (hn : ¬ d.Owns s.name) {t : Term}
    (ht : d.Covers t) : Constraint.Fresh d.constraints ⟨d.pathCondition, .eq
    (.symbol s) t, location⟩ := by
  rintro _ _ ⟨⟩
  exact ⟨s, rfl, fun h => hn (hd.covers_pathCondition _ h), fun h => hn (ht _ h), fun c hc =>
    ⟨fun h => hn ((hd.constraints c hc).1 _ h), fun h => hn ((hd.constraints c hc).2 _ h)⟩⟩

theorem fresh_of_ne {guard fact : Term} (h : ∀ a b, fact ≠ .eq a b) :
    Constraint.Fresh constraints ⟨guard, fact, location⟩ :=
  fun a b he => absurd he (h a b)

theorem rangeFact_ne_eq (v : Variable) (a b : Term) : v.rangeFact ≠ .eq a b := by
  unfold Variable.rangeFact
  cases v.domain <;> simp [Term.implies]

/-- Whatever is added keeps the definitions fresh. -/
theorem Grows.definesFresh (h : Grows L d d') (hd : d.Closed) (hf : DefinesFresh d.constraints) :
    DefinesFresh d'.constraints := by
  induction h with
  | refl | warned | named => exact hf
  | trans h₁ _ ih₁ ih₂ => exact ih₂ (h₁.closed hd) (ih₁ hd hf)
  | defined hk _ ht => exact hf.append (hd.fresh (not_owns_expression hk) ht)
  | assigned hv _ ht => exact hf.append (hd.fresh (not_owns_version hv (Nat.lt_add_one _)) ht)
  | @forgot d v => exact hf.append (fresh_of_ne (rangeFact_ne_eq v.advance))
  | assumed _ _ _ hne => exact hf.append (fresh_of_ne hne)
  | gated hc _ _ ih => exact ih (hd.pushed hc) hf

theorem definesFresh_entered {v : Registered} (hd : d.Closed) (h : d.registered? v.id = none)
    (hf : DefinesFresh d.constraints) : DefinesFresh (d.entered v location).constraints := by
  refine hf.append ?_
  cases v.partition with
  | state | parameter => exact fresh_of_ne (rangeFact_ne_eq v.toVariable)
  | «local» | «return» => exact hd.fresh (not_owns_unregistered h) (covers_zero v.sort)

variable {contract : Contract} {f : Function} {settings : Settings}

/-- The first facts about the variables define fresh symbols. -/
theorem definesFresh_of_prepare {u : Unit} {ds : Diagnostics}
    (h : Yields (prepare contract f) { settings, diagnostics := ds } u d) :
    DefinesFresh d.constraints := by
  obtain ⟨-, d₁, hr, -, rfl⟩ := yields_prepare.1 h
  have hp : d₁.Closed ∧ DefinesFresh d₁.constraints := by
    refine register_induction (P := fun e => e.Closed ∧ DefinesFresh e.constraints)
      (fun he => ⟨he.1.later .warned rfl rfl, he.2⟩)
      (fun hn he => ⟨he.1.entered hn, definesFresh_entered he.1 hn he.2⟩) ?_ hr
    exact ⟨⟨by simp, by simp⟩, fun before c after he => by simp at he⟩
  exact hp.2

/-- The store in which every variable is zero. -/
def zeros (contract : Contract) (f : Function) : Store :=
  fun id => (domain? contract f id).map fun domain => .zero domain.sort

theorem starts_zeros (contract : Contract) (f : Function) :
    f.Starts contract (zeros contract f) := by
  intro id
  unfold zeros domain?
  cases role? contract f id with
  | none => rfl
  | some p =>
    refine ⟨.zero p.2.sort, rfl, ?_⟩
    cases hp : p.1 with
    | state | parameter => exact admits_zero p.2
    | «local» | «return» => simp [Partition.starts]

/-- In the formula of a function with consistent annotations every equation defines a fresh symbol,
and without assertions the formula is satisfiable. -/
theorem definesFresh_and_satisfiable (hn : ((Stmt.nodesOfAll f.body).map Expr.id).Nodup)
    (hc : Stmt.ConsistentAll (domain? contract f) f.returns f.body)
    (h : (f.analyze settings contract).outcome = .ok d) :
    DefinesFresh d.constraints ∧
      ((∀ x ∈ Stmt.nodesOfAll f.body, x.isAssertion = false) → settings.guardsDivision = false →
        ∃ m, d.formula.Holds m) := by
  obtain ⟨d₀, d₁, exits, d₂, hw, hp, hb, rfl⟩ := outcome_eq_ok.1 h
  obtain ⟨ds, rfl⟩ := yields_warnings hw
  have ho := Opening.of_yields hp
  have hg := (Stmt.grows_encodeAll f.body (ho.stage hn) hc hb).grows
  refine ⟨hg.definesFresh ho.closed (definesFresh_of_prepare hp), fun ha hs => ?_⟩
  obtain ⟨m, -, hm, -⟩ := ho.exists_model (starts_zeros contract f) id
  have hfree : ¬ (bodyLicence (Stmt.nodesOfAll f.body) d₁.settings).asserts := by
    rintro (⟨x, hx, hax⟩ | hg)
    · rw [ha x hx] at hax
      cases hax
    · rw [ho.settings, hs] at hg
      cases hg
  obtain ⟨m', -, hm'⟩ := hg.extension hfree ho.closed hm
  exact ⟨m', holds_formula.2 hm'⟩

/-- A function that counts its parameter down, and may return early from the loop. -/
def countdown : Function :=
  StateT.run' (m := Id) (do
    let x ← Builder.declaration "x" (.integer ⟨8, false⟩)
    let r ← Builder.declaration "r" (.integer ⟨8, false⟩)
    let isLow ← Builder.binary (.comparison .lt) (← Builder.identifier x) (← Builder.number 3)
    let early ← Builder.ret (← Builder.identifier x)
    let step ← Builder.unary .decrement true (← Builder.target x)
    let body ← Builder.block [← Builder.branch isLow early none, ← Builder.expression step]
    let isOpen ← Builder.binary (.comparison .gt) (← Builder.identifier x) (← Builder.number 0)
    let unknown ← Builder.call "g" .internal [] (.integer ⟨8, false⟩)
    Builder.function "f" [x] [r]
      [← Builder.whileLoop isOpen body, ← Builder.expression unknown,
        ← Builder.ret (← Builder.identifier x)]) Builder.first

theorem countdown_definesFresh :
    ∃ d, (countdown.analyze {} ⟨0, "C", {}, [], [countdown]⟩).outcome = .ok d ∧
      DefinesFresh d.constraints ∧ ∃ m, d.formula.Holds m := by
  have hok : (countdown.analyze {} ⟨0, "C", {}, [], [countdown]⟩).outcome.isOk = true := by
    decide +kernel
  cases hd : (countdown.analyze {} ⟨0, "C", {}, [], [countdown]⟩).outcome with
  | error e =>
    rw [hd] at hok
    cases hok
  | ok d =>
    have h := definesFresh_and_satisfiable (by decide) (by decide) hd
    exact ⟨d, rfl, h.1, h.2 (by decide) rfl⟩

end Draft

end PathFormula
