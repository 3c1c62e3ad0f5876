import Mathlib.Control.Traversable.Instances
import PathFormula.Proofs.Loops
import PathFormula.Proofs.Opening
import PathFormula.Proofs.Progress
import PathFormula.Source.Builder

/-!
# Formulas and runs

The formula of a function of the fragment has a model for every run that keeps its variables in
range (`formula_covers_runs`). Without loops its models are the runs of the function over unbounded
integers and no others (`formula_iff_runs`).
-/
namespace PathFormula

open Source

theorem Partition.admits_of_starts {partition : Partition} {domain : Domain} {x : Value}
    (h : partition.starts domain x) : domain.admits x := by
  cases partition with
  | state | parameter => exact h
  | «local» | «return» =>
    obtain rfl := of_decide_eq_true h
    exact Draft.admits_zero domain

namespace Draft

variable {contract : Contract} {f : Function} {settings : Settings} {d d₀ d₁ d' : Draft} {m : Model}
  {exits : List Term} {loops : Prop} {rules : Rules} {initial final : Store}

theorem mem_of_domain? {id : Nat} {domain : Domain} (h : domain? contract f id = some domain) :
    ∃ p ∈ declarations contract f, p.2.id = id ∧ p.2.ty.domain = .ok domain := by
  obtain ⟨⟨partition, other⟩, he, rfl⟩ := Option.map_eq_some_iff.1 h
  obtain ⟨⟨partition', i, domain⟩, hm, hi⟩ := List.exists_of_findSome?_eq_some he
  obtain ⟨⟨partition'', declaration⟩, hp, ht⟩ := List.mem_filterMap.1 hm
  dsimp only at hi ht
  split at hi <;> cases hi
  split at ht <;> cases ht
  exact ⟨_, hp, ‹_›, ‹_›⟩

/-- Where all declarations have numbers of their own, a variable has the type of its declaration. -/
theorem declares_locals (hd : ((declarations contract f).map (·.2.id)).Nodup) :
    Declares (domain? contract f) (Stmt.localsOfAll f.body) := by
  intro x hx domain hdomain
  obtain ⟨p, hp, hid, ht⟩ := mem_of_domain? hdomain
  have hmem : (Partition.local, x) ∈ declarations contract f := by
    have hx' : x ∈ f.locals := hx
    simp [declarations, hx']
  obtain rfl := List.inj_on_of_nodup_map hd hp hmem hid
  exact ht

/-- A store that a function may be entered with has its variables in range. -/
theorem ranged_of_starts {σ : Store} (h : f.Starts contract σ) : Ranged (domain? contract f) σ := by
  intro id
  have hid := h id
  unfold domain?
  cases he : Source.role? contract f id with
  | none =>
    rw [he] at hid
    exact hid
  | some p =>
    rw [he] at hid
    obtain ⟨x, hx, hs⟩ := hid
    exact ⟨x, hx, Partition.admits_of_starts hs⟩

theorem bounds_careful (contract : Contract) (f : Function) :
    (Rules.careful contract f).Bounds (domain? contract f) := by
  intro id x ha domain hd
  have hd' : domain? contract f id = some domain := hd
  simpa [Rules.careful, hd'] using ha

theorem Later.storeAt (h : Later d d') (k : Nat) (m : Model) : d'.storeAt k m = d.storeAt k m := by
  funext id
  rw [Draft.storeAt, Draft.storeAt, h.term?]

/-- The body of a function of the fragment can be encoded. -/
theorem exists_encoding (hd : ((declarations contract f).map (·.2.id)).Nodup)
    (he : ((Stmt.nodesOfAll f.body).map Expr.id).Nodup)
    (hp : Stmt.PlainAll loops (domain? contract f) f.returns f.body)
    (hs : settings.guardsDivision = false) :
    ∃ d₀ exits d₁, Opening contract f settings d₀ ∧ d₀.Unguarded ∧
      Yields (Stmt.encodeAll f.returns f.body) d₀ exits d₁ ∧
        (f.analyze settings contract).outcome = .ok d₁.finished := by
  obtain ⟨d₀, ho, hok⟩ := exists_opening_outcome (nodup_enrolment hd) settings
  have hu : d₀.Unguarded := ⟨ho.phase, ho.settings ▸ hs⟩
  obtain ⟨exits, d₁, hy⟩ := hp.succeeds (ho.stage he) hu
  exact ⟨d₀, exits, d₁, ho, hu, hy, hok exits d₁ hy⟩

/-- Every run that the encoding can follow has a model. -/
theorem exists_model_of_runs {byZero : Int → Int}
    (hd : ((declarations contract f).map (·.2.id)).Nodup)
    (he : ((Stmt.nodesOfAll f.body).map Expr.id).Nodup)
    (hp : Stmt.PlainAll loops (domain? contract f) f.returns f.body)
    (ho : Opening contract f settings d₀) (hu : d₀.Unguarded)
    (hy : Yields (Stmt.encodeAll f.returns f.body) d₀ exits d₁) (hw : rules.Within byZero)
    (hb : loops → rules.Bounds (domain? contract f)) (hr : f.Runs rules contract initial final) :
    ∃ m : Model, m.byZero = byZero ∧ d₁.HoldsIn m ∧ d₁.storeAt 0 m = initial ∧
      d₁.store m = final := by
  obtain ⟨hstarts, fuel, flow, hrun⟩ := hr
  obtain ⟨m, hz, hm, rfl⟩ := ho.exists_model hstarts byZero
  have hf : Follows loops (domain? contract f) rules m (d₀.store m) :=
    ⟨hz ▸ hw, hb, fun _ => ranged_of_starts hstarts⟩
  obtain ⟨m', hx, hfinal, -⟩ := hp.realised (declares_locals hd) (ho.stage he) hu hy m hm
    (ho.opened m) hf fuel flow final hrun
  have hl := (Stmt.grows_encodeAll f.body (ho.stage he) hp.consistent hy).grows.later
  refine ⟨m', hx.agrees.byZero.trans hz, hx.holds, ?_, hfinal⟩
  rw [hl.storeAt, ho.storeAt_zero, hx.store (.refl d₀)]

/-- The models of the formula of a function without loops are its runs over unbounded integers, with
the same quotients by zero. -/
theorem formula_iff_runs (hd : ((declarations contract f).map (·.2.id)).Nodup)
    (he : ((Stmt.nodesOfAll f.body).map Expr.id).Nodup)
    (hp : Stmt.PlainAll False (domain? contract f) f.returns f.body)
    (hs : settings.guardsDivision = false) :
    ∃ d, (f.analyze settings contract).outcome = .ok d ∧ ∀ byZero initial final,
      (∃ m : Model, m.byZero = byZero ∧ d.formula.Holds m ∧ d.storeAt 0 m = initial ∧
        d.store m = final) ↔ f.Runs (.unbounded byZero) contract initial final := by
  obtain ⟨d₀, exits, d₁, ho, hu, hy, hok⟩ := exists_encoding hd he hp hs
  refine ⟨d₁.finished, hok, fun byZero initial final => ⟨?_, fun hr => ?_⟩⟩
  · rintro ⟨m, rfl, hm, rfl, rfl⟩
    have hm₁ : d₁.HoldsIn m := holds_formula.1 hm
    have hl := (Stmt.grows_encodeAll f.body (ho.stage he) hp.consistent hy).grows.later
    have hinit : d₁.finished.storeAt 0 m = d₀.store m :=
      (hl.storeAt 0 m).trans (ho.storeAt_zero m)
    refine ⟨hinit ▸ ho.holdsIn_iff_starts.1 (hl.holdsIn hm₁), 0, flow exits m, ?_⟩
    rw [hinit]
    exact hp.exact (declares_locals hd) (ho.stage he) hu hy m hm₁ (ho.opened m) 0
  · have hw : (Rules.unbounded byZero).Within byZero := fun a q hq => (Option.some.inj hq).symm
    obtain ⟨m, hz, hm, hi, hf⟩ := exists_model_of_runs hd he hp ho hu hy hw False.elim hr
    exact ⟨m, hz, holds_formula.2 hm, hi, hf⟩

/-- A function that adds one to its parameter, unless it is too great. -/
def capped : Function :=
  StateT.run' (m := Id) (do
    let x ← Builder.declaration "x" (.integer ⟨8, false⟩)
    let r ← Builder.declaration "r" (.integer ⟨8, false⟩)
    let isHigh ← Builder.binary (.comparison .gt) (← Builder.identifier x) (← Builder.number 9)
    let early ← Builder.ret (← Builder.number 9)
    let sum ← Builder.binary (.arithmetic .add) (← Builder.identifier x) (← Builder.number 1)
    Builder.function "f" [x] [r]
      [← Builder.branch isHigh early none, ← Builder.expression (← Builder.assign r sum)])
    Builder.first

theorem capped_formula_iff_runs :
    ∃ d, (capped.analyze {} ⟨0, "C", {}, [], [capped]⟩).outcome = .ok d ∧
      ∀ byZero initial final,
        (∃ m : Model, m.byZero = byZero ∧ d.formula.Holds m ∧ d.storeAt 0 m = initial ∧
          d.store m = final) ↔
            capped.Runs (.unbounded byZero) ⟨0, "C", {}, [], [capped]⟩ initial final := by
  have hx : domain? ⟨0, "C", {}, [], [capped]⟩ capped 1 = some (.integer ⟨8, false⟩) := by decide
  have hr : domain? ⟨0, "C", {}, [], [capped]⟩ capped 2 = some (.integer ⟨8, false⟩) := by decide
  have hp : Stmt.PlainAll False (domain? ⟨0, "C", {}, [], [capped]⟩ capped) capped.returns
      capped.body := by
    refine ⟨⟨?_, ?_, trivial⟩, .inl ⟨.int, ?_⟩, trivial⟩
    · exact .comparison (.identifier hx rfl) (.number rfl rfl) rfl (by decide) rfl
    · rintro e ⟨⟩
      exact ⟨_, _, rfl, hr, .number rfl rfl⟩
    · exact .assign (.arithmetic (.identifier hx rfl) (.number rfl rfl) rfl) hr rfl rfl
  exact formula_iff_runs (by decide) (by decide) hp rfl

/-- The formula of a function has a model for every run that satisfies its assertions, never divides
by zero and keeps its variables in range. -/
theorem formula_covers_runs (hd : ((declarations contract f).map (·.2.id)).Nodup)
    (he : ((Stmt.nodesOfAll f.body).map Expr.id).Nodup)
    (hp : Stmt.PlainAll True (domain? contract f) f.returns f.body)
    (hs : settings.guardsDivision = false) :
    ∃ d, (f.analyze settings contract).outcome = .ok d ∧ ∀ initial final,
      f.Runs (.careful contract f) contract initial final →
        ∃ m : Model, d.formula.Holds m ∧ d.storeAt 0 m = initial ∧ d.store m = final := by
  obtain ⟨d₀, exits, d₁, ho, hu, hy, hok⟩ := exists_encoding hd he hp hs
  refine ⟨d₁.finished, hok, fun initial final hr => ?_⟩
  have hw : (Rules.careful contract f).Within id := fun a q hq => by cases hq
  obtain ⟨m, -, hm, hi, hf⟩ :=
    exists_model_of_runs hd he hp ho hu hy hw (fun _ => bounds_careful contract f) hr
  exact ⟨m, holds_formula.2 hm, hi, hf⟩

/-- A function that counts its parameter down and may return from inside the loop. -/
def drain : Function :=
  StateT.run' (m := Id) (do
    let x ← Builder.declaration "x" (.integer ⟨8, false⟩)
    let r ← Builder.declaration "r" (.integer ⟨8, false⟩)
    let isLow ← Builder.binary (.comparison .lt) (← Builder.identifier x) (← Builder.number 3)
    let early ← Builder.ret (← Builder.identifier x)
    let step ← Builder.unary .decrement true (← Builder.target x)
    let body ← Builder.block [← Builder.branch isLow early none, ← Builder.expression step]
    let isOpen ← Builder.binary (.comparison .gt) (← Builder.identifier x) (← Builder.number 0)
    Builder.function "f" [x] [r] [← Builder.whileLoop isOpen body]) Builder.first

/-- The values of the parameter and the result of such a function. -/
def pair (x r : Int) : Store := fun id =>
  if id = 1 then some (.int x) else if id = 2 then some (.int r) else none

theorem drain_starts : drain.Starts ⟨0, "C", {}, [], [drain]⟩ (pair 5 0) := by
  have he : entries ⟨0, "C", {}, [], [drain]⟩ drain =
      [(.parameter, 1, .integer ⟨8, false⟩), (.return, 2, .integer ⟨8, false⟩)] := by decide
  intro id
  by_cases h₁ : id = 1
  · subst h₁
    exact ⟨.int 5, rfl, by decide⟩
  · by_cases h₂ : id = 2
    · subst h₂
      exact ⟨.int 0, rfl, by decide⟩
    · have hn : role? ⟨0, "C", {}, [], [drain]⟩ drain id = none := by
        simp [role?, he, Ne.symm h₁, Ne.symm h₂, List.findSome?]
      simp [hn, pair, h₁, h₂]

theorem drain_formula_covers_runs :
    ∃ d, (drain.analyze {} ⟨0, "C", {}, [], [drain]⟩).outcome = .ok d ∧
      ∃ m : Model, d.formula.Holds m ∧ d.storeAt 0 m = pair 5 0 ∧ d.store m 1 = some (.int 2) ∧
        d.store m 2 = some (.int 2) := by
  have hx : domain? ⟨0, "C", {}, [], [drain]⟩ drain 1 = some (.integer ⟨8, false⟩) := by decide
  have hr : domain? ⟨0, "C", {}, [], [drain]⟩ drain 2 = some (.integer ⟨8, false⟩) := by decide
  have hp : Stmt.PlainAll True (domain? ⟨0, "C", {}, [], [drain]⟩ drain) drain.returns
      drain.body := by
    refine ⟨⟨trivial, ?_, ⟨?_, ?_, trivial⟩, .inl ⟨.int, ?_⟩, trivial⟩, trivial⟩
    · exact .comparison (.identifier hx rfl) (.number rfl rfl) rfl (by decide) rfl
    · exact .comparison (.identifier hx rfl) (.number rfl rfl) rfl (by decide) rfl
    · rintro e ⟨⟩
      exact ⟨_, _, rfl, hr, .identifier hx rfl⟩
    · exact .step (.inr rfl) hx rfl rfl
  have hrun : (Stmt.execAll (.careful ⟨0, "C", {}, [], [drain]⟩ drain) drain.returns 4 drain.body
      (pair 5 0)).map (fun p => (p.2 1, p.2 2)) = some (some (.int 2), some (.int 2)) := by
    decide
  obtain ⟨⟨flow, final⟩, hexec, hfinal⟩ := Option.map_eq_some_iff.1 hrun
  have hs : ({} : Settings).guardsDivision = false := rfl
  obtain ⟨d, hd, hruns⟩ := formula_covers_runs (by decide) (by decide) hp hs
  obtain ⟨m, hm, hi, rfl⟩ := hruns _ _ ⟨drain_starts, 4, flow, hexec⟩
  exact ⟨d, hd, m, hm, hi, congrArg Prod.fst hfinal, congrArg Prod.snd hfinal⟩

end Draft

end PathFormula
