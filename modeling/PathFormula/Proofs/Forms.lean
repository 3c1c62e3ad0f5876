import PathFormula.Proofs.Steps

/-!
# The parts of a statement

For every form of statement, what a successful encoding of it is made of, in order.
-/
namespace PathFormula.Source.Stmt

open Draft

variable {returns : List Declaration} {location : Location} {d d' : Draft} {exits : List Term}

def encodeOptional : Option Expr → Drafting Unit
  | none => pure ()
  | some e => e.encode

theorem yields_expression {e : Expr} :
    Yields ((expression location e).encode returns) d exits d' ↔
      exits = [] ∧ Yields e.encode d () d' := by
  simp only [encode, yields_bind, yields_pure]
  constructor
  · rintro ⟨_, _, h, rfl, rfl⟩
    exact ⟨rfl, h⟩
  · rintro ⟨rfl, h⟩
    exact ⟨(), d', h, rfl, rfl⟩

/-! ### Declarations -/

theorem yields_declare {declarations : List Declaration} {initial : Option Expr} :
    Yields ((declare location declarations initial).encode returns) d exits d' ↔
      exits = [] ∧ Yields (Draft.declare location declarations initial) d () d' := by
  simp only [encode, yields_bind, yields_pure]
  constructor
  · rintro ⟨_, _, h, rfl, rfl⟩
    exact ⟨rfl, h⟩
  · rintro ⟨rfl, h⟩
    exact ⟨(), d', h, rfl, rfl⟩

theorem yields_declare_none {declaration : Declaration} :
    Yields (Draft.declare location [declaration] none) d () d' ↔
      (d.registered? declaration.id = none ∧ d' = d) ∨
        ∃ v, d.registered? declaration.id = some v ∧
          Yields (assign declaration.id (.zero v.sort) location) d () d' := by
  unfold Draft.declare
  cases hv : d.registered? declaration.id <;> simp [sort?, hv]

theorem yields_declare_some {declaration : Declaration} {e : Expr} :
    Yields (Draft.declare location [declaration] (some e)) d () d' ↔
      ∃ d₁, Yields e.encode d () d₁ ∧
        ((d₁.registered? declaration.id = none ∧ d' = d₁) ∨
          (d₁.registered? declaration.id).isSome ∧
            Yields (assignFrom declaration.id e location) d₁ () d') := by
  simp only [Draft.declare, yields_seq, yields_get_bind]
  refine exists_congr fun d₁ => and_congr_right fun _ => ?_
  cases hv : d₁.registered? declaration.id <;> simp [sort?, hv]

theorem yields_declare_many {declarations : List Declaration} {initial : Option Expr}
    (hm : ∀ declaration, declarations ≠ [declaration]) :
    Yields (Draft.declare location declarations initial) d () d' ↔
      ∃ d₁, Yields (encodeOptional initial) d () d₁ ∧
        Yields (forgetAll (declarations.map (·.id)) location)
          (d₁.warned location .manyDeclarations) () d' := by
  have hform : Draft.declare location declarations initial = (do
      encodeOptional initial
      Draft.warn location .manyDeclarations
      forgetAll (declarations.map (·.id)) location) := by
    cases initial <;> simp [Draft.declare, encodeOptional, forgetAll]
  rw [hform]
  simp only [yields_seq, yields_warn, exists_eq_left]

/-- What declared variables start with, once the expression for it was encoded. -/
def giveInitial (location : Location) (declarations : List Declaration) (initial : Option Expr) :
    Drafting Unit := do
  match declarations with
  | [declaration] =>
      match (← get).sort? declaration.id with
      | none => return
      | some sort =>
          match initial with
          | some value => assignFrom declaration.id value location
          | none => assign declaration.id (.zero sort) location
  | _ =>
      Draft.warn location .manyDeclarations
      declarations.forM fun declaration => do
        if (← get).isRegistered declaration.id then forget declaration.id location

theorem declare_eq (location : Location) (declarations : List Declaration)
    (initial : Option Expr) :
    Draft.declare location declarations initial = (do
      encodeOptional initial
      giveInitial location declarations initial) := by
  cases initial <;> rfl

/-! ### Branches -/

/-- The second branch, with the values from before the first. -/
def encodeElse (returns : List Declaration) (location : Location) (condition : Expr)
    (before afterYes : Versions) : Option Stmt → Drafting (List Term)
  | none => pure []
  | some no => do
      pushPath condition false
      restore before afterYes location
      let exits ← no.encode returns
      popPath
      pure exits

theorem yields_encodeElse {condition : Expr} {before afterYes : Versions} {no : Stmt} :
    Yields (encodeElse returns location condition before afterYes (some no)) d exits d' ↔
      ∃ d₁ d₂ d₃, Yields (pushPath condition false) d () d₁ ∧
        Yields (restore before afterYes location) d₁ () d₂ ∧
          Yields (no.encode returns) d₂ exits d₃ ∧ d₃.path ≠ [] ∧ d' = d₃.popped := by
  simp only [encodeElse, yields_bind, yields_popPath, yields_pure]
  constructor
  · rintro ⟨_, d₁, h₁, _, d₂, h₂, _, d₃, h₃, _, _, ⟨hp, rfl⟩, rfl, rfl⟩
    exact ⟨d₁, d₂, d₃, h₁, h₂, h₃, hp, rfl⟩
  · rintro ⟨d₁, d₂, d₃, h₁, h₂, h₃, hp, rfl⟩
    exact ⟨(), d₁, h₁, (), d₂, h₂, exits, d₃, h₃, (), _, ⟨hp, rfl⟩, rfl, rfl⟩

theorem encode_branch (returns : List Declaration) (location : Location) (condition : Expr)
    (yes : Stmt) (no : Option Stmt) :
    (branch location condition yes no).encode returns = (do
      condition.encode
      let guard ← valueOf condition
      let before := (← get).versions
      pushPath condition true
      let yesExits ← yes.encode returns
      popPath
      let afterYes := (← get).versions
      let noExits ← encodeElse returns location condition before afterYes no
      mergeVersions guard before afterYes (← get).versions location
      return yesExits ++ noExits) := by
  cases no <;> simp [encode, encodeElse]

theorem yields_branch {condition : Expr} {yes : Stmt} {no : Option Stmt} :
    Yields ((branch location condition yes no).encode returns) d exits d' ↔
      ∃ d₁ guard d₂ d₃ yesExits d₄ noExits d₅, Yields condition.encode d () d₁ ∧
        Yields (valueOf condition) d₁ guard d₂ ∧ Yields (pushPath condition true) d₂ () d₃ ∧
          Yields (yes.encode returns) d₃ yesExits d₄ ∧ d₄.path ≠ [] ∧
            Yields (encodeElse returns location condition d₂.versions d₄.popped.versions no)
              d₄.popped noExits d₅ ∧
            Yields (mergeVersions guard d₂.versions d₄.popped.versions d₅.versions location)
              d₅ () d' ∧ exits = yesExits ++ noExits := by
  rw [encode_branch]
  simp only [yields_bind, yields_get, yields_popPath, yields_pure]
  constructor
  · rintro ⟨_, d₁, h₁, guard, d₂, h₂, _, _, ⟨rfl, rfl⟩, _, d₃, h₃, yesExits, d₄, h₄, _, _,
      ⟨hp, rfl⟩, _, _, ⟨rfl, rfl⟩, noExits, d₅, h₅, _, _, ⟨rfl, rfl⟩, _, _, h₆, rfl, rfl⟩
    exact ⟨d₁, guard, _, d₃, yesExits, d₄, noExits, _, h₁, h₂, h₃, h₄, hp, h₅, h₆, rfl⟩
  · rintro ⟨d₁, guard, d₂, d₃, yesExits, d₄, noExits, d₅, h₁, h₂, h₃, h₄, hp, h₅, h₆, rfl⟩
    exact ⟨(), d₁, h₁, guard, d₂, h₂, _, _, ⟨rfl, rfl⟩, (), d₃, h₃, yesExits, d₄, h₄, (), _,
      ⟨hp, rfl⟩, _, _, ⟨rfl, rfl⟩, noExits, d₅, h₅, _, _, ⟨rfl, rfl⟩, (), _, h₆, rfl, rfl⟩

/-! ### Sequences and returns -/

theorem yields_encodeAll_nil : Yields (encodeAll returns []) d exits d' ↔ exits = [] ∧ d' = d := by
  simp only [encodeAll, yields_pure]

/-- After a statement with returns inside it, the rest is a branch without a second side. -/
theorem yields_encodeAll_cons {s : Stmt} {rest : List Stmt} :
    Yields (encodeAll returns (s :: rest)) d exits d' ↔
      ∃ first d₁, Yields (s.encode returns) d first d₁ ∧
        ((Term.disjunction? first = none ∧ Yields (encodeAll returns rest) d₁ exits d') ∨
          ∃ taken later d₂, Term.disjunction? first = some taken ∧
            Yields (encodeAll returns rest) (d₁.pushed (.not taken)) later d₂ ∧ d₂.path ≠ [] ∧
              Yields (mergeVersions (.not taken) d₁.versions d₂.popped.versions d₁.versions
                s.location) d₂.popped () d' ∧ exits = first ++ later) := by
  simp only [encodeAll, yields_bind]
  refine exists_congr fun first => exists_congr fun d₁ => and_congr_right fun _ => ?_
  cases Term.disjunction? first with
  | none => simp
  | some taken =>
    simp only [yields_bind, yields_get, yields_pushCondition, yields_popPath, yields_pure,
      reduceCtorEq, false_and, false_or, Option.some.injEq]
    constructor
    · rintro ⟨_, _, ⟨rfl, rfl⟩, _, _, rfl, later, d₂, h₁, _, _, ⟨hp, rfl⟩, _, _,
        ⟨rfl, rfl⟩, _, _, h₂,
        rfl, rfl⟩
      exact ⟨taken, later, d₂, rfl, h₁, hp, h₂, rfl⟩
    · rintro ⟨_, later, d₂, rfl, h₁, hp, h₂, rfl⟩
      exact ⟨_, _, ⟨rfl, rfl⟩, (), _, rfl, later, d₂, h₁, (), _, ⟨hp, rfl⟩, _, _, ⟨rfl, rfl⟩,
        (), _, h₂,
        rfl, rfl⟩

theorem yields_ret_none :
    Yields ((ret location none).encode returns) d exits d' ↔ exits = [d.pathCondition] ∧ d' = d :=
    by
  simp only [encode, yields_get_bind, yields_pure]

theorem yields_ret_some {e : Expr} :
    Yields ((ret location (some e)).encode returns) d exits d' ↔
      ∃ d₁, Yields e.encode d () d₁ ∧ Yields (giveBack location returns e) d₁ () d' ∧
        exits = [d'.pathCondition] := by
  simp only [encode, yields_seq, yields_get_bind, yields_pure]
  constructor
  · rintro ⟨d₁, h₁, _, h₂, rfl, rfl⟩
    exact ⟨d₁, h₁, h₂, rfl⟩
  · rintro ⟨d₁, h₁, h₂, rfl⟩
    exact ⟨d₁, h₁, d', h₂, rfl, rfl⟩

theorem yields_giveBack_one {slot : Declaration} {e : Expr} :
    Yields (giveBack location [slot] e) d () d' ↔
      (d.registered? slot.id = none ∧ d' = d) ∨
        (d.registered? slot.id).isSome ∧ Yields (assignFrom slot.id e location) d () d' := by
  unfold giveBack
  cases hv : d.registered? slot.id <;> simp [isRegistered, hv]

theorem yields_giveBack_many {e : Expr} (hm : ∀ slot, returns ≠ [slot]) :
    Yields (giveBack location returns e) d () d' ↔ d' = d.warned location .manyReturns := by
  unfold giveBack
  split
  · exact absurd rfl (hm _)
  · exact yields_warn

/-! ### Loops -/

/-- Open the body of a loop that may have a condition. -/
def enter : Option Expr → Drafting Unit
  | none => pure ()
  | some condition => do
      condition.encode
      pushPath condition true

def leave : Option Expr → Drafting Unit
  | none => pure ()
  | some _ => popPath

def start (returns : List Declaration) : Option Stmt → Drafting (List Term)
  | none => pure []
  | some s => s.encode returns

/-- The one turn that is encoded of a loop. -/
def encodeTurn (returns : List Declaration) (location : Location) (written : List Nat)
    (condition step : Option Expr) (body : Stmt) : Drafting (List Term) := do
  Draft.warn location .loop
  forgetAll written location
  enter condition
  let exits ← body.encode returns
  encodeOptional step
  leave condition
  forgetAll written location
  return exits

/-- The test after the body is encoded like a step that follows it. -/
theorem encode_whileLoop (returns : List Declaration) (location : Location) (condition : Expr)
    (body : Stmt) (isBodyFirst : Bool) :
    (whileLoop location condition body isBodyFirst).encode returns =
      encodeTurn returns location (ordered (body.writes ++ condition.writes))
        (if isBodyFirst then none else some condition)
        (if isBodyFirst then some condition else none) body := by
  cases isBodyFirst <;> simp [encode, encodeTurn, enter, leave, encodeOptional]

theorem encode_forLoop (returns : List Declaration) (location : Location) (first : Option Stmt)
    (condition step : Option Expr) (body : Stmt) :
    (forLoop location first condition step body).encode returns = (do
      let startExits ← start returns first
      let exits ← encodeTurn returns location
        (ordered (body.writes ++ writesOfExpr condition ++ writesOfExpr step)) condition step body
      return startExits ++ exits) := by
  cases first <;> cases condition <;> cases step <;>
    simp [encode, encodeTurn, start, enter, encodeOptional, leave]

/-- Such a turn succeeds, with the drafts between its steps. -/
def EncodesTurn (returns : List Declaration) (location : Location) (written : List Nat)
    (condition step : Option Expr) (body : Stmt) (d : Draft) (exits : List Term) (d' : Draft) :
    Prop :=
  ∃ d₁ d₂ d₃ d₄ d₅, Yields (forgetAll written location) (d.warned location .loop) () d₁ ∧
    Yields (enter condition) d₁ () d₂ ∧ Yields (body.encode returns) d₂ exits d₃ ∧
      Yields (encodeOptional step) d₃ () d₄ ∧ Yields (leave condition) d₄ () d₅ ∧
        Yields (forgetAll written location) d₅ () d'

theorem yields_encodeTurn {written : List Nat} {condition step : Option Expr} {body : Stmt} :
    Yields (encodeTurn returns location written condition step body) d exits d' ↔
      EncodesTurn returns location written condition step body d exits d' := by
  rw [encodeTurn, yields_warn_bind]
  simp only [EncodesTurn, yields_bind, yields_pure]
  constructor
  · rintro ⟨_, d₁, h₁, _, d₂, h₂, _, d₃, h₃, _, d₄, h₄, _, d₅, h₅, _, _, h₆, rfl, rfl⟩
    exact ⟨d₁, d₂, d₃, d₄, d₅, h₁, h₂, h₃, h₄, h₅, h₆⟩
  · rintro ⟨d₁, d₂, d₃, d₄, d₅, h₁, h₂, h₃, h₄, h₅, h₆⟩
    exact ⟨(), d₁, h₁, (), d₂, h₂, exits, d₃, h₃, (), d₄, h₄, (), d₅, h₅, (), d', h₆, rfl, rfl⟩

theorem yields_whileLoop_testFirst {condition : Expr} {body : Stmt} :
    Yields ((whileLoop location condition body false).encode returns) d exits d' ↔
      EncodesTurn returns location (ordered (body.writes ++ condition.writes)) (some condition) none
        body d exits d' := by
  rw [encode_whileLoop]
  exact yields_encodeTurn

theorem yields_whileLoop_bodyFirst {condition : Expr} {body : Stmt} :
    Yields ((whileLoop location condition body true).encode returns) d exits d' ↔
      EncodesTurn returns location (ordered (body.writes ++ condition.writes)) none (some condition)
        body d exits d' := by
  rw [encode_whileLoop]
  exact yields_encodeTurn

theorem yields_forLoop {first : Option Stmt} {condition step : Option Expr} {body : Stmt} :
    Yields ((forLoop location first condition step body).encode returns) d exits d' ↔
      ∃ startExits d₀ bodyExits, Yields (start returns first) d startExits d₀ ∧
        EncodesTurn returns location
          (ordered (body.writes ++ writesOfExpr condition ++ writesOfExpr step)) condition step body
          d₀ bodyExits d' ∧ exits = startExits ++ bodyExits := by
  rw [encode_forLoop]
  simp only [yields_bind, yields_encodeTurn, yields_pure]
  constructor
  · rintro ⟨startExits, d₀, h₀, bodyExits, _, h₁, rfl, rfl⟩
    exact ⟨startExits, d₀, bodyExits, h₀, h₁, rfl⟩
  · rintro ⟨startExits, d₀, bodyExits, h₀, h₁, rfl⟩
    exact ⟨startExits, d₀, h₀, bodyExits, d', h₁, rfl, rfl⟩

end PathFormula.Source.Stmt
