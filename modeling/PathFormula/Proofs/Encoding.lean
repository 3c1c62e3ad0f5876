import PathFormula.Proofs.Annotation

/-!
# Encoding of expressions is growth

An expression with consistent annotations is encoded by steps that `Grows` lists, with new symbols
for its own nodes and new versions of the variables it writes only (`grows_encode`). Every
operation on a node is followed once, from a draft in which its parts have been encoded and the
node itself is due.
-/
namespace PathFormula

open Source

namespace Term

theorem hasSort_neg {a : Term} (h : a.HasSort .int) : (neg a).HasSort .int :=
  .dyadic rfl (hasSort_ofInt 0) h

theorem hasSort_zero (sort : TermSort) : (zero sort).HasSort sort := by
  cases sort with
  | bool => exact hasSort_ofBool false
  | int => exact hasSort_ofInt 0

@[simp] theorem value_zero (m : Model) (sort : TermSort) : (zero sort).value m = .zero sort := by
  cases sort with
  | bool => exact value_ofBool m false
  | int => exact value_ofInt m 0

theorem hasSort_expression (id : Nat) (sort : TermSort) :
    (symbol (Draft.expressionSymbol id sort)).HasSort sort := .symbol

theorem hasSort_version (v : Variable) (k : Nat) : (v.term k).HasSort v.sort := .symbol

theorem hasSort_quotient (ty : IntegerType) {a b : Term} (ha : a.HasSort .int)
    (hb : b.HasSort .int) : (quotient ty a b).HasSort .int := by
  have hdiv : ∀ {x y : Term}, x.HasSort .int → y.HasSort .int → (Term.div x y).HasSort .int :=
    fun hx hy => .dyadic rfl hx hy
  have hge : ∀ {x : Term}, x.HasSort .int → (Term.ge x (.ofInt 0)).HasSort .bool :=
    fun hx => .dyadic rfl hx (hasSort_ofInt 0)
  unfold quotient
  split
  · exact .ite (hge ha)
      (.ite (hge hb) (hdiv ha hb) (hasSort_neg (hdiv ha (hasSort_neg hb))))
      (.ite (hge hb) (hasSort_neg (hdiv (hasSort_neg ha) hb))
        (hdiv (hasSort_neg ha) (hasSort_neg hb)))
  · exact hdiv ha hb

theorem hasSort_arithmetic (op : Arithmetic) (ty : IntegerType) {a b : Term}
    (ha : a.HasSort .int) (hb : b.HasSort .int) : (op.term ty a b).HasSort .int := by
  cases op with
  | add | sub | mul => exact .dyadic rfl ha hb
  | div => exact hasSort_quotient ty ha hb

theorem hasSort_comparison (op : Comparison) {a b : Term} {sort : TermSort} (ha : a.HasSort sort)
    (hb : b.HasSort sort) (ho : op.isEquality = false → sort = .int) :
    (op.term a b).HasSort .bool := by
  cases op with
  | eq => exact .eq ha hb
  | ne => exact .not (.eq ha hb)
  | lt | le | gt | ge =>
    obtain rfl := ho rfl
    exact .dyadic rfl ha hb

theorem hasSort_connective (op : Connective) {a b : Term} (ha : a.HasSort .bool)
    (hb : b.HasSort .bool) : (op.term a b).HasSort .bool := by
  cases op <;> exact .dyadic rfl ha hb

theorem hasSort_disjunction {exits : List Term} {t : Term} (h : disjunction? exits = some t)
    (hs : ∀ x ∈ exits, x.HasSort .bool) : t.HasSort .bool :=
  disjunction?_induction (fun ha hb => .dyadic rfl ha hb) h hs

end Term

namespace Source.Expr

/-- The term for the value of an expression. -/
abbrev term (e : Expr) (sort : TermSort) : Term := .symbol (Draft.expressionSymbol e.id sort)

theorem nodes_subset_of_mem_children {e x : Expr} (h : x ∈ e.children) : x.nodes ⊆ e.nodes := by
  cases e with
  | literal | identifier => simp [children] at h
  | unary | binary | assignment | index | member =>
    simp only [children, List.mem_cons, List.not_mem_nil, or_false] at h
    rcases h with rfl | rfl <;> simp [nodes, List.subset_def] <;> tauto
  | tuple node components isInlineArray =>
    exact List.Subset.trans (nodes_subset_of_mem h) (List.subset_cons_self _ _)
  | call node callee arguments =>
    refine List.Subset.trans ?_ (List.subset_cons_self _ _)
    rcases List.mem_append.1 h with h | h
    · exact List.Subset.trans (nodes_subset_of_mem h) (List.subset_append_left _ _)
    · rw [List.mem_singleton.1 h]
      exact List.subset_append_right _ _

theorem mem_nodes_of_mem_children {e x : Expr} (h : x ∈ e.children) : x ∈ e.nodes :=
  nodes_subset_of_mem_children h x.mem_nodes_self

def licence (e : Expr) (settings : Settings) : Draft.Licence :=
  Draft.licence e.nodes (· ∈ e.writes) settings

end Source.Expr

namespace Draft

section Covers

variable {d : Draft} {a b : Term}

theorem covers_quotient (ty : IntegerType) (ha : d.Covers a) (hb : d.Covers b) :
    d.Covers (quotient ty a b) := by
  unfold quotient
  split <;> simp [ha, hb]

theorem covers_arithmetic (op : Arithmetic) (ty : IntegerType) (ha : d.Covers a)
    (hb : d.Covers b) : d.Covers (op.term ty a b) := by
  cases op with
  | add | sub | mul => exact covers_dyadic.2 ⟨ha, hb⟩
  | div => exact covers_quotient ty ha hb

theorem covers_comparison (op : Comparison) (ha : d.Covers a) (hb : d.Covers b) :
    d.Covers (op.term a b) := by
  cases op <;> simp [Comparison.term, ha, hb]

theorem covers_connective (op : Connective) (ha : d.Covers a) (hb : d.Covers b) :
    d.Covers (op.term a b) := by
  cases op <;> simp [Connective.term, ha, hb]

end Covers

variable {Γ : Nat → Option Domain} {scope : List Expr} {L : Licence} {d d' : Draft} {e : Expr}
  {u : Unit}

/-! ### Symbols and writes -/

theorem grows_valueOf (hd : d.Ready Γ scope) (he : e ∈ scope) (hL : e ∈ L.nodes) {t : Term}
    (h : Yields (valueOf e) d t d') :
    ∃ sort, e.termSort = .ok sort ∧ t = .symbol (expressionSymbol e.id sort) ∧
      d'.known.lookup e.id = some sort ∧ Grows L d d' := by
  obtain ⟨sort, rfl, ⟨hk, rfl⟩ | ⟨hk, -, -, hs, rfl⟩⟩ := yields_valueOf.1 h
  · exact ⟨sort, hd.sorts e he sort hk, rfl, hk, .refl _⟩
  · refine ⟨sort, hs, rfl, by simp, .trans .warned (.named hk ⟨e, hL, rfl, hs⟩)⟩

/-- Reading a value gives no other expression a symbol. -/
theorem lookup_valueOf {t : Term} (h : Yields (valueOf e) d t d') {id : Nat} (hne : id ≠ e.id) :
    d'.known.lookup id = d.known.lookup id := by
  obtain ⟨sort, -, ⟨-, rfl⟩ | ⟨-, -, -, -, rfl⟩⟩ := yields_valueOf.1 h
  · rfl
  · have hb : (id == e.id) = false := by simpa using hne
    simp [List.lookup_cons, hb]

theorem grows_define (hL : e ∈ L.nodes) (hu : d.known.lookup e.id = none) {t : Term}
    (ht : d.Covers t) (hs : ∀ sort, e.termSort = .ok sort → t.HasSort sort)
    (h : Yields (define e t) d u d') : Grows L d d' := by
  obtain ⟨-, sort, ⟨hk, -⟩ | ⟨-, hsort, rfl⟩⟩ := yields_define.1 h
  · rw [hu] at hk
    cases hk
  · exact .defined hu ⟨e, hL, rfl, hsort⟩ ht (hs sort hsort)

theorem grows_create (hL : e ∈ L.nodes) (h : Yields (create e) d u d') : Grows L d d' := by
  obtain ⟨-, ⟨-, rfl⟩ | ⟨hk, sort, hs, rfl⟩⟩ := yields_create.1 h
  · exact .warned
  · exact .named hk ⟨e, hL, rfl, hs⟩

theorem grows_assign {id : Nat} {t : Term} {location : Location} (hw : L.writes id)
    (ht : d.Covers t) (hs : ∀ v, d.registered? id = some v → t.HasSort v.sort)
    (h : Yields (assign id t location) d u d') : Grows L d d' := by
  obtain ⟨-, ⟨-, rfl⟩ | ⟨v, hv, rfl⟩⟩ := yields_assign.1 h
  · exact .warned
  · obtain rfl := id_of_registered? hv
    exact .assigned hv hw ht (hs v hv)

theorem grows_forget {id : Nat} {location : Location} (hw : L.writes id)
    (h : Yields (forget id location) d u d') : Grows L d d' := by
  obtain ⟨-, ⟨-, rfl⟩ | ⟨v, hv, rfl⟩⟩ := yields_forget.1 h
  · exact .warned
  · obtain rfl := id_of_registered? hv
    exact .forgot hv hw

theorem yields_arithmetic {op : Arithmetic} {ty : IntegerType} {a b t : Term}
    {location : Location} :
    Yields (arithmetic op ty a b location) d t d' ↔
      t = op.term ty a b ∧
        d' = if op = .div ∧ d.settings.guardsDivision = true
          then d.emitted (.ne b (.ofInt 0)) location else d := by
  unfold arithmetic
  by_cases hg : op = .div ∧ d.settings.guardsDivision = true
  · simp [hg, and_comm]
  · cases op <;> simp_all [yields_bind]

theorem grows_arithmetic {op : Arithmetic} {ty : IntegerType} {a b t : Term} {location : Location}
    (ha : d.settings.guardsDivision = true → L.asserts) (hb : d.Covers b)
    (hs : b.HasSort .int) (h : Yields (arithmetic op ty a b location) d t d') :
    t = op.term ty a b ∧ d'.known = d.known ∧ Grows L d d' := by
  obtain ⟨rfl, rfl⟩ := yields_arithmetic.1 h
  split
  · rename_i hg
    refine ⟨rfl, rfl, .assumed (ha hg.2) (by simp [hb]) ?_ (by simp [Term.ne])⟩
    exact .not (.eq hs (Term.hasSort_ofInt 0))
  · exact ⟨rfl, rfl, .refl d⟩

/-! ### Operations on a node -/

/-- The value of a variable after a step. -/
def stepped (isUp : Bool) (t : Term) : Term :=
  if isUp then .add t (.ofInt 1) else .sub t (.ofInt 1)

theorem hasSort_stepped (isUp : Bool) {t : Term} (h : t.HasSort .int) :
    (stepped isUp t).HasSort .int := by
  cases isUp <;> exact .dyadic rfl h (Term.hasSort_ofInt 1)

@[simp] theorem covers_stepped {isUp : Bool} {t : Term} :
    d.Covers (stepped isUp t) ↔ d.Covers t := by
  cases isUp <;> simp [stepped]

theorem yields_step_identifier {node : Node} {name : String} {id : Nat}
    {isUp isBefore isTarget : Bool} {v : Registered} (hv : d.registered? id = some v) :
    Yields (step e isUp isBefore (.identifier node name (some id) isTarget)) d u d' ↔
      e.ty.integer?.isSome ∧ ∃ d₁,
        Yields (assign id (stepped isUp v.current) e.location) d () d₁ ∧
          Yields (define e (if isBefore then stepped isUp v.current else v.current)) d₁ u d' := by
  unfold step
  cases ht : e.ty.integer? with
  | none => simp
  | some ty => simp [current?, hv, stepped, yields_seq]

/-- A step that succeeds warns, or moves the variable that its operand refers to. -/
theorem yields_step {isUp isBefore : Bool} {operand : Expr}
    (h : Yields (step e isUp isBefore operand) d u d') :
    e.ty.integer?.isSome ∧
      ((∃ notice, d' = d.warned e.location notice) ∨
        ∃ node name id isTarget v, operand = .identifier node name (some id) isTarget ∧
          d.registered? id = some v ∧ ∃ d₁,
            Yields (assign id (stepped isUp v.current) e.location) d () d₁ ∧
              Yields (define e (if isBefore then stepped isUp v.current else v.current))
                d₁ u d') := by
  have hty : e.ty.integer?.isSome := by
    unfold step at h
    cases ht : e.ty.integer? with
    | none => simp [ht] at h
    | some ty => rfl
  refine ⟨hty, ?_⟩
  obtain ⟨ty, ht⟩ := Option.isSome_iff_exists.1 hty
  cases operand with
  | identifier node name declaration isTarget =>
    cases declaration with
    | none => exact .inl ⟨_, by simpa [step, ht] using h⟩
    | some id =>
      cases hv : d.registered? id with
      | none => exact .inl ⟨_, by simpa [step, ht, current?, hv] using h⟩
      | some v => exact .inr ⟨node, name, id, isTarget, v, rfl, hv,
        ((yields_step_identifier hv).1 h).2⟩
  | _ => exact .inl ⟨_, by simpa [step, ht] using h⟩

theorem yields_not {node : Node} {isBefore : Bool} {operand : Expr} :
    Yields (unary (.unary node .not isBefore operand)) d u d' ↔
      node.ty.isBool = true ∧ ∃ t d₁, Yields (valueOf operand) d t d₁ ∧
        Yields (define (.unary node .not isBefore operand) (.not t)) d₁ u d' := by
  simp only [unary, Expr.ty, Expr.node]
  by_cases hb : node.ty.isBool = true <;> simp [hb, yields_bind]

theorem yields_binaryArithmetic {op : Arithmetic} {left right : Expr} {common : Ty} :
    Yields (binaryArithmetic e op left right common) d u d' ↔
      ∃ ty l d₁ r d₂ t d₃, common.integer? = some ty ∧ Yields (valueOf left) d l d₁ ∧
        Yields (valueOf right) d₁ r d₂ ∧ Yields (arithmetic op ty l r e.location) d₂ t d₃ ∧
          Yields (define e t) d₃ u d' := by
  unfold binaryArithmetic
  cases common.integer? with
  | none => simp
  | some ty => simp [yields_bind]

theorem yields_comparison {op : Comparison} {left right : Expr} {common : Ty} :
    Yields (comparison e op left right common) d u d' ↔
      ((∃ err, common.variableSort = .error err) ∧ d' = d.warned e.location
      (.comparisonType common)) ∨
        ∃ sort, common.variableSort = .ok sort ∧ (sort = .bool → op.isEquality = true) ∧
          ∃ l d₁ r d₂, Yields (valueOf left) d l d₁ ∧ Yields (valueOf right) d₁ r d₂ ∧
            Yields (define e (op.term l r)) d₂ u d' := by
  unfold comparison
  cases common.variableSort with
  | error err => simp
  | ok sort => cases sort <;> cases op.isEquality <;> simp [yields_bind]

theorem yields_connective {op : Connective} {left right : Expr} {common : Ty} :
    Yields (connective e op left right common) d u d' ↔
      (common.isBool = false ∧ d' = d.warned e.location (.connectiveType common)) ∨
        (common.isBool = true ∧ ∃ l d₁ r d₂, Yields (valueOf left) d l d₁ ∧
          Yields (valueOf right) d₁ r d₂ ∧ Yields (define e (op.term l r)) d₂ u d') := by
  unfold connective
  cases common.isBool <;> simp [yields_bind]

theorem yields_assignedValue {target : Expr} {op : AssignOp} {id : Nat} {x : Term}
    {r : Option Term} :
    Yields (assignedValue e target op id x) d r d' ↔
      (op = .plain ∧ r = some x ∧ d' = d) ∨
        ∃ aop ty, op = .arithmetic aop ∧ target.ty.integer? = some ty ∧
          ((d.registered? id = none ∧ r = none ∧
              d' = d.warned e.location (.unknownDeclaration id)) ∨
            ∃ v t, d.registered? id = some v ∧ r = some t ∧
              Yields (arithmetic aop ty v.current x e.location) d t d') := by
  unfold assignedValue
  cases op with
  | plain => simp
  | arithmetic aop =>
    cases ht : target.ty.integer? with
    | none => simp
    | some ty =>
      cases hv : d.registered? id with
      | none => simp [current?, hv, and_comm]
      | some v =>
        simp [current?, hv]
        grind
  | mod | bitwise => simp

theorem yields_assignment {node m : Node} {op : AssignOp} {name : String} {id : Nat}
    {isTarget : Bool} {value : Expr} :
    Yields (assignment (.assignment node op (.identifier m name (some id) isTarget) value)) d u d' ↔
      ((∃ err, m.ty.variableSort = .error err) ∧
          d' = d.warned node.location (.assignmentTo m.ty)) ∨
        (∃ sort, m.ty.variableSort = .ok sort) ∧ ∃ x d₁ r d₂, Yields (valueOf value) d x d₁ ∧
          Yields (assignedValue (.assignment node op (.identifier m name (some id) isTarget) value)
            (.identifier m name (some id) isTarget) op id x) d₁ r d₂ ∧
          ((r = none ∧ d' = d₂) ∨ ∃ t d₃, r = some t ∧ Yields (assign id t node.location) d₂ () d₃ ∧
            Yields (define (.assignment node op (.identifier m name (some id) isTarget) value) t)
              d₃ u d') := by
  simp only [assignment, Expr.ty, Expr.node, Expr.location]
  cases m.ty.variableSort with
  | error err => simp
  | ok sort =>
    simp only [yields_bind, reduceCtorEq, exists_false, false_and, false_or, Except.ok.injEq,
      exists_eq', true_and]
    constructor
    · rintro ⟨x, d₁, hv, r, d₂, hr, h⟩
      refine ⟨x, d₁, r, d₂, hv, hr, ?_⟩
      cases r with
      | none => exact .inl ⟨rfl, (yields_pure.1 h).2⟩
      | some t =>
        obtain ⟨d₃, ha, h⟩ := yields_seq.1 h
        exact .inr ⟨t, d₃, rfl, ha, h⟩
    · rintro ⟨x, d₁, r, d₂, hv, hr, ⟨rfl, rfl⟩ | ⟨t, d₃, rfl, ha, h⟩⟩
      · exact ⟨x, d₁, hv, none, d', hr, yields_pure.2 ⟨rfl, rfl⟩⟩
      · exact ⟨x, d₁, hv, some t, d₂, hr, yields_seq.2 ⟨d₃, ha, h⟩⟩

/-- A target that is no variable ends the encoding. -/
theorem exists_of_yields_assignment {node : Node} {op : AssignOp} {target value : Expr}
    (h : Yields (assignment (.assignment node op target value)) d u d') :
    ∃ m name id isTarget, target = .identifier m name (some id) isTarget := by
  cases target with
  | identifier m name declaration isTarget =>
    cases declaration with
    | none => exact absurd h yields_throw
    | some id => exact ⟨m, name, id, isTarget, rfl⟩
  | _ => exact absurd h yields_throw

theorem yields_assume {x : Expr} :
    Yields (assume x) d u d' ↔
      d.phase = .encoding ∧
        ((x.ty.isBool = true ∧ ∃ t d₁, Yields (valueOf x) d t d₁ ∧ d' = d₁.emitted t x.location) ∨
          (x.ty.isBool = false ∧ d' = d.warned x.location (.conditionType x.ty))) := by
  unfold assume
  by_cases hb : x.ty.isBool = true <;> simp [hb, yields_bind]

/-- The parts of a node have been encoded, the node itself has no symbol yet, and it is licensed to
get one. -/
structure Due (Γ : Nat → Option Domain) (scope : List Expr) (L : Licence) (e : Expr) (d : Draft) :
    Prop where
  ready : d.Ready Γ scope
  consistent : e.Consistent Γ
  unknown : d.known.lookup e.id = none
  parts : ∀ x ∈ e.children, e.id ≠ x.id
  nodes : e.nodes ⊆ L.nodes
  scope : L.nodes ⊆ scope
  writes : ∀ id ∈ e.writes, L.writes id
  guards : d.settings.guardsDivision = true → L.asserts

namespace Due

theorem self (hd : Due Γ scope L e d) : e ∈ L.nodes := hd.nodes e.mem_nodes_self

theorem agrees (hd : Due Γ scope L e d) : e.Agrees Γ := hd.consistent e e.mem_nodes_self

theorem grows (hd : Due Γ scope L e d) (h : Grows L d d')
    (hk : d'.known.lookup e.id = d.known.lookup e.id) : Due Γ scope L e d' :=
  { hd with
    ready := hd.ready.grows h hd.scope
    unknown := hk.trans hd.unknown
    guards := fun hg => hd.guards (h.later.settings ▸ hg) }

/-- The value of a part is a symbol of its sort. -/
theorem valueOf (hd : Due Γ scope L e d) {x : Expr} (hx : x ∈ e.children) {t : Term}
    (h : Yields (valueOf x) d t d') :
    ∃ sort, x.termSort = .ok sort ∧ t.HasSort sort ∧ d'.Covers t ∧ Grows L d d' ∧
      Due Γ scope L e d' := by
  have hL := hd.nodes (Expr.mem_nodes_of_mem_children hx)
  obtain ⟨sort, hs, rfl, hk, hg⟩ := grows_valueOf hd.ready (hd.scope hL) hL h
  exact ⟨sort, hs, Term.hasSort_expression _ sort, covers_expression hk, hg,
    hd.grows hg (lookup_valueOf h (hd.parts x hx))⟩

theorem define (hd : Due Γ scope L e d) {t : Term} (ht : d.Covers t)
    (hs : ∀ sort, e.termSort = .ok sort → t.HasSort sort) (h : Yields (define e t) d u d') :
    Grows L d d' :=
  grows_define hd.self hd.unknown ht hs h

theorem assign (hd : Due Γ scope L e d) {id : Nat} (hw : id ∈ e.writes) {t : Term}
    {location : Location} (ht : d.Covers t)
    (hs : ∀ v, d.registered? id = some v → t.HasSort v.sort)
    (h : Yields (assign id t location) d u d') : Grows L d d' ∧ Due Γ scope L e d' := by
  have hg := grows_assign (hd.writes id hw) ht hs h
  refine ⟨hg, hd.grows hg ?_⟩
  obtain ⟨-, ⟨-, rfl⟩ | ⟨v, -, rfl⟩⟩ := yields_assign.1 h <;> rfl

theorem create (hd : Due Γ scope L e d) (h : Yields (create e) d u d') : Grows L d d' :=
  grows_create hd.self h

/-- A node with the value of one of its parts. -/
theorem defineFrom (hd : Due Γ scope L e d) {x : Expr} (hx : x ∈ e.children) (hm : e.Matches x)
    (h : Yields (defineFrom e x) d u d') : Grows L d d' := by
  obtain ⟨t, d₁, hv, h⟩ := yields_bind.1 h
  obtain ⟨sort, hs, ht, hc, hg, hd⟩ := hd.valueOf hx hv
  refine hg.trans (hd.define hc (fun s he => ?_) h)
  rwa [hm sort hs s he]

end Due

end Draft

namespace Source.Expr

variable {e : Expr} {sort : TermSort}

theorem termSort_of_variableSort (h : e.ty.variableSort = .ok sort) : e.termSort = .ok sort := by
  unfold Ty.variableSort at h
  unfold termSort
  cases ht : e.ty <;> rw [ht] at h <;> cases h <;> rfl

theorem termSort_of_isBool (h : e.ty.isBool = true) : e.termSort = .ok .bool := by
  unfold termSort
  cases ht : e.ty <;> rw [ht] at h <;> simp_all [Ty.isBool]

theorem termSort_of_integer {ty : IntegerType} (h : e.ty.integer? = some ty) :
    e.termSort = .ok .int := by
  unfold termSort
  cases ht : e.ty <;> rw [ht] at h <;> simp_all [Ty.integer?]

theorem sort_eq_int {value : Rat} (h : e.ty = .rational value) (hs : e.termSort = .ok sort) :
    sort = .int := by
  simp only [termSort, h] at hs
  split at hs <;> cases hs
  rfl

end Source.Expr

namespace Draft

variable {Γ : Nat → Option Domain} {scope : List Expr} {L : Licence} {d d' : Draft} {e : Expr}
  {u : Unit}

/-- An identifier has the sort of its variable. -/
theorem Ready.termSort_identifier (hd : d.Ready Γ scope) {node : Node} {name : String} {id : Nat}
    {isTarget : Bool} (ha : Expr.Agrees Γ (.identifier node name (some id) isTarget))
    {v : Registered} (hv : d.registered? id = some v) :
    Expr.termSort (.identifier node name (some id) isTarget) = .ok v.sort := by
  have ht : node.ty = v.domain.ty := ha v.domain (hd.domain hv)
  refine Expr.termSort_of_variableSort ?_
  rw [Expr.ty, Expr.node, ht]
  exact v.domain.variableSort_ty

namespace Due

theorem literal (hd : Due Γ scope L e d) {value : Literal} (h : Yields (literal e value) d u d') :
    Grows L d d' := by
  unfold Draft.literal at h
  split at h
  · rename_i b ht
    have hs : e.termSort = .ok .bool := Expr.termSort_of_isBool (by rw [ht]; rfl)
    refine hd.define (covers_ofBool b) (fun sort he => ?_) h
    cases hs.symm.trans he
    exact Term.hasSort_ofBool b
  · rename_i ty n ht
    have hi : e.ty.integer? = some ty := by rw [ht]; rfl
    have hs := Expr.termSort_of_integer hi
    split at h
    · refine hd.define (covers_ofInt n.num) (fun sort he => ?_) h
      cases hs.symm.trans he
      exact Term.hasSort_ofInt n.num
    · exact hd.create h
  · rename_i value n ht
    split at h
    · refine hd.define (covers_ofInt n.num) (fun sort he => ?_) h
      rw [Expr.sort_eq_int ht he]
      exact Term.hasSort_ofInt n.num
    · exact hd.create h
  · obtain rfl := yields_warn.1 h
    exact .warned

theorem leaveOpen (hd : Due Γ scope L e d) (h : Yields (leaveOpen e) d u d') : Grows L d d' := by
  unfold Draft.leaveOpen at h
  split at h
  · exact hd.create h
  · obtain ⟨-, rfl⟩ := yields_pure.1 h
    exact .refl _

theorem defineFromVariable {node : Node} {name : String} {id : Nat} {isTarget : Bool}
    (hd : Due Γ scope L (.identifier node name (some id) isTarget) d)
    (h : Yields (defineFromVariable (.identifier node name (some id) isTarget) id) d u d') :
    Grows L d d' := by
  unfold Draft.defineFromVariable at h
  rw [yields_get_bind] at h
  cases hv : d.registered? id with
  | none =>
    simp only [current?, hv, Option.map_none, yields_warn] at h
    exact h ▸ .warned
  | some v =>
    simp only [current?, hv, Option.map_some] at h
    refine hd.define (covers_version hv (Nat.le_refl _)) (fun sort he => ?_) h
    cases (hd.ready.termSort_identifier hd.agrees hv).symm.trans he
    exact Term.hasSort_version v.toVariable v.version

theorem identifier {node : Node} {name : String} {declaration : Option Nat} {isTarget : Bool}
    (hd : Due Γ scope L (.identifier node name declaration isTarget) d)
    (h : Yields (identifier (.identifier node name declaration isTarget) name declaration isTarget)
      d u d') : Grows L d d' := by
  unfold Draft.identifier at h
  split at h
  · obtain ⟨-, rfl⟩ := yields_pure.1 h
    exact .refl _
  · obtain ⟨-, rfl⟩ := yields_pure.1 h
    exact .refl _
  · split at h
    · exact hd.defineFromVariable h
    · obtain rfl := yields_warn.1 h
      exact .warned

theorem tuple {node : Node} {components : List Expr} {isInlineArray : Bool}
    (hd : Due Γ scope L (.tuple node components isInlineArray) d)
    (h : Yields (tuple (.tuple node components isInlineArray) components isInlineArray) d u d') :
    Grows L d d' := by
  unfold Draft.tuple at h
  split at h
  · split at h
    · exact hd.defineFrom (by simp [Expr.children]) hd.agrees h
    · obtain ⟨-, rfl⟩ := yields_pure.1 h
      exact .refl _
  · obtain rfl := yields_warn.1 h
    exact .warned

/-- The variable of a part that is an identifier has the sort of that part. -/
theorem sort_eq (hd : Due Γ scope L e d) {node : Node} {name : String} {id : Nat} {isTarget : Bool}
    (hx : .identifier node name (some id) isTarget ∈ e.children) {v : Registered}
    (hv : d.registered? id = some v) {sort : TermSort}
    (hs : Expr.Fits (.identifier node name (some id) isTarget) sort) : v.sort = sort :=
  hs _ (hd.ready.termSort_identifier (hd.consistent _ (Expr.mem_nodes_of_mem_children hx)) hv)

theorem step {node : Node} {op : UnaryOp} {isUp isBefore : Bool} {operand : Expr}
    (hd : Due Γ scope L (.unary node op isBefore operand) d)
    (hop : op = .increment ∨ op = .decrement) (hi : operand.Fits .int)
    (h : Yields (step (.unary node op isBefore operand) isUp isBefore operand) d u d') :
    Grows L d d' := by
  obtain ⟨hty, ⟨notice, rfl⟩ | ⟨m, name, id, isTarget, v, rfl, hv, d₁, hw, h⟩⟩ := yields_step h
  · exact .warned
  have hsort := hd.sort_eq (by simp [Expr.children]) hv hi
  have hold : v.current.HasSort .int := hsort ▸ Term.hasSort_version v.toVariable v.version
  have hc : d.Covers v.current := covers_version hv (Nat.le_refl _)
  have hnew := hasSort_stepped isUp hold
  have hid : id ∈ (Expr.unary node op isBefore (.identifier m name (some id) isTarget)).writes := by
    simp [Expr.writes, hop, Expr.referenced?]
  obtain ⟨hg, hd₁⟩ := hd.assign hid (covers_stepped.2 hc) (fun w hw => by
    cases hv.symm.trans hw
    rwa [hsort]) hw
  obtain ⟨ty, hty⟩ := Option.isSome_iff_exists.1 hty
  refine hg.trans (hd₁.define (hg.later.covers ?_) (fun sort he => ?_) h)
  · cases isBefore <;> simp [hc]
  · cases (Expr.termSort_of_integer hty).symm.trans he
    cases isBefore
    · exact hold
    · exact hnew

theorem unary {node : Node} {op : UnaryOp} {isBefore : Bool} {operand : Expr}
    (hd : Due Γ scope L (.unary node op isBefore operand) d)
    (h : Yields (unary (.unary node op isBefore operand)) d u d') : Grows L d d' := by
  have hx : operand ∈ (Expr.unary node op isBefore operand).children := by simp [Expr.children]
  have ha := hd.agrees
  cases op with
  | not =>
    obtain ⟨hb, t, d₁, hv, h⟩ := yields_not.1 h
    obtain ⟨sort, hs, ht, hc, hg, hd₁⟩ := hd.valueOf hx hv
    obtain rfl := ha sort hs
    have hb' : Expr.termSort (.unary node .not isBefore operand) = .ok .bool :=
      Expr.termSort_of_isBool hb
    refine hg.trans (hd₁.define (covers_not.2 hc) (fun s he => ?_) h)
    cases hb'.symm.trans he
    exact .not ht
  | increment => exact hd.step (.inl rfl) ha h
  | decrement => exact hd.step (.inr rfl) ha h
  | plus => exact hd.defineFrom hx ha h
  | minus =>
    obtain ⟨t, d₁, hv, h⟩ := yields_bind.1 h
    obtain ⟨sort, hs, ht, hc, hg, hd₁⟩ := hd.valueOf hx hv
    obtain rfl := ha.2 sort hs
    refine hg.trans (hd₁.define (covers_neg.2 hc) (fun s he => ?_) h)
    rw [ha.1 s he]
    exact Term.hasSort_neg ht
  | bitNot | delete =>
    obtain rfl := yields_warn.1 h
    exact .warned

/-- The values of both sides of a binary node. -/
theorem sides {node : Node} {op : BinaryOp} {left right : Expr} {common : Ty}
    (hd : Due Γ scope L (.binary node op left right common) d) {l r : Term} {d₁ d₂ : Draft}
    (hl : Yields (Draft.valueOf left) d l d₁) (hr : Yields (Draft.valueOf right) d₁ r d₂) :
    ∃ s t, left.termSort = .ok s ∧ right.termSort = .ok t ∧ l.HasSort s ∧ r.HasSort t ∧
      d₂.Covers l ∧ d₂.Covers r ∧ Grows L d d₂ ∧
        Due Γ scope L (.binary node op left right common) d₂ := by
  obtain ⟨s, hs, hls, hlc, hg₁, hd₁⟩ := hd.valueOf (by simp [Expr.children]) hl
  obtain ⟨t, ht, hrs, hrc, hg₂, hd₂⟩ := hd₁.valueOf (by simp [Expr.children]) hr
  exact ⟨s, t, hs, ht, hls, hrs, hg₂.later.covers hlc, hrc, hg₁.trans hg₂, hd₂⟩

theorem binary {node : Node} {op : BinaryOp} {left right : Expr} {common : Ty}
    (hd : Due Γ scope L (.binary node op left right common) d)
    (h : Yields (binary (.binary node op left right common)) d u d') : Grows L d d' := by
  have ha := hd.agrees
  cases op with
  | arithmetic op =>
    obtain ⟨ty, l, d₁, r, d₂, t, d₃, -, hl, hr, hv, h⟩ := yields_binaryArithmetic.1 h
    obtain ⟨s, s', hs, hs', hls, hrs, hlc, hrc, hg, hd₂⟩ := hd.sides hl hr
    obtain ⟨he, hls', hrs'⟩ := ha
    obtain rfl := hls' s hs
    obtain rfl := hrs' s' hs'
    obtain ⟨rfl, hk, hg₂⟩ := grows_arithmetic hd₂.guards hrc hrs hv
    have hd₃ := hd₂.grows hg₂ (by rw [hk])
    have hc := hg₂.later.covers (covers_arithmetic op ty hlc hrc)
    refine hg.trans (hg₂.trans (hd₃.define hc (fun sort hsort => ?_) h))
    rw [he sort hsort]
    exact Term.hasSort_arithmetic op ty hls hrs
  | comparison op =>
    obtain ⟨hw, rfl⟩ | ⟨sort, hc, ho, l, d₁, r, d₂, hl, hr, h⟩ := yields_comparison.1 h
    · exact .warned
    obtain ⟨s, s', hs, hs', hls, hrs, hlc, hrc, hg, hd₂⟩ := hd.sides hl hr
    obtain ⟨he, ha⟩ := ha
    obtain rfl := (ha sort hc).1 s hs
    obtain rfl := (ha s hc).2 s' hs'
    refine hg.trans (hd₂.define (covers_comparison op hlc hrc) (fun sort hsort => ?_) h)
    rw [he sort hsort]
    refine Term.hasSort_comparison op hls hrs fun hop => ?_
    cases s' with
    | bool => simp [ho rfl] at hop
    | int => rfl
  | connective op =>
    obtain ⟨-, rfl⟩ | ⟨-, l, d₁, r, d₂, hl, hr, h⟩ := yields_connective.1 h
    · exact .warned
    obtain ⟨s, s', hs, hs', hls, hrs, hlc, hrc, hg, hd₂⟩ := hd.sides hl hr
    obtain ⟨he, hls', hrs'⟩ := ha
    obtain rfl := hls' s hs
    obtain rfl := hrs' s' hs'
    refine hg.trans (hd₂.define (covers_connective op hlc hrc) (fun sort hsort => ?_) h)
    rw [he sort hsort]
    exact Term.hasSort_connective op hls hrs
  | mod | exp | bitwise =>
    obtain rfl := yields_warn.1 h
    exact .warned

/-- What is assigned has the sort of the target. -/
theorem assignedValue {node m : Node} {op : AssignOp} {name : String} {id : Nat}
    {isTarget : Bool} {value : Expr}
    (hd : Due Γ scope L (.assignment node op (.identifier m name (some id) isTarget) value) d)
    {x t : Term} {sort : TermSort} (hx : d.Covers x) (hs : x.HasSort sort)
    (ht : Expr.termSort (.identifier m name (some id) isTarget) = .ok sort)
    (h : Yields (assignedValue (.assignment node op (.identifier m name (some id) isTarget) value)
      (.identifier m name (some id) isTarget) op id x) d (some t) d') :
    d'.Covers t ∧ t.HasSort sort ∧ Grows L d d' ∧
      Due Γ scope L (.assignment node op (.identifier m name (some id) isTarget) value) d' := by
  obtain ⟨rfl, hr, rfl⟩ | ⟨aop, ty, rfl, hty, ⟨-, hr, -⟩ | ⟨v, w, hv, hr, h⟩⟩ :=
    yields_assignedValue.1 h
  · cases hr
    exact ⟨hx, hs, .refl _, hd⟩
  · cases hr
  · cases hr
    have hc : d.Covers v.current := covers_version hv (Nat.le_refl _)
    have hcs : v.current.HasSort sort :=
      hd.sort_eq (by simp [Expr.children]) hv (Expr.fits_of_eq ht) ▸ Term.hasSort_version
      v.toVariable v.version
    cases (Expr.termSort_of_integer hty).symm.trans ht
    obtain ⟨rfl, hk, hg⟩ := grows_arithmetic hd.guards hx hs h
    exact ⟨hg.later.covers (covers_arithmetic aop ty hc hx), Term.hasSort_arithmetic aop ty hcs hs,
      hg, hd.grows hg (by rw [hk])⟩

theorem assignment {node : Node} {op : AssignOp} {target value : Expr}
    (hd : Due Γ scope L (.assignment node op target value) d)
    (h : Yields (assignment (.assignment node op target value)) d u d') : Grows L d d' := by
  obtain ⟨m, name, id, isTarget, rfl⟩ := exists_of_yields_assignment h
  obtain ⟨-, rfl⟩ | ⟨⟨sort, hsort⟩, x, d₁, r, d₂, hv, hr, h⟩ := yields_assignment.1 h
  · exact .warned
  obtain ⟨he, hm⟩ := hd.agrees
  have ht : Expr.termSort (.identifier m name (some id) isTarget) = .ok sort :=
    Expr.termSort_of_variableSort hsort
  obtain ⟨s, hs, hxs, hxc, hg₁, hd₁⟩ := hd.valueOf (by simp [Expr.children]) hv
  obtain rfl := hm s hs sort ht
  obtain ⟨rfl, rfl⟩ | ⟨t, d₃, rfl, ha, h⟩ := h
  · obtain ⟨-, hn, -⟩ | ⟨aop, ty, -, -, ⟨-, -, rfl⟩ | ⟨v, t, -, hn, -⟩⟩ :=
      yields_assignedValue.1 hr
    · cases hn
    · exact hg₁.trans .warned
    · cases hn
  · obtain ⟨htc, hts, hg₂, hd₂⟩ := hd₁.assignedValue hxc hxs ht hr
    obtain ⟨hg₃, hd₃⟩ := hd₂.assign (by simp [Expr.writes, Expr.referenced?]) htc
      (fun v hv => by rwa [hd₂.sort_eq (by simp [Expr.children]) hv (Expr.fits_of_eq ht)]) ha
    refine hg₁.trans (hg₂.trans (hg₃.trans (hd₃.define (hg₃.later.covers htc) (fun s hs => ?_) h)))
    rwa [he sort ht s hs]

end Due

/-- A node is due when what is below it has been encoded. -/
theorem Awaits.due {xs : List Expr} {L' : Licence} (hw : d.Awaits e.nodes) (hn : e.nodes = e :: xs)
    (hx : ∀ x ∈ e.children, x ∈ xs) (hd : d.Ready Γ scope) (hs : e.nodes ⊆ scope)
    (hc : e.Consistent Γ) (hg : Grows L' d d') (hL : L'.nodes ⊆ xs) :
    Due Γ scope (e.licence d.settings) e d' where
  ready := hd.grows hg (List.Subset.trans hL (List.Subset.trans
    (hn ▸ List.subset_cons_self e xs) hs))
  consistent := hc
  unknown := by
    rw [hn] at hw
    exact (hw.above.rest hg hL).unknown e (List.mem_singleton.2 rfl)
  parts x hm := by
    rw [hn] at hw
    exact hw.id_ne (hx x hm)
  nodes := List.Subset.refl _
  scope := hs
  writes _ hm := hm
  guards hg' := .inr (hg.later.settings ▸ hg')

end Draft

namespace Source.Expr

open Draft

variable {Γ : Nat → Option Domain} {scope : List Expr} {u : Unit}

/-- Encoding an expression adds symbols for its nodes and versions of the variables it writes. -/
def Adds (Γ : Nat → Option Domain) (scope : List Expr) (e : Expr) : Prop :=
  ∀ ⦃d d' : Draft⦄ ⦃u : Unit⦄, d.Ready Γ scope → e.nodes ⊆ scope → e.Consistent Γ →
    d.Awaits e.nodes → Yields e.encode d u d' → Grows (e.licence d.settings) d d'

/-- Two parts that are encoded one after the other. -/
theorem Adds.both {a b : Expr} (ha : a.Adds Γ scope) (hb : b.Adds Γ scope) {d d₁ d₂ : Draft}
    (hd : d.Ready Γ scope) (hs : a.nodes ++ b.nodes ⊆ scope)
    (hc : ∀ x ∈ a.nodes ++ b.nodes, x.Agrees Γ) (hw : d.Awaits (a.nodes ++ b.nodes))
    (h₁ : Yields a.encode d () d₁) (h₂ : Yields b.encode d₁ () d₂) :
    Grows (Draft.licence (a.nodes ++ b.nodes) (fun id => id ∈ a.writes ∨ id ∈ b.writes) d.settings)
      d d₂ := by
  obtain ⟨hsa, hsb⟩ := List.append_subset.1 hs
  have hg₁ := ha hd hsa (fun x hx => hc x (List.mem_append_left _ hx)) hw.left h₁
  have hg₂ := hb (hd.grows hg₁ hsa) hsb (fun x hx => hc x (List.mem_append_right _ hx))
    (hw.rest hg₁ (List.Subset.refl _)) h₂
  exact Grows.both hg₁ hg₂ (fun _ => .inl) (fun _ => .inr)

/-- A node whose parts are not encoded. -/
theorem grows_leaveOpen {e : Expr} {d d' : Draft} (hd : d.Ready Γ scope) (hs : e.nodes ⊆ scope)
    (hc : e.Consistent Γ) (hw : d.Awaits e.nodes) {xs : List Expr} (hn : e.nodes = e :: xs)
    (hx : ∀ x ∈ e.children, x ∈ xs) {location : Location} {notice : Notice}
    (h : Yields (leaveOpen e) (d.warned location notice) u d') :
    Grows (e.licence d.settings) d d' := by
  have hdue := hw.due hn hx hd hs hc (.refl (L := ⟨[], fun _ => False, False⟩) d)
    (List.nil_subset xs)
  exact .trans .warned ((hdue.grows .warned rfl).leaveOpen h)

/-- A condition is encoded and then assumed. -/
theorem Adds.assume {e condition : Expr} (hi : condition.Adds Γ scope) {d d₁ d' : Draft}
    (hd : d.Ready Γ scope) (hs : e.nodes ⊆ scope) (hc : e.Consistent Γ)
    (hn : condition.nodes ⊆ e.nodes) (hm : condition.writes ⊆ e.writes) (ha : e.isAssertion = true)
    (hw : d.Awaits condition.nodes) (h₁ : Yields condition.encode d () d₁)
    (h : Yields (assume condition) d₁ u d') : Grows (e.licence d.settings) d d' := by
  have hg := hi hd (List.Subset.trans hn hs) (fun x hx => hc x (hn hx)) hw h₁
  have hd₁ := hd.grows hg (List.Subset.trans hn hs)
  refine (hg.mono (licence_within hn hm _)).trans ?_
  obtain ⟨-, ⟨hb, t, d₂, hv, rfl⟩ | ⟨-, rfl⟩⟩ := yields_assume.1 h
  · have hmem := hn condition.mem_nodes_self
    obtain ⟨sort, hsort, rfl, hk, hg₂⟩ := grows_valueOf (L := e.licence d.settings) hd₁
      (hs hmem) hmem hv
    cases (termSort_of_isBool hb).symm.trans hsort
    exact hg₂.trans (.assumed (.inl ⟨e, e.mem_nodes_self, ha⟩) (covers_expression hk)
      (Term.hasSort_expression _ _) (by simp))
  · exact .warned

mutual

theorem grows_encode (e : Expr) : e.Adds Γ scope := by
  intro d d' u hd hs hc hw h
  cases e with
  | literal node value =>
    exact (hw.due rfl (by simp [children]) hd hs hc
      (.refl (L := ⟨[], fun _ => False, False⟩) d) (List.nil_subset [])).literal h
  | identifier node name declaration isTarget =>
    exact (hw.due rfl (by simp [children]) hd hs hc
      (.refl (L := ⟨[], fun _ => False, False⟩) d) (List.nil_subset [])).identifier h
  | unary node op isBefore operand =>
    obtain ⟨d₁, ho, h⟩ := yields_seq.1 h
    have hsub : operand.nodes ⊆ (Expr.unary node op isBefore operand).nodes :=
      List.subset_cons_self _ _
    have hg := grows_encode operand hd (List.Subset.trans hsub hs)
      (fun x hx => hc x (hsub hx)) hw.below ho
    have hdue := hw.due rfl (by simp [children, mem_nodes_self]) hd hs hc hg (List.Subset.refl _)
    exact (hg.mono (licence_within hsub (by simp +contextual [writes]) _)).trans (hdue.unary h)
  | binary node op left right common =>
    obtain ⟨d₁, hl, h⟩ := yields_seq.1 h
    obtain ⟨d₂, hr, h⟩ := yields_seq.1 h
    have hsub := List.subset_cons_self (Expr.binary node op left right common)
      (left.nodes ++ right.nodes)
    have hg := (grows_encode left).both (grows_encode right) hd (List.Subset.trans hsub hs)
      (fun x hx => hc x (hsub hx)) hw.below hl hr
    have hdue := hw.due rfl (by simp [children, mem_nodes_self]) hd hs hc hg (List.Subset.refl _)
    exact (hg.mono (licence_within hsub (by simp [writes]) _)).trans (hdue.binary h)
  | assignment node op target value =>
    obtain ⟨d₁, hl, h⟩ := yields_seq.1 h
    obtain ⟨d₂, hr, h⟩ := yields_seq.1 h
    have hsub := List.subset_cons_self (Expr.assignment node op target value)
      (value.nodes ++ target.nodes)
    have hg := (grows_encode value).both (grows_encode target) hd (List.Subset.trans hsub hs)
      (fun x hx => hc x (hsub hx)) hw.below hl hr
    have hdue := hw.due rfl (by simp [children, mem_nodes_self]) hd hs hc hg (List.Subset.refl _)
    refine (hg.mono (licence_within hsub ?_ _)).trans (hdue.assignment h)
    rintro id (hm | hm) <;> simp [writes, hm]
  | tuple node components isInlineArray =>
    obtain ⟨d₁, ho, h⟩ := yields_seq.1 h
    have hsub := List.subset_cons_self (Expr.tuple node components isInlineArray)
      (nodesOfAll components)
    have hg := grows_encodeAll components hd (List.Subset.trans hsub hs)
      (fun x hx => hc x (hsub hx)) hw.below ho
    have hdue := hw.due rfl (fun x hx => nodes_subset_of_mem hx x.mem_nodes_self) hd hs hc hg
      (List.Subset.refl _)
    exact (hg.mono (licence_within hsub (by simp [writes]) _)).trans (hdue.tuple h)
  | call node callee arguments =>
    have hrequire : callee.ty = .function .require ∨ callee.ty = .function .assert →
        Yields (match arguments with
          | [] => Draft.warn node.location .missingCondition
          | condition :: _ => do
              condition.encode
              Draft.assume condition) d u d' →
        Grows ((Expr.call node callee arguments).licence d.settings) d d' := by
      intro hty h
      cases arguments with
      | nil =>
        obtain rfl := yields_warn.1 h
        exact .warned
      | cons condition rest =>
        obtain ⟨d₁, h₁, h⟩ := yields_seq.1 h
        refine (grows_encode condition).assume hd hs hc ?_ ?_
          (by simpa [isAssertion] using hty) ?_ h₁ h
        · intro x hx
          simp [nodes, nodesOfAll, hx]
        · intro x hx
          simp [writes, writesOfAll, hx]
        · exact hw.below.left.left
    unfold encode at h
    split at h
    · exact hrequire (.inl ‹_›) h
    · exact hrequire (.inr ‹_›) h
    · obtain ⟨d₁, ho, h⟩ := yields_seq.1 h
      have hsub : nodesOfAll arguments ⊆ (Expr.call node callee arguments).nodes :=
        List.Subset.trans (List.subset_append_left _ callee.nodes) (List.subset_cons_self _ _)
      have hg := grows_encodeAll arguments hd (List.Subset.trans hsub hs)
        (fun x hx => hc x (hsub hx))
        hw.below.left ho
      have hdue := hw.due rfl (fun x hx => ?_) hd hs hc hg (List.subset_append_left _ callee.nodes)
      · exact (hg.mono (licence_within hsub (by simp +contextual [writes]) _)).trans
          (.trans .warned ((hdue.grows .warned rfl).leaveOpen h))
      · rcases List.mem_append.1 hx with hx | hx
        · exact List.mem_append_left _ (nodes_subset_of_mem hx x.mem_nodes_self)
        · rw [List.mem_singleton.1 hx]
          exact List.mem_append_right _ callee.mem_nodes_self
  | index node base position =>
    exact grows_leaveOpen hd hs hc hw rfl (by simp [children, mem_nodes_self]) h
  | member node base name =>
    exact grows_leaveOpen hd hs hc hw rfl (by simp [children, mem_nodes_self]) h

theorem grows_encodeAll (es : List Expr) {d d' : Draft} {u : Unit} (hd : d.Ready Γ scope)
    (hs : nodesOfAll es ⊆ scope) (hc : ∀ x ∈ nodesOfAll es, x.Agrees Γ)
    (hw : d.Awaits (nodesOfAll es)) (h : Yields (encodeAll es) d u d') :
    Grows (Draft.licence (nodesOfAll es) (· ∈ writesOfAll es) d.settings) d d' := by
  cases es with
  | nil =>
    obtain ⟨-, rfl⟩ := yields_pure.1 h
    exact .refl _
  | cons e rest =>
    obtain ⟨d₁, he, h⟩ := yields_seq.1 h
    obtain ⟨hse, hsr⟩ := List.append_subset.1 hs
    have hg₁ := grows_encode e hd hse (fun x hx => hc x (List.mem_append_left _ hx)) hw.left he
    have hg₂ := grows_encodeAll rest (hd.grows hg₁ hse) hsr
      (fun x hx => hc x (List.mem_append_right _ hx)) (hw.rest hg₁ (List.Subset.refl _)) h
    exact Grows.both hg₁ hg₂ (by simp +contextual [writesOfAll]) (by simp +contextual [writesOfAll])

end

end Source.Expr

end PathFormula
