import PathFormula.Proofs.Strictness

/-!
# Values that are looked up

In a body of supported expressions and statements over registered variables, a value is only looked
up after the expression was encoded. So encoding it neither fails nor meets an unknown value
(`Supported.completes`), whether values must be known or not.
-/
namespace PathFormula

open Source

namespace Source

variable (registered : Nat → Bool)

/-- The supported expressions that have a value, where some declarations have variables. A target
may or may not be flagged as such. -/
inductive Expr.Valued : Expr → Prop where
  | bool {node : Node} {b : Bool} (ht : node.ty = .bool) : Valued (.literal node (.bool b))
  | number {node : Node} {q : Rat} (hq : q.den = 1)
      (ht : (literal node (.number q)).termSort = .ok .int) : Valued (.literal node (.number q))
  | identifier {node : Node} {name : String} {id : Nat} (hid : registered id = true)
      (ht : (identifier node name (some id) false).hasTermSort = true) :
      Valued (.identifier node name (some id) false)
  | not {node : Node} {isBefore : Bool} {operand : Expr} (ho : Valued operand)
      (ht : node.ty = .bool) : Valued (.unary node .not isBefore operand)
  | step {node m : Node} {op : UnaryOp} {isBefore isTarget : Bool} {name : String} {id : Nat}
      (hop : op = .increment ∨ op = .decrement) (hid : registered id = true)
      (hm : (identifier m name (some id) isTarget).hasTermSort = true)
      (ht : node.ty.integer?.isSome = true) :
      Valued (.unary node op isBefore (.identifier m name (some id) isTarget))
  | sign {node : Node} {op : UnaryOp} {isBefore : Bool} {operand : Expr}
      (hop : op = .plus ∨ op = .minus) (ho : Valued operand)
      (ht : (unary node op isBefore operand).hasTermSort = true) :
      Valued (.unary node op isBefore operand)
  | arithmetic {node : Node} {op : Arithmetic} {left right : Expr} {ty : IntegerType}
      (hl : Valued left) (hr : Valued right)
      (ht : (binary node (.arithmetic op) left right (.integer ty)).hasTermSort = true) :
      Valued (.binary node (.arithmetic op) left right (.integer ty))
  | comparison {node : Node} {op : Comparison} {left right : Expr} {common : Ty} {sort : TermSort}
      (hl : Valued left) (hr : Valued right) (hc : common.variableSort = .ok sort)
      (ho : sort = .bool → op.isEquality = true)
      (ht : (binary node (.comparison op) left right common).hasTermSort = true) :
      Valued (.binary node (.comparison op) left right common)
  | connective {node : Node} {op : Connective} {left right : Expr} (hl : Valued left)
      (hr : Valued right)
      (ht : (binary node (.connective op) left right .bool).hasTermSort = true) :
      Valued (.binary node (.connective op) left right .bool)
  | assign {node m : Node} {name : String} {id : Nat} {isTarget : Bool} {value : Expr}
      {sort : TermSort} (hv : Valued value) (hid : registered id = true)
      (hm : m.ty.variableSort = .ok sort)
      (ht : (assignment node .plain (.identifier m name (some id) isTarget) value).hasTermSort
        = true) :
      Valued (.assignment node .plain (.identifier m name (some id) isTarget) value)
  | compound {node m : Node} {op : Arithmetic} {name : String} {id : Nat} {isTarget : Bool}
      {value : Expr} {ty : IntegerType} (hv : Valued value) (hid : registered id = true)
      (hm : m.ty = .integer ty)
      (ht : (assignment node (.arithmetic op) (.identifier m name (some id) isTarget)
        value).hasTermSort = true) :
      Valued (.assignment node (.arithmetic op) (.identifier m name (some id) isTarget) value)
  | tuple {node : Node} {single : Expr} (hs : Valued single)
      (ht : (tuple node [single] false).hasTermSort = true) : Valued (.tuple node [single] false)

/-- What may be done in a statement of its own: a supported expression or an assertion of one. -/
inductive Expr.Performed : Expr → Prop where
  | valued {e : Expr} (h : e.Valued registered) : Performed e
  | assertion {node : Node} {callee condition : Expr} {rest : List Expr}
      (hc : (call node callee (condition :: rest)).isAssertion = true)
      (h : condition.Valued registered) : Performed (.call node callee (condition :: rest))

namespace Stmt

mutual

/-- The supported statements. -/
def Supported : Stmt → Prop
  | .block _ body => SupportedAll body
  | .declare _ _ initial => ∀ e ∈ initial, e.Valued registered
  | .expression _ e => e.Performed registered
  | .branch _ condition yes no =>
      condition.Valued registered ∧ yes.Supported ∧ SupportedOption no
  | .whileLoop _ condition body _ => condition.Valued registered ∧ body.Supported
  | .forLoop _ start condition step body =>
      SupportedOption start ∧ (∀ e ∈ condition, e.Valued registered) ∧
        (∀ e ∈ step, e.Performed registered) ∧ body.Supported
  | .ret _ value => ∀ e ∈ value, e.Valued registered

def SupportedAll : List Stmt → Prop
  | [] => True
  | s :: rest => s.Supported ∧ SupportedAll rest

def SupportedOption : Option Stmt → Prop
  | none => True
  | some s => s.Supported

end

end Stmt

end Source

namespace Draft

variable {α β : Type} {x : Drafting α} {f : α → Drafting β} {d d' : Draft} {e : Expr} {t : Term}
  {id : Nat} {location : Location}

/-- The computation succeeds and never meets a value that was not encoded. -/
def Completes (x : Drafting α) (d : Draft) (P : α → Draft → Prop) : Prop :=
  ∃ a d', Yields x d a d' ∧ P a d' ∧
    ∃ new : Diagnostics, d'.diagnostics = d.diagnostics ++ new ∧ new.AllDefined

theorem Completes.mono {P Q : α → Draft → Prop} (h : Completes x d P)
    (hQ : ∀ a d', Yields x d a d' → P a d' → Q a d') : Completes x d Q := by
  obtain ⟨a, d', hy, hp, hd⟩ := h
  exact ⟨a, d', hy, hQ a d' hy hp, hd⟩

theorem Completes.ends {P : α → Draft → Prop} {Q : DraftError → Draft → Prop}
    (h : Completes x d P) (hd : d.diagnostics.AllDefined) :
    Ends x d (fun a d' => P a d' ∧ d'.diagnostics.AllDefined) Q := by
  obtain ⟨a, d', hy, hp, new, hdiag, hn⟩ := h
  unfold Yields at hy
  rw [Ends, hy]
  exact ⟨hp, hdiag ▸ Diagnostics.allDefined_append.2 ⟨hd, hn⟩⟩

section Sequences

variable {P : β → Draft → Prop}

theorem completes_bind {Q : α → Draft → Prop} (hx : Completes x d Q)
    (hf : ∀ a d', Yields x d a d' → Q a d' → Completes (f a) d' P) : Completes (x >>= f) d P := by
  obtain ⟨a, d₁, hy, hq, new, hd, hn⟩ := hx
  obtain ⟨b, d', hy', hp, new', hd', hn'⟩ := hf a d₁ hy hq
  exact ⟨b, d', yields_bind.2 ⟨a, d₁, hy, hy'⟩, hp, new ++ new',
    by rw [hd', hd, List.append_assoc], Diagnostics.allDefined_append.2 ⟨hn, hn'⟩⟩

theorem completes_get_bind {f : Draft → Drafting β} (h : Completes (f d) d P) :
    Completes (get >>= f) d P := h

end Sequences

/-- A step that says nothing. -/
theorem completes_of_yields {P : α → Draft → Prop} (a : α) (h : Yields x d a d') (hp : P a d')
    (hd : d'.diagnostics = d.diagnostics) : Completes x d P :=
  ⟨a, d', h, hp, [], by simp [hd], by simp [Diagnostics.AllDefined]⟩

theorem completes_pure {P : α → Draft → Prop} {a : α} (h : P a d) : Completes (pure a) d P :=
  completes_of_yields a (yields_pure.2 ⟨rfl, rfl⟩) h rfl

theorem completes_warn {notice : Notice} (h : notice ≠ .undefinedExpression) :
    Completes (warn location notice) d fun _ d' => d' = d.warned location notice :=
  ⟨(), _, rfl, rfl, [⟨.warning, location, notice⟩], rfl, by simpa [Diagnostics.AllDefined]⟩

/-- The expression has a symbol. -/
def HasValue (d : Draft) (e : Expr) : Prop := ∃ sort, d.known.lookup e.id = some sort

theorem Later.hasValue (h : Later d d') (hk : d.HasValue e) : d'.HasValue e :=
  hk.imp fun sort => h.known e.id sort

theorem completes_valueOf (hk : d.HasValue e) : Completes (valueOf e) d fun _ d' => d' = d := by
  obtain ⟨sort, hk⟩ := hk
  exact completes_of_yields _ ((yields_valueOf_known hk).2 ⟨rfl, rfl⟩) rfl rfl

/-! ### Operations -/

/-- A draft that encodes, with variables for some declarations. -/
structure Underway (registered : Nat → Bool) (d : Draft) : Prop where
  phase : d.phase = .encoding
  isRegistered : d.isRegistered = registered

variable {registered : Nat → Bool} {u : Unit}

theorem Underway.later (h : d.Underway registered) (hl : Later d d') : d'.Underway registered :=
  ⟨hl.phase.trans h.phase, hl.isRegistered_eq.trans h.isRegistered⟩

theorem Underway.exists_registered (h : d.Underway registered) (hid : registered id = true) :
    ∃ v, d.registered? id = some v := by
  rw [← h.isRegistered] at hid
  exact Option.isSome_iff_exists.1 hid

theorem exists_termSort (h : e.hasTermSort = true) : ∃ sort, e.termSort = .ok sort := by
  unfold Expr.hasTermSort at h
  cases ht : e.termSort with
  | ok sort => exact ⟨sort, rfl⟩
  | error err =>
    rw [ht] at h
    cases h

theorem hasTermSort_of_ok {sort : TermSort} (h : e.termSort = .ok sort) : e.hasTermSort = true := by
  rw [Expr.hasTermSort, h]
  rfl

theorem completes_define (hp : d.phase = .encoding) (ht : e.hasTermSort = true) :
    Completes (define e t) d fun _ d' => d'.HasValue e := by
  obtain ⟨sort, ht⟩ := exists_termSort ht
  cases hk : d.known.lookup e.id with
  | some sort' =>
    exact completes_of_yields () (yields_define.2 ⟨hp, sort', .inl ⟨hk, rfl⟩⟩) ⟨sort', hk⟩ rfl
  | none =>
    exact completes_of_yields () (yields_define.2 ⟨hp, sort, .inr ⟨hk, ht, rfl⟩⟩)
      ⟨sort, by simp⟩ rfl

theorem completes_forM {as : List α} {f : α → Drafting Unit}
    (hf : ∀ a {d : Draft}, d.phase = .encoding →
      Completes (f a) d fun _ d' => d'.phase = .encoding) (hp : d.phase = .encoding) :
    Completes (as.forM f) d fun _ d' => d'.phase = .encoding := by
  induction as generalizing d with
  | nil => exact completes_pure hp
  | cons a rest ih => exact completes_bind (hf a hp) fun _ _ _ => ih

theorem completes_write {fact : Variable → Term} (hp : d.phase = .encoding) :
    Completes (write id location fact) d fun _ d' => d'.phase = .encoding := by
  cases hv : d.registered? id with
  | none =>
    exact ⟨(), _, yields_write.2 ⟨hp, .inl ⟨hv, rfl⟩⟩, hp,
      [⟨.warning, location, .unknownDeclaration id⟩], rfl, by simp [Diagnostics.AllDefined]⟩
  | some v => exact completes_of_yields () (yields_write.2 ⟨hp, .inr ⟨v, hv, rfl⟩⟩) hp rfl

theorem completes_assign (hp : d.phase = .encoding) :
    Completes (assign id t location) d fun _ d' => d'.phase = .encoding :=
  completes_write hp

theorem completes_assignFrom (hp : d.phase = .encoding) (hk : d.HasValue e) :
    Completes (assignFrom id e location) d fun _ d' => d'.phase = .encoding := by
  refine completes_bind (completes_valueOf hk) ?_
  rintro t _ - rfl
  exact completes_assign hp

/-- Variables are only forgotten if they are registered. -/
theorem completes_forget (id : Nat) (location : Location) (hp : d.phase = .encoding) :
    Completes (do if (← get).isRegistered id then forget id location) d
      fun _ d' => d'.phase = .encoding := by
  refine completes_get_bind ?_
  split
  · exact completes_write hp
  · exact completes_pure hp

theorem completes_forgetAll {ids : List Nat} (hp : d.phase = .encoding) :
    Completes (forgetAll ids location) d fun _ d' => d'.phase = .encoding :=
  completes_forM (fun id _ => completes_forget id location) hp

theorem completes_restore {before yes : Versions} (hp : d.phase = .encoding) :
    Completes (restore before yes location) d fun _ d' => d'.phase = .encoding := by
  refine completes_forM (fun (id, version) d hp => ?_) hp
  dsimp only
  split
  · refine completes_get_bind ?_
    split
    · exact completes_assign hp
    · exact completes_pure hp
  · exact completes_pure hp

theorem completes_mergeVersions {guard : Term} {before yes no : Versions}
    (hp : d.phase = .encoding) :
    Completes (mergeVersions guard before yes no location) d
      fun _ d' => d'.phase = .encoding := by
  refine completes_forM (fun (id, version) d hp => ?_) hp
  dsimp only
  split
  · exact completes_pure hp
  · refine completes_get_bind ?_
    split
    · exact completes_assign hp
    · exact completes_pure hp

/-- A branch that is opened and closed again. -/
theorem completes_gated {condition : Term} {P : β → Draft → Prop}
    (hx : Completes x (d.pushed condition) fun _ d' => Continues (d.pushed condition) d')
    (hf : ∀ a d', Continues d d' → Completes (f a) d' P) :
    Completes (do pushCondition condition; let a ← x; popPath; f a) d P := by
  have hpush : Completes (pushCondition condition) d fun _ d' => d' = d.pushed condition :=
    completes_of_yields () (yields_pushCondition.2 rfl) rfl rfl
  refine completes_bind hpush ?_
  rintro _ _ - rfl
  refine completes_bind hx fun a d₁ _ hc => ?_
  have hpath : d₁.path ≠ [] := by
    rw [hc.path]
    exact List.cons_ne_nil _ _
  have hpop : Completes popPath d₁ fun _ d' => d' = d₁.popped :=
    completes_of_yields () (yields_popPath.2 ⟨hpath, rfl⟩) rfl rfl
  refine completes_bind hpop ?_
  rintro _ _ - rfl
  exact hf a _ hc.popped

theorem completes_branch (sign : Bool) {P : β → Draft → Prop} (hk : d.HasValue e)
    (hx : ∀ t, Completes x (d.pushed t) fun _ d' => Continues (d.pushed t) d')
    (hf : ∀ a d', Continues d d' → Completes (f a) d' P) :
    Completes (do pushPath e sign; let a ← x; popPath; f a) d P := by
  unfold pushPath
  rw [bind_assoc]
  refine completes_bind (completes_valueOf hk) ?_
  rintro t _ - rfl
  exact completes_gated (hx _) hf

theorem completes_arithmetic {op : Arithmetic} {ty : IntegerType} {l r : Term} :
    Completes (arithmetic op ty l r location) d fun _ d' => d'.phase = d.phase := by
  refine completes_get_bind ?_
  dsimp only
  split
  · exact completes_of_yields _ (yields_emit_bind.2 (yields_pure.2 ⟨rfl, rfl⟩)) rfl rfl
  · exact completes_pure rfl

/-! ### Expressions -/

theorem Underway.after (h : d.Underway registered) (hy : Yields e.encode d u d') :
    d'.Underway registered :=
  h.later (continues_encode hy).later

theorem completes_defineFrom {operand : Expr} (hp : d.phase = .encoding)
    (ht : e.hasTermSort = true) (hk : d.HasValue operand) :
    Completes (defineFrom e operand) d fun _ d' => d'.HasValue e := by
  refine completes_bind (completes_valueOf hk) ?_
  rintro t _ - rfl
  exact completes_define hp ht

theorem completes_settle (hp : d.phase = .encoding) (ht : e.hasTermSort = true) (id : Nat) :
    Completes (settle e (some id) t) d fun _ d' => d'.HasValue e :=
  completes_bind (completes_assign hp) fun _ _ _ hp₁ => completes_define hp₁ ht

/-- A variable is read, or flagged as a target and left alone. -/
theorem completes_target {m : Node} {name : String} {isTarget : Bool}
    (h : d.Underway registered) (hid : registered id = true)
    (hm : (Expr.identifier m name (some id) isTarget).hasTermSort = true) :
    Completes (Expr.identifier m name (some id) isTarget).encode d
      fun _ d' => isTarget = false → d'.HasValue (.identifier m name (some id) isTarget) := by
  obtain ⟨v, hv⟩ := h.exists_registered hid
  rw [Expr.encode]
  unfold identifier
  split
  · exact completes_pure (by simp)
  · rename_i hty
    simp [Expr.hasTermSort, Expr.termSort, hty, Except.isOk, Except.toBool] at hm
  · refine completes_get_bind ?_
    rw [Draft.current?, hv]
    exact (completes_define h.phase hm).mono fun _ _ _ hk _ => hk

theorem completes_step {node m : Node} {op : UnaryOp} {isBefore isTarget isUp : Bool}
    {name : String} (hid : registered id = true) (ht : node.ty.integer?.isSome = true)
    (h : d.Underway registered) :
    let operand := Expr.identifier m name (some id) isTarget
    let e := Expr.unary node op isBefore operand
    Completes (step e isUp isBefore operand) d fun _ d' => d'.HasValue e := by
  intro operand e
  obtain ⟨v, hv⟩ := h.exists_registered hid
  have hs : e.hasTermSort = true := by
    obtain ⟨ty, hty⟩ := Option.isSome_iff_exists.1 ht
    cases hn : node.ty <;> rw [hn] at hty <;> cases hty
    exact hasTermSort_of_ok (Expr.Typed.termSort_of_int hn)
  have hnone : e.ty.integer?.isNone = false := by
    rw [← Option.not_isSome, Bool.not_eq_false']
    exact ht
  unfold step
  dsimp only
  rw [hnone, if_neg Bool.false_ne_true]
  refine completes_get_bind ?_
  simp only [Option.bind_some, Draft.current?, hv, Option.map_some]
  exact completes_bind (completes_assign h.phase) fun _ _ _ hp => completes_define hp hs

theorem completes_literal_bool {node : Node} {b : Bool} (hp : d.phase = .encoding)
    (ht : node.ty = .bool) :
    Completes (literal (.literal node (.bool b)) (.bool b)) d
      fun _ d' => d'.HasValue (.literal node (.bool b)) := by
  have hty : (Expr.literal node (.bool b)).ty = .bool := ht
  unfold literal
  rw [hty]
  exact completes_define hp (hasTermSort_of_ok (Expr.Typed.termSort_of_bool ht))

theorem completes_literal_number {node : Node} {q : Rat} (hp : d.phase = .encoding)
    (hq : q.den = 1) (ht : (Expr.literal node (.number q)).termSort = .ok .int) :
    Completes (literal (.literal node (.number q)) (.number q)) d
      fun _ d' => d'.HasValue (.literal node (.number q)) := by
  have hdefine := completes_define (t := .ofInt q.num) hp (hasTermSort_of_ok ht)
  unfold Expr.termSort at ht
  unfold literal
  split at ht
  · rename_i hty
    rw [hty]
    simpa only [hq, if_true] using hdefine
  · rename_i hty
    rw [hty]
    simpa only [hq, if_true] using hdefine
  all_goals cases ht

theorem completes_operands {left right : Expr} {P : Unit → Draft → Prop} {x : Drafting Unit}
    (hl : ∀ {d : Draft}, d.Underway registered →
      Completes left.encode d fun _ d' => d'.HasValue left)
    (hr : ∀ {d : Draft}, d.Underway registered →
      Completes right.encode d fun _ d' => d'.HasValue right)
    (h : d.Underway registered)
    (hx : ∀ d', d'.Underway registered → d'.HasValue left → d'.HasValue right → Completes x d' P) :
    Completes (do left.encode; right.encode; x) d P := by
  refine completes_bind (hl h) fun _ d₁ h₁ hk₁ => ?_
  refine completes_bind (hr (h.after h₁)) fun _ d₂ h₂ hk₂ => ?_
  exact hx d₂ ((h.after h₁).after h₂) ((continues_encode h₂).later.hasValue hk₁) hk₂

theorem completes_values {left right : Expr} {P : Unit → Draft → Prop}
    {f : Term → Term → Drafting Unit}
    (hl : d.HasValue left) (hr : d.HasValue right) (hf : ∀ l r, Completes (f l r) d P) :
    Completes (do let l ← valueOf left; let r ← valueOf right; f l r) d P := by
  refine completes_bind (completes_valueOf hl) ?_
  rintro l _ - rfl
  refine completes_bind (completes_valueOf hr) ?_
  rintro r _ - rfl
  exact hf l r

theorem hasTermSort_of_variableSort {sort : TermSort} (h : e.ty.variableSort = .ok sort) :
    e.hasTermSort = true := by
  unfold Expr.hasTermSort Expr.termSort
  cases hty : e.ty <;> rw [hty] at h <;> first | rfl | cases h

theorem completes_assume (hp : d.phase = .encoding) (hk : d.HasValue e) :
    Completes (assume e) d fun _ _ => True := by
  have hphase : Completes requireEncoding d fun _ d' => d' = d :=
    completes_of_yields () (yields_requireEncoding.2 ⟨hp, rfl⟩) rfl rfl
  refine completes_bind hphase ?_
  rintro _ _ - rfl
  split
  · refine completes_bind (completes_valueOf hk) ?_
    rintro t _ - rfl
    exact completes_of_yields () rfl trivial rfl
  · exact (completes_warn (by simp)).mono fun _ _ _ _ => trivial

/-- The value is encoded, then the target is. -/
theorem completes_parts {m : Node} {name : String} {isTarget : Bool} {value : Expr}
    {P : Unit → Draft → Prop} {x : Drafting Unit} {sort : TermSort}
    (hv : ∀ {d : Draft}, d.Underway registered →
      Completes value.encode d fun _ d' => d'.HasValue value)
    (hid : registered id = true) (hm : m.ty.variableSort = .ok sort) (h : d.Underway registered)
    (hx : ∀ d', d'.Underway registered → d'.HasValue value → Completes x d' P) :
    Completes (do value.encode; (Expr.identifier m name (some id) isTarget).encode; x) d P := by
  refine completes_bind (hv h) fun _ d₁ h₁ hk => ?_
  have hs : (Expr.identifier m name (some id) isTarget).hasTermSort = true :=
    hasTermSort_of_variableSort hm
  refine completes_bind (completes_target (h.after h₁) hid hs) fun _ d₂ h₂ _ => ?_
  exact hx d₂ ((h.after h₁).after h₂) ((continues_encode h₂).later.hasValue hk)

theorem completes_assignment {node m : Node} {op : AssignOp} {name : String} {isTarget : Bool}
    {value : Expr} {sort : TermSort} (h : d.Underway registered)
    (hm : m.ty.variableSort = .ok sort) (hk : d.HasValue value)
    (ht : (Expr.assignment node op (.identifier m name (some id) isTarget) value).hasTermSort =
      true)
    (hop : ∀ t, Completes (assignedValue
      (.assignment node op (.identifier m name (some id) isTarget) value)
      (.identifier m name (some id) isTarget) op id t) d
        fun x d' => x.isSome = true ∧ d'.phase = .encoding) :
    Completes (assignment (.assignment node op (.identifier m name (some id) isTarget) value)) d
      fun _ d' =>
        d'.HasValue (.assignment node op (.identifier m name (some id) isTarget) value) := by
  have hty : (Expr.identifier m name (some id) isTarget).ty.variableSort = .ok sort := hm
  unfold assignment
  dsimp only
  rw [hty]
  refine completes_bind (completes_valueOf hk) ?_
  rintro t _ - rfl
  refine completes_bind (hop t) fun x d₁ _ hx => ?_
  obtain ⟨new, rfl⟩ := Option.isSome_iff_exists.1 hx.1
  exact completes_settle hx.2 ht id

end Draft

namespace Source

open Draft

variable {registered : Nat → Bool} {d d' : Draft} {e : Expr}

/-- A supported expression has a symbol once it was encoded. -/
theorem Expr.Valued.completes (hv : e.Valued registered) (h : d.Underway registered) :
    Completes e.encode d fun _ d' => d'.HasValue e := by
  induction hv generalizing d with
  | bool ht => exact completes_literal_bool h.phase ht
  | number hq ht => exact completes_literal_number h.phase hq ht
  | identifier hid ht =>
    exact (completes_target h hid ht).mono fun _ _ _ hk => hk rfl
  | @not node isBefore operand _ ht ih =>
    have hb : (Expr.unary node .not isBefore operand).ty.isBool = true := by
      rw [show (Expr.unary node .not isBefore operand).ty = .bool from ht]
      rfl
    refine completes_bind (ih h) fun _ d₁ hy hk => ?_
    unfold Draft.unary
    dsimp only
    rw [hb, Bool.not_true, if_neg Bool.false_ne_true]
    refine completes_bind (completes_valueOf hk) ?_
    rintro t _ - rfl
    exact completes_define (h.after hy).phase (hasTermSort_of_ok (Expr.Typed.termSort_of_bool ht))
  | step hop hid hm ht =>
    refine completes_bind (completes_target h hid hm) fun _ d₁ hy _ => ?_
    obtain rfl | rfl := hop
    · exact completes_step hid ht (h.after hy)
    · exact completes_step hid ht (h.after hy)
  | sign hop _ ht ih =>
    refine completes_bind (ih h) fun _ d₁ hy hk => ?_
    obtain rfl | rfl := hop
    · exact completes_defineFrom (h.after hy).phase ht hk
    · refine completes_bind (completes_valueOf hk) ?_
      rintro t _ - rfl
      exact completes_define (h.after hy).phase ht
  | arithmetic _ _ ht ihl ihr =>
    refine completes_operands ihl ihr h fun d₁ h₁ hl hr => ?_
    refine completes_values hl hr fun l r => ?_
    exact completes_bind completes_arithmetic fun t d₂ _ hp =>
      completes_define (hp.trans h₁.phase) ht
  | @comparison node op left right common sort _ _ hc ho ht ihl ihr =>
    refine completes_operands ihl ihr h fun d₁ h₁ hl hr => ?_
    have hsupported : (sort = .bool && !op.isEquality) = false := by
      cases sort with
      | bool => simp [ho rfl]
      | int => rfl
    unfold Draft.binary Draft.comparison
    dsimp only
    rw [hc]
    dsimp only
    simp only [hsupported, Bool.false_eq_true, if_false]
    exact completes_values hl hr fun l r => completes_define h₁.phase ht
  | connective _ _ ht ihl ihr =>
    refine completes_operands ihl ihr h fun d₁ h₁ hl hr => ?_
    exact completes_values hl hr fun l r => completes_define h₁.phase ht
  | @assign node m name id isTarget value sort _ hid hm ht ih =>
    refine completes_parts ih hid hm h fun d₁ h₁ hk => ?_
    exact completes_assignment h₁ hm hk ht fun t => completes_pure ⟨rfl, h₁.phase⟩
  | @compound node m op name id isTarget value ty _ hid hm ht ih =>
    have hs : m.ty.variableSort = .ok .int := congrArg Ty.variableSort hm
    have hty : (Expr.identifier m name (some id) isTarget).ty.integer? = some ty :=
      congrArg Ty.integer? hm
    refine completes_parts ih hid hs h fun d₁ h₁ hk => ?_
    obtain ⟨v, hv⟩ := h₁.exists_registered hid
    refine completes_assignment h₁ hs hk ht fun t => ?_
    unfold assignedValue
    dsimp only
    rw [hty]
    refine completes_get_bind ?_
    rw [Draft.current?, hv]
    refine completes_bind completes_arithmetic fun t d₂ _ hp => ?_
    exact completes_pure ⟨rfl, hp.trans h₁.phase⟩
  | @tuple node single _ ht ih =>
    have hall : Completes (Expr.encodeAll [single]) d
        fun _ d' => d'.phase = .encoding ∧ d'.HasValue single := by
      refine completes_bind (ih h) fun _ d₁ hy hk => ?_
      exact completes_pure ⟨(h.after hy).phase, hk⟩
    refine completes_bind hall fun _ d₁ _ h₁ => ?_
    unfold Draft.tuple
    dsimp only
    rw [if_pos ht]
    exact completes_defineFrom h₁.1 ht h₁.2

theorem Expr.Performed.completes (hv : e.Performed registered) (h : d.Underway registered) :
    Completes e.encode d fun _ _ => True := by
  cases hv with
  | valued hv => exact (hv.completes h).mono fun _ _ _ _ => trivial
  | @assertion node callee condition rest hc hv =>
    have hassume : Completes (do condition.encode; assume condition) d fun _ _ => True := by
      exact completes_bind (hv.completes h) fun _ d₁ hy hk => completes_assume (h.after hy).phase hk
    have hty : callee.ty = .function .require ∨ callee.ty = .function .assert := by
      simpa [Expr.isAssertion] using hc
    obtain hty | hty := hty <;> simpa only [Expr.encode, hty] using hassume

namespace Stmt

variable {returns : List Declaration} {location : Location}

/-- A statement can be encoded, and every value that is looked up is known. -/
def Completes (registered : Nat → Bool) (returns : List Declaration) (s : Stmt) : Prop :=
  ∀ ⦃d : Draft⦄, d.Underway registered →
    Draft.Completes (s.encode returns) d fun _ d' => d.Continues d'

theorem completes_encodeOptional {value : Option Expr} (hv : ∀ e ∈ value, e.Performed registered)
    (h : d.Underway registered) :
    Draft.Completes (encodeOptional value) d fun _ d' => d.Continues d' := by
  cases value with
  | none => exact completes_pure (.refl d)
  | some e => exact ((hv e rfl).completes h).mono fun _ _ hy _ => Draft.continues_encode hy

theorem completes_declare {declarations : List Declaration} {initial : Option Expr}
    (hv : ∀ e ∈ initial, e.Valued registered) (h : d.Underway registered) :
    Draft.Completes (Draft.declare location declarations initial) d fun _ _ => True := by
  have hinitial : Draft.Completes (encodeOptional initial) d
      fun _ d' => d'.phase = .encoding ∧ ∀ e ∈ initial, d'.HasValue e := by
    cases initial with
    | none => exact completes_pure ⟨h.phase, by simp⟩
    | some e =>
      refine ((hv e rfl).completes h).mono fun _ d' hy hk => ⟨(h.after hy).phase, ?_⟩
      exact fun x hx => Option.some.inj hx ▸ hk
  rw [declare_eq]
  refine completes_bind hinitial fun _ d₁ _ h₁ => ?_
  obtain ⟨hp, hk⟩ := h₁
  unfold giveInitial
  split
  · refine completes_get_bind ?_
    split
    · exact completes_pure trivial
    · cases initial with
      | none => exact (completes_assign hp).mono fun _ _ _ _ => trivial
      | some e => exact (completes_assignFrom hp (hk e rfl)).mono fun _ _ _ _ => trivial
  · refine completes_bind (completes_warn (by simp)) ?_
    rintro _ _ - rfl
    refine Draft.Completes.mono (completes_forM (fun declaration _ => ?_) hp) fun _ _ _ _ => trivial
    exact completes_forget declaration.id location

theorem completes_giveBack {e : Expr} (hp : d.phase = .encoding) (hk : d.HasValue e) :
    Draft.Completes (giveBack location returns e) d fun _ _ => True := by
  unfold giveBack
  split
  · refine completes_get_bind ?_
    split
    · exact (completes_assignFrom hp hk).mono fun _ _ _ _ => trivial
    · exact completes_pure trivial
  · exact (completes_warn (by simp)).mono fun _ _ _ _ => trivial

theorem completes_ret {value : Option Expr} (hv : ∀ e ∈ value, e.Valued registered)
    (h : d.Underway registered) :
    Draft.Completes ((ret location value).encode returns) d fun _ _ => True := by
  cases value with
  | none => exact completes_get_bind (completes_pure trivial)
  | some e =>
    refine completes_bind ((hv e rfl).completes h) fun _ d₁ hy hk => ?_
    refine completes_bind (completes_giveBack (h.after hy).phase hk) fun _ d₂ _ _ => ?_
    exact completes_get_bind (completes_pure trivial)

theorem completes_branch {condition : Expr} {yes : Stmt} {no : Option Stmt}
    (hc : condition.Valued registered) (hy : yes.Completes registered returns)
    (hn : ∀ s ∈ no, s.Completes registered returns) (h : d.Underway registered) :
    Draft.Completes ((branch location condition yes no).encode returns) d fun _ _ => True := by
  rw [encode_branch]
  refine completes_bind (hc.completes h) fun _ d₁ h₁ hk => ?_
  have hd₁ := h.after h₁
  refine completes_bind (completes_valueOf hk) ?_
  rintro guard d₁ - rfl
  refine completes_get_bind (Draft.completes_branch true hk (fun t => hy (hd₁.later .pushed))
    fun yesExits d₂ h₂ => completes_get_bind ?_)
  have helse : Draft.Completes (encodeElse returns location condition d₁.versions d₂.versions no) d₂
      fun _ d' => d'.phase = .encoding := by
    cases no with
    | none => exact completes_pure (hd₁.later h₂.later).phase
    | some no =>
      have hrest (t : Term) : Draft.Completes (do
          restore d₁.versions d₂.versions location
          no.encode returns) (d₂.pushed t) fun _ d' => (d₂.pushed t).Continues d' := by
        have hd₂ : (d₂.pushed t).Underway registered := (hd₁.later h₂.later).later .pushed
        refine completes_bind (completes_restore hd₂.phase) fun _ d₃ h₃ _ => ?_
        have hr := continues_assignAll (yields_restore.1 h₃)
        exact (hn no rfl (hd₂.later hr.later)).mono fun _ _ _ => hr.trans
      have hbranch := Draft.completes_branch false (f := pure)
        (P := fun _ d' => d'.phase = .encoding) (h₂.later.hasValue hk) hrest fun exits d' h' =>
          completes_pure ((hd₁.later h₂.later).later h'.later).phase
      simpa only [encodeElse, bind_assoc] using hbranch
  refine completes_bind helse fun noExits d₃ _ hp => completes_get_bind ?_
  exact completes_bind (completes_mergeVersions hp) fun _ _ _ _ => completes_pure trivial

theorem completes_turn {written : List Nat} {condition step : Option Expr} {body : Stmt}
    (hc : ∀ e ∈ condition, e.Valued registered) (hs : ∀ e ∈ step, e.Performed registered)
    (hb : body.Completes registered returns) (h : d.Underway registered) :
    Draft.Completes (encodeTurn returns location written condition step body) d
      fun _ _ => True := by
  unfold encodeTurn
  refine completes_bind (completes_warn (by simp)) ?_
  rintro _ _ - rfl
  refine completes_bind (completes_forgetAll h.phase) fun _ d₁ h₁ _ => ?_
  have hd₁ := (h.later .warned).later (continues_forgetAll h₁).later
  have hinner {e : Draft} (he : e.Underway registered) : Draft.Completes (do
      let exits ← body.encode returns
      encodeOptional step
      pure exits) e fun _ d' => e.Continues d' := by
    refine completes_bind (hb he) fun exits d₂ _ h₂ => ?_
    refine completes_bind (completes_encodeOptional hs (he.later h₂.later)) fun _ d₃ _ h₃ => ?_
    exact completes_pure (h₂.trans h₃)
  have hend (exits : List Term) {e : Draft} (he : d₁.Continues e) : Draft.Completes (do
      forgetAll written location
      return exits) e fun _ _ => True :=
    completes_bind (completes_forgetAll (hd₁.later he.later).phase) fun _ _ _ _ =>
      completes_pure trivial
  cases condition with
  | none =>
    have hwhole := completes_bind (hinner hd₁) fun exits d₂ _ h₂ => hend exits h₂
    simpa only [enter, leave, bind_assoc, pure_bind] using hwhole
  | some condition =>
    have hwhole := completes_bind ((hc condition rfl).completes hd₁) fun _ d₂ h₂ hk =>
      Draft.completes_branch true hk
        (fun t => hinner (e := d₂.pushed t) ((hd₁.after h₂).later .pushed))
        fun exits d₃ h₃ => hend exits ((Draft.continues_encode h₂).trans h₃)
    simpa only [enter, leave, bind_assoc, pure_bind] using hwhole

theorem completes_whileLoop {condition : Expr} {body : Stmt} {isBodyFirst : Bool}
    (hc : condition.Valued registered) (hb : body.Completes registered returns)
    (h : d.Underway registered) :
    Draft.Completes ((whileLoop location condition body isBodyFirst).encode returns) d
      fun _ _ => True := by
  rw [encode_whileLoop]
  cases isBodyFirst with
  | true => exact completes_turn (by simp) (fun e he => Option.some.inj he ▸ .valued hc) hb h
  | false => exact completes_turn (fun e he => Option.some.inj he ▸ hc) (by simp) hb h

theorem completes_forLoop {first : Option Stmt} {condition step : Option Expr} {body : Stmt}
    (hf : ∀ s ∈ first, s.Completes registered returns)
    (hc : ∀ e ∈ condition, e.Valued registered) (hs : ∀ e ∈ step, e.Performed registered)
    (hb : body.Completes registered returns) (h : d.Underway registered) :
    Draft.Completes ((forLoop location first condition step body).encode returns) d
      fun _ _ => True := by
  have hstart : Draft.Completes (start returns first) d fun _ d' => d.Continues d' := by
    cases first with
    | none => exact completes_pure (.refl d)
    | some s => exact hf s rfl h
  rw [encode_forLoop]
  refine completes_bind hstart fun startExits d₁ _ h₁ => ?_
  exact completes_bind (completes_turn hc hs hb (h.later h₁.later)) fun _ _ _ _ =>
    completes_pure trivial

theorem completes_cons {s : Stmt} {rest : List Stmt} (hs : s.Completes registered returns)
    (hr : ∀ {d : Draft}, d.Underway registered →
      Draft.Completes (encodeAll returns rest) d fun _ d' => d.Continues d')
    (h : d.Underway registered) :
    Draft.Completes (encodeAll returns (s :: rest)) d fun _ _ => True := by
  refine completes_bind (hs h) fun exits d₁ _ h₁ => ?_
  have hd₁ := h.later h₁.later
  split
  · exact (hr hd₁).mono fun _ _ _ _ => trivial
  · refine completes_get_bind (completes_gated (hr (hd₁.later .pushed)) fun later d₂ h₂ => ?_)
    have hp := (hd₁.later h₂.later).phase
    exact completes_get_bind (completes_bind (completes_mergeVersions hp) fun _ _ _ _ =>
      completes_pure trivial)

mutual

/-- Every supported statement can be encoded. -/
theorem Supported.completes {s : Stmt} (h : s.Supported registered) :
    s.Completes registered returns := by
  intro d hd
  refine Draft.Completes.mono (P := fun _ _ => True) ?_
    fun _ _ hy _ => continues_encode returns s hy
  cases s with
  | block _ body => exact (SupportedAll.completes h hd).mono fun _ _ _ _ => trivial
  | declare _ declarations initial =>
    exact completes_bind (completes_declare h hd) fun _ _ _ _ => completes_pure trivial
  | expression _ e =>
    exact completes_bind (Expr.Performed.completes h hd) fun _ _ _ _ => completes_pure trivial
  | branch _ condition yes no =>
    refine completes_branch h.1 h.2.1.completes (fun s hs => ?_) hd
    obtain rfl := Option.mem_def.1 hs
    exact Supported.completes (s := s) h.2.2
  | whileLoop _ condition body isBodyFirst => exact completes_whileLoop h.1 h.2.completes hd
  | forLoop _ first condition step body =>
    obtain ⟨hf, hc, hs, hb⟩ := h
    refine completes_forLoop (fun s hs => ?_) hc hs hb.completes hd
    obtain rfl := Option.mem_def.1 hs
    exact Supported.completes (s := s) hf
  | ret _ value => exact completes_ret h hd

theorem SupportedAll.completes {body : List Stmt} {d : Draft} (h : SupportedAll registered body)
    (hd : d.Underway registered) :
    Draft.Completes (encodeAll returns body) d fun _ d' => d.Continues d' := by
  refine Draft.Completes.mono (P := fun _ _ => True) ?_
    fun _ _ hy _ => continues_encodeAll returns body hy
  cases body with
  | nil => exact completes_pure trivial
  | cons s rest =>
    exact completes_cons h.1.completes (fun hd => SupportedAll.completes h.2 hd) hd

end

end Stmt

end Source

namespace Draft

variable {contract : Contract} {f : Function} {settings : Settings} {d d' : Draft}

/-! ### Analyses -/

theorem completes_warnings (f : Function) (d : Draft) :
    Completes f.warnings d fun _ d' => ∃ ds, d' = { d with diagnostics := ds } := by
  have hlast (d : Draft) : Completes (if !f.modifiers.isEmpty then
      warn f.location (.modifiers f.modifiers) else Pure.pure ()) d
        fun _ d' => ∃ ds, d' = { d with diagnostics := ds } := by
    split
    · exact (completes_warn (by simp)).mono fun _ _ _ h => ⟨_, h⟩
    · exact completes_pure ⟨d.diagnostics, rfl⟩
  unfold Function.warnings
  dsimp only
  split
  · refine completes_bind (completes_warn (by simp)) ?_
    rintro _ _ - rfl
    exact hlast _
  · exact hlast d

/-- Encoding a supported body never meets a value that was not encoded, even where a number is
taken and the function has no encoding. -/
theorem ends_allDefined_encode (hs : Stmt.SupportedAll (registers contract f) f.body)
    (settings : Settings) :
    Ends (f.encode contract) { settings } (fun _ d' => d'.diagnostics.AllDefined)
      fun _ d' => d'.diagnostics.AllDefined := by
  have hempty : ({ settings } : Draft).diagnostics.AllDefined := by simp [Diagnostics.AllDefined]
  refine .bind ((completes_warnings f { settings }).ends hempty) fun _ _ _ hw => ?_
  obtain ⟨⟨ds, rfl⟩, hds⟩ := hw
  have hprepare : Ends (prepare contract f) { settings, diagnostics := ds }
      (fun _ d' => d'.diagnostics.AllDefined)
      fun err d' => err.arises settings.isStrict = true ∧ d'.diagnostics.AllDefined :=
    ends_prepare (fun h => h.report (by simp)) rfl hds
  refine (hprepare.mono (fun _ _ _ h => h) fun _ _ h => h.2).bind fun _ d hy hd => ?_
  have ho := Opening.of_yields hy
  exact ((hs.completes ⟨ho.phase, ho.isRegistered⟩).ends hd).bind fun _ _ _ h => h.2

theorem allDefined_analyze (hs : Stmt.SupportedAll (registers contract f) f.body)
    (settings : Settings) : (f.analyze settings contract).diagnostics.AllDefined := by
  have h := ends_allDefined_encode hs settings
  unfold Ends at h
  unfold Function.analyze
  cases hrun : (f.encode contract).run { settings } with
  | ok u d =>
    rw [hrun] at h
    exact h
  | error err d =>
    rw [hrun] at h
    exact h.report (by simp)

/-- A function with a supported body has an encoding unless two of its variables have one number. -/
theorem isOk_analyze_iff (hs : Stmt.SupportedAll (registers contract f) f.body)
    (settings : Settings) :
    (f.analyze settings contract).outcome.isOk = true ↔
      ((enrolment contract f).map (·.id)).Nodup := by
  constructor
  · intro h
    cases ho : (f.analyze settings contract).outcome with
    | error err =>
      rw [ho] at h
      cases h
    | ok e =>
      obtain ⟨d, -, -, hd, -, -⟩ := exists_opening ho
      exact (hd.registry.map _).nodup_iff.1 hd.distinct
  · intro hn
    obtain ⟨d, ho, hok⟩ := exists_opening_outcome hn settings
    obtain ⟨exits, d₁, hy, -⟩ : Completes (Stmt.encodeAll f.returns f.body) d fun _ e =>
        d.Continues e := hs.completes ⟨ho.phase, ho.isRegistered⟩
    rw [hok exits d₁ hy]
    rfl

theorem analyze_of_yields (h : Yields (f.encode contract) { settings } () d) :
    (f.analyze settings contract).outcome = .ok d.finished ∧
      (f.analyze settings contract).diagnostics = d.diagnostics := by
  unfold Function.analyze
  rw [h]
  exact ⟨rfl, rfl⟩

theorem settings_of_analyze (h : (f.analyze settings contract).outcome = .ok d) :
    d.settings = settings := by
  obtain ⟨e, exits, d₁, ho, hy, rfl⟩ := exists_opening h
  exact (Stmt.continues_encodeAll f.returns f.body hy).later.settings.trans ho.settings

theorem yields_of_analyze (h : (f.analyze settings contract).outcome = .ok d) :
    ∃ e, Yields (f.encode contract) { settings } () e ∧ d = e.finished := by
  unfold Function.analyze at h
  cases hrun : (f.encode contract).run { settings } with
  | ok u e =>
    rw [hrun] at h
    exact ⟨e, hrun, (Except.ok.inj h).symm⟩
  | error err e =>
    rw [hrun] at h
    cases h

/-- A permissive encoding that meets no unknown value is a strict one. -/
theorem strict_of_permissive {guards : Bool}
    (h : Yields (f.encode contract) { settings := ⟨guards, false⟩ } () d)
    (hd : d.diagnostics.AllDefined) :
    Yields (f.encode contract) { settings := ⟨guards, true⟩ } () d.strict := by
  obtain ⟨new, hn, hs | ⟨hu, -⟩⟩ := Ends.of_yields (shadows_encode contract f guards) h
  · exact hs
  · rw [hn] at hd
    exact absurd (Diagnostics.allDefined_append.1 hd).2 hu

theorem permissive_of_strict {guards : Bool}
    (h : Yields (f.encode contract) { settings := ⟨guards, true⟩ } () d) :
    ∃ e, Yields (f.encode contract) { settings := ⟨guards, false⟩ } () e ∧ d = e.strict := by
  have hfails : ¬ Fails (f.encode contract) { settings := ⟨guards, true⟩ } := by
    rintro ⟨err, e, he⟩
    cases Eq.trans (Eq.symm h) he
  have hs := shadows_encode contract f guards
  unfold Shadows Ends at hs
  cases hrun : (f.encode contract).run { settings := ⟨guards, false⟩ } with
  | ok u e =>
    rw [hrun] at hs
    obtain ⟨new, -, hs | ⟨-, hf⟩⟩ := hs
    · exact ⟨e, hrun, (h.unique hs).2⟩
    · exact absurd hf hfails
  | error err e =>
    rw [hrun] at hs
    exact absurd hs hfails

/-- **Strict lookups change nothing but the failure.** Where a strict analysis succeeds, so does a
permissive one, with the same draft but for the setting and the same diagnostics. Where a permissive
analysis succeeds and never says that a value was not encoded, a strict one succeeds alike. And a
function with a supported body never meets such a value, and is encoded either way unless two of its
variables have one number. -/
theorem analyze_strict (contract : Contract) (f : Function) (guards : Bool) :
    (∀ d, (f.analyze ⟨guards, true⟩ contract).outcome = .ok d →
      (f.analyze ⟨guards, false⟩ contract).outcome =
        .ok { d with settings := ⟨guards, false⟩ } ∧
      (f.analyze ⟨guards, false⟩ contract).diagnostics =
        (f.analyze ⟨guards, true⟩ contract).diagnostics) ∧
    (∀ d, (f.analyze ⟨guards, false⟩ contract).outcome = .ok d →
      (f.analyze ⟨guards, false⟩ contract).diagnostics.AllDefined →
      (f.analyze ⟨guards, true⟩ contract).outcome = .ok { d with settings := ⟨guards, true⟩ } ∧
      (f.analyze ⟨guards, true⟩ contract).diagnostics =
        (f.analyze ⟨guards, false⟩ contract).diagnostics) ∧
    (Stmt.SupportedAll (registers contract f) f.body → ∀ isStrict,
      (f.analyze ⟨guards, isStrict⟩ contract).diagnostics.AllDefined ∧
      ((f.analyze ⟨guards, isStrict⟩ contract).outcome.isOk = true ↔
        ((enrolment contract f).map (·.id)).Nodup)) := by
  refine ⟨fun d hd => ?_, fun d hd hdefined => ?_, fun hs isStrict => ?_⟩
  · obtain ⟨_, hs, rfl⟩ := yields_of_analyze hd
    obtain ⟨e, hp, rfl⟩ := permissive_of_strict hs
    obtain ⟨ho, hdiag⟩ := analyze_of_yields hp
    have hsettings : e.finished.settings = ⟨guards, false⟩ := settings_of_analyze ho
    rw [ho, hdiag, (analyze_of_yields hs).2, ← hsettings]
    exact ⟨rfl, rfl⟩
  · obtain ⟨e, hp, rfl⟩ := yields_of_analyze hd
    have hsettings : e.finished.settings = ⟨guards, false⟩ := settings_of_analyze hd
    have hdiag := (analyze_of_yields hp).2
    rw [hdiag] at hdefined
    obtain ⟨ho, hdiag'⟩ := analyze_of_yields (strict_of_permissive hp hdefined)
    have hstrict : e.strict.finished = { e.finished with settings := ⟨guards, true⟩ } := by
      change { e.finished with settings := { e.finished.settings with isStrict := true } } = _
      rw [hsettings]
    rw [ho, hdiag, hdiag', hstrict]
    exact ⟨rfl, rfl⟩
  · exact ⟨allDefined_analyze hs _, isOk_analyze_iff hs _⟩

/-- `while (b) { x += 1; } require(b);` -/
def waiting : Function where
  id := 1
  name := "f"
  location := {}
  parameters := [{ id := 1, name := "b", ty := .bool, location := {} },
    { id := 2, name := "x", ty := .integer ⟨8, false⟩, location := {} }]
  returns := []
  body := [
    .whileLoop {} (.identifier ⟨3, {}, .bool⟩ "b" (some 1) false)
      (.expression {} (.assignment ⟨6, {}, .integer ⟨8, false⟩⟩ (.arithmetic .add)
        (.identifier ⟨4, {}, .integer ⟨8, false⟩⟩ "x" (some 2) true)
        (.literal ⟨5, {}, .rational 1⟩ (.number 1)))) false,
    .expression {} (.call ⟨9, {}, .tuple []⟩
      (.identifier ⟨7, {}, .function .require⟩ "require" none false)
      [.identifier ⟨8, {}, .bool⟩ "b" (some 1) false])]

theorem waiting_strict : ∃ d,
    (waiting.analyze ⟨true, true⟩ ⟨0, "C", {}, [], [waiting]⟩).outcome = .ok d ∧
    (waiting.analyze ⟨true, false⟩ ⟨0, "C", {}, [], [waiting]⟩).outcome =
      .ok { d with settings := ⟨true, false⟩ } ∧
    (waiting.analyze ⟨true, true⟩ ⟨0, "C", {}, [], [waiting]⟩).diagnostics =
      (waiting.analyze ⟨true, false⟩ ⟨0, "C", {}, [], [waiting]⟩).diagnostics := by
  obtain ⟨hstrict, hpermissive, hsupported⟩ :=
    analyze_strict ⟨0, "C", {}, [], [waiting]⟩ waiting true
  have hbody : Stmt.SupportedAll (registers ⟨0, "C", {}, [], [waiting]⟩ waiting) waiting.body :=
    ⟨⟨.identifier rfl rfl, .valued (.compound (.number rfl rfl) rfl rfl rfl)⟩,
      .assertion rfl (.identifier rfl rfl), trivial⟩
  have hok := (hsupported hbody true).2.2 (by decide)
  have hdefined := (hsupported hbody false).1
  cases hd : (waiting.analyze ⟨true, true⟩ ⟨0, "C", {}, [], [waiting]⟩).outcome with
  | error err =>
    rw [hd] at hok
    cases hok
  | ok d =>
    have hp := (hstrict d hd).1
    exact ⟨d, rfl, hp, (hpermissive _ hp hdefined).2⟩

end Draft

end PathFormula
