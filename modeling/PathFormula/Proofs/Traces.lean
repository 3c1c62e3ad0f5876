import Mathlib.Logic.Relation
import PathFormula.Proofs.Continuation
import PathFormula.Proofs.Opening

/-!
# Traces of encodings

Whatever the annotations of a function are, and whatever numbers its nodes and declarations have,
its draft only changes in the few ways that `Step` lists: a node gets a symbol, a symbol is equated
with what its node can be defined as, a variable moves on to what it is given, a condition is
stated, opened or closed. Every encoding is a row of such steps (`Stmt.traces_encodeAll`). What
holds of each step and does not need consistent annotations is proved by induction on the row.
-/
namespace PathFormula

open Source

/-- The expressions in a body, its conditions, and the values that its declarations and returns
give to a variable. -/
structure Uses where
  nodes : List Expr
  tests : List Expr
  gifts : List (Nat × Expr)

/-- The operand that an operation on integers divides by. -/
def Source.Expr.divisor? : Expr → Option Expr
  | .binary _ (.arithmetic .div) _ right _ => some right
  | .assignment _ (.arithmetic .div) target value =>
      if target.ty.integer?.isSome then some value else none
  | _ => none

/-- The operator of a step up or down. -/
def Source.stepOp (isUp : Bool) : UnaryOp := if isUp then .increment else .decrement

namespace Uses

variable {U : Uses} {e x : Expr}

/-- The expression is in the body, with all its parts. -/
def Has (U : Uses) (e : Expr) : Prop := e.nodes ⊆ U.nodes

theorem Has.mem (h : U.Has e) : e ∈ U.nodes := h e.mem_nodes_self

theorem Has.part (h : U.Has e) (hx : x ∈ e.children) : U.Has x :=
  List.Subset.trans (Expr.nodes_subset_of_mem_children hx) h

section Parts

variable {node : Node} {a b : Expr}

theorem Has.operand {op : UnaryOp} {isBefore : Bool} (h : U.Has (.unary node op isBefore a)) :
    U.Has a :=
  h.part (by simp [Expr.children])

theorem Has.left {op : BinaryOp} {common : Ty} (h : U.Has (.binary node op a b common)) :
    U.Has a :=
  h.part (by simp [Expr.children])

theorem Has.right {op : BinaryOp} {common : Ty} (h : U.Has (.binary node op a b common)) :
    U.Has b :=
  h.part (by simp [Expr.children])

theorem Has.target {op : AssignOp} (h : U.Has (.assignment node op a b)) : U.Has a :=
  h.part (by simp [Expr.children])

theorem Has.value {op : AssignOp} (h : U.Has (.assignment node op a b)) : U.Has b :=
  h.part (by simp [Expr.children])

theorem Has.component {isInlineArray : Bool} (h : U.Has (.tuple node [a] isInlineArray)) :
    U.Has a :=
  h.part (by simp [Expr.children])

end Parts

end Uses

namespace Draft

variable {U : Uses} {d d₁ d' : Draft}

/-! ### Values, gifts and conditions -/

/-- What an operation gives to a variable, in a draft that has the values of its operands. -/
inductive Assigns (d : Draft) : Expr → Nat → Term → Prop
  | plain {node m : Node} {name : String} {id : Nat} {isTarget : Bool} {value : Expr} {t : Term}
      (hm : ∃ sort, m.ty.variableSort = .ok sort) (ht : d.expression? value.id = some t) :
      Assigns d (.assignment node .plain (.identifier m name (some id) isTarget) value) id t
  | compound {node m : Node} {op : Arithmetic} {name : String} {id k : Nat} {isTarget : Bool}
      {value : Expr} {ty : IntegerType} {old t : Term} (hm : m.ty.integer? = some ty)
      (hold : d.term? id k = some old) (ht : d.expression? value.id = some t) :
      Assigns d (.assignment node (.arithmetic op) (.identifier m name (some id) isTarget) value) id
        (op.term ty old t)
  | step {node m : Node} {isUp isBefore isTarget : Bool} {name : String} {id k : Nat} {old : Term}
      (hn : node.ty.integer?.isSome) (hold : d.term? id k = some old) :
      Assigns d (.unary node (stepOp isUp) isBefore (.identifier m name (some id) isTarget)) id
        (stepped isUp old)

/-- What the value of a node can be defined as, in a draft that has the values of its parts. -/
inductive Defines (d : Draft) : Expr → Term → Prop
  | bool {node : Node} {b : Bool} (hn : (Expr.literal node (.bool b)).Fits .bool) :
      Defines d (.literal node (.bool b)) (.ofBool b)
  | number {node : Node} {n : Rat} (hn : (Expr.literal node (.number n)).Fits .int) :
      Defines d (.literal node (.number n)) (.ofInt n.num)
  | read {node : Node} {name : String} {id k : Nat} {isTarget : Bool} {t : Term}
      (ht : d.term? id k = some t) : Defines d (.identifier node name (some id) isTarget) t
  | not {node : Node} {isBefore : Bool} {operand : Expr} {t : Term} (hn : node.ty.isBool = true)
      (ht : d.expression? operand.id = some t) :
      Defines d (.unary node .not isBefore operand) (.not t)
  | plus {node : Node} {isBefore : Bool} {operand : Expr} {t : Term}
      (ht : d.expression? operand.id = some t) : Defines d (.unary node .plus isBefore operand) t
  | minus {node : Node} {isBefore : Bool} {operand : Expr} {t : Term}
      (ht : d.expression? operand.id = some t) :
      Defines d (.unary node .minus isBefore operand) (.neg t)
  | arithmetic {node : Node} {op : Arithmetic} {left right : Expr} {common : Ty}
      {ty : IntegerType} {l r : Term} (hl : d.expression? left.id = some l)
      (hr : d.expression? right.id = some r) :
      Defines d (.binary node (.arithmetic op) left right common) (op.term ty l r)
  | comparison {node : Node} {op : Comparison} {left right : Expr} {common : Ty} {l r : Term}
      (hl : d.expression? left.id = some l) (hr : d.expression? right.id = some r) :
      Defines d (.binary node (.comparison op) left right common) (op.term l r)
  | connective {node : Node} {op : Connective} {left right : Expr} {common : Ty} {l r : Term}
      (hl : d.expression? left.id = some l) (hr : d.expression? right.id = some r) :
      Defines d (.binary node (.connective op) left right common) (op.term l r)
  | assigned {e : Expr} {id : Nat} {t : Term} (h : Assigns d e id t) : Defines d e t
  | before {node m : Node} {isUp isBefore isTarget : Bool} {name : String} {id k : Nat} {t : Term}
      (hn : node.ty.integer?.isSome) (ht : d.term? id k = some t) :
      Defines d (.unary node (stepOp isUp) isBefore (.identifier m name (some id) isTarget)) t
  | component {node : Node} {single : Expr} {t : Term} (ht : d.expression? single.id = some t) :
      Defines d (.tuple node [single] false) t

/-- The conditions that a path is made of. -/
inductive Guard (U : Uses) (d : Draft) : Term → Prop
  | always : Guard U d (.ofBool true)
  | test {e : Expr} {t : Term} (hn : U.Has e) (he : e ∈ U.tests)
      (ht : d.expression? e.id = some t) : Guard U d t
  | not {a : Term} (ha : Guard U d a) : Guard U d (.not a)
  | and {a b : Term} (ha : Guard U d a) (hb : Guard U d b) : Guard U d (.and a b)
  | or {a b : Term} (ha : Guard U d a) (hb : Guard U d b) : Guard U d (.or a b)

/-- What a variable can be given. -/
inductive Gives (U : Uses) (d : Draft) (id : Nat) : Term → Prop
  | zero {sort : TermSort} (hs : d.sort? id = some sort) : Gives U d id (.zero sort)
  | value {e : Expr} {t : Term} (hn : U.Has e) (he : (id, e) ∈ U.gifts)
      (ht : d.expression? e.id = some t) : Gives U d id t
  | operation {e : Expr} {t : Term} (he : U.Has e) (h : Assigns d e id t) : Gives U d id t
  | version {k : Nat} {t : Term} (ht : d.term? id k = some t) : Gives U d id t
  | join {guard a b : Term} {k n : Nat} (hg : Guard U d guard) (ha : d.term? id k = some a)
      (hb : d.term? id n = some b) : Gives U d id (.ite guard a b)

/-- One change of a draft under construction. -/
inductive Step (U : Uses) (d : Draft) : Draft → Prop
  | warned (location : Location) (notice : Notice) : Step U d (d.warned location notice)
  | named {e : Expr} {sort : TermSort} (he : U.Has e) (hk : d.known.lookup e.id = none)
      (hs : e.termSort = .ok sort) : Step U d (d.named e.id sort)
  | defined {e : Expr} {sort : TermSort} {t : Term} (location : Location) (he : U.Has e)
      (hk : d.known.lookup e.id = some sort) (ht : Defines d e t) :
      Step U d (d.emitted (.eq (.symbol (expressionSymbol e.id sort)) t) location)
  | wrote {id : Nat} {v : Registered} {t : Term} (location : Location)
      (hv : d.registered? id = some v) (ht : Gives U d id t) :
      Step U d ((d.advanced id).emitted (.eq (v.term (v.version + 1)) t) location)
  | forgot {id : Nat} {v : Registered} (location : Location) (hv : d.registered? id = some v) :
      Step U d ((d.advanced id).emitted v.advance.rangeFact location)
  | stated {e : Expr} {t : Term} (location : Location) (he : U.Has e) (hb : e.ty.isBool = true)
      (ht : d.expression? e.id = some t) : Step U d (d.emitted t location)
  | divided {e x : Expr} {t : Term} (location : Location) (he : U.Has e)
      (hx : e.divisor? = some x) (ht : d.expression? x.id = some t) :
      Step U d (d.emitted (.ne t (.ofInt 0)) location)
  | opened {condition : Term} (hc : Guard U d condition) : Step U d (d.pushed condition)
  | closed : Step U d d.popped

/-- Any number of changes. -/
abbrev Traces (U : Uses) : Draft → Draft → Prop := Relation.ReflTransGen (Step U)

/-! ### Later drafts -/

theorem Assigns.later (h : Later d d') {e : Expr} {id : Nat} {t : Term} (ha : Assigns d e id t) :
    Assigns d' e id t := by
  cases ha with
  | plain hm ht => exact .plain hm (h.expression? ht)
  | compound hm hold ht => exact .compound hm ((h.term? _ _).trans hold) (h.expression? ht)
  | step hn hold => exact .step hn ((h.term? _ _).trans hold)

theorem Guard.later (h : Later d d') {t : Term} (ht : Guard U d t) : Guard U d' t := by
  induction ht with
  | always => exact .always
  | test hn he ht => exact .test hn he (h.expression? ht)
  | not _ ih => exact .not ih
  | and _ _ iha ihb => exact .and iha ihb
  | or _ _ iha ihb => exact .or iha ihb

theorem Gives.later (h : Later d d') {id : Nat} {t : Term} (ht : Gives U d id t) :
    Gives U d' id t := by
  cases ht with
  | zero hs => exact .zero ((h.sort? _).trans hs)
  | value hn he ht => exact .value hn he (h.expression? ht)
  | operation he ha => exact .operation he (ha.later h)
  | version ht => exact .version ((h.term? _ _).trans ht)
  | join hg ha hb => exact .join (hg.later h) ((h.term? _ _).trans ha) ((h.term? _ _).trans hb)

/-- All open conditions are conditions that a path is made of. -/
def Steered (U : Uses) (d : Draft) : Prop := ∀ t ∈ d.path, Guard U d t

theorem Steered.continues (h : Continues d d') (hd : Steered U d) : Steered U d' := fun t ht =>
  (hd t (h.path ▸ ht)).later h.later

theorem Steered.guard (hd : Steered U d) : Guard U d d.pathCondition :=
  forall_pathCondition .always hd

theorem Steered.pushed (hd : Steered U d) {t : Term} (ht : Guard U d t) :
    Steered U (d.pushed t) := fun x hx =>
  (forall_path_pushed .always (fun _ _ => .and) hd ht x hx).later .pushed

theorem guard_disjunction {exits : List Term} {t : Term} (h : Term.disjunction? exits = some t)
    (hg : ∀ x ∈ exits, Guard U d x) : Guard U d t :=
  Term.disjunction?_induction .or h hg

/-! ### Operations -/

section Operations

variable {e : Expr} {u : Unit} {t : Term} {id : Nat} {location : Location}

theorem traces_warned {notice : Notice} : Traces U d (d.warned location notice) :=
  .single (.warned location notice)

theorem traces_valueOf (he : U.Has e) (h : Yields (valueOf e) d t d') :
    Traces U d d' ∧ d'.expression? e.id = some t := by
  obtain ⟨sort, rfl, ⟨hk, rfl⟩ | ⟨hk, -, -, hs, rfl⟩⟩ := yields_valueOf.1 h
  · exact ⟨.refl, by simp [Draft.expression?, hk]⟩
  · exact ⟨traces_warned.tail (.named he hk hs), by simp [Draft.expression?]⟩

theorem traces_create (he : U.Has e) (h : Yields (create e) d u d') : Traces U d d' := by
  obtain ⟨-, ⟨-, rfl⟩ | ⟨hk, sort, hs, rfl⟩⟩ := yields_create.1 h
  · exact traces_warned
  · exact .single (.named he hk hs)

theorem Defines.later (h : Later d d') {t : Term} (ht : Defines d e t) : Defines d' e t := by
  cases ht with
  | bool hn => exact .bool hn
  | number hn => exact .number hn
  | read ht => exact .read ((h.term? _ _).trans ht)
  | not hn ht => exact .not hn (h.expression? ht)
  | plus ht => exact .plus (h.expression? ht)
  | minus ht => exact .minus (h.expression? ht)
  | arithmetic hl hr => exact .arithmetic (h.expression? hl) (h.expression? hr)
  | comparison hl hr => exact .comparison (h.expression? hl) (h.expression? hr)
  | connective hl hr => exact .connective (h.expression? hl) (h.expression? hr)
  | assigned ha => exact .assigned (ha.later h)
  | before hn ht => exact .before hn ((h.term? _ _).trans ht)
  | component ht => exact .component (h.expression? ht)

theorem traces_define (he : U.Has e) (ht : Defines d e t) (h : Yields (define e t) d u d') :
    Traces U d d' := by
  obtain ⟨-, sort, ⟨hk, rfl⟩ | ⟨hk, hs, rfl⟩⟩ := yields_define.1 h
  · exact .single (.defined _ he hk ht)
  · have hn : Step U d (d.named e.id sort) := .named he hk hs
    exact .tail (.single hn) (.defined _ he (by simp) (ht.later (.named hk)))

theorem traces_assign (ht : Gives U d id t) (h : Yields (assign id t location) d u d') :
    Traces U d d' := by
  obtain ⟨-, ⟨-, rfl⟩ | ⟨v, hv, rfl⟩⟩ := yields_assign.1 h
  · exact traces_warned
  · exact .single (.wrote _ hv ht)

theorem traces_forget (h : Yields (forget id location) d u d') : Traces U d d' := by
  obtain ⟨-, ⟨-, rfl⟩ | ⟨v, hv, rfl⟩⟩ := yields_forget.1 h
  · exact traces_warned
  · exact .single (.forgot _ hv)

theorem traces_assignFrom (he : U.Has e) (hg : (id, e) ∈ U.gifts)
    (h : Yields (assignFrom id e location) d u d') : Traces U d d' := by
  obtain ⟨t, d₁, hv, h⟩ := yields_bind.1 h
  obtain ⟨htr, ht⟩ := traces_valueOf he hv
  exact htr.trans (traces_assign (.value he hg ht) h)

theorem traces_assignAll {ts : List (Nat × Term)} (hts : ∀ p ∈ ts, Gives U d p.1 p.2)
    (h : Yields (assignAll location ts) d u d') : Traces U d d' := by
  induction ts generalizing d with
  | nil =>
    obtain rfl := yields_forM_nil.1 h
    exact .refl
  | cons p rest ih =>
    obtain ⟨d₁, ha, h⟩ := yields_forM_cons.1 h
    obtain ⟨hp, hrest⟩ := List.forall_mem_cons.1 hts
    exact (traces_assign hp ha).trans (ih (fun q hq => (hrest q hq).later (later_assign ha)) h)

theorem traces_restore {before yes : Versions} (h : Yields (restore before yes location) d u d') :
    Traces U d d' := by
  refine traces_assignAll (fun p hp => ?_) (yields_restore.1 h)
  obtain ⟨⟨id, k⟩, -, he⟩ := List.mem_filterMap.1 hp
  dsimp only at he
  split at he
  · cases he
  · obtain ⟨t, ht, rfl⟩ := Option.map_eq_some_iff.1 he
    exact .version ht

theorem traces_mergeVersions {guard : Term} {before yes no : Versions} (hg : Guard U d guard)
    (h : Yields (mergeVersions guard before yes no location) d u d') : Traces U d d' := by
  refine traces_assignAll (fun p hp => ?_) (yields_mergeVersions.1 h)
  obtain ⟨⟨id, k⟩, -, he⟩ := List.mem_filterMap.1 hp
  dsimp only at he
  split at he
  · cases he
  · obtain ⟨v, hv, rfl⟩ := Option.map_eq_some_iff.1 he
    exact .join hg (by rw [term?, hv]; rfl) (by rw [term?, hv]; rfl)

theorem traces_forgetAll {ids : List Nat} (h : Yields (forgetAll ids location) d u d') :
    Traces U d d' := by
  induction ids generalizing d with
  | nil =>
    obtain rfl := yields_forM_nil.1 h
    exact .refl
  | cons id rest ih =>
    obtain ⟨d₁, ⟨-, rfl⟩ | ⟨-, hf⟩, hr⟩ := yields_forgetAll_cons.1 h
    · exact ih hr
    · exact (traces_forget hf).trans (ih hr)

theorem traces_arithmetic {op : Arithmetic} {ty : IntegerType} {a b : Term} {x : Expr}
    (he : U.Has e) (hx : op = .div → e.divisor? = some x) (hb : d.expression? x.id = some b)
    (h : Yields (arithmetic op ty a b location) d t d') :
    t = op.term ty a b ∧ Continues d d' ∧ Traces U d d' := by
  obtain ⟨rfl, rfl⟩ := yields_arithmetic.1 h
  split
  · rename_i hg
    exact ⟨rfl, ⟨.emitted, rfl⟩, .single (.divided _ he (hx hg.1) hb)⟩
  · exact ⟨rfl, .refl d, .refl⟩

end Operations

/-! ### Nodes -/

section Nodes

variable {e : Expr} {u : Unit} {node : Node}

theorem traces_defineFrom {x : Expr} (he : U.Has e) (hx : U.Has x)
    (ht : ∀ d t, d.expression? x.id = some t → Defines d e t)
    (h : Yields (defineFrom e x) d u d') : Traces U d d' := by
  obtain ⟨t, d₁, hv, h⟩ := yields_bind.1 h
  obtain ⟨htr, hx⟩ := traces_valueOf hx hv
  exact htr.trans (traces_define he (ht d₁ t hx) h)

theorem traces_leaveOpen (he : U.Has e) (h : Yields (leaveOpen e) d u d') :
    Traces U d d' := by
  unfold leaveOpen at h
  split at h
  · exact traces_create he h
  · obtain ⟨-, rfl⟩ := yields_pure.1 h
    exact .refl

theorem traces_literal {value : Literal} (he : U.Has (.literal node value))
    (h : Yields (literal (.literal node value) value) d u d') : Traces U d d' := by
  unfold literal at h
  split at h
  · rename_i hty
    exact traces_define he (.bool (Expr.fits_of_eq (Expr.termSort_of_isBool (by rw [hty]; rfl)))) h
  · rename_i ty n hty
    have hi : (Expr.literal node (.number n)).ty.integer? = some ty := by rw [hty]; rfl
    split at h
    · exact traces_define he (.number (Expr.fits_of_eq (Expr.termSort_of_integer hi))) h
    · exact traces_create he h
  · rename_i hty
    split at h
    · exact traces_define he (.number fun _ hs => Expr.sort_eq_int hty hs) h
    · exact traces_create he h
  · obtain rfl := yields_warn.1 h
    exact traces_warned

theorem traces_defineFromVariable {name : String} {id : Nat} {isTarget : Bool}
    (he : U.Has (.identifier node name (some id) isTarget))
    (h : Yields (defineFromVariable (.identifier node name (some id) isTarget) id) d u d') :
    Traces U d d' := by
  unfold defineFromVariable at h
  rw [yields_get_bind] at h
  cases hv : d.registered? id with
  | none =>
    simp only [current?, hv, Option.map_none, yields_warn] at h
    exact h ▸ traces_warned
  | some v =>
    simp only [current?, hv, Option.map_some] at h
    exact traces_define he (.read (k := v.version) (by rw [term?, hv]; rfl)) h

theorem traces_identifier {name : String} {declaration : Option Nat} {isTarget : Bool}
    (he : U.Has (.identifier node name declaration isTarget))
    (h : Yields (identifier (.identifier node name declaration isTarget) name declaration isTarget)
      d u d') : Traces U d d' := by
  unfold identifier at h
  split at h
  · obtain ⟨-, rfl⟩ := yields_pure.1 h
    exact .refl
  · obtain ⟨-, rfl⟩ := yields_pure.1 h
    exact .refl
  · split at h
    · exact traces_defineFromVariable he h
    · obtain rfl := yields_warn.1 h
      exact traces_warned

theorem traces_tuple {components : List Expr} {isInlineArray : Bool}
    (he : U.Has (.tuple node components isInlineArray))
    (h : Yields (tuple (.tuple node components isInlineArray) components isInlineArray) d u d') :
    Traces U d d' := by
  unfold tuple at h
  split at h
  · split at h
    · exact traces_defineFrom he he.component (fun _ _ ht => .component ht) h
    · obtain ⟨-, rfl⟩ := yields_pure.1 h
      exact .refl
  · obtain rfl := yields_warn.1 h
    exact traces_warned

theorem traces_step {isUp isBefore : Bool} {operand : Expr}
    (he : U.Has (.unary node (stepOp isUp) isBefore operand))
    (h : Yields (step (.unary node (stepOp isUp) isBefore operand) isUp isBefore operand) d u d') :
    Traces U d d' := by
  obtain ⟨hn, ⟨notice, rfl⟩ | ⟨m, name, id, isTarget, v, rfl, hv, d₁, ha, h⟩⟩ := yields_step h
  · exact traces_warned
  have hold : d.term? id v.version = some v.current := by rw [term?, hv]; rfl
  have hassign : Assigns d (.unary node (stepOp isUp) isBefore
      (.identifier m name (some id) isTarget)) id (stepped isUp v.current) := .step hn hold
  have hl := later_assign ha
  refine (traces_assign (.operation he hassign) ha).trans (traces_define he ?_ h)
  cases isBefore
  · exact .before hn ((hl.term? _ _).trans hold)
  · exact .assigned (hassign.later hl)

theorem traces_unary {op : UnaryOp} {isBefore : Bool} {operand : Expr}
    (he : U.Has (.unary node op isBefore operand))
    (h : Yields (unary (.unary node op isBefore operand)) d u d') : Traces U d d' := by
  have ho : U.Has operand := he.operand
  cases op with
  | not =>
    obtain ⟨hn, t, d₁, hv, h⟩ := yields_not.1 h
    obtain ⟨htr, ht⟩ := traces_valueOf ho hv
    exact htr.trans (traces_define he (.not hn ht) h)
  | increment =>
    have hstep : U.Has (.unary node (stepOp true) isBefore operand) := he
    exact traces_step hstep h
  | decrement =>
    have hstep : U.Has (.unary node (stepOp false) isBefore operand) := he
    exact traces_step hstep h
  | plus => exact traces_defineFrom he ho (fun _ _ ht => .plus ht) h
  | minus =>
    obtain ⟨t, d₁, hv, h⟩ := yields_bind.1 h
    obtain ⟨htr, ht⟩ := traces_valueOf ho hv
    exact htr.trans (traces_define he (.minus ht) h)
  | bitNot | delete =>
    obtain rfl := yields_warn.1 h
    exact traces_warned

/-- The values of both sides of a binary node. -/
theorem traces_sides {left right : Expr} {l r : Term} {d₂ : Draft} (hl : U.Has left)
    (hr : U.Has right) (h₁ : Yields (valueOf left) d l d₁) (h₂ : Yields (valueOf right) d₁ r d₂) :
    Traces U d d₂ ∧ d₂.expression? left.id = some l ∧ d₂.expression? right.id = some r := by
  obtain ⟨htl, hl⟩ := traces_valueOf hl h₁
  obtain ⟨htr, hr⟩ := traces_valueOf hr h₂
  exact ⟨htl.trans htr, (continues_valueOf h₂).later.expression? hl, hr⟩

theorem traces_binary {op : BinaryOp} {left right : Expr} {common : Ty}
    (he : U.Has (.binary node op left right common))
    (h : Yields (binary (.binary node op left right common)) d u d') : Traces U d d' := by
  have hl : U.Has left := he.left
  have hr : U.Has right := he.right
  cases op with
  | arithmetic op =>
    obtain ⟨ty, l, d₁, r, d₂, t, d₃, -, h₁, h₂, ha, h⟩ := yields_binaryArithmetic.1 h
    obtain ⟨htr, hl, hr⟩ := traces_sides hl hr h₁ h₂
    obtain ⟨rfl, hc, hta⟩ := traces_arithmetic he (by rintro rfl; rfl) hr ha
    exact htr.trans (hta.trans (traces_define he
      (.arithmetic (hc.later.expression? hl) (hc.later.expression? hr)) h))
  | comparison op =>
    obtain ⟨-, rfl⟩ | ⟨-, -, -, l, d₁, r, d₂, h₁, h₂, h⟩ := yields_comparison.1 h
    · exact traces_warned
    · obtain ⟨htr, hl, hr⟩ := traces_sides hl hr h₁ h₂
      exact htr.trans (traces_define he (.comparison hl hr) h)
  | connective op =>
    obtain ⟨-, rfl⟩ | ⟨-, l, d₁, r, d₂, h₁, h₂, h⟩ := yields_connective.1 h
    · exact traces_warned
    · obtain ⟨htr, hl, hr⟩ := traces_sides hl hr h₁ h₂
      exact htr.trans (traces_define he (.connective hl hr) h)
  | mod | exp | bitwise =>
    obtain rfl := yields_warn.1 h
    exact traces_warned

theorem traces_assignedValue {m : Node} {op : AssignOp} {name : String} {id : Nat}
    {isTarget : Bool} {value : Expr} {x t : Term}
    (he : U.Has (.assignment node op (.identifier m name (some id) isTarget) value))
    (hm : ∃ sort, m.ty.variableSort = .ok sort) (hx : d.expression? value.id = some x)
    (h : Yields (assignedValue (.assignment node op (.identifier m name (some id) isTarget) value)
      (.identifier m name (some id) isTarget) op id x) d (some t) d') :
    Assigns d' (.assignment node op (.identifier m name (some id) isTarget) value) id t ∧
      Traces U d d' := by
  obtain ⟨rfl, hr, rfl⟩ | ⟨aop, ty, rfl, hty, ⟨-, hr, -⟩ | ⟨v, w, hv, hr, h⟩⟩ :=
    yields_assignedValue.1 h
  · cases hr
    exact ⟨.plain hm hx, .refl⟩
  · cases hr
  · cases hr
    have hold : d.term? id v.version = some v.current := by rw [term?, hv]; rfl
    have hd : aop = .div → Expr.divisor? (.assignment node (.arithmetic aop)
        (.identifier m name (some id) isTarget) value) = some value := by
      rintro rfl
      simp [Expr.divisor?, hty]
    obtain ⟨rfl, hc, htr⟩ := traces_arithmetic he hd hx h
    exact ⟨.compound hty ((hc.later.term? _ _).trans hold) (hc.later.expression? hx), htr⟩

theorem traces_assignment {op : AssignOp} {target value : Expr}
    (he : U.Has (.assignment node op target value))
    (h : Yields (assignment (.assignment node op target value)) d u d') : Traces U d d' := by
  obtain ⟨m, name, id, isTarget, rfl⟩ := exists_of_yields_assignment h
  obtain ⟨-, rfl⟩ | ⟨hm, x, d₁, r, d₂, hv, hr, h⟩ := yields_assignment.1 h
  · exact traces_warned
  obtain ⟨htr, hx⟩ := traces_valueOf he.value hv
  obtain ⟨rfl, rfl⟩ | ⟨t, d₃, rfl, ha, h⟩ := h
  · obtain ⟨-, hn, -⟩ | ⟨aop, ty, -, -, ⟨-, -, rfl⟩ | ⟨v, t, -, hn, -⟩⟩ :=
      yields_assignedValue.1 hr
    · cases hn
    · exact htr.trans traces_warned
    · cases hn
  · obtain ⟨hassign, hta⟩ := traces_assignedValue he hm hx hr
    refine htr.trans (hta.trans ((traces_assign (.operation he hassign) ha).trans ?_))
    exact traces_define he (.assigned (hassign.later (later_assign ha))) h

theorem traces_assume {x : Expr} (hx : U.Has x) (h : Yields (assume x) d u d') :
    Traces U d d' := by
  obtain ⟨-, ⟨hb, t, d₁, hv, rfl⟩ | ⟨hb, rfl⟩⟩ := yields_assume.1 h
  · obtain ⟨htr, ht⟩ := traces_valueOf hx hv
    exact htr.tail (.stated _ hx hb ht)
  · exact traces_warned

end Nodes

end Draft

namespace Source.Expr

open Draft

variable {U : Uses}

mutual

/-- Encoding an expression is a row of steps that its nodes allow. -/
theorem traces_encode (e : Expr) {d d' : Draft} {u : Unit} (he : U.Has e)
    (h : Yields e.encode d u d') : Traces U d d' := by
  cases e with
  | literal node value => exact traces_literal he h
  | identifier node name declaration isTarget => exact traces_identifier he h
  | unary node op isBefore operand =>
    obtain ⟨d₁, ho, h⟩ := yields_seq.1 h
    exact (traces_encode operand he.operand ho).trans (traces_unary he h)
  | binary node op left right common =>
    obtain ⟨d₁, hl, h⟩ := yields_seq.1 h
    obtain ⟨d₂, hr, h⟩ := yields_seq.1 h
    exact (traces_encode left he.left hl).trans
      ((traces_encode right he.right hr).trans (traces_binary he h))
  | assignment node op target value =>
    obtain ⟨d₁, hv, h⟩ := yields_seq.1 h
    obtain ⟨d₂, ht, h⟩ := yields_seq.1 h
    exact (traces_encode value he.value hv).trans
      ((traces_encode target he.target ht).trans (traces_assignment he h))
  | tuple node components isInlineArray =>
    obtain ⟨d₁, ho, h⟩ := yields_seq.1 h
    exact (traces_encodeAll components (fun x hx => he.part hx) ho).trans (traces_tuple he h)
  | call node callee arguments =>
    have harguments : ∀ x ∈ arguments, U.Has x := fun x hx => he.part (List.mem_append_left _ hx)
    have hassert : Yields (encodeAssertion node arguments) d u d' → Traces U d d' := by
      intro h
      cases arguments with
      | nil =>
        obtain rfl := yields_warn.1 h
        exact traces_warned
      | cons condition rest =>
        obtain ⟨d₁, hc, h⟩ := yields_seq.1 h
        have hcondition := harguments condition List.mem_cons_self
        exact (traces_encode condition hcondition hc).trans (traces_assume hcondition h)
    unfold encode at h
    split at h
    · exact hassert h
    · exact hassert h
    · obtain ⟨d₁, ho, h⟩ := yields_seq.1 h
      exact (traces_encodeAll arguments harguments ho).trans
        (traces_warned.trans (traces_leaveOpen he h))
  | index node base position => exact traces_warned.trans (traces_leaveOpen he h)
  | member node base name => exact traces_warned.trans (traces_leaveOpen he h)

theorem traces_encodeAll (es : List Expr) {d d' : Draft} {u : Unit} (hes : ∀ e ∈ es, U.Has e)
    (h : Yields (encodeAll es) d u d') : Traces U d d' := by
  cases es with
  | nil =>
    obtain ⟨-, rfl⟩ := yields_pure.1 h
    exact .refl
  | cons e rest =>
    obtain ⟨d₁, he, h⟩ := yields_seq.1 h
    obtain ⟨hfirst, hrest⟩ := List.forall_mem_cons.1 hes
    exact (traces_encode e hfirst he).trans (traces_encodeAll rest hrest h)

end

end Source.Expr

end PathFormula
