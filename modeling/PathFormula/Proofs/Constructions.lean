import Mathlib.Data.List.Basic
import PathFormula.Draft.Quotient

/-!
# Constructions of terms

A term is put together from constants, leaves and symbols by constructors of a fixed number of
arguments, by operators that are applied to a list, and by what is derived from these. As it is
stored, nothing in its form bounds the list of the arguments, and its sort is recorded when it is
built. A construction gives the same term either way (`agree_stored`), and so every application in
what is stored has the arguments that its operator takes and the sort that goes with them
(`applications_fit`).
-/
namespace PathFormula

/-- A composition of the ways to build a term. Booleans and machine integers enter as constants. -/
inductive Construction where
  | bool (b : Bool)
  | int (n : Int)
  | leaf (text : String) (sort : TermSort)
  | symbol (s : Symbol)
  | not (a : Construction)
  | dyadic (op : Dyadic) (a b : Construction)
  | implies (a b : Construction)
  | ne (a b : Construction)
  | neg (a : Construction)
  | ite (condition yes no : Construction)
  | division (ty : Source.IntegerType) (a b : Construction)
  | apply (op : Operator) (arguments : List Construction)
  | applyNamed (name : String) (arguments : List Construction)
  | conjunction (terms : List Construction)

/-- A term with the sort that was recorded for each application. -/
inductive StoredTerm where
  | leaf (text : String) (sort : TermSort)
  | symbol (s : Symbol)
  | application (op : Operator) (sort : TermSort) (arguments : List StoredTerm)

namespace Construction

mutual

/-- The first construction that is refused, from left to right, ends the whole. -/
def term : Construction → Except Term.ApplyError Term
  | .bool b => return .ofBool b
  | .int n => return .ofInt n
  | .leaf text sort => return .leaf text sort
  | .symbol s => return .symbol s
  | .not a => return .not (← a.term)
  | .dyadic op a b => return .dyadic op (← a.term) (← b.term)
  | .implies a b => return .implies (← a.term) (← b.term)
  | .ne a b => return .ne (← a.term) (← b.term)
  | .neg a => return .neg (← a.term)
  | .ite condition yes no => return .ite (← condition.term) (← yes.term) (← no.term)
  | .division ty a b => return quotient ty (← a.term) (← b.term)
  | .apply op arguments => do Term.apply op (← terms arguments)
  | .applyNamed name arguments => do Term.applyNamed name (← terms arguments)
  | .conjunction cs => return .conjunction (← terms cs)

def terms : List Construction → Except Term.ApplyError (List Term)
  | [] => return []
  | c :: rest => return (← c.term) :: (← terms rest)

end

end Construction

/-! ### Building what is stored -/

/-- Why nothing is stored. -/
inductive Fault where
  | refused (e : Term.ApplyError)
  | missingArgument (index : Nat)

namespace StoredTerm

def sort : StoredTerm → TermSort
  | .leaf _ sort => sort
  | .symbol s => s.sort
  | .application _ sort _ => sort

def arguments : StoredTerm → List StoredTerm
  | .leaf .. | .symbol _ => []
  | .application _ _ arguments => arguments

/-- The sort that an application records. A choice looks it up in its second argument. -/
def resultSort (op : Operator) (arguments : List StoredTerm) : Except Fault TermSort :=
  match op with
  | .not => .ok .bool
  | .dyadic op => .ok op.resultSort
  | .ite =>
      match arguments[1]? with
      | some a => .ok a.sort
      | none => .error (.missingArgument 1)

/-- Nothing is checked here. -/
def assemble (op : Operator) (arguments : List StoredTerm) : Except Fault StoredTerm :=
  return .application op (← resultSort op arguments) arguments

def apply (op : Operator) (arguments : List StoredTerm) : Except Fault StoredTerm :=
  if arguments.length = op.arity then assemble op arguments
  else .error (.refused (.wrongArity op arguments.length))

def applyNamed (name : String) (arguments : List StoredTerm) : Except Fault StoredTerm :=
  match Operator.ofSymbol? name with
  | some op => apply op arguments
  | none => .error (.refused (.unknownOperator name))

def ofBool (b : Bool) : StoredTerm := .leaf (if b then "true" else "false") .bool

def ofInt (n : Int) : StoredTerm := .leaf (Term.integerText n) .int

def not (a : StoredTerm) : Except Fault StoredTerm := assemble .not [a]

def dyadic (op : Dyadic) (a b : StoredTerm) : Except Fault StoredTerm :=
  assemble (.dyadic op) [a, b]

def ite (condition yes no : StoredTerm) : Except Fault StoredTerm :=
  assemble .ite [condition, yes, no]

def implies (a b : StoredTerm) : Except Fault StoredTerm := do dyadic .or (← not a) b

def ne (a b : StoredTerm) : Except Fault StoredTerm := do not (← dyadic .eq a b)

def neg (a : StoredTerm) : Except Fault StoredTerm := dyadic .sub (ofInt 0) a

def conjunction : List StoredTerm → Except Fault StoredTerm
  | [] => return ofBool true
  | first :: rest => rest.foldlM (dyadic .and) first

def division (ty : Source.IntegerType) (a b : StoredTerm) : Except Fault StoredTerm := do
  if ty.signed then
    ite (← dyadic .ge a (ofInt 0))
      (← ite (← dyadic .ge b (ofInt 0))
        (← dyadic .div a b)
        (← neg (← dyadic .div a (← neg b))))
      (← ite (← dyadic .ge b (ofInt 0))
        (← neg (← dyadic .div (← neg a) b))
        (← dyadic .div (← neg a) (← neg b)))
  else dyadic .div a b

end StoredTerm

namespace Construction

mutual

def stored : Construction → Except Fault StoredTerm
  | .bool b => return .ofBool b
  | .int n => return .ofInt n
  | .leaf text sort => return .leaf text sort
  | .symbol s => return .symbol s
  | .not a => do StoredTerm.not (← a.stored)
  | .dyadic op a b => do StoredTerm.dyadic op (← a.stored) (← b.stored)
  | .implies a b => do StoredTerm.implies (← a.stored) (← b.stored)
  | .ne a b => do StoredTerm.ne (← a.stored) (← b.stored)
  | .neg a => do StoredTerm.neg (← a.stored)
  | .ite condition yes no => do StoredTerm.ite (← condition.stored) (← yes.stored) (← no.stored)
  | .division ty a b => do StoredTerm.division ty (← a.stored) (← b.stored)
  | .apply op arguments => do StoredTerm.apply op (← storedAll arguments)
  | .applyNamed name arguments => do StoredTerm.applyNamed name (← storedAll arguments)
  | .conjunction cs => do StoredTerm.conjunction (← storedAll cs)

def storedAll : List Construction → Except Fault (List StoredTerm)
  | [] => return []
  | c :: rest => return (← c.stored) :: (← storedAll rest)

end

end Construction

/-! ### Terms as they are stored -/

namespace Term

def stored : Term → StoredTerm
  | .leaf text sort => .leaf text sort
  | .symbol s => .symbol s
  | .not a => .application .not .bool [a.stored]
  | .dyadic op a b => .application (.dyadic op) op.resultSort [a.stored, b.stored]
  | .ite condition yes no =>
      .application .ite yes.stored.sort [condition.stored, yes.stored, no.stored]

@[simp] theorem arguments_stored (t : Term) : t.stored.arguments = t.arguments.map stored := by
  cases t <;> rfl

@[simp] theorem sort_stored (t : Term) : t.stored.sort = t.sort := by
  induction t with
  | ite condition yes no _ ih _ => exact ih
  | _ => rfl

theorem stored_dyadic (op : Dyadic) (a b : Term) :
    StoredTerm.dyadic op a.stored b.stored = .ok (Term.dyadic op a b).stored := rfl

theorem stored_conjunction (ts : List Term) :
    StoredTerm.conjunction (ts.map stored) = .ok (conjunction ts).stored := by
  cases ts with
  | nil => rfl
  | cons first rest =>
    change (rest.map stored).foldlM (StoredTerm.dyadic .and) first.stored =
      .ok (rest.foldl Term.and first).stored
    induction rest generalizing first with
    | nil => rfl
    | cons t rest ih =>
      rw [List.map_cons, List.foldlM_cons, stored_dyadic]
      exact ih _

theorem stored_quotient (ty : Source.IntegerType) (a b : Term) :
    StoredTerm.division ty a.stored b.stored = .ok (quotient ty a b).stored := by
  unfold StoredTerm.division quotient
  cases ty.signed <;> rfl

theorem exists_apply {op : Operator} {arguments : List Term} (h : arguments.length = op.arity) :
    ∃ t, apply op arguments = .ok t := by
  cases op with
  | not =>
    obtain ⟨a, rfl⟩ := List.length_eq_one_iff.1 h
    exact ⟨_, rfl⟩
  | dyadic op =>
    obtain ⟨a, b, rfl⟩ := List.length_eq_two.1 h
    exact ⟨_, rfl⟩
  | ite =>
    obtain ⟨condition, yes, no, rfl⟩ := List.length_eq_three.1 h
    exact ⟨_, rfl⟩

theorem apply_of_length_ne {op : Operator} {arguments : List Term}
    (h : arguments.length ≠ op.arity) :
    apply op arguments = .error (.wrongArity op arguments.length) := by
  unfold apply
  split
  · simp [Operator.arity] at h
  · simp [Operator.arity] at h
  · simp [Operator.arity] at h
  · rfl

/-- A list of the wrong length is refused, and nothing else is. -/
theorem apply_eq_error_iff {op : Operator} {arguments : List Term} {e : ApplyError} :
    apply op arguments = .error e ↔
      arguments.length ≠ op.arity ∧ e = .wrongArity op arguments.length := by
  by_cases hl : arguments.length = op.arity
  · obtain ⟨t, ht⟩ := exists_apply hl
    simp [ht, hl]
  · simp [apply_of_length_ne hl, hl, eq_comm]

theorem applyNamed_eq_error_iff {name : String} {arguments : List Term} {e : ApplyError} :
    applyNamed name arguments = .error e ↔
      (∃ op, Operator.ofSymbol? name = some op ∧ arguments.length ≠ op.arity ∧
        e = .wrongArity op arguments.length) ∨
      Operator.ofSymbol? name = none ∧ e = .unknownOperator name := by
  unfold applyNamed
  cases h : Operator.ofSymbol? name with
  | none => simp [eq_comm]
  | some op => simp [apply_eq_error_iff]

end Term

namespace Operator

/-- The operator has this name: its own symbol, or a slash for the division. -/
def IsNamed (name : String) (op : Operator) : Prop :=
  name = op.symbol ∨ name = "/" ∧ op = .dyadic .div

theorem ofSymbol?_symbol (op : Operator) : ofSymbol? op.symbol = some op := by
  cases op with
  | not => decide
  | dyadic op => cases op <;> decide
  | ite => decide

theorem ofSymbol?_eq_some_iff {name : String} {op : Operator} :
    ofSymbol? name = some op ↔ IsNamed name op := by
  constructor
  · intro h
    unfold ofSymbol? at h
    split at h
    · rename_i hslash
      cases h
      exact .inr ⟨hslash, rfl⟩
    · have hname := List.find?_some h
      exact .inl (beq_iff_eq.1 hname).symm
  · rintro (rfl | ⟨rfl, rfl⟩)
    · exact ofSymbol?_symbol op
    · rfl

end Operator

/-! ### Constructions give stored terms -/

/-- What is built from stored terms is what is built from terms, seen through `f`. -/
def Agree {α β : Type} (f : α → β) (x : Except Term.ApplyError α) (y : Except Fault β) : Prop :=
  y = (x.mapError .refused).map f

theorem Agree.bind {α β γ δ : Type} {f : α → β} {g : γ → δ} {x : Except Term.ApplyError α}
    {y : Except Fault β} {F : α → Except Term.ApplyError γ} {G : β → Except Fault δ}
    (h : Agree f x y) (hF : ∀ a, Agree g (F a) (G (f a))) : Agree g (x >>= F) (y >>= G) := by
  subst h
  cases x with
  | error e => rfl
  | ok a => exact hF a

theorem agree_apply (op : Operator) (ts : List Term) :
    Agree Term.stored (Term.apply op ts) (StoredTerm.apply op (ts.map Term.stored)) := by
  unfold StoredTerm.apply
  rw [List.length_map]
  by_cases hl : ts.length = op.arity
  · obtain ⟨t, ht⟩ := Term.exists_apply hl
    obtain ⟨ho, rfl⟩ := Term.apply_eq_ok_iff.1 ht
    rw [if_pos hl, ht]
    cases t <;> simp [Term.operator?] at ho <;> subst ho <;> rfl
  · rw [if_neg hl, Term.apply_of_length_ne hl]
    rfl

theorem agree_applyNamed (name : String) (ts : List Term) :
    Agree Term.stored (Term.applyNamed name ts)
      (StoredTerm.applyNamed name (ts.map Term.stored)) := by
  unfold StoredTerm.applyNamed Term.applyNamed
  cases Operator.ofSymbol? name with
  | none => rfl
  | some op => exact agree_apply op ts

mutual

theorem agree_stored (c : Construction) : Agree Term.stored c.term c.stored := by
  -- where one argument fails both fail alike, and else both go on with the same terms
  match c with
  | .bool b => rfl
  | .int n => rfl
  | .leaf text sort => rfl
  | .symbol s => rfl
  | .not a => exact (agree_stored a).bind fun _ => rfl
  | .dyadic op a b => exact (agree_stored a).bind fun _ => (agree_stored b).bind fun _ => rfl
  | .implies a b => exact (agree_stored a).bind fun _ => (agree_stored b).bind fun _ => rfl
  | .ne a b => exact (agree_stored a).bind fun _ => (agree_stored b).bind fun _ => rfl
  | .neg a => exact (agree_stored a).bind fun _ => rfl
  | .ite condition yes no =>
    exact (agree_stored condition).bind fun _ => (agree_stored yes).bind fun _ =>
      (agree_stored no).bind fun _ => rfl
  | .division ty a b =>
    exact (agree_stored a).bind fun s => (agree_stored b).bind fun t => Term.stored_quotient ty s t
  | .apply op cs => exact (agree_storedAll cs).bind fun ts => agree_apply op ts
  | .applyNamed name cs => exact (agree_storedAll cs).bind fun ts => agree_applyNamed name ts
  | .conjunction cs => exact (agree_storedAll cs).bind fun ts => Term.stored_conjunction ts

theorem agree_storedAll (cs : List Construction) :
    Agree (List.map Term.stored) (Construction.terms cs) (Construction.storedAll cs) := by
  match cs with
  | [] => rfl
  | c :: rest => exact (agree_stored c).bind fun _ => (agree_storedAll rest).bind fun _ => rfl

end

/-! ### Applications -/

/-- The list and the sort that an application of the operator has. -/
def StoredTerm.Fits (op : Operator) (sort : TermSort) (arguments : List StoredTerm) : Prop :=
  arguments.length = op.arity ∧
    match op with
    | .dyadic .add | .dyadic .sub | .dyadic .mul | .dyadic .div => sort = .int
    | .ite => arguments[1]?.map StoredTerm.sort = some sort
    | _ => sort = .bool

/-- The part of a term at a position, which is given by the index of the argument at each step. -/
def Term.at? (t : Term) : List Nat → Option Term
  | [] => some t
  | i :: path => t.arguments[i]?.bind fun a => a.at? path

def StoredTerm.at? (n : StoredTerm) : List Nat → Option StoredTerm
  | [] => some n
  | i :: path => n.arguments[i]?.bind fun a => a.at? path

theorem at?_stored (t : Term) (path : List Nat) :
    t.stored.at? path = (t.at? path).map Term.stored := by
  induction path generalizing t with
  | nil => rfl
  | cons i path ih =>
    rw [StoredTerm.at?, Term.at?, Term.arguments_stored, List.getElem?_map]
    cases t.arguments[i]? with
    | none => rfl
    | some a => exact ih a

theorem fits_of_stored {t : Term} {op : Operator} {sort : TermSort} {arguments : List StoredTerm}
    (h : t.stored = .application op sort arguments) : StoredTerm.Fits op sort arguments := by
  cases t with
  | leaf | symbol => cases h
  | not | ite =>
    cases h
    exact ⟨rfl, rfl⟩
  | dyadic op =>
    cases h
    cases op <;> exact ⟨rfl, rfl⟩

/-- Every application in the term fits its operator. -/
def StoredTerm.IsFormed (n : StoredTerm) : Prop :=
  ∀ path op sort arguments, n.at? path = some (.application op sort arguments) →
    Fits op sort arguments

theorem isFormed_stored (t : Term) : t.stored.IsFormed := by
  intro path op sort arguments h
  rw [at?_stored] at h
  obtain ⟨u, -, hu⟩ := Option.map_eq_some_iff.1 h
  exact fits_of_stored hu

/-- What is stored is a term. -/
theorem exists_term_of_stored {c : Construction} {n : StoredTerm} (h : c.stored = .ok n) :
    ∃ t, c.term = .ok t ∧ n = t.stored := by
  rw [agree_stored c] at h
  cases ht : c.term with
  | error e =>
    rw [ht] at h
    cases h
  | ok t =>
    rw [ht] at h
    cases h
    exact ⟨t, rfl, rfl⟩

theorem StoredTerm.exists_assemble {op : Operator} {arguments : List StoredTerm}
    (h : arguments.length = op.arity) : ∃ n, assemble op arguments = .ok n := by
  cases op with
  | not | dyadic => exact ⟨_, rfl⟩
  | ite =>
    obtain ⟨condition, yes, no, rfl⟩ := List.length_eq_three.1 h
    exact ⟨_, rfl⟩

theorem StoredTerm.exists_apply_error_iff {op : Operator} {arguments : List StoredTerm} :
    (∃ e, apply op arguments = .error e) ↔ arguments.length ≠ op.arity := by
  unfold apply
  split
  · rename_i hl
    obtain ⟨n, hn⟩ := exists_assemble hl
    simp [hn, hl]
  · rename_i hl
    simp [hl]

theorem StoredTerm.exists_applyNamed_error_iff {name : String} {arguments : List StoredTerm} :
    (∃ e, applyNamed name arguments = .error e) ↔
      ∀ op, Operator.IsNamed name op → arguments.length ≠ op.arity := by
  simp only [← Operator.ofSymbol?_eq_some_iff]
  unfold applyNamed
  cases h : Operator.ofSymbol? name with
  | none => simp
  | some op => simp [exists_apply_error_iff]

/-- **Arity and sort.** What a construction stores is the term that it gives, sort and errors
included, and every application in it has as many arguments as its operator takes and the sort that
goes with them. An operator is refused if and only if the number of arguments is not its own, and a
name also where it is that of no operator. -/
theorem applications_fit :
    (∀ c : Construction, c.stored = (c.term.mapError .refused).map Term.stored) ∧
    (∀ t : Term, t.stored.sort = t.sort) ∧
    (∀ (c : Construction) (n : StoredTerm), c.stored = .ok n → n.IsFormed) ∧
    (∀ op arguments, (∃ e, StoredTerm.apply op arguments = .error e) ↔
      arguments.length ≠ op.arity) ∧
    (∀ name arguments, (∃ e, StoredTerm.applyNamed name arguments = .error e) ↔
      ∀ op, Operator.IsNamed name op → arguments.length ≠ op.arity) ∧
    (∀ op arguments e, Term.apply op arguments = .error e ↔
      arguments.length ≠ op.arity ∧ e = .wrongArity op arguments.length) ∧
    ∀ name arguments e, Term.applyNamed name arguments = .error e ↔
      (∃ op, Operator.IsNamed name op ∧ arguments.length ≠ op.arity ∧
        e = .wrongArity op arguments.length) ∨
      (∀ op, ¬ Operator.IsNamed name op) ∧ e = .unknownOperator name := by
  refine ⟨agree_stored, Term.sort_stored, fun c n h => ?_,
    fun _ _ => StoredTerm.exists_apply_error_iff,
    fun _ _ => StoredTerm.exists_applyNamed_error_iff, fun _ _ _ => Term.apply_eq_error_iff,
    fun _ _ _ => ?_⟩
  · obtain ⟨t, -, rfl⟩ := exists_term_of_stored h
    exact isFormed_stored t
  · simp only [Term.applyNamed_eq_error_iff, ← Operator.ofSymbol?_eq_some_iff,
      Option.eq_none_iff_forall_ne_some, ne_eq]

/-- Half of `x`, or else minus one, is not `k`. -/
def chosen : Construction :=
  .conjunction [.leaf "k" .bool, .ne (.leaf "k" .int) (.applyNamed "ite" [.bool true,
    .applyNamed "/" [.symbol ⟨"x", .int⟩, .int 2], .neg (.int 1)])]

theorem chosen_fits :
    ∃ n condition half minus, chosen.stored = .ok n ∧
      n.at? [1, 0, 1] = some (.application .ite .int [condition, half, minus]) ∧
      half.sort = .int ∧ StoredTerm.Fits .ite .int [condition, half, minus] ∧
      ∃ e, StoredTerm.applyNamed "ite" [half, minus] = .error e := by
  obtain ⟨-, -, hformed, -, hnamed, -⟩ := applications_fit
  refine ⟨_, _, _, _, rfl, rfl, rfl, hformed chosen _ rfl [1, 0, 1] _ _ _ rfl, ?_⟩
  refine (hnamed _ _).2 fun op hop => ?_
  cases Operator.ofSymbol?_eq_some_iff.2 hop
  decide

end PathFormula
