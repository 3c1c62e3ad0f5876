import Mathlib.Data.List.Nodup
import PathFormula.Proofs.Growth

/-!
# Annotated functions

The nodes of a tree, and what it means that the types on them fit each other and the declarations.
A draft is ready for a tree if the symbols it has given out so far have the sorts of their nodes;
it stays ready while it grows (`Ready.grows`), and the nodes not yet encoded stay without a symbol
(`Awaits.rest`).
-/
namespace PathFormula

open Source

namespace Source

namespace Expr

mutual

/-- An expression and everything inside it. -/
def nodes : Expr → List Expr
  | .literal node value => [.literal node value]
  | .identifier node name declaration isTarget => [.identifier node name declaration isTarget]
  | .unary node op isBefore operand => .unary node op isBefore operand :: operand.nodes
  | .binary node op left right common =>
      .binary node op left right common :: (left.nodes ++ right.nodes)
  | .assignment node op target value =>
      .assignment node op target value :: (value.nodes ++ target.nodes)
  | .tuple node components isInlineArray =>
      .tuple node components isInlineArray :: nodesOfAll components
  | .call node callee arguments => .call node callee arguments ::
    (nodesOfAll arguments ++ callee.nodes)
  | .index node base position => .index node base position :: (base.nodes ++ position.nodes)
  | .member node base name => .member node base name :: base.nodes

def nodesOfAll : List Expr → List Expr
  | [] => []
  | e :: rest => e.nodes ++ nodesOfAll rest

end

theorem mem_nodes_self (e : Expr) : e ∈ e.nodes := by
  cases e <;> simp [nodes]

theorem nodes_subset_of_mem {e : Expr} {es : List Expr} (h : e ∈ es) : e.nodes ⊆ nodesOfAll es := by
  induction es with
  | nil => cases h
  | cons a rest ih =>
    rcases List.mem_cons.1 h with rfl | h
    · exact List.subset_append_left _ _
    · exact List.Subset.trans (ih h) (List.subset_append_right _ _)

/-- A call to `require` or `assert`. -/
def isAssertion : Expr → Bool
  | .call _ callee _ => callee.ty = .function .require ∨ callee.ty = .function .assert
  | _ => false

/-- An expression has no other sort. -/
def Fits (e : Expr) (sort : TermSort) : Prop := ∀ s, e.termSort = .ok s → s = sort

theorem fits_of_eq {e : Expr} {sort : TermSort} (h : e.termSort = .ok sort) : e.Fits sort :=
  fun _ hs => Except.ok.inj (hs.symm.trans h)

/-- Two expressions are not of different sorts. -/
def Matches (a b : Expr) : Prop := ∀ sort, b.termSort = .ok sort → a.Fits sort

/-- The type of a node fits those of its parts and of the declarations. -/
def Agrees (Γ : Nat → Option Domain) (e : Expr) : Prop :=
  match e with
  | .identifier node _ (some id) _ => ∀ domain ∈ Γ id, node.ty = domain.ty
  | .unary _ op _ operand =>
      match op with
      | .not => operand.Fits .bool
      | .increment | .decrement => operand.Fits .int
      | .plus => e.Matches operand
      | .minus => e.Fits .int ∧ operand.Fits .int
      | .bitNot | .delete => True
  | .binary _ op left right common =>
      match op with
      | .arithmetic _ => e.Fits .int ∧ left.Fits .int ∧ right.Fits .int
      | .comparison _ =>
          e.Fits .bool ∧ ∀ sort, common.variableSort = .ok sort → left.Fits sort ∧ right.Fits sort
      | .connective _ => e.Fits .bool ∧ left.Fits .bool ∧ right.Fits .bool
      | .mod | .exp | .bitwise _ => True
  | .assignment _ _ target value => e.Matches target ∧ target.Matches value
  | .tuple _ [single] false => e.Matches single
  | _ => True

def Consistent (Γ : Nat → Option Domain) (e : Expr) : Prop := ∀ x ∈ e.nodes, x.Agrees Γ

/-- The value of an expression can be given to the only one of some variables. -/
def Suits (Γ : Nat → Option Domain) (slots : List Declaration) (e : Expr) : Prop :=
  match slots with
  | [slot] => ∀ domain ∈ Γ slot.id, e.Fits domain.sort
  | _ => True

section Decidable

variable (Γ : Nat → Option Domain)

instance (e : Expr) (sort : TermSort) : Decidable (e.Fits sort) :=
  decidable_of_iff (∀ s ∈ e.termSort.toOption, s = sort) (by
    unfold Fits
    cases e.termSort <;> simp [Except.toOption])

instance (a b : Expr) : Decidable (a.Matches b) :=
  decidable_of_iff (∀ sort ∈ b.termSort.toOption, a.Fits sort) (by
    unfold Matches
    cases b.termSort <;> simp [Except.toOption])

instance (ty : Ty) (a b : Expr) :
    Decidable (∀ sort, ty.variableSort = .ok sort → a.Fits sort ∧ b.Fits sort) :=
  decidable_of_iff (∀ sort ∈ ty.variableSort.toOption, a.Fits sort ∧ b.Fits sort) (by
    cases ty.variableSort <;> simp [Except.toOption])

instance (e : Expr) : Decidable (e.Agrees Γ) :=
  match e with
  | .identifier node _ (some id) _ =>
      inferInstanceAs (Decidable (∀ domain ∈ Γ id, node.ty = domain.ty))
  | .unary node op isBefore operand =>
      match op with
      | .not => inferInstanceAs (Decidable (operand.Fits .bool))
      | .increment | .decrement => inferInstanceAs (Decidable (operand.Fits .int))
      | .plus => inferInstanceAs (Decidable ((unary node .plus isBefore operand).Matches operand))
      | .minus =>
          inferInstanceAs (Decidable ((unary node .minus isBefore operand).Fits .int ∧
            operand.Fits .int))
      | .bitNot | .delete => .isTrue trivial
  | .binary node op left right common =>
      match op with
      | .arithmetic op =>
          inferInstanceAs (Decidable ((binary node (.arithmetic op) left right common).Fits .int ∧
            left.Fits .int ∧ right.Fits .int))
      | .comparison op =>
          inferInstanceAs (Decidable ((binary node (.comparison op) left right common).Fits .bool ∧
            ∀ sort, common.variableSort = .ok sort → left.Fits sort ∧ right.Fits sort))
      | .connective op =>
          inferInstanceAs (Decidable ((binary node (.connective op) left right common).Fits .bool ∧
            left.Fits .bool ∧ right.Fits .bool))
      | .mod | .exp | .bitwise _ => .isTrue trivial
  | .assignment node op target value =>
      inferInstanceAs (Decidable ((assignment node op target value).Matches target ∧
        target.Matches value))
  | .tuple node [single] false =>
      inferInstanceAs (Decidable ((tuple node [single] false).Matches single))
  | .tuple _ [_] true | .tuple _ [] _ | .tuple _ (_ :: _ :: _) _ | .identifier _ _ none _
  | .literal .. | .call .. | .index .. | .member .. => .isTrue trivial

instance (e : Expr) : Decidable (e.Consistent Γ) :=
  inferInstanceAs (Decidable (∀ x ∈ e.nodes, x.Agrees Γ))

instance (slots : List Declaration) (e : Expr) : Decidable (e.Suits Γ slots) :=
  match slots with
  | [slot] => inferInstanceAs (Decidable (∀ domain ∈ Γ slot.id, e.Fits domain.sort))
  | [] | _ :: _ :: _ => .isTrue trivial

end Decidable

end Expr

namespace Stmt

def nodesOfExpr : Option Expr → List Expr
  | none => []
  | some e => e.nodes

mutual

/-- The expressions in a statement. -/
def nodes : Stmt → List Expr
  | .block _ body => nodesOfAll body
  | .declare _ _ initial => nodesOfExpr initial
  | .expression _ e => e.nodes
  | .branch _ condition yes no => condition.nodes ++ (yes.nodes ++ nodesOfOption no)
  | .whileLoop _ condition body _ => condition.nodes ++ body.nodes
  | .forLoop _ start condition step body =>
      nodesOfOption start ++ (nodesOfExpr condition ++ (body.nodes ++ nodesOfExpr step))
  | .ret _ value => nodesOfExpr value

def nodesOfAll : List Stmt → List Expr
  | [] => []
  | s :: rest => s.nodes ++ nodesOfAll rest

def nodesOfOption : Option Stmt → List Expr
  | none => []
  | some s => s.nodes

end

mutual

/-- The annotations in a statement of a function with the given return slots fit. -/
def Consistent (Γ : Nat → Option Domain) (returns : List Declaration) : Stmt → Prop
  | .block _ body => ConsistentAll Γ returns body
  | .declare _ declarations initial =>
      ∀ e ∈ initial, e.Consistent Γ ∧ e.Suits Γ declarations
  | .expression _ e => e.Consistent Γ
  | .branch _ condition yes no =>
      condition.Consistent Γ ∧ condition.termSort = .ok .bool ∧ yes.Consistent Γ returns ∧
        ConsistentOption Γ returns no
  | .whileLoop _ condition body _ =>
      condition.Consistent Γ ∧ condition.termSort = .ok .bool ∧ body.Consistent Γ returns
  | .forLoop _ start condition step body =>
      ConsistentOption Γ returns start ∧
        (∀ e ∈ condition, e.Consistent Γ ∧ e.termSort = .ok .bool) ∧
          (∀ e ∈ step, e.Consistent Γ) ∧ body.Consistent Γ returns
  | .ret _ value => ∀ e ∈ value, e.Consistent Γ ∧ e.Suits Γ returns

def ConsistentAll (Γ : Nat → Option Domain) (returns : List Declaration) : List Stmt → Prop
  | [] => True
  | s :: rest => s.Consistent Γ returns ∧ ConsistentAll Γ returns rest

def ConsistentOption (Γ : Nat → Option Domain) (returns : List Declaration) : Option Stmt → Prop
  | none => True
  | some s => s.Consistent Γ returns

end

section Decidable

variable (Γ : Nat → Option Domain) (returns : List Declaration)

mutual

def decideConsistent : (s : Stmt) → Decidable (s.Consistent Γ returns)
  | .block _ body => decideConsistentAll body
  | .declare _ declarations initial =>
      inferInstanceAs (Decidable (∀ e ∈ initial, e.Consistent Γ ∧ e.Suits Γ declarations))
  | .expression _ e => inferInstanceAs (Decidable (e.Consistent Γ))
  | .branch _ condition yes no =>
      have := decideConsistent yes
      have := decideConsistentOption no
      inferInstanceAs (Decidable (condition.Consistent Γ ∧ condition.termSort = .ok .bool ∧
        yes.Consistent Γ returns ∧ ConsistentOption Γ returns no))
  | .whileLoop _ condition body _ =>
      have := decideConsistent body
      inferInstanceAs (Decidable (condition.Consistent Γ ∧ condition.termSort = .ok .bool ∧
        body.Consistent Γ returns))
  | .forLoop _ start condition step body =>
      have := decideConsistentOption start
      have := decideConsistent body
      inferInstanceAs (Decidable (ConsistentOption Γ returns start ∧
        (∀ e ∈ condition, e.Consistent Γ ∧ e.termSort = .ok .bool) ∧
          (∀ e ∈ step, e.Consistent Γ) ∧ body.Consistent Γ returns))
  | .ret _ value => inferInstanceAs (Decidable (∀ e ∈ value, e.Consistent Γ ∧ e.Suits Γ returns))

def decideConsistentAll : (body : List Stmt) → Decidable (ConsistentAll Γ returns body)
  | [] => .isTrue trivial
  | s :: rest =>
      have := decideConsistent s
      have := decideConsistentAll rest
      inferInstanceAs (Decidable (s.Consistent Γ returns ∧ ConsistentAll Γ returns rest))

def decideConsistentOption : (s : Option Stmt) → Decidable (ConsistentOption Γ returns s)
  | none => .isTrue trivial
  | some s => decideConsistent s

end

instance (body : List Stmt) : Decidable (ConsistentAll Γ returns body) :=
  decideConsistentAll Γ returns body

end Decidable

end Stmt

end Source

@[simp] theorem Domain.variableSort_ty (domain : Domain) :
    domain.ty.variableSort = .ok domain.sort := by
  cases domain <;> rfl

namespace Draft

/-- A draft whose variables have the given types, and whose symbols for the expressions of a tree
have the sorts of these. -/
structure Ready (Γ : Nat → Option Domain) (scope : List Expr) (d : Draft) : Prop where
  ids : (d.registry.map (·.id)).Nodup
  declares : ∀ id, (d.registered? id).map (·.domain) = Γ id
  distinct : (scope.map Expr.id).Nodup
  sorts : ∀ x ∈ scope, ∀ sort, d.known.lookup x.id = some sort → x.termSort = .ok sort
  closed : d.Closed
  guards : ∀ t ∈ d.path, t.HasSort .bool

/-- Some expressions with numbers of their own, none of which has a symbol. -/
structure Awaits (d : Draft) (nodes : List Expr) : Prop where
  distinct : (nodes.map Expr.id).Nodup
  unknown : ∀ x ∈ nodes, d.known.lookup x.id = none

section Ready

variable {Γ : Nat → Option Domain} {scope : List Expr} {L : Licence} {d d' : Draft}

theorem Ready.eq_of_id (hd : d.Ready Γ scope) {x y : Expr} (hx : x ∈ scope) (hy : y ∈ scope)
    (h : x.id = y.id) : x = y :=
  List.inj_on_of_nodup_map hd.distinct hx hy h

theorem Ready.domain (hd : d.Ready Γ scope) {id : Nat} {v : Registered}
    (hv : d.registered? id = some v) : Γ id = some v.domain := by
  rw [← hd.declares id, hv]
  rfl

theorem Ready.grows (hd : d.Ready Γ scope) (h : Grows L d d') (hL : L.nodes ⊆ scope) :
    d'.Ready Γ scope where
  ids := h.later.ids ▸ hd.ids
  declares id := by
    obtain ⟨k, hk⟩ := h.later.registered id
    rw [← hd.declares id, hk, Option.map_map]
    rfl
  distinct := hd.distinct
  sorts x hx sort hk := by
    rcases h.names hk with hk | ⟨y, hy, hid, hs⟩
    · exact hd.sorts x hx sort hk
    · rwa [← hd.eq_of_id (hL hy) hx hid]
  closed := h.closed hd.closed
  guards := h.path ▸ hd.guards

theorem Ready.hasSort_pathCondition (hd : d.Ready Γ scope) : d.pathCondition.HasSort .bool :=
  forall_pathCondition (Term.hasSort_ofBool true) hd.guards

theorem Ready.pushed (hd : d.Ready Γ scope) {t : Term} (ht : d.Covers t) (hs : t.HasSort .bool) :
    (d.pushed t).Ready Γ scope :=
  { hd with
    closed := hd.closed.pushed ht
    guards := forall_path_pushed (Term.hasSort_ofBool true) (fun _ _ => .dyadic rfl) hd.guards hs }

theorem Awaits.left {xs ys : List Expr} (h : d.Awaits (xs ++ ys)) : d.Awaits xs where
  distinct := ((List.sublist_append_left xs ys).map Expr.id).nodup h.distinct
  unknown x hx := h.unknown x (List.mem_append_left ys hx)

/-- What is encoded first leaves the rest without symbols. -/
theorem Awaits.rest {xs ys : List Expr} (h : d.Awaits (xs ++ ys)) (hg : Grows L d d')
    (hL : L.nodes ⊆ xs) : d'.Awaits ys where
  distinct := ((List.sublist_append_right xs ys).map Expr.id).nodup h.distinct
  unknown x hx := by
    cases hk : d'.known.lookup x.id with
    | none => rfl
    | some sort =>
      rcases hg.names hk with hk | ⟨y, hy, hid, -⟩
      · rw [h.unknown x (List.mem_append_right xs hx)] at hk
        cases hk
      · have hd := h.distinct
        rw [List.map_append, List.nodup_append] at hd
        exact absurd hid (hd.2.2 _ (List.mem_map_of_mem (hL hy)) _ (List.mem_map_of_mem hx))

theorem Awaits.below {e : Expr} {xs : List Expr} (h : d.Awaits (e :: xs)) : d.Awaits xs where
  distinct := (List.nodup_cons.1 h.distinct).2
  unknown x hx := h.unknown x (List.mem_cons_of_mem e hx)

/-- The node above is encoded last. -/
theorem Awaits.above {e : Expr} {xs : List Expr} (h : d.Awaits (e :: xs)) :
    d.Awaits (xs ++ [e]) where
  distinct := by
    have hp : (xs ++ [e]).Perm (e :: xs) := List.perm_append_singleton e xs
    exact (hp.map Expr.id).nodup_iff.2 h.distinct
  unknown x hx := h.unknown x (by simpa [or_comm] using hx)

theorem Awaits.id_ne {e : Expr} {xs : List Expr} (h : d.Awaits (e :: xs)) {x : Expr} (hx : x ∈ xs) :
    e.id ≠ x.id := by
  intro hid
  have hn := (List.nodup_cons.1 h.distinct).1
  exact hn (hid ▸ List.mem_map_of_mem hx)

end Ready

/-- A draft that is ready for some expressions which come next. -/
structure Stage (Γ : Nat → Option Domain) (scope next : List Expr) (d : Draft) : Prop where
  ready : d.Ready Γ scope
  scope : next ⊆ scope
  awaits : d.Awaits next

namespace Stage

variable {Γ : Nat → Option Domain} {scope xs ys : List Expr} {L : Licence} {d d' : Draft}

theorem left (h : Stage Γ scope (xs ++ ys) d) : Stage Γ scope xs d where
  ready := h.ready
  scope := (List.append_subset.1 h.scope).1
  awaits := h.awaits.left

theorem next (h : Stage Γ scope (xs ++ ys) d) (hg : Grows L d d') (hL : L.nodes ⊆ xs) :
    Stage Γ scope ys d' where
  ready := h.ready.grows hg (List.Subset.trans hL (List.append_subset.1 h.scope).1)
  scope := (List.append_subset.1 h.scope).2
  awaits := h.awaits.rest hg hL

theorem right (h : Stage Γ scope (xs ++ ys) d) : Stage Γ scope ys d :=
  h.next (.refl (L := ⟨[], fun _ => False, False⟩) d) (List.nil_subset xs)

theorem swap (h : Stage Γ scope (xs ++ ys) d) : Stage Γ scope (ys ++ xs) d where
  ready := h.ready
  scope := List.append_subset.2 (List.append_subset.1 h.scope).symm
  awaits :=
    { distinct := ((List.perm_append_comm.map Expr.id).nodup_iff).2 h.awaits.distinct
      unknown := fun x hx => h.awaits.unknown x (List.perm_append_comm.mem_iff.1 hx) }

theorem still (h : Stage Γ scope xs d) (hg : Grows L d d') (hL : L.nodes ⊆ []) :
    Stage Γ scope xs d' :=
  have h' : Stage Γ scope ([] ++ xs) d := h
  h'.next hg hL

theorem pushed (h : Stage Γ scope xs d) {t : Term} (ht : d.Covers t) (hs : t.HasSort .bool) :
    Stage Γ scope xs (d.pushed t) :=
  { h with ready := h.ready.pushed ht hs, awaits := ⟨h.awaits.distinct, h.awaits.unknown⟩ }

end Stage

/-- What encoding some expressions may add. -/
def licence (nodes : List Expr) (writes : Nat → Prop) (settings : Settings) : Licence where
  nodes := nodes
  writes := writes
  asserts := (∃ x ∈ nodes, x.isAssertion) ∨ settings.guardsDivision = true

theorem licence_within {nodes nodes' : List Expr} {writes writes' : Nat → Prop}
    (hn : nodes ⊆ nodes') (hw : ∀ id, writes id → writes' id) (settings : Settings) :
    (licence nodes writes settings).Within (licence nodes' writes' settings) where
  nodes := hn
  writes := hw
  asserts := Or.imp_left fun ⟨x, hx, ha⟩ => ⟨x, hn hx, ha⟩

/-- What is added one after the other is licensed together. -/
theorem Grows.both {d d₁ d₂ : Draft} {xs ys : List Expr} {w₁ w₂ w : Nat → Prop}
    (h₁ : Grows (licence xs w₁ d.settings) d d₁) (h₂ : Grows (licence ys w₂ d₁.settings) d₁ d₂)
    (hw₁ : ∀ id, w₁ id → w id) (hw₂ : ∀ id, w₂ id → w id) :
    Grows (licence (xs ++ ys) w d.settings) d d₂ := by
  rw [h₁.later.settings] at h₂
  exact (h₁.mono (licence_within (List.subset_append_left xs ys) hw₁ _)).trans
    (h₂.mono (licence_within (List.subset_append_right xs ys) hw₂ _))

end Draft

end PathFormula
