import PathFormula.Proofs.Bodies
import PathFormula.Proofs.Demands

/-!
# Statements continue the path they are encoded under

A statement adds to a draft and puts back every path condition that it opens, whatever its
annotations are (`Stmt.continues_encode`). Expressions and single operations open none.
-/
namespace PathFormula

open Source

namespace Draft

variable {d d₁ d' : Draft} {u : Unit} {location : Location}

theorem continues_encode {e : Expr} (h : Yields e.encode d u d') : Continues d d' :=
  (e.emits_encode h).toContinues

theorem continues_valueOf {e : Expr} {t : Term} (h : Yields (valueOf e) d t d') :
    Continues d d' := by
  have he : Emits (fun _ => True) [] d d' := emits_valueOf h
  exact he.toContinues

theorem continues_assign {id : Nat} {t : Term} (h : Yields (assign id t location) d u d') :
    Continues d d' := by
  have he : Emits (fun _ => True) [] d d' := emits_assign trivial h
  exact he.toContinues

theorem continues_forget {id : Nat} (h : Yields (forget id location) d u d') :
    Continues d d' := by
  have he : Emits (fun _ => True) [] d d' := emits_forget trivial h
  exact he.toContinues

theorem continues_assignFrom {id : Nat} {e : Expr}
    (h : Yields (assignFrom id e location) d u d') : Continues d d' := by
  obtain ⟨t, d₁, hv, h⟩ := yields_bind.1 h
  exact (continues_valueOf hv).trans (continues_assign h)

theorem continues_assignAll {ts : List (Nat × Term)} (h : Yields (assignAll location ts) d u d') :
    Continues d d' := by
  induction ts generalizing d with
  | nil =>
    obtain rfl := yields_forM_nil.1 h
    exact .refl _
  | cons p rest ih =>
    obtain ⟨d₁, ha, h⟩ := yields_forM_cons.1 h
    exact (continues_assign ha).trans (ih h)

theorem continues_forgetAll {ids : List Nat} (h : Yields (forgetAll ids location) d u d') :
    Continues d d' := by
  induction ids generalizing d with
  | nil =>
    obtain rfl := yields_forM_nil.1 h
    exact .refl _
  | cons id rest ih =>
    obtain ⟨d₁, ⟨-, rfl⟩ | ⟨-, hf⟩, hr⟩ := yields_forgetAll_cons.1 h
    · exact ih hr
    · exact (continues_forget hf).trans (ih hr)

/-- A branch from opening to closing. -/
theorem continues_branch {e : Expr} {sign : Bool} (h₁ : Yields (pushPath e sign) d u d₁)
    (h₂ : Continues d₁ d') : Continues d d'.popped := by
  obtain ⟨t, e, hv, rfl⟩ := yields_pushPath.1 h₁
  exact (continues_valueOf hv).trans h₂.popped

end Draft

namespace Source.Stmt

open Draft

variable {returns : List Declaration} {location : Location} {d d₁ d' : Draft} {exits : List Term}

/-- A statement puts back the path conditions that it opens. -/
def Continues (returns : List Declaration) (s : Stmt) : Prop :=
  ∀ ⦃d : Draft⦄ ⦃exits : List Term⦄ ⦃d' : Draft⦄, Yields (s.encode returns) d exits d' →
    d.Continues d'

theorem continues_encodeOptional {e : Option Expr} (h : Yields (encodeOptional e) d () d') :
    d.Continues d' := by
  cases e with
  | none =>
    obtain ⟨-, rfl⟩ := yields_pure.1 h
    exact .refl _
  | some e => exact continues_encode h

theorem continues_declare {declarations : List Declaration} {initial : Option Expr}
    (h : Yields (Draft.declare location declarations initial) d () d') : d.Continues d' := by
  by_cases hm : ∃ declaration, declarations = [declaration]
  · obtain ⟨declaration, rfl⟩ := hm
    cases initial with
    | none =>
      obtain ⟨-, rfl⟩ | ⟨v, -, ha⟩ := yields_declare_none.1 h
      · exact .refl _
      · exact continues_assign ha
    | some e =>
      obtain ⟨d₁, he, ⟨-, rfl⟩ | ⟨-, ha⟩⟩ := yields_declare_some.1 h
      · exact continues_encode he
      · exact (continues_encode he).trans (continues_assignFrom ha)
  · obtain ⟨d₁, he, hf⟩ := (yields_declare_many fun x hx => hm ⟨x, hx⟩).1 h
    exact (continues_encodeOptional he).trans (.trans ⟨.warned, rfl⟩ (continues_forgetAll hf))

theorem continues_giveBack {e : Expr} (h : Yields (giveBack location returns e) d () d') :
    d.Continues d' := by
  by_cases hm : ∃ slot, returns = [slot]
  · obtain ⟨slot, rfl⟩ := hm
    obtain ⟨-, rfl⟩ | ⟨-, ha⟩ := yields_giveBack_one.1 h
    · exact .refl _
    · exact continues_assignFrom ha
  · obtain rfl := (yields_giveBack_many fun x hx => hm ⟨x, hx⟩).1 h
    exact ⟨.warned, rfl⟩

theorem continues_ret {value : Option Expr} : Continues returns (.ret location value) := by
  intro d exits d' h
  cases value with
  | none =>
    obtain ⟨-, rfl⟩ := yields_ret_none.1 h
    exact .refl _
  | some e =>
    obtain ⟨d₁, he, hg, -⟩ := yields_ret_some.1 h
    exact (continues_encode he).trans (continues_giveBack hg)

theorem continues_encodeElse {condition : Expr} {before afterYes : Versions} {no : Option Stmt}
    (hn : ∀ s ∈ no, s.Continues returns)
    (h : Yields (encodeElse returns location condition before afterYes no) d exits d') :
    d.Continues d' := by
  cases no with
  | none =>
    obtain ⟨-, rfl⟩ := yields_pure.1 h
    exact .refl _
  | some no =>
    obtain ⟨e₁, e₂, e₃, hp, hr, hno, -, rfl⟩ := yields_encodeElse.1 h
    exact Draft.continues_branch hp
      ((continues_assignAll (yields_restore.1 hr)).trans (hn no rfl hno))

theorem continues_branch {condition : Expr} {yes : Stmt} {no : Option Stmt}
    (hy : yes.Continues returns) (hn : ∀ s ∈ no, s.Continues returns) :
    Continues returns (.branch location condition yes no) := by
  intro d exits d' h
  obtain ⟨d₁, guard, d₂, d₃, yesExits, d₄, noExits, d₅, hc, hg, hp, hys, -, hno, hj, -⟩ :=
    yields_branch.1 h
  have hyes := (continues_encode hc).trans ((continues_valueOf hg).trans
    (Draft.continues_branch hp (hy hys)))
  exact hyes.trans ((continues_encodeElse hn hno).trans
    (continues_assignAll (yields_mergeVersions.1 hj)))

/-- The body of a loop from its condition to the end of a turn. -/
theorem continues_enter_leave {condition : Option Expr} {d₂ : Draft}
    (he : Yields (enter condition) d () d₁) (hb : d₁.Continues d₂)
    (hl : Yields (leave condition) d₂ () d') : d.Continues d' := by
  cases condition with
  | none =>
    obtain ⟨-, rfl⟩ := yields_pure.1 he
    obtain ⟨-, rfl⟩ := yields_pure.1 hl
    exact hb
  | some condition =>
    obtain ⟨d₃, hc, hp⟩ := yields_seq.1 he
    obtain ⟨-, rfl⟩ := yields_popPath.1 hl
    exact (continues_encode hc).trans (Draft.continues_branch hp hb)

theorem continues_turn {written : List Nat} {condition step : Option Expr} {body : Stmt}
    (hb : body.Continues returns)
    (h : EncodesTurn returns location written condition step body d exits d') :
    d.Continues d' := by
  obtain ⟨d₁, d₂, d₃, d₄, d₅, hf, he, hbody, hs, hl, hf'⟩ := h
  exact .trans ⟨.warned, rfl⟩ ((continues_forgetAll hf).trans
    ((continues_enter_leave he ((hb hbody).trans (continues_encodeOptional hs)) hl).trans
      (continues_forgetAll hf')))

theorem continues_start {first : Option Stmt} (hf : ∀ s ∈ first, s.Continues returns)
    (h : Yields (start returns first) d exits d') : d.Continues d' := by
  cases first with
  | none =>
    obtain ⟨-, rfl⟩ := yields_pure.1 h
    exact .refl _
  | some s => exact hf s rfl h

mutual

theorem continues_encode (returns : List Declaration) (s : Stmt) : s.Continues returns := by
  intro d exits d' h
  cases s with
  | block _ body => exact continues_encodeAll returns body h
  | declare _ declarations initial => exact continues_declare (yields_declare.1 h).2
  | expression _ e => exact Draft.continues_encode (yields_expression.1 h).2
  | branch _ condition yes no =>
    cases no with
    | none => exact continues_branch (continues_encode returns yes) (by simp) h
    | some no =>
      refine continues_branch (continues_encode returns yes) (fun s hs => ?_) h
      exact Option.some.inj hs ▸ continues_encode returns no
  | whileLoop _ condition body isBodyFirst =>
    cases isBodyFirst
    · exact continues_turn (continues_encode returns body) (yields_whileLoop_testFirst.1 h)
    · exact continues_turn (continues_encode returns body) (yields_whileLoop_bodyFirst.1 h)
  | forLoop _ first condition step body =>
    obtain ⟨startExits, d₀, bodyExits, hs, ht, -⟩ := yields_forLoop.1 h
    have hturn := continues_turn (continues_encode returns body) ht
    cases first with
    | none => exact (continues_start (by simp) hs).trans hturn
    | some first =>
      refine (continues_start (fun s hs => ?_) hs).trans hturn
      exact Option.some.inj hs ▸ continues_encode returns first
  | ret _ value => exact continues_ret h

theorem continues_encodeAll (returns : List Declaration) (body : List Stmt) {d : Draft}
    {exits : List Term} {d' : Draft} (h : Yields (encodeAll returns body) d exits d') :
    d.Continues d' := by
  cases body with
  | nil =>
    obtain ⟨-, rfl⟩ := yields_encodeAll_nil.1 h
    exact .refl _
  | cons s rest =>
    obtain ⟨first, d₁, hs, ⟨-, hr⟩ | ⟨taken, later, d₂, -, hr, -, hj, -⟩⟩ :=
      yields_encodeAll_cons.1 h
    · exact (continues_encode returns s hs).trans (continues_encodeAll returns rest hr)
    · have hrest := (continues_encodeAll returns rest hr).popped
      exact (continues_encode returns s hs).trans
        (hrest.trans (continues_assignAll (yields_mergeVersions.1 hj)))

end

end Source.Stmt

end PathFormula
