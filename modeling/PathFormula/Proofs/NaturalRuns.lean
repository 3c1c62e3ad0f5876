import PathFormula.Proofs.Correctness
import PathFormula.Proofs.Naturals

/-!
# Runs without numbers below zero

The unsigned variables stay free of numbers below zero through every statement of a body, where its
expressions bring none in (`natural_runs`): a join has the values of the side that was taken, and a
loop forgets what it writes within the range of its type. Only the slot of a value that is returned
inside a loop is not forgotten. So they have none at any visit whose path is taken
(`natural_reaches`).
-/
namespace PathFormula

open Source

/-! ### Runs -/

/-- What a piece gives to an unsigned variable is of an unsigned type. -/
def Piece.SignsAgree (Γ : Nat → Option Domain) (returns : List Declaration) : Piece → Prop
  | .expression e => ∀ x, e.Visits x → x.SignsAgree Γ
  | .statement (.declare _ [declaration] (some e)) =>
      ∀ domain ∈ Γ declaration.id, domain.ty.isNatural → e.ty.isNatural
  | .statement (.ret _ (some e)) =>
      ∀ slot, returns = [slot] → ∀ domain ∈ Γ slot.id, domain.ty.isNatural → e.ty.isNatural
  | _ => True

namespace Visit

open Draft

section

variable (Γ : Nat → Option Domain) (D : Draft) (m : Model) (returns : List Declaration)

/-- Up to some draft, nothing that is visited where the path is taken brings a number below zero
into an unsigned type: no node does, and no return slot is left below zero by a loop that gives it
a value and does not forget it. -/
structure Harmless (whole : Visit) (last : Draft) : Prop where
  nodes : ∀ e b, Reaches returns whole ⟨.expression e, b⟩ → Later b last → b.Open m →
    ∀ x, e.Visits x → ¬ x.Underflows Γ D m
  slots : ∀ location written condition step body b exits b',
    Reaches returns whole ⟨.turn location written condition step body, b⟩ →
      Visit.Runs returns ⟨.turn location written condition step body, b⟩ exits b' →
        Later b' last → b.Open m → ∀ id domain x, (Piece.statement body).GivesBack returns id →
          id ∉ written → Γ id = some domain → domain.ty.isNatural = true →
            b'.store m id = some x → 0 ≤ x.number

/-- Besides, unsigned types are kept apart from the others in what is visited. -/
structure Tame (whole : Visit) (last : Draft) : Prop extends Harmless Γ D m returns whole last where
  signs : ∀ q, whole.piece.Contains q → q.SignsAgree Γ returns

end

variable {Γ : Nat → Option Domain} {D d d₁ d' last last' : Draft} {m : Model}
  {returns : List Declaration} {role : Role} {v w : Visit} {e : Expr} {exits : List Term}

theorem Tame.part (h : Tame Γ D m returns v last) (hp : Part returns role v w)
    (hl : Later last' last) : Tame Γ D m returns w last' where
  nodes e b hr hb := h.nodes e b (.head ⟨role, hp⟩ hr) (hb.trans hl)
  slots location written condition step body b exits b' hr hrun hb :=
    h.slots location written condition step body b exits b' (.head ⟨role, hp⟩ hr) hrun (hb.trans hl)
  signs q hq := h.signs q (.head ⟨role, hp.mem_parts⟩ hq)

theorem Tame.reaches (h : Tame Γ D m returns v last) (hr : Reaches returns v w) :
    Tame Γ D m returns w last := by
  induction hr with
  | refl => exact h
  | tail _ hp ih =>
    obtain ⟨role, hp⟩ := hp
    exact ih.part hp (.refl last)

theorem Tame.harmless (h : Tame Γ D m returns ⟨.expression e, d⟩ last) (hl : Later d last)
    (ho : d.Open m) {x : Expr} (hx : e.Visits x) : x.Harmless Γ D m :=
  ⟨h.signs _ .refl x hx, h.nodes e d .refl hl ho x hx⟩

/-- The expression of a visit is encoded without bringing in a number below zero. -/
theorem Tame.natural_encode (h : Tame Γ D m returns ⟨.expression e, d⟩ last) (hR : Reading Γ D m)
    (hl : Later d' D) (hb : Later d last) (ho : d.Open m) (hn : Store.Natural Γ (d.store m))
    (hy : Yields e.encode d () d') : StaysNatural Γ D m e d' :=
  Draft.natural_encode hR e hy hl ho (fun _ => h.harmless hb ho) hn

/-- A piece leaves no unsigned variable below zero, where none was and where its path is taken. -/
def KeepsNatural (Γ : Nat → Option Domain) (D : Draft) (m : Model) (returns : List Declaration)
    (p : Piece) : Prop :=
  ∀ ⦃d : Draft⦄ ⦃exits : List Term⦄ ⦃d' : Draft⦄, Visit.Runs returns ⟨p, d⟩ exits d' →
    Later d' D → d.Open m → Tame Γ D m returns ⟨p, d⟩ d' → Store.Natural Γ (d.store m) →
      Store.Natural Γ (d'.store m)

section Statements

variable {location : Location} {t : Term} {id : Nat}

theorem store_valueOf (h : Yields (valueOf e) d t d') (m : Model) : d'.store m = d.store m := by
  have hemits : Emits (fun _ => False) [] d d' := emits_valueOf h
  exact hemits.store m

theorem natural_assignFrom (hR : Reading Γ D m) (hl : Later d' D) (ho : d.Open m)
    (hn : Store.Natural Γ (d.store m))
    (hv : ∀ domain, Γ id = some domain → domain.ty.isNatural = true → 0 ≤ D.number m e)
    (h : Yields (assignFrom id e location) d () d') : Store.Natural Γ (d'.store m) := by
  obtain ⟨t, d₁, hval, ha⟩ := yields_bind.1 h
  have hnum := number_valueOf (m := m) hval ((later_assign ha).trans hl)
  exact natural_assign hR hl ((continues_valueOf hval).open_iff.2 ho) (store_valueOf hval m ▸ hn)
    (fun domain hd hnat => hnum ▸ hv domain hd hnat) ha

theorem natural_of_admits {domain : Domain} {x : Value} (hnat : domain.ty.isNatural = true)
    (hx : domain.admits x) : 0 ≤ x.number := by
  cases domain with
  | bool => cases hnat
  | integer ty =>
    have hmin : ty.min = 0 :=
      IntegerType.min_of_unsigned (by simpa [Domain.ty, Ty.isNatural] using hnat)
    cases x with
    | bool b => cases hx
    | int n =>
      simp only [Domain.admits, hmin, Bool.and_eq_true, decide_eq_true_eq] at hx
      exact hx.1

/-- What is forgotten is in the range of its type. -/
theorem natural_forgetAll {written : List Nat} (hR : Reading Γ D m) (hl : Later d' D)
    (ho : d.Open m)
    (hn : ∀ id domain x, id ∉ written → Γ id = some domain → domain.ty.isNatural = true →
      d.store m id = some x → 0 ≤ x.number)
    (h : Yields (forgetAll written location) d () d') : Store.Natural Γ (d'.store m) := by
  intro id domain x hd hnat hx
  by_cases hid : id ∈ written
  · obtain ⟨v, hv, rfl⟩ := hR.exists_registered? ((continues_forgetAll h).later.trans hl) hd
    obtain ⟨w, n, new, hw, hw', hc, hmem⟩ := renews_forgetAll hid hv h
    obtain rfl := Option.some.inj (hv.symm.trans hw)
    rw [store_eq_some hw' m] at hx
    obtain rfl := Option.some.inj hx
    have hdomain : (v.later (n + 1)).domain.ty.isNatural = true := hnat
    have hkept : ⟨d.pathCondition, (v.later (n + 1)).rangeFact, location⟩ ∈ D.constraints :=
      hl.constraints.subset (hc ▸ List.mem_append_right _ hmem)
    exact natural_of_admits hdomain (holds_rangeFact.1 (hR.holds _ hkept ho))
  · have hmoves : MovesOnly (· ∈ written) d d' := movesOnly_forgetAll (fun _ h => h) h
    rw [store_eq, hmoves.unmoved id hid, ← store_eq] at hx
    exact hn id domain x hid hd hnat hx

theorem keepsNatural_declare {declarations : List Declaration} {initial : Option Expr}
    (hR : Reading Γ D m) :
    KeepsNatural Γ D m returns (.statement (.declare location declarations initial)) := by
  intro d exits d' h hl ho ht hn
  obtain ⟨-, h⟩ := Stmt.yields_declare.1 h
  by_cases hm : ∃ declaration, declarations = [declaration]
  · obtain ⟨declaration, rfl⟩ := hm
    cases initial with
    | none =>
      obtain ⟨-, rfl⟩ | ⟨v, -, ha⟩ := Stmt.yields_declare_none.1 h
      · exact hn
      · refine natural_assign hR hl ho hn (fun domain _ _ => ?_) ha
        rw [Term.value_zero]
        cases v.sort <;> exact le_refl 0
    | some e =>
      obtain ⟨d₁, he, ⟨-, rfl⟩ | ⟨-, ha⟩⟩ := Stmt.yields_declare_some.1 h
      · exact ((ht.part .initial (.refl d')).natural_encode hR hl (continues_encode he).later ho hn
          he).1
      · have hc := continues_assignFrom ha
        obtain ⟨hn₁, hv⟩ := (ht.part .initial (.refl d')).natural_encode hR (hc.later.trans hl)
          ((continues_encode he).later.trans hc.later) ho hn he
        exact natural_assignFrom hR hl ((continues_encode he).open_iff.2 ho) hn₁
          (fun domain hd hnat => hv (ht.signs _ .refl domain hd hnat)) ha
  · obtain ⟨d₁, he, hf⟩ := (Stmt.yields_declare_many fun x hx => hm ⟨x, hx⟩).1 h
    have hc : Continues d₁ d' := .trans ⟨.warned, rfl⟩ (continues_forgetAll hf)
    have hn₁ : Store.Natural Γ (d₁.store m) := by
      cases initial with
      | none =>
        obtain ⟨-, rfl⟩ := yields_pure.1 he
        exact hn
      | some e =>
        exact ((ht.part .initial (.refl d')).natural_encode hR (hc.later.trans hl)
          ((continues_encode he).later.trans hc.later) ho hn he).1
    have ho₁ : (d₁.warned location .manyDeclarations).Open m :=
      (Stmt.continues_encodeOptional he).open_iff.2 ho
    exact natural_forgetAll hR hl ho₁ (fun id domain x _ => hn₁ id domain x) hf

theorem keepsNatural_ret {value : Option Expr} (hR : Reading Γ D m) :
    KeepsNatural Γ D m returns (.statement (.ret location value)) := by
  intro d exits d' h hl ho ht hn
  cases value with
  | none =>
    obtain ⟨-, rfl⟩ := Stmt.yields_ret_none.1 h
    exact hn
  | some e =>
    obtain ⟨d₁, he, hg, -⟩ := Stmt.yields_ret_some.1 h
    have hc := Stmt.continues_giveBack hg
    have hl₁ : Later d₁ D := hc.later.trans hl
    have hdd : Later d d' := (continues_encode he).later.trans hc.later
    obtain ⟨hn₁, hv⟩ := (ht.part .value (.refl d')).natural_encode hR hl₁ hdd ho hn he
    by_cases hm : ∃ slot, returns = [slot]
    · obtain ⟨slot, rfl⟩ := hm
      obtain ⟨-, rfl⟩ | ⟨-, ha⟩ := Stmt.yields_giveBack_one.1 hg
      · exact hn₁
      · exact natural_assignFrom hR hl ((continues_encode he).open_iff.2 ho) hn₁
          (fun domain hd hnat => hv (ht.signs _ .refl slot rfl domain hd hnat)) ha
    · obtain rfl := (Stmt.yields_giveBack_many fun x hx => hm ⟨x, hx⟩).1 hg
      exact hn₁

theorem keepsNatural_expression (hR : Reading Γ D m) :
    KeepsNatural Γ D m returns (.expression e) := by
  rintro d exits d' ⟨-, he⟩ hl ho ht hn
  exact (ht.natural_encode hR hl (continues_encode he).later ho hn he).1

/-- A condition that was read has the same symbol when its path is opened. -/
theorem pushed_of_valueOf {sign : Bool} {d₂ : Draft} (hg : Yields (valueOf e) d t d₁)
    (hl : Later d₁ d₂) (hp : Yields (pushPath e sign) d₂ () d') :
    d' = d₂.pushed (if sign then t else .not t) := by
  obtain ⟨sort, hk, rfl⟩ := Option.map_eq_some_iff.1 (hl.expression? (expression?_valueOf hg))
  exact (yields_pushPath_known hk).1 hp

section Branch

variable {condition : Expr} {yes : Stmt} {no : Option Stmt} {guard : Term} {d₂ d₃ d₄ : Draft}

theorem natural_condition (hR : Reading Γ D m) (hc : Yields condition.encode d () d₁)
    (hg : Yields (valueOf condition) d₁ guard d₂) (hl : Later d₂ D) (hlast : Later d₂ last)
    (ho : d.Open m)
    (ht : Tame Γ D m returns ⟨.statement (.branch location condition yes no), d⟩ last)
    (hn : Store.Natural Γ (d.store m)) : Store.Natural Γ (d₂.store m) := by
  have hvalue := (continues_valueOf hg).later
  have hn₁ := (ht.part .condition hlast).natural_encode hR (hvalue.trans hl)
    ((continues_encode hc).later.trans hvalue) ho hn hc
  exact store_valueOf hg m ▸ hn₁.1

/-- Before the second side the variables have their values from before the first one. -/
theorem store_no (hR : Reading Γ D m) (hg : Yields (valueOf condition) d₁ guard d₂)
    (hl₂ : Later d₂ d₃) (hq : Yields (pushPath condition false) d₃ () d₄)
    (hr : Yields (restore d₂.versions d₃.versions location) d₄ () d') (hl : Later d' D)
    (ho : d₄.Open m) : d'.store m = d₂.store m := by
  obtain rfl := pushed_of_valueOf hg hl₂ hq
  have hback := later_assignAll (yields_restore.1 hr)
  have hlater : Later d₂ D := hl₂.trans (Later.pushed.trans (hback.trans hl))
  exact store_restore (hl₂.trans .pushed) (hR.nodup hlater) hr (hl.holdsIn hR.holds) ho

theorem keepsNatural_branch (hR : Reading Γ D m)
    (hk : ∀ role q, (role, q) ∈ (Stmt.branch location condition yes no).parts →
      KeepsNatural Γ D m returns q) :
    KeepsNatural Γ D m returns (.statement (.branch location condition yes no)) := by
  intro d exits d' h hl ho ht hn
  obtain ⟨d₁, guard, d₂, d₃, yesExits, d₄, noExits, d₅, hc, hg, hp, hys, -, hns, hj, -⟩ :=
    Stmt.yields_branch.1 h
  obtain rfl := pushed_of_valueOf hg (.refl d₂) hp
  have hbody := Stmt.continues_encode returns yes hys
  have hyes : Continues d₂ d₄.popped := continues_branch hp hbody
  have hjoin : Later d₅ d' := later_assignAll (yields_mergeVersions.1 hj)
  have helse : Later d₄.popped d₅ := later_encodeElse hns
  have hl₄ : Later d₄.popped d' := helse.trans hjoin
  have hl₂ : Later d₂ d' := hyes.later.trans hl₄
  have hn₂ := natural_condition hR hc hg (hl₂.trans hl) hl₂ ho ht hn
  have ho₂ : d₂.Open m := ((continues_encode hc).trans (continues_valueOf hg)).open_iff.2 ho
  have hn₄ : guard.Holds m → Store.Natural Γ (d₄.store m) := fun hguard =>
    hk .inner _ (.tail _ (.head _)) hys (Later.withPath.trans (hl₄.trans hl))
      (open_pushed.2 ⟨ho₂, hguard⟩) (ht.part (.yes hc hg hp) (Later.withPath.trans hl₄)) hn₂
  have hdistinct : (d₂.registry.map (·.id)).Nodup :=
    hR.nodup (hl₂.trans hl)
  -- after the join the variables have their values from the end of the side that was taken
  cases no with
  | none =>
    obtain ⟨-, rfl⟩ := yields_pure.1 hns
    obtain ⟨htaken, hskipped⟩ := store_merge_optional hdistinct hyes.later (.inl rfl) hj
      (hl.holdsIn hR.holds) (hyes.open_iff.2 ho₂)
    by_cases hguard : guard.Holds m
    · rw [htaken hguard]
      exact hn₄ hguard
    · rw [hskipped hguard]
      exact hn₂
  | some no =>
    obtain ⟨e₁, e₂, e₃, hq, hr, hs, -, rfl⟩ := Stmt.yields_encodeElse.1 hns
    obtain rfl := pushed_of_valueOf hg hyes.later hq
    have hback := continues_assignAll (yields_restore.1 hr)
    have hno := Stmt.continues_encode returns no hs
    obtain ⟨htaken, hother⟩ := store_merge_both hdistinct hyes.later hr
      (hno.later.trans .withPath) hj (hl.holdsIn hR.holds)
      ((continues_branch hq (hback.trans hno)).open_iff.2 (hyes.open_iff.2 ho₂))
    by_cases hguard : guard.Holds m
    · rw [htaken hguard]
      exact hn₄ hguard
    · rw [hother hguard]
      have hopen : (d₄.popped.pushed (.not guard)).Open m :=
        open_pushed.2 ⟨hyes.open_iff.2 ho₂, Term.holds_not.2 hguard⟩
      have hl₃ : Later e₃ D := Later.withPath.trans (hjoin.trans hl)
      have hstore := store_no hR hg hyes.later hq hr (hno.later.trans hl₃) hopen
      have hn₃ : Store.Natural Γ (e₃.store m) :=
        hk .inner _ (.tail _ (.tail _ (.head _))) hs hl₃ (hback.open_iff.2 hopen)
          (ht.part (.no hc hg hp hys hq hr) (Later.withPath.trans hjoin)) (hstore ▸ hn₂)
      exact hn₃

end Branch

theorem keepsNatural_sequence {body : List Stmt} (hR : Reading Γ D m)
    (hk : ∀ role q, (role, q) ∈ (Piece.sequence body).parts → KeepsNatural Γ D m returns q) :
    KeepsNatural Γ D m returns (.sequence body) := by
  intro d exits d' h hl ho ht hn
  cases body with
  | nil =>
    obtain ⟨-, rfl⟩ := Stmt.yields_encodeAll_nil.1 h
    exact hn
  | cons s rest =>
    obtain ⟨first, d₁, hs, hrest⟩ := Stmt.yields_encodeAll_cons.1 h
    have ho₁ : d₁.Open m := (Stmt.continues_encode returns s hs).open_iff.2 ho
    have hfirst : Later d₁ d' → Store.Natural Γ (d₁.store m) := fun hl₁ =>
      hk .first _ (.head _) hs (hl₁.trans hl) ho (ht.part .first hl₁) hn
    obtain ⟨hnone, hr⟩ | ⟨taken, later, d₂, htaken, hr, -, hj, -⟩ := hrest
    · obtain rfl := eq_nil_of_disjunction hnone
      exact hk .rest _ (.tail _ (.head _)) hr hl ho₁ (ht.part (.rest hs) (.refl d'))
        (hfirst (Stmt.continues_encodeAll returns rest hr).later)
    · have hgated := (Stmt.continues_encodeAll returns rest hr).popped
      have hjoin : Later d₂.popped d' := later_assignAll (yields_mergeVersions.1 hj)
      have hn₁ := hfirst (hgated.later.trans hjoin)
      obtain ⟨hrun, hskip⟩ := store_merge_optional (hR.nodup (hgated.later.trans (hjoin.trans hl)))
        hgated.later (.inr rfl) hj (hl.holdsIn hR.holds) (hgated.open_iff.2 ho₁)
      by_cases hreturned : (Term.not taken).Holds m
      · rw [hrun hreturned]
        have hn₂ : Store.Natural Γ (d₂.store m) :=
          hk .rest _ (.tail _ (.head _)) hr (Later.withPath.trans (hjoin.trans hl))
            (open_pushed.2 ⟨ho₁, hreturned⟩)
            (ht.part (.gated hs htaken) (Later.withPath.trans hjoin)) hn₁
        exact hn₂
      · rw [hskip hreturned]
        exact hn₁

section Loop

variable {written : List Nat} {condition step : Option Expr} {body : Stmt}

/-- After a turn only a return slot that is not forgotten can have a value of its body. -/
theorem keepsNatural_turn (hR : Reading Γ D m)
    (hw : (Piece.turn location written condition step body).Collects) :
    KeepsNatural Γ D m returns (.turn location written condition step body) := by
  intro d exits d' h hl ho ht hn
  obtain ⟨b, e, hf, hi, hf'⟩ := Stmt.encodesTurn_iff.1 h
  have hinside := continues_encodeInside hi
  have hend := continues_forgetAll hf'
  have hlb : Later b D := hinside.later.trans (hend.later.trans hl)
  have ho' : (d.warned location .loop).Open m := ho
  have hb : Store.Natural Γ (b.store m) :=
    natural_forgetAll hR hlb ho' (fun id domain x _ => hn id domain x) hf
  have hoe : e.Open m := hinside.open_iff.2 ((continues_forgetAll hf).open_iff.2 ho')
  -- what is not forgotten was not moved, unless it is the slot of a value that is returned
  refine natural_forgetAll hR hl hoe (fun id domain x hid hd hnat hx => ?_) hf'
  by_cases hg : (Piece.statement body).GivesBack returns id
  · have hmoves : MovesOnly (· ∈ written) e d' := movesOnly_forgetAll (fun _ h => h) hf'
    refine ht.slots _ _ _ _ _ _ _ _ .refl h (.refl d') ho id domain x hg hid hd hnat ?_
    rw [store_eq, hmoves.unmoved id hid, ← store_eq, hx]
  · rw [store_eq, registered?_encodeInside hw (hR.nodup hlb) hi hid hg, ← store_eq] at hx
    exact hb id domain x hd hnat hx

theorem natural_start {first : Option Stmt}
    (hk : ∀ s ∈ first, KeepsNatural Γ D m returns (.statement s))
    (hs : Yields (Stmt.start returns first) d exits d₁) (hl : Later d₁ D) (hlast : Later d₁ last)
    (ho : d.Open m)
    (ht : Tame Γ D m returns ⟨.statement (.forLoop location first condition step body), d⟩ last)
    (hn : Store.Natural Γ (d.store m)) : Store.Natural Γ (d₁.store m) := by
  cases first with
  | none =>
    obtain ⟨-, rfl⟩ := yields_pure.1 hs
    exact hn
  | some first => exact hk first rfl hs hl ho (ht.part .start hlast) hn

end Loop

end Statements

/-- Where no piece brings a number below zero in, none is in the unsigned variables after it. -/
theorem natural_runs (hR : Reading Γ D m) (p : Piece) :
    p.Collects → KeepsNatural Γ D m returns p := by
  induction p using Piece.parts_induction with
  | step p ih =>
    intro hcollects
    have hparts : ∀ role q, (role, q) ∈ p.parts → KeepsNatural Γ D m returns q :=
      fun role q hq => ih role q hq (.of_part hq)
    cases p with
    | sequence body => exact keepsNatural_sequence hR hparts
    | turn => exact keepsNatural_turn hR hcollects
    | expression e => exact keepsNatural_expression hR
    | statement s =>
      cases s with
      | declare => exact keepsNatural_declare hR
      | branch => exact keepsNatural_branch hR hparts
      | ret => exact keepsNatural_ret hR
      | block =>
        intro d exits d' h hl ho ht hn
        exact hparts .inner _ (.head _) h hl ho (ht.part .block (.refl d')) hn
      | expression =>
        intro d exits d' h hl ho ht hn
        exact hparts .inner _ (.head _) ⟨rfl, (Stmt.yields_expression.1 h).2⟩ hl ho
          (ht.part .expression (.refl d')) hn
      | whileLoop location condition body isBodyFirst =>
        intro d exits d' h hl ho ht hn
        cases isBodyFirst
        · exact hparts .turn _ (.head _) (Stmt.yields_whileLoop_testFirst.1 h) hl ho
            (ht.part .testFirst (.refl d')) hn
        · exact hparts .turn _ (.head _) (Stmt.yields_whileLoop_bodyFirst.1 h) hl ho
            (ht.part .bodyFirst (.refl d')) hn
      | forLoop location first condition step body =>
        intro d exits d' h hl ho ht hn
        obtain ⟨startExits, d₀, bodyExits, hs, hturn, -⟩ := Stmt.yields_forLoop.1 h
        have hl₀ : Later d₀ d' :=
          (Stmt.continues_turn (Stmt.continues_encode returns body) hturn).later
        have hstart := Stmt.continues_start (fun s _ => Stmt.continues_encode returns s) hs
        have hfirst : ∀ s ∈ first, (Role.start, Piece.statement s) ∈
            (Piece.statement (.forLoop location first condition step body)).parts := by
          rintro s rfl
          exact .head _
        have hn₀ := natural_start (fun s hs => hparts .start _ (hfirst s hs)) hs (hl₀.trans hl) hl₀
          ho ht hn
        exact hparts .turn (.turn location _ condition step body)
          (by simp [Piece.parts, Stmt.parts]) hturn hl (hstart.open_iff.2 ho)
          (ht.part (.turn hs) (.refl d')) hn₀

theorem natural_statement (hR : Reading Γ D m) (s : Stmt) :
    KeepsNatural Γ D m returns (.statement s) :=
  natural_runs hR _ trivial

/-! ### Visits -/

section Visits

variable {location : Location} {written : List Nat} {condition step : Option Expr} {body : Stmt}

/-- The variables when the body of a loop is entered. -/
theorem natural_enter (hR : Reading Γ D m) {b : Draft}
    (hf : Yields (forgetAll written location) (d.warned location .loop) () b)
    (he : Yields (Stmt.enter condition) b () d') (hl : Later d' D) (hlast : Later d' last)
    (ho : d.Open m)
    (ht : Tame Γ D m returns ⟨.turn location written condition step body, d⟩ last)
    (hn : Store.Natural Γ (d.store m)) : Store.Natural Γ (d'.store m) := by
  have ho' : (d.warned location .loop).Open m := ho
  have hb : Store.Natural Γ (b.store m) :=
    natural_forgetAll hR ((later_enter he).trans hl) ho' (fun id domain x _ => hn id domain x) hf
  cases condition with
  | none =>
    obtain ⟨-, rfl⟩ := yields_pure.1 he
    exact hb
  | some condition =>
    obtain ⟨c, hc, hp⟩ := yields_seq.1 he
    obtain ⟨t, c', hv, rfl⟩ := yields_pushPath.1 hp
    have hlater : Later c (c'.pushed t) := (continues_valueOf hv).later.trans .pushed
    have hn₁ := (ht.part (.test hf) hlast).natural_encode hR (hlater.trans hl)
      ((continues_encode hc).later.trans hlater) ((continues_forgetAll hf).open_iff.2 ho') hb hc
    have hstore : (c'.pushed t).store m = c.store m := store_valueOf hv m
    exact hstore ▸ hn₁.1

/-- From a visit to those of its parts. -/
theorem natural_part (hp : Part returns role v w) (hR : Reading Γ D m)
    (hl : Later w.draft D) (hlast : Later w.draft last) (ho : v.draft.Open m)
    (how : w.draft.Open m) (ht : Tame Γ D m returns v last)
    (hn : Store.Natural Γ (v.draft.store m)) : Store.Natural Γ (w.draft.store m) := by
  cases hp with
  | first | block | initial | expression | condition | testFirst | bodyFirst | start | value =>
    exact hn
  | rest hs => exact natural_statement hR _ hs hl ho (ht.part .first hlast) hn
  | @gated s rest exits taken d d₁ hs htaken =>
    have hpush : Later d₁ (d₁.pushed (.not taken)) := .pushed
    have hn₁ : Store.Natural Γ (d₁.store m) :=
      natural_statement hR s hs (hpush.trans hl) ho (ht.part .first (hpush.trans hlast)) hn
    exact hn₁
  | @yes _ _ _ _ guard d d₁ d₂ d₃ hc hg hp =>
    have hpush := later_pushPath hp
    have hn₂ := natural_condition hR hc hg (hpush.trans hl) (hpush.trans hlast) ho ht hn
    obtain rfl := pushed_of_valueOf hg (.refl d₂) hp
    exact hn₂
  | no hc hg hp hy hq hr =>
    have hyes := continues_branch hp (Stmt.continues_encode returns _ hy)
    have hback := continues_assignAll (yields_restore.1 hr)
    have hafter := hyes.later.trans ((later_pushPath hq).trans hback.later)
    exact store_no hR hg hyes.later hq hr hl (hback.open_iff.1 how) ▸
      natural_condition hR hc hg (hafter.trans hl) (hafter.trans hlast) ho ht hn
  | turn hs =>
    exact natural_start (fun s _ => natural_statement hR s) hs hl hlast ho ht hn
  | @test location written condition step body d d₁ hf =>
    have ho' : (d.warned location .loop).Open m := ho
    exact natural_forgetAll hR hl ho' (fun id domain x _ => hn id domain x) hf
  | body hf he => exact natural_enter hR hf he hl hlast ho ht hn
  | step hf he hb =>
    have hlater := (Stmt.continues_encode returns _ hb).later
    have hn₂ := natural_enter hR hf he (hlater.trans hl) (hlater.trans hlast) ho ht hn
    exact natural_statement hR _ hb hl ((Stmt.continues_encode returns _ hb).open_iff.1 how)
      (ht.part (.body hf he) hlast) hn₂

/-- Where nothing that is visited before brings a number below zero in, none is in the unsigned
variables at a visit whose path is taken. -/
theorem natural_reaches (hr : Reaches returns v w) (hR : Reading Γ D m)
    (h : v.Runs returns exits d') (hl : Later w.draft D) (hlast : Later w.draft last)
    (ho : w.draft.Open m) (ht : Tame Γ D m returns v last)
    (hn : Store.Natural Γ (v.draft.store m)) : Store.Natural Γ (w.draft.store m) := by
  induction hr using Relation.ReflTransGen.head_induction_on generalizing exits d' with
  | refl => exact hn
  | @head a b hp hr ih =>
    obtain ⟨role, hp⟩ := hp
    obtain ⟨inner, c, hwithin⟩ := hp.runs h
    obtain ⟨_, _, hend⟩ := Reaches.runs hr hwithin.runs
    have hafter : Later b.draft w.draft := Reaches.later hr
    have hob : b.draft.Open m := hend.opens m ho
    refine ih hwithin.runs (ht.part hp (.refl last)) ?_
    exact natural_part hp hR (hafter.trans hl) (hafter.trans hlast) (hwithin.opens m hob) hob ht hn

end Visits

end Visit

end PathFormula
