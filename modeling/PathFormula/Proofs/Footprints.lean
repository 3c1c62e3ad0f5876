import PathFormula.Proofs.Loops
import PathFormula.Proofs.Writes

/-!
# Footprints

Encoding a statement moves only variables that the statement writes, and the return slot if a value
is returned inside it (`Stmt.moves_encode`). The variables that are forgotten around a loop are
those that it writes. So a loop leaves every variable as it was before or with a fresh version in
the range of its type, except a return slot that its body gives a value to and nothing else in the
loop writes (`kept_or_renewed_iff`).
-/
namespace PathFormula

open Source

/-! ### Pieces of pieces -/

namespace Piece

section Induction

variable {P : Piece → Prop}

theorem induction_turn (step : ∀ p, (∀ role q, (role, q) ∈ p.parts → P q) → P p)
    {location : Location} {written : List Nat} {condition next : Option Expr} {body : Stmt}
    (hb : P (.statement body)) : P (.turn location written condition next body) := by
  refine step _ fun role q hq => ?_
  simp only [parts, List.mem_append, List.mem_map, List.mem_cons, Prod.mk.injEq] at hq
  obtain ⟨e, -, -, rfl⟩ | ⟨-, rfl⟩ | ⟨e, -, -, rfl⟩ := hq
  · exact step _ (by simp [parts])
  · exact hb
  · exact step _ (by simp [parts])

mutual

theorem induction_statement (step : ∀ p, (∀ role q, (role, q) ∈ p.parts → P q) → P p) (s : Stmt) :
    P (.statement s) := by
  have hexpression : ∀ e, P (.expression e) := fun e => step _ (by simp [parts])
  refine step _ fun role q hq => ?_
  cases s with
  | block _ body =>
    simp only [parts, Stmt.parts, List.mem_singleton, Prod.mk.injEq] at hq
    exact hq.2 ▸ induction_sequence step body
  | declare _ _ initial | ret _ initial =>
    simp only [parts, Stmt.parts, List.mem_map, Prod.mk.injEq] at hq
    obtain ⟨e, -, -, rfl⟩ := hq
    exact hexpression e
  | expression _ e =>
    simp only [parts, Stmt.parts, List.mem_singleton, Prod.mk.injEq] at hq
    exact hq.2 ▸ hexpression e
  | branch _ condition yes no =>
    cases no with
    | none =>
      simp only [parts, Stmt.parts, Option.toList_none, List.map_nil, List.mem_cons, Prod.mk.injEq,
        List.not_mem_nil, or_false] at hq
      obtain ⟨-, hq⟩ | ⟨-, hq⟩ := hq
      · exact hq ▸ hexpression condition
      · exact hq ▸ induction_statement step yes
    | some no =>
      simp only [parts, Stmt.parts, Option.toList_some, List.map_cons, List.map_nil, List.mem_cons,
        Prod.mk.injEq, List.not_mem_nil, or_false] at hq
      obtain ⟨-, hq⟩ | ⟨-, hq⟩ | ⟨-, hq⟩ := hq
      · exact hq ▸ hexpression condition
      · exact hq ▸ induction_statement step yes
      · exact hq ▸ induction_statement step no
  | whileLoop _ condition body isBodyFirst =>
    have hbody := induction_statement step body
    cases isBodyFirst <;>
      simp only [parts, Stmt.parts, Bool.false_eq_true, if_false, if_true, List.mem_singleton,
        Prod.mk.injEq] at hq <;>
      exact hq.2 ▸ induction_turn step hbody
  | forLoop _ start condition next body =>
    have hbody := induction_statement step body
    cases start with
    | none =>
      simp only [parts, Stmt.parts, Option.toList_none, List.map_nil, List.nil_append,
        List.mem_singleton, Prod.mk.injEq] at hq
      exact hq.2 ▸ induction_turn step hbody
    | some start =>
      simp only [parts, Stmt.parts, Option.toList_some, List.map_cons, List.map_nil,
        List.cons_append, List.nil_append, List.mem_cons, Prod.mk.injEq, List.not_mem_nil,
        or_false] at hq
      obtain ⟨-, hq⟩ | ⟨-, hq⟩ := hq
      · exact hq ▸ induction_statement step start
      · exact hq ▸ induction_turn step hbody

theorem induction_sequence (step : ∀ p, (∀ role q, (role, q) ∈ p.parts → P q) → P p)
    (body : List Stmt) : P (.sequence body) := by
  refine step _ fun role q hq => ?_
  cases body with
  | nil => cases hq
  | cons s rest =>
    simp only [parts, List.mem_cons, Prod.mk.injEq, List.not_mem_nil, or_false] at hq
    obtain ⟨-, hq⟩ | ⟨-, hq⟩ := hq
    · exact hq ▸ induction_statement step s
    · exact hq ▸ induction_sequence step rest

end

/-- Induction over the parts of pieces. -/
theorem parts_induction (step : ∀ p, (∀ role q, (role, q) ∈ p.parts → P q) → P p) (p : Piece) :
    P p := by
  cases p with
  | sequence body => exact induction_sequence step body
  | statement s => exact induction_statement step s
  | turn location written condition next body =>
    exact induction_turn step (induction_statement step body)
  | expression e => exact step _ (by simp [parts])

end Induction

/-- A turn forgets what is written in it. -/
def Collects : Piece → Prop
  | .turn _ written condition step body =>
      written = Draft.ordered (body.writes ++ Stmt.writesOfExpr condition
        ++ Stmt.writesOfExpr step)
  | _ => True

/-- A piece is somewhere inside another one. -/
def Contains : Piece → Piece → Prop := Relation.ReflTransGen fun p q => ∃ role, (role, q) ∈ p.parts

/-- A variable is the only return slot, and a value is returned inside the piece. -/
def GivesBack (returns : List Declaration) (p : Piece) (id : Nat) : Prop :=
  ∃ slot location value, returns = [slot] ∧ slot.id = id ∧
    p.Contains (.statement (.ret location (some value)))

def writes : Piece → List Nat
  | .sequence body => Stmt.writesOfAll body
  | .statement s => s.writes
  | .turn _ _ condition step body =>
      body.writes ++ Stmt.writesOfExpr condition ++ Stmt.writesOfExpr step
  | .expression e => e.writes

/-- What encoding a piece may write. -/
def Touches (returns : List Declaration) (p : Piece) (id : Nat) : Prop :=
  id ∈ p.writes ∨ p.GivesBack returns id

variable {returns : List Declaration} {p q : Piece} {role : Role} {id : Nat}

theorem Collects.of_part (hp : (role, q) ∈ p.parts) : q.Collects := by
  cases q with
  | turn location written condition step body =>
    cases p with
    | sequence rest => cases rest <;> simp [parts] at hp
    | turn _ _ condition' step' _ => cases condition' <;> cases step' <;> simp [parts] at hp
    | expression => cases hp
    | statement s =>
      cases s with
      | whileLoop _ _ _ isBodyFirst =>
        cases isBodyFirst <;> simp [parts, Stmt.parts] at hp <;>
          simp [Collects, Stmt.writesOfExpr, hp]
      | forLoop _ start => cases start <;> simp_all [parts, Stmt.parts, Collects]
      | branch _ _ _ no => cases no <;> simp [parts, Stmt.parts] at hp
      | declare _ _ value | ret _ value => cases value <;> simp [parts, Stmt.parts] at hp
      | _ => simp [parts, Stmt.parts] at hp
  | _ => trivial

theorem GivesBack.of_part (hp : (role, q) ∈ p.parts) (h : q.GivesBack returns id) :
    p.GivesBack returns id := by
  obtain ⟨slot, location, value, hr, hid, hc⟩ := h
  exact ⟨slot, location, value, hr, hid, .head ⟨role, hp⟩ hc⟩

theorem writes_subset_statement {s : Stmt} (hp : (role, q) ∈ s.parts) : q.writes ⊆ s.writes := by
  intro id hid
  cases s with
  | branch location condition yes no =>
    cases no <;> grind [Stmt.parts, writes, Stmt.writes, Stmt.writesOfOption]
  | whileLoop location condition body isBodyFirst =>
    cases isBodyFirst <;> cases List.mem_singleton.1 hp <;>
      grind [writes, Stmt.writes, Stmt.writesOfExpr]
  | forLoop location start condition step body =>
    cases start with
    | none =>
      cases List.mem_singleton.1 hp
      grind [writes, Stmt.writes]
    | some start =>
      obtain hp | hp := List.mem_cons.1 hp
      · cases hp
        grind [writes, Stmt.writes, Stmt.writesOfOption]
      · cases List.mem_singleton.1 hp
        grind [writes, Stmt.writes]
  | declare location declarations initial =>
    cases initial <;> grind [Stmt.parts, writes, Stmt.writes, Stmt.writesOfExpr]
  | ret location value =>
    cases value <;> grind [Stmt.parts, writes, Stmt.writes, Stmt.writesOfExpr]
  | _ => grind [Stmt.parts, writes, Stmt.writes]

theorem writes_subset (hp : (role, q) ∈ p.parts) : q.writes ⊆ p.writes := by
  cases p with
  | sequence body =>
    cases body with
    | nil => cases hp
    | cons s rest =>
      simp only [parts, List.mem_cons, Prod.mk.injEq, List.not_mem_nil, or_false] at hp
      obtain ⟨-, rfl⟩ | ⟨-, rfl⟩ := hp <;> simp [writes, Stmt.writesOfAll]
  | statement s => exact writes_subset_statement hp
  | turn location written condition step body =>
    intro id hid
    cases condition <;> cases step <;> grind [parts, writes, Stmt.writesOfExpr]
  | expression e => cases hp

theorem Touches.of_part (hp : (role, q) ∈ p.parts) (h : q.Touches returns id) :
    p.Touches returns id :=
  h.imp (writes_subset hp ·) (.of_part hp)

end Piece

/-! ### Drafts that differ in some variables -/

namespace Draft

variable {touched touched' : Nat → Prop} {d₀ d d₁ d' : Draft} {u : Unit} {id : Nat} {v : Registered}
  {location : Location}

/-- A later draft in which only some variables were written. -/
structure MovesOnly (touched : Nat → Prop) (d d' : Draft) : Prop extends Later d d' where
  unmoved : ∀ id, ¬ touched id → d'.registered? id = d.registered? id

namespace MovesOnly

theorem refl (d : Draft) : MovesOnly touched d d := ⟨.refl d, fun _ _ => rfl⟩

theorem trans (h₁ : MovesOnly touched d d₁) (h₂ : MovesOnly touched d₁ d') :
    MovesOnly touched d d' where
  toLater := h₁.toLater.trans h₂.toLater
  unmoved id hid := (h₂.unmoved id hid).trans (h₁.unmoved id hid)

theorem mono (h : MovesOnly touched d d') (hi : ∀ id, touched id → touched' id) :
    MovesOnly touched' d d' :=
  { h with unmoved := fun id hid => h.unmoved id (mt (hi id) hid) }

theorem of_registry (hl : Later d d') (hr : d'.registry = d.registry) : MovesOnly touched d d' where
  toLater := hl
  unmoved id _ := by
    unfold registered?
    rw [hr]

theorem warned {notice : Notice} : MovesOnly touched d (d.warned location notice) :=
  of_registry .warned rfl

theorem pushed {t : Term} : MovesOnly touched d (d.pushed t) := of_registry .pushed rfl

theorem popped : MovesOnly touched d d.popped := of_registry .withPath rfl

/-- A variable with another version is one of those that were written. -/
theorem of_version_ne (h : MovesOnly touched d d') (hv : d'.version? id ≠ d.version? id) :
    touched id := by
  by_contra hid
  refine hv ?_
  unfold version?
  rw [h.unmoved id hid]

end MovesOnly

theorem Later.nodup (h : Later d d') (hn : (d.registry.map (·.id)).Nodup) :
    (d'.registry.map (·.id)).Nodup :=
  h.ids.symm ▸ hn

theorem Emits.moves {ds : List Demand} (h : Emits touched ds d d') : MovesOnly touched d d' :=
  ⟨h.later, h.unwritten⟩

theorem movesOnly_valueOf {e : Expr} {t : Term} (h : Yields (valueOf e) d t d') :
    MovesOnly touched d d' :=
  have he : Emits touched [] d d' := emits_valueOf h
  he.moves

theorem movesOnly_pushPath {e : Expr} {sign : Bool} (h : Yields (pushPath e sign) d u d') :
    MovesOnly touched d d' := by
  obtain ⟨t, d₁, hv, rfl⟩ := yields_pushPath.1 h
  exact (movesOnly_valueOf hv).trans .pushed

theorem movesOnly_popPath (h : Yields popPath d u d') : MovesOnly touched d d' := by
  obtain ⟨-, rfl⟩ := yields_popPath.1 h
  exact .popped

theorem movesOnly_encode {e : Expr} (h : Yields e.encode d u d') : MovesOnly (· ∈ e.writes) d d' :=
  (e.emits_encode h).moves

theorem movesOnly_assign {t : Term} (hid : touched id) (h : Yields (assign id t location) d u d') :
    MovesOnly touched d d' :=
  (emits_assign hid h).moves

theorem movesOnly_assignFrom {e : Expr} (hid : touched id)
    (h : Yields (assignFrom id e location) d u d') : MovesOnly touched d d' := by
  obtain ⟨t, d₁, hv, h⟩ := yields_bind.1 h
  exact (movesOnly_valueOf hv).trans (movesOnly_assign hid h)

theorem movesOnly_forgetAll {written : List Nat} (hw : ∀ id ∈ written, touched id)
    (h : Yields (forgetAll written location) d u d') : MovesOnly touched d d' := by
  induction written generalizing d with
  | nil =>
    obtain rfl := yields_forM_nil.1 h
    exact .refl _
  | cons id rest ih =>
    simp only [List.mem_cons, forall_eq_or_imp] at hw
    obtain ⟨d₁, ⟨-, rfl⟩ | ⟨-, hf⟩, hr⟩ := yields_forgetAll_cons.1 h
    · exact ih hw.2 hr
    · exact (emits_forget hw.1 hf).moves.trans (ih hw.2 hr)

theorem movesOnly_assignAll {ts : List (Nat × Term)} (hw : ∀ p ∈ ts, touched p.1)
    (h : Yields (assignAll location ts) d u d') : MovesOnly touched d d' := by
  induction ts generalizing d with
  | nil =>
    obtain rfl := yields_forM_nil.1 h
    exact .refl _
  | cons p rest ih =>
    simp only [List.mem_cons, forall_eq_or_imp] at hw
    obtain ⟨d₁, ha, h⟩ := yields_forM_cons.1 h
    exact (movesOnly_assign hw.1 ha).trans (ih hw.2 h)

/-- Only what the first branch wrote is given its value from before again. -/
theorem version?_ne_of_mem_restored (hn : (d₀.registry.map (·.id)).Nodup) {p : Nat × Term}
    (hp : p ∈ d.restored d₀.versions d₁.versions) : d₁.version? p.1 ≠ d₀.version? p.1 := by
  obtain ⟨⟨id, k⟩, hk, he⟩ := List.mem_filterMap.1 hp
  obtain ⟨v, hv, rfl⟩ := (mem_versions hn).1 hk
  dsimp only at he
  split at he
  · cases he
  · rename_i hne
    obtain ⟨t, -, rfl⟩ := Option.map_eq_some_iff.1 he
    rwa [lookup_versions, show some v.version = d₀.version? id by rw [version?, hv]; rfl] at hne

theorem movesOnly_restore (hn : (d₀.registry.map (·.id)).Nodup) (hm : MovesOnly touched d₀ d₁)
    (h : Yields (restore d₀.versions d₁.versions location) d u d') : MovesOnly touched d d' :=
  movesOnly_assignAll (fun _ hp => hm.of_version_ne (version?_ne_of_mem_restored hn hp))
    (yields_restore.1 h)

/-- Only what one of the branches wrote is joined. -/
theorem version?_ne_of_mem_joined {guard : Term} {dy dn : Draft}
    (hn : (d₀.registry.map (·.id)).Nodup) {p : Nat × Term}
    (hp : p ∈ d.joined guard d₀.versions dy.versions dn.versions) :
    dy.version? p.1 ≠ d₀.version? p.1 ∨ dn.version? p.1 ≠ d₀.version? p.1 := by
  obtain ⟨⟨id, k⟩, hk, he⟩ := List.mem_filterMap.1 hp
  obtain ⟨v, hv, rfl⟩ := (mem_versions hn).1 hk
  have hv' : d₀.version? id = some v.version := by rw [version?, hv]; rfl
  dsimp only at he
  split at he
  · cases he
  · rename_i hne
    obtain ⟨w, -, rfl⟩ := Option.map_eq_some_iff.1 he
    rw [lookup_versions, lookup_versions] at hne
    by_contra hsame
    push Not at hsame
    exact hne (by simp [hsame.1, hsame.2, hv'])

theorem movesOnly_mergeVersions {guard : Term} {dy dn : Draft} (hn : (d₀.registry.map (·.id)).Nodup)
    (hy : MovesOnly touched d₀ dy) (hno : MovesOnly touched d₀ dn)
    (h : Yields (mergeVersions guard d₀.versions dy.versions dn.versions location) d u d') :
    MovesOnly touched d d' :=
  movesOnly_assignAll (fun _ hp => (version?_ne_of_mem_joined hn hp).elim hy.of_version_ne
    hno.of_version_ne) (yields_mergeVersions.1 h)

end Draft

/-! ### Statements -/

namespace Source.Stmt

open Draft

variable {returns : List Declaration} {location : Location} {d d₁ d' : Draft} {exits : List Term}
  {role : Role} {p q : Piece}

/-- Encoding a statement moves only what the statement touches. -/
def Moves (returns : List Declaration) (s : Stmt) : Prop :=
  ∀ ⦃d : Draft⦄ ⦃exits : List Term⦄ ⦃d' : Draft⦄, (d.registry.map (·.id)).Nodup →
    Yields (s.encode returns) d exits d' → d.MovesOnly ((Piece.statement s).Touches returns) d'

theorem moves_part (role : Role) (hq : (role, q) ∈ p.parts)
    (h : d.MovesOnly (q.Touches returns) d') : d.MovesOnly (p.Touches returns) d' :=
  h.mono fun _ => .of_part hq

theorem moves_expression {e : Expr} (role : Role) (hq : (role, .expression e) ∈ p.parts)
    (h : Yields e.encode d () d') : d.MovesOnly (p.Touches returns) d' :=
  moves_part role hq ((Draft.movesOnly_encode h).mono fun _ => .inl)

theorem moves_encodeOptional {e : Option Expr} (role : Role)
    (hq : ∀ x ∈ e, (role, .expression x) ∈ p.parts)
    (h : Yields (encodeOptional e) d () d') : d.MovesOnly (p.Touches returns) d' := by
  cases e with
  | none =>
    obtain ⟨-, rfl⟩ := yields_pure.1 h
    exact .refl _
  | some e => exact moves_expression role (hq e rfl) h

theorem moves_declare {declarations : List Declaration} {initial : Option Expr} :
    Moves returns (.declare location declarations initial) := by
  intro d exits d' hn h
  obtain ⟨-, h⟩ := yields_declare.1 h
  have hpart : ∀ x ∈ initial, (Role.inner, Piece.expression x) ∈
      (Piece.statement (.declare location declarations initial)).parts := by
    rintro x rfl
    exact .head _
  have hwrites : ∀ id ∈ declarations.map Declaration.id,
      (Piece.statement (.declare location declarations initial)).Touches returns id :=
    fun id hid => .inl (List.mem_append_left _ hid)
  by_cases hm : ∃ declaration, declarations = [declaration]
  · obtain ⟨declaration, rfl⟩ := hm
    have hid := hwrites declaration.id (.head _)
    cases initial with
    | none =>
      obtain ⟨-, rfl⟩ | ⟨v, -, ha⟩ := yields_declare_none.1 h
      · exact .refl _
      · exact movesOnly_assign hid ha
    | some e =>
      obtain ⟨d₁, he, ⟨-, rfl⟩ | ⟨-, ha⟩⟩ := yields_declare_some.1 h
      · exact moves_expression .inner (hpart e rfl) he
      · exact (moves_expression .inner (hpart e rfl) he).trans (movesOnly_assignFrom hid ha)
  · obtain ⟨d₁, he, hf⟩ := (yields_declare_many fun x hx => hm ⟨x, hx⟩).1 h
    exact (moves_encodeOptional .inner hpart he).trans
      (.trans .warned (movesOnly_forgetAll hwrites hf))

theorem moves_ret {value : Option Expr} : Moves returns (.ret location value) := by
  intro d exits d' hn h
  cases value with
  | none =>
    obtain ⟨-, rfl⟩ := yields_ret_none.1 h
    exact .refl _
  | some e =>
    obtain ⟨d₁, he, hg, -⟩ := yields_ret_some.1 h
    refine (moves_expression .inner (.head _) he).trans ?_
    by_cases hm : ∃ slot, returns = [slot]
    · obtain ⟨slot, rfl⟩ := hm
      obtain ⟨-, rfl⟩ | ⟨-, ha⟩ := yields_giveBack_one.1 hg
      · exact .refl _
      · exact movesOnly_assignFrom (.inr ⟨slot, location, e, rfl, rfl, .refl⟩) ha
    · obtain rfl := (yields_giveBack_many fun x hx => hm ⟨x, hx⟩).1 hg
      exact .warned

theorem moves_branch {condition : Expr} {yes : Stmt} {no : Option Stmt} (hy : yes.Moves returns)
    (hno : ∀ s ∈ no, s.Moves returns) : Moves returns (.branch location condition yes no) := by
  intro d exits d' hn h
  obtain ⟨d₁, guard, d₂, d₃, yesExits, d₄, noExits, d₅, hc, hg, hp, hys, -, hns, hj, -⟩ :=
    yields_branch.1 h
  set whole := Piece.statement (.branch location condition yes no)
  have hbefore : d.MovesOnly (whole.Touches returns) d₂ :=
    (moves_expression .test (.head _) hc).trans (movesOnly_valueOf hg)
  have hn₂ := hbefore.nodup hn
  have hpush : d₂.MovesOnly (whole.Touches returns) d₃ := movesOnly_pushPath hp
  have hbody : d₃.MovesOnly (whole.Touches returns) d₄ :=
    moves_part .inner (.tail _ (.head _)) (hy (hpush.nodup hn₂) hys)
  have hyes : d₂.MovesOnly (whole.Touches returns) d₄.popped := hpush.trans (hbody.trans .popped)
  have helse : d₄.popped.MovesOnly (whole.Touches returns) d₅ := by
    cases no with
    | none =>
      obtain ⟨-, rfl⟩ := yields_pure.1 hns
      exact .refl _
    | some no =>
      obtain ⟨e₁, e₂, e₃, hq, hr, hs, -, rfl⟩ := yields_encodeElse.1 hns
      have hback : d₄.popped.MovesOnly (whole.Touches returns) e₂ :=
        (movesOnly_pushPath hq).trans (movesOnly_restore hn₂ hyes hr)
      exact hback.trans ((moves_part .inner (.tail _ (.tail _ (.head _)))
        (hno no rfl (hback.nodup (hyes.nodup hn₂)) hs)).trans .popped)
  exact hbefore.trans (hyes.trans (helse.trans
    (movesOnly_mergeVersions hn₂ hyes (hyes.trans helse) hj)))

/-- What is encoded of a loop between the two times that its variables are forgotten. -/
def encodeInside (returns : List Declaration) (condition step : Option Expr) (body : Stmt) :
    Drafting (List Term) := do
  enter condition
  let exits ← body.encode returns
  encodeOptional step
  leave condition
  return exits

theorem encodesTurn_iff {written : List Nat} {condition step : Option Expr} {body : Stmt} :
    EncodesTurn returns location written condition step body d exits d' ↔
      ∃ b e, Yields (forgetAll written location) (d.warned location .loop) () b ∧
        Yields (encodeInside returns condition step body) b exits e ∧
          Yields (forgetAll written location) e () d' := by
  simp only [EncodesTurn, encodeInside, yields_bind, yields_pure]
  constructor
  · rintro ⟨b, d₂, d₃, d₄, e, h₁, h₂, h₃, h₄, h₅, h₆⟩
    exact ⟨b, e, h₁, ⟨(), d₂, h₂, exits, d₃, h₃, (), d₄, h₄, (), e, h₅, rfl, rfl⟩, h₆⟩
  · rintro ⟨b, e, h₁, ⟨_, d₂, h₂, _, d₃, h₃, _, d₄, h₄, _, _, h₅, rfl, rfl⟩, h₆⟩
    exact ⟨b, d₂, d₃, d₄, e, h₁, h₂, h₃, h₄, h₅, h₆⟩

theorem moves_enter {condition : Option Expr} (role : Role)
    (hq : ∀ x ∈ condition, (role, .expression x) ∈ p.parts)
    (h : Yields (enter condition) d () d') : d.MovesOnly (p.Touches returns) d' := by
  cases condition with
  | none =>
    obtain ⟨-, rfl⟩ := yields_pure.1 h
    exact .refl _
  | some condition =>
    obtain ⟨d₁, hc, hp⟩ := yields_seq.1 h
    exact (moves_expression role (hq condition rfl) hc).trans (movesOnly_pushPath hp)

theorem moves_leave {touched : Nat → Prop} {condition : Option Expr}
    (h : Yields (leave condition) d () d') : d.MovesOnly touched d' := by
  cases condition with
  | none =>
    obtain ⟨-, rfl⟩ := yields_pure.1 h
    exact .refl _
  | some condition => exact movesOnly_popPath h

theorem moves_encodeInside (location : Location) (written : List Nat)
    {condition step : Option Expr} {body : Stmt} (hb : body.Moves returns)
    (hn : (d.registry.map (·.id)).Nodup)
    (h : Yields (encodeInside returns condition step body) d exits d') :
    d.MovesOnly ((Piece.turn location written condition step body).Touches returns) d' := by
  simp only [encodeInside, yields_bind, yields_pure] at h
  obtain ⟨_, d₁, he, _, d₂, hbody, _, d₃, hs, _, _, hl, rfl, rfl⟩ := h
  have hbefore : d.MovesOnly (Piece.Touches returns (.turn location written condition step body))
      d₁ := moves_enter .test (fun x hx => by simp_all [Piece.parts]) he
  have hinside := moves_part .body (p := .turn location written condition step body)
    (by simp [Piece.parts]) (hb (hbefore.nodup hn) hbody)
  have hafter : d₂.MovesOnly (Piece.Touches returns (.turn location written condition step body))
      d₃ := moves_encodeOptional .step (fun x hx => by simp_all [Piece.parts]) hs
  exact hbefore.trans (hinside.trans (hafter.trans (moves_leave hl)))

/-- A turn also moves what is forgotten around it, which is nothing new. -/
theorem moves_turn {written : List Nat} {condition step : Option Expr} {body : Stmt}
    (hb : body.Moves returns) (hn : (d.registry.map (·.id)).Nodup)
    (hw : written = ordered (body.writes ++ writesOfExpr condition ++ writesOfExpr step))
    (h : EncodesTurn returns location written condition step body d exits d') :
    d.MovesOnly ((Piece.turn location written condition step body).Touches returns) d' := by
  obtain ⟨b, e, hf, hi, hf'⟩ := encodesTurn_iff.1 h
  have hwritten : ∀ id ∈ written,
      (Piece.turn location written condition step body).Touches returns id := by
    rintro id hid
    rw [hw] at hid
    exact .inl (mem_ordered.1 hid)
  have hbefore := Draft.MovesOnly.warned.trans (movesOnly_forgetAll hwritten hf)
  exact hbefore.trans ((moves_encodeInside location written hb (hbefore.nodup hn) hi).trans
    (movesOnly_forgetAll hwritten hf'))

theorem moves_sequence {s : Stmt} {rest : List Stmt} (hs : s.Moves returns)
    (hrest : ∀ ⦃d exits d'⦄, (d.registry.map (·.id)).Nodup →
      Yields (encodeAll returns rest) d exits d' →
        d.MovesOnly ((Piece.sequence rest).Touches returns) d')
    (hn : (d.registry.map (·.id)).Nodup) (h : Yields (encodeAll returns (s :: rest)) d exits d') :
    d.MovesOnly ((Piece.sequence (s :: rest)).Touches returns) d' := by
  obtain ⟨first, d₁, hy, hlast⟩ := yields_encodeAll_cons.1 h
  have hfirst : d.MovesOnly ((Piece.sequence (s :: rest)).Touches returns) d₁ :=
    moves_part .first (.head _) (hs hn hy)
  have hn₁ := hfirst.nodup hn
  obtain ⟨-, hr⟩ | ⟨taken, later, d₂, -, hr, -, hj, -⟩ := hlast
  · exact hfirst.trans (moves_part .rest (.tail _ (.head _)) (hrest hn₁ hr))
  · have hafter := moves_part .rest (p := .sequence (s :: rest)) (.tail _ (.head _))
      (hrest (Later.pushed.nodup hn₁) hr)
    have hgated := Draft.MovesOnly.pushed.trans (hafter.trans .popped)
    exact hfirst.trans (hgated.trans (movesOnly_mergeVersions hn₁ hgated (.refl _) hj))

theorem moves_runs (returns : List Declaration) (p : Piece) :
    p.Collects → ∀ ⦃d exits d'⦄, (d.registry.map (·.id)).Nodup → p.Runs returns d exits d' →
      d.MovesOnly (p.Touches returns) d' := by
  induction p using Piece.parts_induction with
  | step p ih =>
    intro hcollects d exits d' hn h
    have hstatement : ∀ role s, (role, .statement s) ∈ p.parts → s.Moves returns :=
      fun role s hs d exits d' => @ih role (.statement s) hs trivial d exits d'
    cases p with
    | sequence body =>
      cases body with
      | nil =>
        obtain ⟨-, rfl⟩ := yields_encodeAll_nil.1 h
        exact .refl _
      | cons s rest =>
        exact moves_sequence (hstatement .first s (.head _))
          (ih .rest (.sequence rest) (.tail _ (.head _)) trivial) hn h
    | turn location written condition step body =>
      exact moves_turn (hstatement .body body (by simp [Piece.parts])) hn hcollects h
    | expression e => exact (Draft.movesOnly_encode h.2).mono fun _ => .inl
    | statement s =>
      cases s with
      | block _ body => exact moves_part .inner (.head _) (ih _ _ (.head _) trivial hn h)
      | declare => exact moves_declare hn h
      | expression =>
        exact moves_expression .inner (.head _) (yields_expression.1 h).2
      | branch _ condition yes no =>
        refine moves_branch (hstatement .inner yes (.tail _ (.head _))) (fun s hs => ?_) hn h
        cases hs
        exact hstatement .inner s (.tail _ (.tail _ (.head _)))
      | whileLoop _ condition body isBodyFirst =>
        cases isBodyFirst
        · exact moves_part .turn (.head _)
            (ih .turn _ (.head _) (by simp [Piece.Collects, writesOfExpr]) hn
              (yields_whileLoop_testFirst.1 h))
        · exact moves_part .turn (.head _)
            (ih .turn _ (.head _) (by simp [Piece.Collects, writesOfExpr]) hn
              (yields_whileLoop_bodyFirst.1 h))
      | forLoop location first condition step body =>
        obtain ⟨startExits, d₀, bodyExits, hs, ht, -⟩ := yields_forLoop.1 h
        have hstart : d.MovesOnly ((Piece.statement
            (.forLoop location first condition step body)).Touches returns) d₀ := by
          cases first with
          | none =>
            obtain ⟨-, rfl⟩ := yields_pure.1 hs
            exact .refl _
          | some first =>
            exact moves_part .start (.head _) (hstatement .start first (.head _) hn hs)
        have hturn : (Role.turn, Piece.turn location (ordered (body.writes ++ writesOfExpr condition
            ++ writesOfExpr step)) condition step body) ∈
              (Piece.statement (.forLoop location first condition step body)).parts := by
          simp [Piece.parts, Stmt.parts]
        exact hstart.trans (moves_part .turn hturn (ih _ _ hturn rfl (hstart.nodup hn) ht))
      | ret => exact moves_ret hn h

theorem moves_encode (returns : List Declaration) (s : Stmt) : s.Moves returns :=
  fun _ _ _ => @moves_runs returns (.statement s) trivial _ _ _

end Source.Stmt

/-! ### Ends of loops -/

namespace Draft

variable {d d₁ d' : Draft} {id : Nat} {v : Registered} {u : Unit} {location : Location}
  {path : Term}

/-- A variable is moved on to a version that is only known to be in the range of its type, where a
path is taken. -/
def Renews (location : Location) (path : Term) (id : Nat) (d d' : Draft) : Prop :=
  ∃ v n new, d.registered? id = some v ∧ d'.registered? id = some (v.later (n + 1)) ∧
    d'.constraints = d.constraints ++ new ∧ ⟨path, (v.later (n + 1)).rangeFact, location⟩ ∈ new

theorem renews_forget (hv : d.registered? id = some v) (h : Yields (forget id location) d u d') :
    Renews location d.pathCondition id d d' := by
  obtain ⟨-, ⟨hn, -⟩ | ⟨w, hw, rfl⟩⟩ := yields_forget.1 h
  · rw [hv] at hn
    cases hn
  · obtain rfl := id_of_registered? hw
    refine ⟨w, 0, _, hw, ?_, rfl, List.mem_singleton.2 rfl⟩
    rw [registered?_emitted, registered?_advanced, hw]
    simp

theorem Renews.after (hl : Later d d₁) (h : Renews location path id d₁ d') :
    Renews location path id d d' := by
  obtain ⟨w, n, new, hw, hr, hc, hm⟩ := h
  obtain ⟨v, k, hv, rfl⟩ := hl.earlier hw
  obtain ⟨old, hold⟩ := hl.constraints
  refine ⟨v, k + n, old ++ new, hv, ?_, ?_, List.mem_append_right _ ?_⟩
  · rw [hr, Registered.later_later, Nat.add_assoc]
  · rw [hc, ← hold, List.append_assoc]
  · rwa [Registered.later_later] at hm

theorem Renews.before (h : Renews location path id d d₁) (hl : Later d₁ d')
    (hr : d'.registered? id = d₁.registered? id) : Renews location path id d d' := by
  obtain ⟨v, n, new, hv, hn, hc, hm⟩ := h
  obtain ⟨more, hmore⟩ := hl.constraints
  refine ⟨v, n, new ++ more, hv, hr.trans hn, ?_, List.mem_append_left _ hm⟩
  rw [← hmore, hc, List.append_assoc]

/-- Every variable of a row that is forgotten is renewed. -/
theorem renews_forgetAll {written : List Nat} (hid : id ∈ written)
    (hv : d.registered? id = some v) (h : Yields (forgetAll written location) d u d') :
    Renews location d.pathCondition id d d' := by
  induction written generalizing d v with
  | nil => cases hid
  | cons first rest ih =>
    obtain ⟨d₁, hf, hr⟩ := yields_forgetAll_cons.1 h
    have hc : Continues d d₁ := by
      obtain ⟨-, rfl⟩ | ⟨-, hf⟩ := hf
      · exact .refl _
      · exact continues_forget hf
    by_cases hmem : id ∈ rest
    · obtain ⟨k, hk⟩ := hc.later.version hv
      rw [← hc.pathCondition]
      exact (ih hmem hk hr).after hc.later
    · have hrest : MovesOnly (· ∈ rest) d₁ d' := movesOnly_forgetAll (fun _ h => h) hr
      obtain rfl : id = first := by simpa [hmem] using hid
      obtain ⟨hnone, -⟩ | ⟨-, hf⟩ := hf
      · rw [hv] at hnone
        cases hnone
      · exact (renews_forget hv hf).before hrest.toLater (hrest.unmoved _ hmem)

end Draft

namespace Visit

open Draft

variable {returns : List Declaration} {p q : Piece} {exits : List Term} {d d' : Draft}
  {v : Registered}

theorem Part.mem_parts {role : Role} {v w : Visit} (hp : Part returns role v w) :
    (role, w.piece) ∈ v.piece.parts := by
  cases hp <;> simp [Piece.parts, Stmt.parts]

theorem Reaches.contains {v w : Visit} (hr : Reaches returns v w) : v.piece.Contains w.piece := by
  induction hr with
  | refl => exact .refl
  | tail _ hp ih =>
    obtain ⟨role, hp⟩ := hp
    exact ih.tail ⟨role, hp.mem_parts⟩

/-- What is inside a piece is visited where the piece is encoded. -/
theorem exists_reaches (hq : p.Contains q) (h : Visit.Runs returns ⟨p, d⟩ exits d') :
    ∃ c, Reaches returns ⟨p, d⟩ ⟨q, c⟩ := by
  induction hq with
  | refl => exact ⟨d, .refl⟩
  | tail _ hpart ih =>
    obtain ⟨role, hpart⟩ := hpart
    obtain ⟨c, hc⟩ := ih
    obtain ⟨inner, c', hrun⟩ := hc.runs h
    obtain ⟨e, he⟩ := exists_part hrun.runs hpart
    exact ⟨e, hc.then he⟩

theorem outruns_of_givesBack (hg : p.GivesBack returns v.id)
    (h : Visit.Runs returns ⟨p, d⟩ exits d') (hv : d.registered? v.id = some v) :
    d'.Outruns v := by
  obtain ⟨slot, location, value, rfl, hid, hc⟩ := hg
  obtain ⟨c, hreach⟩ := exists_reaches hc h
  obtain ⟨inner, c', hrun⟩ := hreach.runs h
  obtain ⟨c₁, he, hg, -⟩ := Stmt.yields_ret_some.1 hrun.runs
  obtain ⟨k, hk⟩ := (hreach.later.trans (continues_encode he).later).version hv
  rw [← hid] at hk
  obtain ⟨hnone, -⟩ | ⟨-, ha⟩ := Stmt.yields_giveBack_one.1 hg
  · rw [hk] at hnone
    cases hnone
  · obtain ⟨t, c₂, hval, ha⟩ := yields_bind.1 ha
    obtain ⟨n, hn⟩ := (continues_valueOf hval).later.version hk
    exact ((outruns_of_assign hn ha).of_later.of_later).later hrun.after

section Turn

variable {location : Location} {written : List Nat} {condition step : Option Expr} {body : Stmt}
  {b e : Draft} {id : Nat}

/-- The returns of a turn are those of its body. -/
theorem givesBack_of_turn
    (h : (Piece.turn location written condition step body).GivesBack returns id) :
    (Piece.statement body).GivesBack returns id := by
  obtain ⟨slot, at', value, hr, hid, hc⟩ := h
  obtain hsame | ⟨q, ⟨role, hpart⟩, hc⟩ := Relation.ReflTransGen.cases_head hc
  · cases hsame
  · have hexpression : ∀ x : Expr, q ≠ .expression x := by
      rintro x rfl
      obtain hsame | ⟨_, ⟨_, hnone⟩, -⟩ := Relation.ReflTransGen.cases_head hc
      · cases hsame
      · cases hnone
    simp only [Piece.parts, List.mem_append, List.mem_map, List.mem_cons, Prod.mk.injEq] at hpart
    obtain ⟨x, -, -, rfl⟩ | ⟨-, rfl⟩ | ⟨x, -, -, rfl⟩ := hpart
    · exact absurd rfl (hexpression x)
    · exact ⟨slot, at', value, hr, hid, hc⟩
    · exact absurd rfl (hexpression x)

theorem continues_encodeInside
    (h : Yields (Stmt.encodeInside returns condition step body) d exits d') : Continues d d' := by
  simp only [Stmt.encodeInside, yields_bind, yields_pure] at h
  obtain ⟨_, d₁, he, _, d₂, hbody, _, d₃, hs, _, _, hl, rfl, rfl⟩ := h
  exact Stmt.continues_enter_leave he ((Stmt.continues_encode returns body hbody).trans
    (Stmt.continues_encodeOptional hs)) hl

theorem outruns_encodeInside (hg : (Piece.statement body).GivesBack returns v.id)
    (hv : d.registered? v.id = some v)
    (h : Yields (Stmt.encodeInside returns condition step body) d exits d') : d'.Outruns v := by
  simp only [Stmt.encodeInside, yields_bind, yields_pure] at h
  obtain ⟨_, d₁, he, _, d₂, hbody, _, d₃, hs, _, _, hl, rfl, rfl⟩ := h
  obtain ⟨k, hk⟩ := (later_enter he).version hv
  have hout : d₂.Outruns (v.later k) := outruns_of_givesBack (p := .statement body) hg hbody hk
  exact hout.of_later.later ((Stmt.continues_encodeOptional hs).later.trans (later_leave hl))

/-- Inside a turn only variables that are forgotten around it are moved, and the return slot of a
value that is returned inside the body. -/
theorem registered?_encodeInside
    (hw : written = ordered (body.writes ++ Stmt.writesOfExpr condition ++ Stmt.writesOfExpr step))
    (hn : (d.registry.map (·.id)).Nodup)
    (h : Yields (Stmt.encodeInside returns condition step body) d exits d')
    (hid : id ∉ written) (hg : ¬ (Piece.statement body).GivesBack returns id) :
    d'.registered? id = d.registered? id := by
  have hmoves := Stmt.moves_encodeInside {} written (Stmt.moves_encode returns body) hn h
  refine hmoves.unmoved id ?_
  rintro (hwrites | hback)
  · exact hid (hw ▸ Stmt.mem_ordered.2 hwrites)
  · exact hg (givesBack_of_turn hback)

theorem kept_or_renewed_iff (hn : (d.registry.map (·.id)).Nodup)
    (hw : written = ordered (body.writes ++ Stmt.writesOfExpr condition ++ Stmt.writesOfExpr step))
    (hf : Yields (forgetAll written location) (d.warned location .loop) () b)
    (hi : Yields (Stmt.encodeInside returns condition step body) b exits e)
    (hf' : Yields (forgetAll written location) e () d') (hv : d.registered? id = some v) :
    (d'.registered? id = some v ∨ Renews location d.pathCondition id e d' ↔
      ((Piece.statement body).GivesBack returns id → id ∈ written)) ∧
    ((e.registered? id ≠ b.registered? id → id ∈ written) ↔
      ((Piece.statement body).GivesBack returns id → id ∈ written)) := by
  have hbefore : MovesOnly (· ∈ written) d b :=
    MovesOnly.warned.trans (movesOnly_forgetAll (fun _ h => h) hf)
  have hafter : MovesOnly (· ∈ written) e d' := movesOnly_forgetAll (fun _ h => h) hf'
  have hpath : Continues d e :=
    .trans ⟨.warned, rfl⟩ ((continues_forgetAll hf).trans (continues_encodeInside hi))
  obtain rfl := id_of_registered? hv
  -- a slot that the loop does not write is ahead after the turn of the version before it
  have hahead : (Piece.statement body).GivesBack returns v.id → v.id ∉ written →
      ∃ n, b.registered? v.id = some v ∧ e.registered? v.id = some (v.later (n + 1)) := by
    intro hback hid
    have hb := (hbefore.unmoved _ hid).trans hv
    obtain ⟨n, hn⟩ := outruns_encodeInside hback hb hi
    exact ⟨n, hb, hn⟩
  have hne : ∀ n, some (v.later (n + 1)) ≠ some v := fun n h => by
    have hversion : v.version + (n + 1) = v.version :=
      congrArg (fun w : Registered => w.version) (Option.some.inj h)
    omega
  refine ⟨⟨fun hkept hback => ?_, fun hback => ?_⟩,
    ⟨fun hmoved hback => ?_, fun hback hmoved => ?_⟩⟩
  · by_contra hid
    obtain ⟨n, -, he⟩ := hahead hback hid
    have hend : d'.registered? v.id = some (v.later (n + 1)) := (hafter.unmoved _ hid).trans he
    obtain hkept | ⟨w, k, new, hw', hk, -⟩ := hkept
    · exact hne n (hend.symm.trans hkept)
    · obtain rfl := Option.some.inj (he.symm.trans hw')
      have hversion : v.version + (n + 1) = v.version + (n + 1) + (k + 1) :=
        congrArg (fun w : Registered => w.version) (Option.some.inj (hend.symm.trans hk))
      omega
  · by_cases hid : v.id ∈ written
    · obtain ⟨k, hk⟩ := hpath.later.version hv
      exact .inr (hpath.pathCondition ▸ renews_forgetAll hid hk hf')
    · have hsame := registered?_encodeInside hw (hbefore.nodup hn) hi hid (mt hback hid)
      exact .inl ((hafter.unmoved _ hid).trans (hsame.trans ((hbefore.unmoved _ hid).trans hv)))
  · by_contra hid
    obtain ⟨n, hb, he⟩ := hahead hback hid
    exact hid (hmoved (by rw [he, hb]; exact hne n))
  · by_contra hid
    exact hmoved (registered?_encodeInside hw (hbefore.nodup hn) hi hid (mt hback hid))

end Turn

/-- A loop is encoded as its turn, after its start. -/
theorem turn_runs {s : Stmt} {location : Location} {written : List Nat}
    {condition step : Option Expr} {body : Stmt} {c : Draft}
    (hp : Part returns .turn ⟨.statement s, d⟩ ⟨.turn location written condition step body, c⟩)
    (h : Yields (s.encode returns) d exits d') :
    written = ordered (body.writes ++ Stmt.writesOfExpr condition ++ Stmt.writesOfExpr step) ∧
      Continues d c ∧
        ∃ inner, Stmt.EncodesTurn returns location written condition step body c inner d' := by
  cases hp with
  | testFirst =>
    exact ⟨by simp [Stmt.writesOfExpr], .refl _, exits, Stmt.yields_whileLoop_testFirst.1 h⟩
  | bodyFirst =>
    exact ⟨by simp [Stmt.writesOfExpr], .refl _, exits, Stmt.yields_whileLoop_bodyFirst.1 h⟩
  | turn hs =>
    obtain ⟨startExits, d₀, bodyExits, hs', ht, rfl⟩ := Stmt.yields_forLoop.1 h
    obtain ⟨rfl, rfl⟩ := hs.unique hs'
    exact ⟨rfl, Stmt.continues_start (fun s _ => Stmt.continues_encode returns s) hs, _, ht⟩

variable {contract : Contract} {f : Function} {settings : Settings}

/-- A loop of an encoded function leaves a variable with the version from before or renews it,
unless the variable is the return slot of a value that is returned inside the body and the loop does
not write it otherwise. -/
theorem loop_keeps_or_renews_iff (h : (f.analyze settings contract).outcome = .ok d) :
    ∃ o, Yields (do f.warnings; prepare contract f) { settings } () o ∧
      (∀ v, Reaches f.returns ⟨.sequence f.body, o⟩ v →
        (∃ exits c, v.Runs f.returns exits c) ∧
          ∀ role q, (role, q) ∈ v.piece.parts → ∃ c, Part f.returns role v ⟨q, c⟩) ∧
      ∀ s c exits c', Reaches f.returns ⟨.sequence f.body, o⟩ ⟨.statement s, c⟩ →
        Yields (s.encode f.returns) c exits c' →
          ∀ location written condition step body c₀, Part f.returns .turn ⟨.statement s, c⟩
              ⟨.turn location written condition step body, c₀⟩ →
            ∃ inner b e, Yields (forgetAll written location) (c₀.warned location .loop) () b ∧
              Yields (Stmt.encodeInside f.returns condition step body) b inner e ∧
                Yields (forgetAll written location) e () c' ∧ c'.constraints <+: d.constraints ∧
                  ∀ id v, c₀.registered? id = some v →
                    (c'.registered? id = some v ∨ Renews location c.pathCondition id e c' ↔
                      ((Piece.statement body).GivesBack f.returns id → id ∈ written)) ∧
                    ((e.registered? id ≠ b.registered? id → id ∈ written) ↔
                      ((Piece.statement body).GivesBack f.returns id → id ∈ written)) := by
  obtain ⟨d₀, o, exits, d₁, hw, hp, hb, rfl⟩ := outcome_eq_ok.1 h
  have hrun : Visit.Runs f.returns ⟨.sequence f.body, o⟩ exits d₁ := hb
  refine ⟨o, yields_seq.2 ⟨d₀, hw, hp⟩, fun v hv => ?_, ?_⟩
  · obtain ⟨inner, c, hwithin⟩ := hv.runs hrun
    exact ⟨⟨inner, c, hwithin.runs⟩, fun role q hq => exists_part hwithin.runs hq⟩
  · intro s c inner c' hreach hs location written condition step body c₀ hpart
    obtain ⟨hwritten, hc, turnExits, ht⟩ := turn_runs hpart hs
    obtain ⟨b, e, hf, hi, hf'⟩ := Stmt.encodesTurn_iff.1 ht
    have hafter : Later c' d₁ := by
      obtain ⟨_, c'', hwithin⟩ := hreach.runs hrun
      obtain ⟨rfl, rfl⟩ := hs.unique hwithin.runs
      exact hwithin.after
    refine ⟨turnExits, b, e, hf, hi, hf', hafter.constraints, fun id v hv => ?_⟩
    rw [← hc.pathCondition]
    obtain ⟨ds, rfl⟩ := yields_warnings hw
    exact kept_or_renewed_iff ((hreach.later.trans hc.later).nodup (Opening.of_yields hp).distinct)
      hwritten hf hi hf' hv

/-- A return slot of a function. -/
def result : Declaration := ⟨2, "r", .integer ⟨8, false⟩, {}, none⟩

/-- The loop `while (c) { return 1; }`. -/
def answering : Stmt :=
  .whileLoop {} (.identifier ⟨3, {}, .bool⟩ "c" (some 1) false)
    (.block {} [.ret {} (some (.literal ⟨4, {}, .integer ⟨8, false⟩⟩ (.number 1)))]) false

/-- A function of a flag that returns a number from a loop. -/
def hurried : Function :=
  ⟨0, "f", {}, [⟨1, "c", .bool, {}, none⟩], [result], [answering], false, []⟩

theorem hurried_loses_result :
    ∃ d o exits c' e v, (hurried.analyze {} ⟨0, "C", {}, [], [hurried]⟩).outcome = .ok d ∧
      Reaches [result] ⟨.sequence hurried.body, o⟩ ⟨.statement answering, o⟩ ∧
      Yields (answering.encode [result]) o exits c' ∧ Yields (forgetAll [] {}) e () c' ∧
      o.registered? 2 = some v ∧ c'.registered? 2 ≠ some v ∧
        ¬ Renews {} o.pathCondition 2 e c' := by
  have hok : (hurried.analyze {} ⟨0, "C", {}, [], [hurried]⟩).outcome.isOk = true := by
    decide +kernel
  cases hd : (hurried.analyze {} ⟨0, "C", {}, [], [hurried]⟩).outcome with
  | error e =>
    rw [hd] at hok
    cases hok
  | ok d =>
    obtain ⟨o, hprepare, hvisits, hloops⟩ := loop_keeps_or_renews_iff hd
    have hx : (role? ⟨0, "C", {}, [], [hurried]⟩ hurried 2).isSome := by decide
    obtain ⟨v, hv⟩ := registered?_of_yields_prepare hprepare hx
    have hloop : Reaches [result] ⟨.sequence hurried.body, o⟩ ⟨.statement answering, o⟩ :=
      Part.reaches .first
    obtain ⟨exits, c', hrun⟩ := (hvisits _ hloop).1
    obtain ⟨inner, b, e, -, -, hf, -, hends⟩ :=
      hloops answering o exits c' hloop hrun {} [] _ _ _ o .testFirst
    have hback : (Piece.statement (.block {} [.ret {} (some (.literal ⟨4, {}, .integer ⟨8, false⟩⟩
        (.number 1)))])).GivesBack [result] 2 :=
      ⟨result, {}, _, rfl, rfl, .head ⟨.inner, .head _⟩ (.head ⟨.first, .head _⟩ .refl)⟩
    have hlost := mt (hends 2 v hv).1.1 fun hmem => absurd (hmem hback) (by simp)
    exact ⟨d, o, exits, c', e, v, rfl, hloop, hrun, hf, hv, fun hkept => hlost (.inl hkept),
      fun hrenewed => hlost (.inr hrenewed)⟩

end Visit

end PathFormula
