import Mathlib.Logic.Relation
import PathFormula.Proofs.Continuation
import PathFormula.Proofs.Exactness

/-!
# Visits of the parts of a body

A body is encoded by visits of its blocks, statements, loop turns and expressions, each from a
draft of its own. `Part` relates a visit to those of its parts. Every part of a visit that succeeds
is visited (`exists_part`) and succeeds too, under the path that was open around it
(`Part.runs`, `Reaches.runs`).
-/
namespace PathFormula

open Source

/-- What a body is made of. -/
inductive Piece where
  | sequence (body : List Stmt)
  | statement (s : Stmt)
  /-- The one turn that is encoded of a loop; the condition after a body counts as its step. -/
  | turn (location : Location) (written : List Nat) (condition step : Option Expr) (body : Stmt)
  | expression (e : Expr)

/-- What a part is to the whole. -/
inductive Role where
  | first
  | rest
  | start
  | turn
  | test
  | body
  | step
  | inner
  deriving DecidableEq, Repr

def Source.Stmt.parts : Stmt → List (Role × Piece)
  | .block _ body => [(.inner, .sequence body)]
  | .declare _ _ initial => initial.toList.map (.inner, .expression ·)
  | .expression _ e => [(.inner, .expression e)]
  | .branch _ condition yes no =>
      (.test, .expression condition) :: (.inner, .statement yes)
        :: no.toList.map (.inner, .statement ·)
  | .whileLoop location condition body isBodyFirst =>
      let written := Draft.ordered (body.writes ++ condition.writes)
      if isBodyFirst then [(.turn, .turn location written none (some condition) body)]
      else [(.turn, .turn location written (some condition) none body)]
  | .forLoop location start condition step body =>
      let written := Draft.ordered
        (body.writes ++ Stmt.writesOfExpr condition ++ Stmt.writesOfExpr step)
      start.toList.map (.start, .statement ·)
        ++ [(.turn, .turn location written condition step body)]
  | .ret _ value => value.toList.map (.inner, .expression ·)

def Piece.parts : Piece → List (Role × Piece)
  | .sequence [] | .expression _ => []
  | .sequence (s :: rest) => [(.first, .statement s), (.rest, .sequence rest)]
  | .statement s => s.parts
  | .turn _ _ condition step body =>
      condition.toList.map (.test, .expression ·)
        ++ (.body, .statement body) :: step.toList.map (.step, .expression ·)

/-- A piece is encoded, with the path conditions of the returns inside it. -/
def Piece.Runs (returns : List Declaration) : Piece → Draft → List Term → Draft → Prop
  | .sequence body, d, exits, d' => Draft.Yields (Stmt.encodeAll returns body) d exits d'
  | .statement s, d, exits, d' => Draft.Yields (s.encode returns) d exits d'
  | .turn location written condition step body, d, exits, d' =>
      Stmt.EncodesTurn returns location written condition step body d exits d'
  | .expression e, d, exits, d' => exits = [] ∧ Draft.Yields e.encode d () d'

/-- A piece and the draft from which it is encoded. -/
structure Visit where
  piece : Piece
  draft : Draft

namespace Visit

open Draft

def Runs (returns : List Declaration) (v : Visit) (exits : List Term) (d : Draft) : Prop :=
  v.piece.Runs returns v.draft exits d

section

variable (returns : List Declaration)

/-- The first visit contains the second one. The drafts that lead from one to the other are those
of what is encoded between them. -/
inductive Part : Role → Visit → Visit → Prop where
  | first {s : Stmt} {rest : List Stmt} {d : Draft} :
      Part .first ⟨.sequence (s :: rest), d⟩ ⟨.statement s, d⟩
  | rest {s : Stmt} {rest : List Stmt} {d d₁ : Draft} (h : Yields (s.encode returns) d [] d₁) :
      Part .rest ⟨.sequence (s :: rest), d⟩ ⟨.sequence rest, d₁⟩
  | gated {s : Stmt} {rest : List Stmt} {exits : List Term} {taken : Term} {d d₁ : Draft}
      (h : Yields (s.encode returns) d exits d₁) (ht : Term.disjunction? exits = some taken) :
      Part .rest ⟨.sequence (s :: rest), d⟩ ⟨.sequence rest, d₁.pushed (.not taken)⟩
  | block {location : Location} {body : List Stmt} {d : Draft} :
      Part .inner ⟨.statement (.block location body), d⟩ ⟨.sequence body, d⟩
  | initial {location : Location} {declarations : List Declaration} {e : Expr} {d : Draft} :
      Part .inner ⟨.statement (.declare location declarations (some e)), d⟩ ⟨.expression e, d⟩
  | expression {location : Location} {e : Expr} {d : Draft} :
      Part .inner ⟨.statement (.expression location e), d⟩ ⟨.expression e, d⟩
  | condition {location : Location} {condition : Expr} {yes : Stmt} {no : Option Stmt} {d : Draft} :
      Part .test ⟨.statement (.branch location condition yes no), d⟩ ⟨.expression condition, d⟩
  | yes {location : Location} {condition : Expr} {yes : Stmt} {no : Option Stmt} {guard : Term}
      {d d₁ d₂ d₃ : Draft} (hc : Yields condition.encode d () d₁)
      (hg : Yields (valueOf condition) d₁ guard d₂)
      (hp : Yields (pushPath condition true) d₂ () d₃) :
      Part .inner ⟨.statement (.branch location condition yes no), d⟩ ⟨.statement yes, d₃⟩
  | no {location : Location} {condition : Expr} {yes no : Stmt} {guard : Term}
      {exits : List Term} {d d₁ d₂ d₃ d₄ d₅ d₆ : Draft} (hc : Yields condition.encode d () d₁)
      (hg : Yields (valueOf condition) d₁ guard d₂)
      (hp : Yields (pushPath condition true) d₂ () d₃)
      (hy : Yields (yes.encode returns) d₃ exits d₄)
      (hq : Yields (pushPath condition false) d₄.popped () d₅)
      (hr : Yields (restore d₂.versions d₄.popped.versions location) d₅ () d₆) :
      Part .inner ⟨.statement (.branch location condition yes (some no)), d⟩ ⟨.statement no, d₆⟩
  | testFirst {location : Location} {condition : Expr} {body : Stmt} {d : Draft} :
      Part .turn ⟨.statement (.whileLoop location condition body false), d⟩
        ⟨.turn location (ordered (body.writes ++ condition.writes)) (some condition) none body, d⟩
  | bodyFirst {location : Location} {condition : Expr} {body : Stmt} {d : Draft} :
      Part .turn ⟨.statement (.whileLoop location condition body true), d⟩
        ⟨.turn location (ordered (body.writes ++ condition.writes)) none (some condition) body, d⟩
  | start {location : Location} {first : Stmt} {condition step : Option Expr} {body : Stmt}
      {d : Draft} :
      Part .start ⟨.statement (.forLoop location (some first) condition step body), d⟩
        ⟨.statement first, d⟩
  | turn {location : Location} {first : Option Stmt} {condition step : Option Expr} {body : Stmt}
      {exits : List Term} {d d₁ : Draft} (h : Yields (Stmt.start returns first) d exits d₁) :
      Part .turn ⟨.statement (.forLoop location first condition step body), d⟩
        ⟨.turn location (ordered (body.writes ++ Stmt.writesOfExpr condition
          ++ Stmt.writesOfExpr step)) condition step body, d₁⟩
  | test {location : Location} {written : List Nat} {condition : Expr} {step : Option Expr}
      {body : Stmt} {d d₁ : Draft}
      (hf : Yields (forgetAll written location) (d.warned location .loop) () d₁) :
      Part .test ⟨.turn location written (some condition) step body, d⟩ ⟨.expression condition, d₁⟩
  | body {location : Location} {written : List Nat} {condition step : Option Expr} {body : Stmt}
      {d d₁ d₂ : Draft}
      (hf : Yields (forgetAll written location) (d.warned location .loop) () d₁)
      (he : Yields (Stmt.enter condition) d₁ () d₂) :
      Part .body ⟨.turn location written condition step body, d⟩ ⟨.statement body, d₂⟩
  | step {location : Location} {written : List Nat} {condition : Option Expr} {step : Expr}
      {body : Stmt} {exits : List Term} {d d₁ d₂ d₃ : Draft}
      (hf : Yields (forgetAll written location) (d.warned location .loop) () d₁)
      (he : Yields (Stmt.enter condition) d₁ () d₂)
      (hb : Yields (body.encode returns) d₂ exits d₃) :
      Part .step ⟨.turn location written condition (some step) body, d⟩ ⟨.expression step, d₃⟩
  | value {location : Location} {e : Expr} {d : Draft} :
      Part .inner ⟨.statement (.ret location (some e)), d⟩ ⟨.expression e, d⟩

/-- The visits inside a visit. -/
def Reaches : Visit → Visit → Prop :=
  Relation.ReflTransGen fun v w => ∃ role, Part returns role v w

end

variable {returns : List Declaration} {role : Role} {v w : Visit} {exits inner : List Term}
  {d d' c : Draft} {m : Model}

/-- A run of a visit inside a longer one that leads from `d` to `d'`: its path is open only where
that of the longer one is, its returns are among those of the longer one, and what it emits
stays. -/
structure RunsWithin (returns : List Declaration) (w : Visit) (d : Draft) (exits : List Term)
    (d' : Draft) (inner : List Term) (c : Draft) : Prop where
  runs : w.Runs returns inner c
  opens : ∀ m, w.draft.Open m → d.Open m
  exits : inner ⊆ exits
  after : Later c d'

theorem RunsWithin.trans {d₁ d₂ : Draft} {middle : List Term}
    (h₁ : RunsWithin returns v d exits d' middle d₁)
    (h₂ : RunsWithin returns w v.draft middle d₁ inner d₂) :
    RunsWithin returns w d exits d' inner d₂ where
  runs := h₂.runs
  opens m hm := h₁.opens m (h₂.opens m hm)
  exits := List.Subset.trans h₂.exits h₁.exits
  after := h₂.after.trans h₁.after

theorem open_of_pushPath {e : Expr} {sign : Bool} (h : Yields (pushPath e sign) d () d')
    (ho : d'.Open m) : d.Open m := by
  obtain ⟨t, d₁, hv, rfl⟩ := yields_pushPath.1 h
  exact (continues_valueOf hv).open_iff.1 (open_pushed.1 ho).1

theorem runs_first {s : Stmt} {rest : List Stmt}
    (h : Yields (Stmt.encodeAll returns (s :: rest)) d exits d') :
    ∃ inner c, RunsWithin returns ⟨.statement s, d⟩ d exits d' inner c := by
  obtain ⟨first, d₁, hs, ⟨hn, hr⟩ | ⟨taken, later, d₂, -, hr, -, hj, rfl⟩⟩ :=
    Stmt.yields_encodeAll_cons.1 h
  · obtain rfl := eq_nil_of_disjunction hn
    exact ⟨[], d₁, hs, fun _ => id, List.nil_subset _,
      (Stmt.continues_encodeAll returns rest hr).later⟩
  · have hrest := (Stmt.continues_encodeAll returns rest hr).popped
    have hjoin := continues_assignAll (yields_mergeVersions.1 hj)
    exact ⟨first, d₁, hs, fun _ => id, List.subset_append_left _ _, (hrest.trans hjoin).later⟩

theorem runs_rest {s : Stmt} {rest : List Stmt} {d₁ : Draft}
    (h : Yields (Stmt.encodeAll returns (s :: rest)) d exits d')
    (hs : Yields (s.encode returns) d [] d₁) :
    ∃ inner c, RunsWithin returns ⟨.sequence rest, d₁⟩ d exits d' inner c := by
  obtain ⟨first, d₂, hs', ⟨-, hr⟩ | ⟨taken, later, d₂, ht, -⟩⟩ := Stmt.yields_encodeAll_cons.1 h
  · obtain ⟨rfl, rfl⟩ := hs.unique hs'
    exact ⟨exits, d', hr, fun _ => (Stmt.continues_encode returns s hs).open_iff.1,
      List.Subset.refl _, .refl _⟩
  · obtain ⟨rfl, rfl⟩ := hs.unique hs'
    cases ht

theorem runs_gated {s : Stmt} {rest : List Stmt} {first : List Term} {taken : Term} {d₁ : Draft}
    (h : Yields (Stmt.encodeAll returns (s :: rest)) d exits d')
    (hs : Yields (s.encode returns) d first d₁) (ht : Term.disjunction? first = some taken) :
    ∃ inner c, RunsWithin returns ⟨.sequence rest, d₁.pushed (.not taken)⟩ d exits d' inner c := by
  obtain ⟨first', d₂, hs', ⟨hn, -⟩ | ⟨taken', later, d₃, ht', hr, -, hj, rfl⟩⟩ :=
    Stmt.yields_encodeAll_cons.1 h
  · obtain ⟨rfl, rfl⟩ := hs.unique hs'
    rw [ht] at hn
    cases hn
  · obtain ⟨rfl, rfl⟩ := hs.unique hs'
    cases ht.symm.trans ht'
    refine ⟨later, d₃, hr, fun _ ho => ?_, List.subset_append_right _ _, ?_⟩
    · exact (Stmt.continues_encode returns s hs).open_iff.1 (open_pushed.1 ho).1
    · exact Later.withPath.trans (continues_assignAll (yields_mergeVersions.1 hj)).later

theorem runs_initial {location : Location} {declarations : List Declaration} {e : Expr}
    (h : Yields ((Stmt.declare location declarations (some e)).encode returns) d exits d') :
    ∃ inner c, RunsWithin returns ⟨.expression e, d⟩ d exits d' inner c := by
  obtain ⟨-, h⟩ := Stmt.yields_declare.1 h
  have he : ∃ d₁, Yields e.encode d () d₁ ∧ Later d₁ d' := by
    by_cases hm : ∃ declaration, declarations = [declaration]
    · obtain ⟨declaration, rfl⟩ := hm
      obtain ⟨d₁, he, ⟨-, rfl⟩ | ⟨-, ha⟩⟩ := Stmt.yields_declare_some.1 h
      · exact ⟨d', he, .refl _⟩
      · exact ⟨d₁, he, (continues_assignFrom ha).later⟩
    · obtain ⟨d₁, he, hf⟩ := (Stmt.yields_declare_many fun x hx => hm ⟨x, hx⟩).1 h
      exact ⟨d₁, he, Later.warned.trans (continues_forgetAll hf).later⟩
  obtain ⟨d₁, he, hl⟩ := he
  exact ⟨[], d₁, ⟨rfl, he⟩, fun _ => id, List.nil_subset _, hl⟩

section Branch

variable {location : Location} {condition : Expr} {yes : Stmt} {no : Option Stmt}

theorem later_encodeElse {before afterYes : Versions}
    (h : Yields (Stmt.encodeElse returns location condition before afterYes no) d exits d') :
    Later d d' :=
  (Stmt.continues_encodeElse (fun s _ => Stmt.continues_encode returns s) h).later

theorem runs_condition
    (h : Yields ((Stmt.branch location condition yes no).encode returns) d exits d') :
    ∃ inner c, RunsWithin returns ⟨.expression condition, d⟩ d exits d' inner c := by
  obtain ⟨d₁, guard, d₂, d₃, yesExits, d₄, noExits, d₅, hc, hg, hp, hy, -, hn, hj, -⟩ :=
    Stmt.yields_branch.1 h
  have hyes := continues_branch hp (Stmt.continues_encode returns yes hy)
  refine ⟨[], d₁, ⟨rfl, hc⟩, fun _ => id, List.nil_subset _, ?_⟩
  exact (continues_valueOf hg).later.trans (hyes.later.trans ((later_encodeElse hn).trans
    (continues_assignAll (yields_mergeVersions.1 hj)).later))

theorem runs_yes {guard : Term} {d₁ d₂ d₃ : Draft}
    (h : Yields ((Stmt.branch location condition yes no).encode returns) d exits d')
    (hc : Yields condition.encode d () d₁) (hg : Yields (valueOf condition) d₁ guard d₂)
    (hp : Yields (pushPath condition true) d₂ () d₃) :
    ∃ inner c, RunsWithin returns ⟨.statement yes, d₃⟩ d exits d' inner c := by
  obtain ⟨e₁, guard', e₂, e₃, yesExits, d₄, noExits, d₅, hc', hg', hp', hy, -, hn, hj, rfl⟩ :=
    Stmt.yields_branch.1 h
  obtain ⟨-, rfl⟩ := hc.unique hc'
  obtain ⟨rfl, rfl⟩ := hg.unique hg'
  obtain ⟨-, rfl⟩ := hp.unique hp'
  refine ⟨yesExits, d₄, hy, fun _ ho => ?_, List.subset_append_left _ _, ?_⟩
  · exact ((continues_encode hc).trans (continues_valueOf hg)).open_iff.1 (open_of_pushPath hp ho)
  · exact Later.withPath.trans ((later_encodeElse hn).trans
      (continues_assignAll (yields_mergeVersions.1 hj)).later)

theorem runs_no {no : Stmt} {guard : Term} {yesExits : List Term} {d₁ d₂ d₃ d₄ d₅ d₆ : Draft}
    (h : Yields ((Stmt.branch location condition yes (some no)).encode returns) d exits d')
    (hc : Yields condition.encode d () d₁) (hg : Yields (valueOf condition) d₁ guard d₂)
    (hp : Yields (pushPath condition true) d₂ () d₃)
    (hy : Yields (yes.encode returns) d₃ yesExits d₄)
    (hq : Yields (pushPath condition false) d₄.popped () d₅)
    (hr : Yields (restore d₂.versions d₄.popped.versions location) d₅ () d₆) :
    ∃ inner c, RunsWithin returns ⟨.statement no, d₆⟩ d exits d' inner c := by
  obtain ⟨e₁, guard', e₂, e₃, yesExits', e₄, noExits, e₇, hc', hg', hp', hy', -, hn, hj, rfl⟩ :=
    Stmt.yields_branch.1 h
  obtain ⟨-, rfl⟩ := hc.unique hc'
  obtain ⟨rfl, rfl⟩ := hg.unique hg'
  obtain ⟨-, rfl⟩ := hp.unique hp'
  obtain ⟨rfl, rfl⟩ := hy.unique hy'
  obtain ⟨e₅, e₆, c, hq', hr', hno, -, rfl⟩ := Stmt.yields_encodeElse.1 hn
  obtain ⟨-, rfl⟩ := hq.unique hq'
  obtain ⟨-, rfl⟩ := hr.unique hr'
  have hyes := continues_branch hp (Stmt.continues_encode returns yes hy)
  refine ⟨noExits, c, hno, fun _ ho => ?_, List.subset_append_right _ _, ?_⟩
  · refine ((continues_encode hc).trans ((continues_valueOf hg).trans hyes)).open_iff.1 ?_
    exact open_of_pushPath hq ((continues_assignAll (yields_restore.1 hr)).open_iff.1 ho)
  · exact Later.withPath.trans (continues_assignAll (yields_mergeVersions.1 hj)).later

end Branch

section Loop

variable {location : Location} {written : List Nat} {condition step : Option Expr} {body : Stmt}

theorem open_of_enter (he : Yields (Stmt.enter condition) d () d') (ho : d'.Open m) : d.Open m := by
  cases condition with
  | none =>
    obtain ⟨-, rfl⟩ := yields_pure.1 he
    exact ho
  | some condition =>
    obtain ⟨d₁, hc, hp⟩ := yields_seq.1 he
    exact (continues_encode hc).open_iff.1 (open_of_pushPath hp ho)

theorem later_leave (hl : Yields (Stmt.leave condition) d () d') : Later d d' := by
  cases condition with
  | none =>
    obtain ⟨-, rfl⟩ := yields_pure.1 hl
    exact .refl _
  | some condition =>
    obtain ⟨-, rfl⟩ := yields_popPath.1 hl
    exact .withPath

/-- Forgetting before a loop opens no path. -/
theorem open_of_forgetAll (hf : Yields (forgetAll written location) (d.warned location .loop) () d')
    (ho : d'.Open m) : d.Open m :=
  (continues_forgetAll hf).open_iff.1 ho

theorem runs_test {condition : Expr} {d₁ : Draft}
    (h : Stmt.EncodesTurn returns location written (some condition) step body d exits d')
    (hf : Yields (forgetAll written location) (d.warned location .loop) () d₁) :
    ∃ inner c, RunsWithin returns ⟨.expression condition, d₁⟩ d exits d' inner c := by
  obtain ⟨e₁, e₂, e₃, e₄, e₅, hf', he, hb, hs, hl, hf''⟩ := h
  obtain ⟨-, rfl⟩ := hf.unique hf'
  obtain ⟨c, hc, hp⟩ := yields_seq.1 he
  obtain ⟨t, e, hv, rfl⟩ := yields_pushPath.1 hp
  refine ⟨[], c, ⟨rfl, hc⟩, fun _ => open_of_forgetAll hf, List.nil_subset _, ?_⟩
  exact (continues_valueOf hv).later.trans (Later.pushed.trans
    ((Stmt.continues_encode returns body hb).later.trans
      ((Stmt.continues_encodeOptional hs).later.trans
        ((later_leave hl).trans (continues_forgetAll hf'').later))))

theorem runs_body {d₁ d₂ : Draft}
    (h : Stmt.EncodesTurn returns location written condition step body d exits d')
    (hf : Yields (forgetAll written location) (d.warned location .loop) () d₁)
    (he : Yields (Stmt.enter condition) d₁ () d₂) :
    ∃ inner c, RunsWithin returns ⟨.statement body, d₂⟩ d exits d' inner c := by
  obtain ⟨e₁, e₂, e₃, e₄, e₅, hf', he', hb, hs, hl, hf''⟩ := h
  obtain ⟨-, rfl⟩ := hf.unique hf'
  obtain ⟨-, rfl⟩ := he.unique he'
  refine ⟨exits, e₃, hb, fun _ ho => open_of_forgetAll hf (open_of_enter he ho),
    List.Subset.refl _, ?_⟩
  exact (Stmt.continues_encodeOptional hs).later.trans
    ((later_leave hl).trans (continues_forgetAll hf'').later)

theorem runs_step {step : Expr} {bodyExits : List Term} {d₁ d₂ d₃ : Draft}
    (h : Stmt.EncodesTurn returns location written condition (some step) body d exits d')
    (hf : Yields (forgetAll written location) (d.warned location .loop) () d₁)
    (he : Yields (Stmt.enter condition) d₁ () d₂)
    (hb : Yields (body.encode returns) d₂ bodyExits d₃) :
    ∃ inner c, RunsWithin returns ⟨.expression step, d₃⟩ d exits d' inner c := by
  obtain ⟨e₁, e₂, e₃, e₄, e₅, hf', he', hb', hs, hl, hf''⟩ := h
  obtain ⟨-, rfl⟩ := hf.unique hf'
  obtain ⟨-, rfl⟩ := he.unique he'
  obtain ⟨-, rfl⟩ := hb.unique hb'
  refine ⟨[], e₄, ⟨rfl, hs⟩, fun _ ho => ?_, List.nil_subset _, ?_⟩
  · exact open_of_forgetAll hf (open_of_enter he
      ((Stmt.continues_encode returns body hb).open_iff.1 ho))
  · exact (later_leave hl).trans (continues_forgetAll hf'').later

theorem runs_start {first : Stmt}
    (h : Yields ((Stmt.forLoop location (some first) condition step body).encode returns)
      d exits d') :
    ∃ inner c, RunsWithin returns ⟨.statement first, d⟩ d exits d' inner c := by
  obtain ⟨startExits, d₀, bodyExits, hs, ht, rfl⟩ := Stmt.yields_forLoop.1 h
  exact ⟨startExits, d₀, hs, fun _ => id, List.subset_append_left _ _,
    (Stmt.continues_turn (Stmt.continues_encode returns body) ht).later⟩

theorem runs_turn {first : Option Stmt} {startExits : List Term} {d₁ : Draft}
    (h : Yields ((Stmt.forLoop location first condition step body).encode returns) d exits d')
    (hs : Yields (Stmt.start returns first) d startExits d₁) :
    ∃ inner c, RunsWithin returns ⟨.turn location (ordered (body.writes
      ++ Stmt.writesOfExpr condition ++ Stmt.writesOfExpr step)) condition step body, d₁⟩
        d exits d' inner c := by
  obtain ⟨startExits', d₀, bodyExits, hs', ht, rfl⟩ := Stmt.yields_forLoop.1 h
  obtain ⟨rfl, rfl⟩ := hs.unique hs'
  have hstart := Stmt.continues_start (fun s _ => Stmt.continues_encode returns s) hs
  exact ⟨bodyExits, d', ht, fun _ => hstart.open_iff.1, List.subset_append_right _ _, .refl _⟩

end Loop

theorem runs_value {location : Location} {e : Expr}
    (h : Yields ((Stmt.ret location (some e)).encode returns) d exits d') :
    ∃ inner c, RunsWithin returns ⟨.expression e, d⟩ d exits d' inner c := by
  obtain ⟨d₁, he, hg, -⟩ := Stmt.yields_ret_some.1 h
  exact ⟨[], d₁, ⟨rfl, he⟩, fun _ => id, List.nil_subset _, (Stmt.continues_giveBack hg).later⟩

/-- A part of a run runs inside it. -/
theorem Part.runs (hp : Part returns role v w) (h : v.Runs returns exits d') :
    ∃ inner c, RunsWithin returns w v.draft exits d' inner c := by
  cases hp with
  | first => exact runs_first h
  | rest hs => exact runs_rest h hs
  | gated hs ht => exact runs_gated h hs ht
  | block => exact ⟨exits, d', h, fun _ => id, List.Subset.refl _, .refl _⟩
  | initial => exact runs_initial h
  | expression =>
    obtain ⟨rfl, he⟩ := Stmt.yields_expression.1 h
    exact ⟨[], d', ⟨rfl, he⟩, fun _ => id, List.Subset.refl _, .refl _⟩
  | condition => exact runs_condition h
  | yes hc hg hp => exact runs_yes h hc hg hp
  | no hc hg hp hy hq hr => exact runs_no h hc hg hp hy hq hr
  | testFirst =>
    exact ⟨exits, d', Stmt.yields_whileLoop_testFirst.1 h, fun _ => id, List.Subset.refl _, .refl _⟩
  | bodyFirst =>
    exact ⟨exits, d', Stmt.yields_whileLoop_bodyFirst.1 h, fun _ => id, List.Subset.refl _, .refl _⟩
  | start => exact runs_start h
  | turn hs => exact runs_turn h hs
  | test hf => exact runs_test h hf
  | body hf he => exact runs_body h hf he
  | step hf he hb => exact runs_step h hf he hb
  | value => exact runs_value h

theorem later_pushPath {e : Expr} {sign : Bool} (h : Yields (pushPath e sign) d () d') :
    Later d d' := by
  obtain ⟨t, d₁, hv, rfl⟩ := yields_pushPath.1 h
  exact (continues_valueOf hv).later.trans .pushed

theorem later_enter {condition : Option Expr} (h : Yields (Stmt.enter condition) d () d') :
    Later d d' := by
  cases condition with
  | none =>
    obtain ⟨-, rfl⟩ := yields_pure.1 h
    exact .refl _
  | some condition =>
    obtain ⟨d₁, hc, hp⟩ := yields_seq.1 h
    exact (continues_encode hc).later.trans (later_pushPath hp)

theorem later_forgetAll_warned {location : Location} {written : List Nat}
    (h : Yields (forgetAll written location) (d.warned location .loop) () d') : Later d d' :=
  Later.warned.trans (continues_forgetAll h).later

/-- A part is encoded after the whole was begun. -/
theorem Part.later (hp : Part returns role v w) : Later v.draft w.draft := by
  cases hp with
  | rest hs => exact (Stmt.continues_encode returns _ hs).later
  | gated hs => exact (Stmt.continues_encode returns _ hs).later.trans .pushed
  | yes hc hg hp =>
    exact (continues_encode hc).later.trans ((continues_valueOf hg).later.trans (later_pushPath hp))
  | no hc hg hp hy hq hr =>
    have hyes := continues_branch hp (Stmt.continues_encode returns _ hy)
    have hno := (later_pushPath hq).trans (continues_assignAll (yields_restore.1 hr)).later
    exact (continues_encode hc).later.trans ((continues_valueOf hg).later.trans
      (hyes.later.trans hno))
  | turn hs => exact (Stmt.continues_start (fun s _ => Stmt.continues_encode returns s) hs).later
  | test hf => exact later_forgetAll_warned hf
  | body hf he => exact (later_forgetAll_warned hf).trans (later_enter he)
  | step hf he hb =>
    exact (later_forgetAll_warned hf).trans
      ((later_enter he).trans (Stmt.continues_encode returns _ hb).later)
  | _ => exact .refl _

theorem Reaches.later (h : Reaches returns v w) : Later v.draft w.draft := by
  induction h with
  | refl => exact .refl _
  | tail _ hp ih =>
    obtain ⟨role, hp⟩ := hp
    exact ih.trans hp.later

theorem Part.reaches (h : Part returns role v w) : Reaches returns v w := .single ⟨role, h⟩

theorem Reaches.then {x : Visit} (h : Reaches returns v w) (hp : Part returns role w x) :
    Reaches returns v x :=
  h.tail ⟨role, hp⟩

/-- All that is reached from a run runs inside it. -/
theorem Reaches.runs (hr : Reaches returns v w) (h : v.Runs returns exits d') :
    ∃ inner c, RunsWithin returns w v.draft exits d' inner c := by
  induction hr with
  | refl => exact ⟨exits, d', h, fun _ => id, List.Subset.refl _, .refl _⟩
  | tail _ hp ih =>
    obtain ⟨middle, c, h₁⟩ := ih
    obtain ⟨role, hp⟩ := hp
    obtain ⟨inner, c', h₂⟩ := hp.runs h₁.runs
    exact ⟨inner, c', h₁.trans h₂⟩

/-! ### Every part is visited -/

variable {q : Piece}

theorem exists_part_sequence {body : List Stmt}
    (h : Yields (Stmt.encodeAll returns body) d exits d')
    (hq : (role, q) ∈ (Piece.sequence body).parts) :
    ∃ c, Part returns role ⟨.sequence body, d⟩ ⟨q, c⟩ := by
  cases body with
  | nil => cases hq
  | cons s rest =>
    simp only [Piece.parts, List.mem_cons, Prod.mk.injEq, List.not_mem_nil, or_false] at hq
    obtain ⟨rfl, rfl⟩ | ⟨rfl, rfl⟩ := hq
    · exact ⟨d, .first⟩
    · obtain ⟨first, d₁, hs, ⟨hn, -⟩ | ⟨taken, later, d₂, ht, -⟩⟩ :=
        Stmt.yields_encodeAll_cons.1 h
      · obtain rfl := eq_nil_of_disjunction hn
        exact ⟨d₁, .rest hs⟩
      · exact ⟨_, .gated hs ht⟩

theorem exists_part_branch {location : Location} {condition : Expr} {yes : Stmt} {no : Option Stmt}
    (h : Yields ((Stmt.branch location condition yes no).encode returns) d exits d')
    (hq : (role, q) ∈ (Stmt.branch location condition yes no).parts) :
    ∃ c, Part returns role ⟨.statement (.branch location condition yes no), d⟩ ⟨q, c⟩ := by
  obtain ⟨d₁, guard, d₂, d₃, yesExits, d₄, noExits, d₅, hc, hg, hp, hy, -, hn, -⟩ :=
    Stmt.yields_branch.1 h
  simp only [Stmt.parts, List.mem_cons, Prod.mk.injEq, List.mem_map,
    Option.mem_toList] at hq
  obtain ⟨rfl, rfl⟩ | ⟨rfl, rfl⟩ | ⟨no, rfl, rfl, rfl⟩ := hq
  · exact ⟨d, .condition⟩
  · exact ⟨d₃, .yes hc hg hp⟩
  · obtain ⟨e₁, e₂, e₃, hq, hr, -⟩ := Stmt.yields_encodeElse.1 hn
    exact ⟨e₂, .no hc hg hp hy hq hr⟩

theorem exists_part_turn {location : Location} {written : List Nat} {condition step : Option Expr}
    {body : Stmt} (h : Stmt.EncodesTurn returns location written condition step body d exits d')
    (hq : (role, q) ∈ (Piece.turn location written condition step body).parts) :
    ∃ c, Part returns role ⟨.turn location written condition step body, d⟩ ⟨q, c⟩ := by
  obtain ⟨d₁, d₂, d₃, d₄, d₅, hf, he, hb, -⟩ := h
  simp only [Piece.parts, List.mem_append, List.mem_cons, Prod.mk.injEq, List.mem_map,
    Option.mem_toList] at hq
  obtain ⟨e, rfl, rfl, rfl⟩ | ⟨rfl, rfl⟩ | ⟨e, rfl, rfl, rfl⟩ := hq
  · exact ⟨d₁, .test hf⟩
  · exact ⟨d₂, .body hf he⟩
  · exact ⟨d₃, .step hf he hb⟩

theorem exists_part_forLoop {location : Location} {first : Option Stmt}
    {condition step : Option Expr} {body : Stmt}
    (h : Yields ((Stmt.forLoop location first condition step body).encode returns) d exits d')
    (hq : (role, q) ∈ (Stmt.forLoop location first condition step body).parts) :
    ∃ c, Part returns role ⟨.statement (.forLoop location first condition step body), d⟩
      ⟨q, c⟩ := by
  obtain ⟨startExits, d₀, bodyExits, hs, -⟩ := Stmt.yields_forLoop.1 h
  simp only [Stmt.parts, List.mem_append, List.mem_cons, Prod.mk.injEq, List.mem_map,
    Option.mem_toList, List.not_mem_nil, or_false] at hq
  obtain ⟨s, rfl, rfl, rfl⟩ | ⟨rfl, rfl⟩ := hq
  · exact ⟨d, .start⟩
  · exact ⟨d₀, .turn hs⟩

/-- Every part of a piece that is encoded is visited. -/
theorem exists_part (h : v.Runs returns exits d') (hq : (role, q) ∈ v.piece.parts) :
    ∃ c, Part returns role v ⟨q, c⟩ := by
  obtain ⟨piece, d⟩ := v
  cases piece with
  | sequence body => exact exists_part_sequence h hq
  | turn location written condition step body => exact exists_part_turn h hq
  | expression e => cases hq
  | statement s =>
    cases s with
    | block location body =>
      obtain ⟨rfl, rfl⟩ : role = .inner ∧ q = .sequence body := by
        simpa [Piece.parts, Stmt.parts] using hq
      exact ⟨d, .block⟩
    | declare location declarations initial =>
      simp only [Piece.parts, Stmt.parts, List.mem_map, Option.mem_toList,
        Prod.mk.injEq] at hq
      obtain ⟨e, rfl, rfl, rfl⟩ := hq
      exact ⟨d, .initial⟩
    | expression location e =>
      obtain ⟨rfl, rfl⟩ : role = .inner ∧ q = .expression e := by
        simpa [Piece.parts, Stmt.parts] using hq
      exact ⟨d, .expression⟩
    | branch location condition yes no => exact exists_part_branch h hq
    | whileLoop location condition body isBodyFirst =>
      cases isBodyFirst
      · simp only [Piece.parts, Stmt.parts, Bool.false_eq_true, if_false, List.mem_singleton,
          Prod.mk.injEq] at hq
        obtain ⟨rfl, rfl⟩ := hq
        exact ⟨d, .testFirst⟩
      · simp only [Piece.parts, Stmt.parts, if_true, List.mem_singleton, Prod.mk.injEq] at hq
        obtain ⟨rfl, rfl⟩ := hq
        exact ⟨d, .bodyFirst⟩
    | forLoop location first condition step body => exact exists_part_forLoop h hq
    | ret location value =>
      simp only [Piece.parts, Stmt.parts, List.mem_map, Option.mem_toList,
        Prod.mk.injEq] at hq
      obtain ⟨e, rfl, rfl, rfl⟩ := hq
      exact ⟨d, .value⟩

end Visit

end PathFormula
