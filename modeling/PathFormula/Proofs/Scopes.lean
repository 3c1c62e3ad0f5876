import PathFormula.Proofs.Sessions
import PathFormula.Report

/-!
# Scopes

What happens in a scope ends with it: after a push, actions that close their own scopes only, and a
pop, the session is as before but for its runner (`scopes_restore`). The check of a function is of
this kind.
-/
namespace PathFormula

namespace Solver

/-- No scope is closed but those that were opened here, and all of these are; `depth` of them are
open at first. A reset does not respect scopes. -/
def Balanced : Nat → List Action → Prop
  | depth, [] => depth = 0
  | depth, .push :: rest => Balanced (depth + 1) rest
  | 0, .pop :: _ => False
  | depth + 1, .pop :: rest => Balanced depth rest
  | _, .reset :: _ => False
  | depth, .constant .. :: rest | depth, .assert _ :: rest | depth, .check _ :: rest
  | depth, .attach _ :: rest => Balanced depth rest

/-- Actions that open and close nothing. -/
theorem balanced_asserts (terms : List Term) {rest : List Action} (h : Balanced 0 rest) :
    Balanced 0 (terms.map Action.assert ++ rest) := by
  induction terms with
  | nil => exact h
  | cons t terms ih => exact ih

namespace Session

/-- The session `outer` with some scopes on top. Without the names that these declare, the declared
names are those of `outer`. -/
structure Extends (outer : Session) (own : List Frame) (session : Session) : Prop where
  base : session.base = outer.base
  scopes : session.scopes = own ++ outer.scopes
  declared : session.declared.filter (fun name => name ∉ own.flatMap Frame.names) = outer.declared

namespace Extends

variable {outer session : Session} {frame : Frame} {own : List Frame}

theorem refl (session : Session) : session.Extends [] session where
  base := rfl
  scopes := rfl
  declared := List.filter_eq_self.2 fun _ _ => by simp

theorem eq (h : outer.Extends [] session) : session = { outer with runner := session.runner } := by
  obtain ⟨hbase, hscopes, hdeclared⟩ := h
  obtain ⟨base, scopes, declared, runner⟩ := session
  have hself : declared.filter (fun name => name ∉ ([] : List Frame).flatMap Frame.names) =
      declared := List.filter_eq_self.2 fun _ _ => by simp
  cases hbase
  cases hscopes
  cases hself.symm.trans hdeclared
  rfl

theorem withRunner (h : outer.Extends own session) (runner : Option Runner) :
    outer.Extends own { session with runner } := ⟨h.base, h.scopes, h.declared⟩

theorem push (h : outer.Extends own session) : outer.Extends ({} :: own) session.push where
  base := h.base
  scopes := congrArg (List.cons ({} : Frame)) h.scopes
  declared := h.declared

theorem pop (h : outer.Extends (frame :: own) session) :
    ∃ session', session.pop = .ok session' ∧ outer.Extends own session' := by
  refine ⟨{ session with
    scopes := own ++ outer.scopes
    declared := session.declared.filter fun name => name ∉ frame.names }, ?_, h.base, rfl, ?_⟩
  · simp [Session.pop, h.scopes, Frame.names]
  rw [← h.declared, List.filter_filter]
  refine List.filter_congr fun name _ => ?_
  rw [List.flatMap_cons, Bool.and_comm]
  simp

/-- A change of the innermost frame that declares nothing. -/
theorem modify (h : outer.Extends (frame :: own) session) {change : Frame → Frame}
    (hc : (change frame).names = frame.names) :
    outer.Extends (change frame :: own) (session.modifyInnermost change) := by
  have hnew : session.modifyInnermost change =
      { session with scopes := change frame :: (own ++ outer.scopes) } := by
    rw [modifyInnermost, h.scopes, List.cons_append]
  rw [hnew]
  refine ⟨h.base, rfl, ?_⟩
  rw [List.flatMap_cons, hc, ← List.flatMap_cons]
  exact h.declared

theorem declare (h : outer.Extends (frame :: own) session) (s : Symbol) :
    ∃ frame', outer.Extends (frame' :: own) (session.declare s) := by
  unfold Session.declare
  split
  · exact ⟨frame, h⟩
  · rename_i hn
    refine ⟨{ frame with declarations := frame.declarations ++ [s] }, ?_⟩
    rw [modifyInnermost, h.scopes, List.cons_append]
    refine ⟨h.base, rfl, ?_⟩
    -- the new name was not declared, so nothing but itself is lost with it
    have hsame : session.declared.filter (fun name => name ∉ ({ frame with
        declarations := frame.declarations ++ [s] } :: own).flatMap Frame.names) =
          session.declared.filter fun name => name ∉ (frame :: own).flatMap Frame.names := by
      refine List.filter_congr fun name hm => ?_
      have hne : name ≠ s.name := fun he => hn (he ▸ hm)
      simp [Frame.names, hne]
    rw [List.filter_cons, hsame, h.declared]
    simp [Frame.names]

theorem assert (h : outer.Extends (frame :: own) session) (t : Term) :
    ∃ frame', outer.Extends (frame' :: own) (session.assert t) := by
  have hall : ∀ symbols : List Symbol, ∃ frame',
      outer.Extends (frame' :: own) (symbols.foldl Session.declare session) := by
    intro symbols
    induction symbols generalizing session frame with
    | nil => exact ⟨frame, h⟩
    | cons s rest ih =>
      obtain ⟨frame', hd⟩ := h.declare s
      exact ih hd
  obtain ⟨frame', hd⟩ := hall t.freeSymbols
  exact ⟨_, hd.modify rfl⟩

theorem check (h : outer.Extends own session) (terms : List Term) :
    outer.Extends own (session.check terms).2 := by
  unfold Session.check
  split
  · exact h
  · dsimp only
    split
    · exact h.withRunner _
    · split <;> exact h.withRunner _

/-- Balanced actions above a session touch none of its own frames. -/
theorem after (h : outer.Extends (frame :: own) session) {actions : List Action}
    (hb : Balanced own.length actions) :
    ∃ frame', outer.Extends [frame'] (session.after actions) := by
  induction actions generalizing session frame own with
  | nil =>
    obtain rfl := List.length_eq_zero_iff.1 hb
    exact ⟨frame, h⟩
  | cons action rest ih =>
    cases action with
    | constant name sort =>
      obtain ⟨frame', hd⟩ := h.declare ⟨name, sort⟩
      exact ih hd hb
    | assert t =>
      obtain ⟨frame', ha⟩ := h.assert t
      exact ih ha hb
    | check terms => exact ih (h.check terms) hb
    | push => exact ih h.push hb
    | pop =>
      cases own with
      | nil => exact hb.elim
      | cons frame' own =>
        obtain ⟨session', hp, he⟩ := h.pop
        have hrun : Action.pop.run session = session' := by
          simp [Action.run, hp, Except.toOption]
        rw [Session.after, List.foldl_cons, hrun]
        exact ih he hb
    | reset => exact hb.elim
    | attach runner => exact ih (h.withRunner _) hb

end Extends

theorem pop_after_balanced (session : Session) {actions : List Action} (h : Balanced 0 actions) :
    ∃ runner, (session.after (.push :: actions)).pop = .ok { session with runner } := by
  obtain ⟨frame, ha⟩ := (Extends.refl session).push.after h
  obtain ⟨session', hp, he⟩ := ha.pop
  exact ⟨session'.runner, he.eq ▸ hp⟩

end Session

end Solver

open Solver

theorem Draft.assertInto_eq (d : Draft) (session : Session) :
    d.assertInto session =
      session.after ((d.constraints.map Constraint.term).map Action.assert) := by
  rw [assertInto, Session.after, List.map_map, List.foldl_map]
  rfl

/-- The check of a function is a push, balanced actions and a pop. -/
theorem FunctionReport.check_restores (report : FunctionReport) (session : Session)
    (terms : List Term) : ∃ runner, (report.check session terms).2 = { session with runner } := by
  unfold check
  cases report.outcome with
  | error e => exact ⟨session.runner, rfl⟩
  | ok d =>
    have hb :
        Balanced 0 ((d.constraints.map Constraint.term).map Action.assert ++ [.check terms]) :=
      balanced_asserts _ rfl
    obtain ⟨runner, hp⟩ := session.pop_after_balanced hb
    have hrun : session.after (.push ::
        ((d.constraints.map Constraint.term).map Action.assert ++ [.check terms])) =
          ((d.assertInto session.push).check terms).2 := by
      rw [Draft.assertInto_eq, ← List.cons_append, Session.after_concat]
      rfl
    rw [hrun] at hp
    refine ⟨runner, ?_⟩
    dsimp only
    rw [hp]

/-- A push, actions that close only what they open, and a pop restore all of a session but its
runner. The check of a function therefore does, whatever the runner answers, and one that was not
encoded does nothing at all. Without an open scope a pop fails and changes nothing. -/
theorem scopes_restore :
    (∀ (session : Session) (actions : List Action), Balanced 0 actions →
      ∃ runner, (session.after (.push :: actions)).pop = .ok { session with runner }) ∧
    (∀ (report : FunctionReport) (session : Session) (terms : List Term),
      (∃ runner, (report.check session terms).2 = { session with runner }) ∧
        (report.isEncoded = false → report.check session terms = (none, session))) ∧
    ∀ session : Session, session.depth = 0 →
      (∃ failure, session.pop = .error failure) ∧ Action.pop.run session = session := by
  refine ⟨fun session _ hb => session.pop_after_balanced hb, fun report session terms => ?_,
    fun session hd => ?_⟩
  · refine ⟨report.check_restores session terms, fun he => ?_⟩
    unfold FunctionReport.check
    cases ho : report.outcome with
    | error e => rfl
    | ok d =>
      simp [FunctionReport.isEncoded, ho, Except.isOk, Except.toBool] at he
  · have hp := Session.pop_eq_error (List.length_eq_zero_iff.1 hd)
    exact ⟨⟨_, hp⟩, by simp [Action.run, hp, Except.toOption]⟩

/-- A name is declared in a nested scope, checked, and declared again after that scope. -/
theorem nested_scopes_restore :
    let session := Session.after {} [.constant "x" .int, .push, .assert (.symbol ⟨"y", .bool⟩)]
    let actions := [.assert (.lt (.symbol ⟨"x", .int⟩) (.symbol ⟨"z", .int⟩)), .push,
      .constant "w" .bool, .check [.symbol ⟨"z", .int⟩], .pop, .constant "w" .int]
    let report : FunctionReport := ⟨"C", "f", {}, .error .finalized, []⟩
    Balanced 0 actions ∧
      (∃ runner, (session.after (.push :: actions)).pop = .ok { session with runner }) ∧
      report.isEncoded = false ∧ report.check session [] = (none, session) ∧
      Session.depth {} = 0 ∧ Action.pop.run {} = {} := by
  intro session actions report
  obtain ⟨hrestore, hcheck, hpop⟩ := scopes_restore
  exact ⟨rfl, hrestore session actions rfl, rfl, (hcheck report session []).2 rfl, rfl,
    (hpop {} rfl).2⟩

end PathFormula
