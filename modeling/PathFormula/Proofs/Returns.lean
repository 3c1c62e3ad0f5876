import Mathlib.Control.Traversable.Instances
import PathFormula.Proofs.Opening
import PathFormula.Proofs.Visits
import PathFormula.Source.Builder

/-!
# What a return gates

After a return, the rest of every block around it is encoded where the return was not taken. The
step of a loop around it, and the condition after the body of one, are not: they are encoded
wherever the body is entered (`holds_guard_iff`).
-/
namespace PathFormula

open Source

namespace Visit

open Draft

/-- Where an expression follows a return. -/
inductive Place where
  /-- In the rest of a block around the return. -/
  | block
  /-- In the step of a loop with the return in its body, or in the condition after the body. -/
  | loop
  /-- In the step of a loop with the return in its start; the body is encoded from `entry`. -/
  | start (entry : Draft)

/-- What follows a return that was taken is bound all the same. -/
def Place.Binds (m : Model) : Place → Prop
  | .block => False
  | .loop => True
  | .start entry => entry.Open m

section

variable (returns : List Declaration)

/-- Two visits inside a third one, the second after the first. -/
inductive Follows (w : Visit) : Place → Visit → Visit → Prop where
  | block {r q : Visit} (hr : Part returns .first w r) (hq : Part returns .rest w q) :
      Follows w .block r q
  | loop {r q : Visit} (hr : Part returns .body w r) (hq : Part returns .step w q) :
      Follows w .loop r q
  | start {r t b q : Visit} (hr : Part returns .start w r) (ht : Part returns .turn w t)
      (hb : Part returns .body t b) (hq : Part returns .step t q) : Follows w (.start b.draft) r q

/-- Inside a visit, an expression that is encoded from a draft follows a return that is taken under
a condition. -/
def FollowsReturn (whole : Visit) (place : Place) (taken : Term) (e : Expr) (c : Draft) : Prop :=
  ∃ w r q location value v v', Reaches returns whole w ∧ Follows returns w place r q ∧
    Reaches returns r ⟨.statement (.ret location value), v⟩ ∧
      Yields ((Stmt.ret location value).encode returns) v [taken] v' ∧
        Reaches returns q ⟨.expression e, c⟩

end

variable {returns : List Declaration} {v w r q t b : Visit} {place : Place} {exits : List Term}
  {taken : Term} {e : Expr} {d d' c : Draft} {m : Model}

/-- A return records the path that it is encoded under. -/
theorem holds_taken_iff {location : Location} {value : Option Expr}
    (h : Yields ((Stmt.ret location value).encode returns) d [taken] d') :
    taken.Holds m ↔ d.Open m := by
  have ht : taken = d'.pathCondition := by
    cases value with
    | none =>
      obtain ⟨he, rfl⟩ := Stmt.yields_ret_none.1 h
      exact List.singleton_inj.1 he
    | some e =>
      obtain ⟨d₁, -, -, he⟩ := Stmt.yields_ret_some.1 h
      exact List.singleton_inj.1 he
  rw [ht]
  exact (Stmt.continues_ret h).open_iff

/-- A return inside a run is one of its exits, and taken only where the run is on the path. -/
theorem mem_exits_of_reaches {location : Location} {value : Option Expr}
    (hr : Reaches returns r ⟨.statement (.ret location value), d⟩)
    (ht : Yields ((Stmt.ret location value).encode returns) d [taken] d')
    (h : r.Runs returns exits c) : taken ∈ exits ∧ (taken.Holds m → r.draft.Open m) := by
  obtain ⟨inner, e, hw⟩ := hr.runs h
  obtain ⟨rfl, rfl⟩ := hw.runs.unique ht
  exact ⟨hw.exits (List.mem_singleton.2 rfl), fun hm => hw.opens m ((holds_taken_iff ht).1 hm)⟩

theorem eq_of_reaches_expression (h : Reaches returns ⟨.expression e, d⟩ w) :
    w = ⟨.expression e, d⟩ := by
  obtain rfl | ⟨x, ⟨role, hp⟩, -⟩ := Relation.ReflTransGen.cases_head h
  · rfl
  · cases hp

/-- The step of a loop is encoded under the path of the body. -/
theorem open_step_iff (hb : Part returns .body t b) (hq : Part returns .step t q)
    (hr : Reaches returns q ⟨.expression e, c⟩) : c.Open m ↔ b.draft.Open m := by
  cases hb with
  | body hf he =>
    cases hq with
    | step hf' he' hbody =>
      obtain ⟨-, rfl⟩ := hf.unique hf'
      obtain ⟨-, rfl⟩ := he.unique he'
      cases eq_of_reaches_expression hr
      exact (Stmt.continues_encode returns _ hbody).open_iff

theorem Follows.runs (hf : Follows returns w place r q) (h : w.Runs returns exits d') :
    ∃ inner c, RunsWithin returns q w.draft exits d' inner c := by
  cases hf with
  | block _ hq => exact hq.runs h
  | loop _ hq => exact hq.runs h
  | start _ ht _ hq =>
    obtain ⟨middle, d₁, h₁⟩ := ht.runs h
    obtain ⟨inner, d₂, h₂⟩ := hq.runs h₁.runs
    exact ⟨inner, d₂, h₁.trans h₂⟩

/-- The rest of a block is not on the path where a return before it was taken. -/
theorem not_open_of_block (hr : Part returns .first w r) (hq : Part returns .rest w q)
    (h : w.Runs returns exits d') {location : Location} {value : Option Expr} {x x' : Draft}
    (hret : Reaches returns r ⟨.statement (.ret location value), x⟩)
    (ht : Yields ((Stmt.ret location value).encode returns) x [taken] x')
    (he : Reaches returns q ⟨.expression e, c⟩) (hm : taken.Holds m) : ¬ c.Open m := by
  intro ho
  obtain ⟨inner, d₁, hrun⟩ := hq.runs h
  obtain ⟨_, _, hwithin⟩ := he.runs hrun.runs
  have hopen := hwithin.opens m ho
  cases hr with
  | first =>
    cases hq with
    | rest hs =>
      -- the rest is gated unless the statement before has no exits, but the return is one
      obtain ⟨hmem, -⟩ := mem_exits_of_reaches (m := m) hret ht hs
      cases hmem
    | gated hs hd =>
      obtain ⟨hmem, -⟩ := mem_exits_of_reaches (m := m) hret ht hs
      have htaken := (holds_disjunction hd).2 (flow_returned.2 ⟨taken, hmem, hm⟩)
      exact Term.holds_not.1 (open_pushed.1 hopen).2 htaken

/-- The path of what follows a return, where the return was taken. -/
theorem open_iff_binds (hf : Follows returns w place r q) (h : w.Runs returns exits d')
    {location : Location} {value : Option Expr} {x x' : Draft}
    (hret : Reaches returns r ⟨.statement (.ret location value), x⟩)
    (ht : Yields ((Stmt.ret location value).encode returns) x [taken] x')
    (he : Reaches returns q ⟨.expression e, c⟩) (hm : taken.Holds m) :
    c.Open m ↔ place.Binds m := by
  cases hf with
  | block hr hq => exact iff_of_false (not_open_of_block hr hq h hret ht he hm) id
  | loop hr hq =>
    -- the path of the return lies within that of the body, which is that of the step
    obtain ⟨inner, d₁, hrun⟩ := hr.runs h
    have hopen := (mem_exits_of_reaches hret ht hrun.runs).2 hm
    exact iff_of_true ((open_step_iff hr hq he).2 hopen) trivial
  | start _ _ hb hq => exact open_step_iff hb hq he

variable {contract : Contract} {f : Function} {settings : Settings}

/-- Where a return was taken, nothing is demanded of the expressions in the rest of a block around
it, but everything in the step of a loop around it that was entered. -/
theorem holds_guard_iff (h : (f.analyze settings contract).outcome = .ok d) :
    ∃ o, Yields (do f.warnings; prepare contract f) { settings } () o ∧
      (∀ v, Reaches f.returns ⟨.sequence f.body, o⟩ v →
        (∃ exits c, v.Runs f.returns exits c) ∧
          ∀ role q, (role, q) ∈ v.piece.parts → ∃ c, Part f.returns role v ⟨q, c⟩) ∧
      ∀ place taken e c, FollowsReturn f.returns ⟨.sequence f.body, o⟩ place taken e c →
        ∃ new, c.constraints ++ new <+: d.constraints ∧
          List.Forall₂ Demand.StatedBy (d.demands e) (new.filter Constraint.isDemand) ∧
            ∀ k ∈ new, ∀ m, taken.Holds m → (k.guard.Holds m ↔ place.Binds m) := by
  obtain ⟨d₀, o, exits, d₁, hw, hp, hb, rfl⟩ := outcome_eq_ok.1 h
  have hrun : Visit.Runs f.returns ⟨.sequence f.body, o⟩ exits d₁ := hb
  refine ⟨o, yields_seq.2 ⟨d₀, hw, hp⟩, fun v hv => ?_, ?_⟩
  · obtain ⟨inner, c, hwithin⟩ := hv.runs hrun
    exact ⟨⟨inner, c, hwithin.runs⟩, fun role q hq => exists_part hwithin.runs hq⟩
  · rintro place taken e c ⟨w, r, q, location, value, x, x', hreach, hf, hret, ht, he⟩
    obtain ⟨wExits, wEnd, hwhole⟩ := hreach.runs hrun
    obtain ⟨qExits, qEnd, hq⟩ := hf.runs hwhole.runs
    obtain ⟨-, c', ⟨-, hy⟩, -, -, hafter⟩ := he.runs hq.runs
    have hemits := e.emits_encode hy
    have hlater : Later c' d₁ := hafter.trans (hq.after.trans hwhole.after)
    obtain ⟨new, hnew, hguard, hstates⟩ := hemits.states
    refine ⟨new, hnew ▸ hlater.constraints, ?_, fun k hk m hm => ?_⟩
    · have hd : d₁.finished.demands = c.demands :=
        hlater.demands.trans hemits.later.demands
      rw [hd]
      exact hstates
    · rw [hguard k hk]
      exact open_iff_binds hf hwhole.runs hret ht he hm

def checked (id : Nat) : Expr := .identifier ⟨id, {}, .bool⟩ "b" (some 2) false

/-- The call `require(b)`. -/
def check (id : Nat) : Expr :=
  .call ⟨id + 2, {}, .tuple []⟩
    (.identifier ⟨id + 1, {}, .function .require⟩ "require" none false) [checked id]

/-- A function of two flags: `for (; a; require(b)) { return; } require(b);`. -/
def impatient : Function :=
  ⟨0, "f", {}, [⟨1, "a", .bool, {}, none⟩, ⟨2, "b", .bool, {}, none⟩], [],
    [.forLoop {} none (some (.identifier ⟨3, {}, .bool⟩ "a" (some 1) false)) (some (check 4))
        (.block {} [.ret {} none]),
      .expression {} (check 7)], false, []⟩

theorem exists_demand {x : Demand} {new : List Constraint}
    (h : List.Forall₂ Demand.StatedBy [x] (new.filter Constraint.isDemand)) :
    ∃ k ∈ new, x.StatedBy k := by
  obtain ⟨k, rest, hk, -, hf⟩ := List.forall₂_cons_left_iff.1 h
  exact ⟨k, List.mem_of_mem_filter (hf ▸ List.mem_cons_self), hk⟩

theorem impatient_step_binds :
    ∃ d o taken, (impatient.analyze {} ⟨0, "C", {}, [], [impatient]⟩).outcome = .ok d ∧
      (∃ c, FollowsReturn [] ⟨.sequence impatient.body, o⟩ .loop taken (check 4) c ∧
        ∃ k ∈ d.constraints, (Demand.condition (checked 4)).StatedBy k ∧
          ∀ m, taken.Holds m → k.guard.Holds m) ∧
      ∃ c, FollowsReturn [] ⟨.sequence impatient.body, o⟩ .block taken (check 7) c ∧
        ∃ k ∈ d.constraints, (Demand.condition (checked 7)).StatedBy k ∧
          ∀ m, taken.Holds m → ¬ k.guard.Holds m := by
  have hok : (impatient.analyze {} ⟨0, "C", {}, [], [impatient]⟩).outcome.isOk = true := by
    decide +kernel
  cases hd : (impatient.analyze {} ⟨0, "C", {}, [], [impatient]⟩).outcome with
  | error e =>
    rw [hd] at hok
    cases hok
  | ok d =>
    obtain ⟨o, -, hvisits, hfollows⟩ := holds_guard_iff hd
    have hroot : Reaches [] ⟨.sequence impatient.body, o⟩ ⟨.sequence impatient.body, o⟩ := .refl
    obtain ⟨_, hfirst⟩ := (hvisits _ hroot).2 .first _ (.head _)
    have hfor := hroot.then hfirst
    obtain ⟨_, hturn⟩ := (hvisits _ hfor).2 .turn _ (.head _)
    have hloop := hfor.then hturn
    obtain ⟨_, hbody⟩ := (hvisits _ hloop).2 .body _ (.tail _ (.head _))
    obtain ⟨stepDraft, hstep⟩ := (hvisits _ hloop).2 .step _ (.tail _ (.tail _ (.head _)))
    have hin := hloop.then hbody
    obtain ⟨_, hblock⟩ := (hvisits _ hin).2 .inner _ (.head _)
    obtain ⟨retDraft, hret⟩ := (hvisits _ (hin.then hblock)).2 .first _ (.head _)
    obtain ⟨_, hrest⟩ := (hvisits _ hroot).2 .rest _ (.tail _ (.head _))
    have hafter := hroot.then hrest
    obtain ⟨_, hlast⟩ := (hvisits _ hafter).2 .first _ (.head _)
    obtain ⟨lastDraft, hcheck⟩ := (hvisits _ (hafter.then hlast)).2 .inner _ (.head _)
    have htaken :
        Yields ((Stmt.ret {} none).encode []) retDraft [retDraft.pathCondition] retDraft :=
      Stmt.yields_ret_none.2 ⟨rfl, rfl⟩
    have hstepped : FollowsReturn [] ⟨.sequence impatient.body, o⟩ .loop retDraft.pathCondition
        (check 4) stepDraft :=
      ⟨_, _, _, _, _, _, _, hloop, .loop hbody hstep, hblock.reaches.then hret, htaken, .refl⟩
    have hrested : FollowsReturn [] ⟨.sequence impatient.body, o⟩ .block retDraft.pathCondition
        (check 7) lastDraft :=
      ⟨_, _, _, _, _, _, _, hroot, .block hfirst hrest,
        ((hturn.reaches.then hbody).then hblock).then hret, htaken, hlast.reaches.then hcheck⟩
    obtain ⟨new, hprefix, hstates, hguards⟩ := hfollows _ _ _ _ hstepped
    obtain ⟨k, hk, hs⟩ := exists_demand hstates
    obtain ⟨new', hprefix', hstates', hguards'⟩ := hfollows _ _ _ _ hrested
    obtain ⟨k', hk', hs'⟩ := exists_demand hstates'
    exact ⟨d, o, _, rfl,
      ⟨_, hstepped, k, hprefix.subset (List.mem_append_right _ hk), hs,
        fun m hm => (hguards k hk m hm).2 trivial⟩,
      ⟨_, hrested, k', hprefix'.subset (List.mem_append_right _ hk'), hs',
        fun m hm => (hguards' k' hk' m hm).1⟩⟩

end Visit

end PathFormula
