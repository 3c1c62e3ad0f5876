import PathFormula.Proofs.Realization

/-!
# Runs of loops have models

A loop is encoded as one turn between two rows of forgotten variables. The turn stands for the last
one of a run: the first row allows the values that the turns before left, and the second row those
that a step or test after the body leaves.
-/
namespace PathFormula

open Source

theorem Domain.sort_of_admits {domain : Domain} {x : Value} (h : domain.admits x) :
    x.sort = domain.sort := by
  cases domain <;> cases x <;> first | rfl | cases h

namespace Draft

variable {Γ : Nat → Option Domain} {scope : List Expr} {d d₁ d' : Draft} {m : Model}
  {location : Location}

/-- A forgotten variable can take every value of its type. -/
theorem exists_forget {id : Nat} {v : Registered} {x : Value} (hd : d.Ready Γ scope)
    (hv : d.registered? id = some v) (hx : v.domain.admits x) (hm : d.HoldsIn m)
    (h : Yields (forget id location) d () d') :
    ∃ m', Extends d m d' m' ∧ d'.store m' = Function.update (d.store m) id (some x) := by
  obtain ⟨-, ⟨hn, -⟩ | ⟨w, hw, rfl⟩⟩ := yields_forget.1 h
  · cases hn.symm.trans hv
  · cases hv.symm.trans hw
    obtain rfl := id_of_registered? hv
    have hn := not_owns_version hv (Nat.lt_add_one _)
    have hag := m.agreeOn_set hn x
    have hval : (m.set (v.symbol (v.version + 1)) x).value
        (v.symbol (v.version + 1)).name v.sort = x :=
      m.value_set (v.symbol (v.version + 1)) (Domain.sort_of_admits hx)
    refine ⟨_, ⟨hag, holdsIn_emitted.2 ⟨(hd.closed.holdsIn_iff hag).2 hm, fun _ => ?_⟩⟩, ?_⟩
    · rw [holds_rangeFact_advance, hval]
      exact hx
    · rw [store_write _ hv, store_of_agreeOn hag, hval]

/-- After some variables were forgotten they can have all values that are in range. -/
theorem exists_forgetAll_store {ids : List Nat} {τ : Store} (hd : d.Ready Γ scope)
    (hm : d.HoldsIn m) (hτ : Ranged Γ τ) (hout : ∀ id, id ∉ ids → τ id = d.store m id)
    (h : Yields (forgetAll ids location) d () d') : ∃ m', Extends d m d' m' ∧ d'.store m' = τ := by
  induction ids generalizing d m with
  | nil =>
    obtain rfl := yields_forM_nil.1 h
    exact ⟨m, ⟨.refl _ m, hm⟩, (funext fun id => hout id List.not_mem_nil).symm⟩
  | cons id rest ih =>
    obtain ⟨d₁, ⟨hv, rfl⟩ | ⟨hv, hf⟩, hr⟩ := yields_forgetAll_cons.1 h
    · refine ih hd hm (fun other ho => ?_) hr
      by_cases he : other = id
      · subst he
        have hnone : Γ other = none := by rw [← hd.declares other, hv, Option.map_none]
        have hτo := hτ other
        rw [hnone] at hτo
        rw [store_eq_none hv, hτo]
      · exact hout other (by simp [he, ho])
    · obtain ⟨v, hv⟩ := Option.isSome_iff_exists.1 hv
      have hτi := hτ id
      rw [hd.domain hv] at hτi
      obtain ⟨x, hx, ha⟩ := hτi
      obtain ⟨m₁, hx₁, hs₁⟩ := exists_forget hd hv ha hm hf
      have hg : Grows ⟨[], fun _ => True, False⟩ d d₁ := grows_forget trivial hf
      have hout₁ : ∀ other, other ∉ rest → τ other = d₁.store m₁ other := by
        intro other ho
        rw [hs₁]
        by_cases he : other = id
        · subst he
          rw [Function.update_self, hx]
        · rw [Function.update_of_ne he]
          exact hout other (by simp [he, ho])
      obtain ⟨m', hx', hτ'⟩ := ih (hd.grows hg (List.nil_subset _)) hx₁.holds hout₁ hr
      exact ⟨m', hx₁.trans hg.later hx', hτ'⟩

end Draft

namespace Source.Stmt

open Draft

variable {loops : Prop} {Γ : Nat → Option Domain} {scope : List Expr} {returns : List Declaration}
  {rules : Rules} {d d₁ d' : Draft} {exits : List Term} {m : Model} {ρ σ σ₂ τ : Store}
  {location : Location} {fuel : Nat} {flow : Flow}

/-! ### The parts of a turn -/

/-- The body of a loop is entered where its test holds. -/
theorem exists_enter_test {condition : Option Expr} {next : List Expr} {b : Bool}
    (hc : ∀ e ∈ condition, Expr.Typed Γ e .bool)
    (hst : Stage Γ scope (nodesOfExpr condition ++ next) d) (hu : d.Unguarded)
    (hy : Yields (enter condition) d () d') (hm : d.HoldsIn m) (ho : d.Open m)
    (hw : rules.Within m.byZero) (hr : testOf rules condition (d.store m) = some (b, τ)) :
    ∃ m', Extends d m d' m' ∧ Later d d' ∧ d'.store m' = τ ∧ (d'.Open m' ↔ b = true) := by
  cases condition with
  | none =>
    obtain ⟨-, rfl⟩ := yields_pure.1 hy
    cases hr
    exact ⟨m, ⟨.refl _ m, hm⟩, .refl _, rfl, by simp [ho]⟩
  | some e =>
    obtain ⟨d₁, h₁, hp⟩ := yields_seq.1 hy
    have hev := (hc e rfl).evaluates_of_yields hst.left hu h₁
    obtain rfl := (yields_pushPath_known hev.known).1 hp
    have hg := (hc e rfl).grows hst.left h₁
    obtain ⟨m', hx, hτ, hb⟩ := (hc e rfl).exists_test hst.left hu hev hm ho hw hr
    have ho₁ : d₁.Open m' := hg.open_iff.2 ((hst.ready.closed.open_iff hx.agrees).2 ho)
    exact ⟨m', ⟨hx.agrees, hx.holds⟩, hg.later.trans .pushed, hτ, by simp [ho₁, hb]⟩

/-- A step may be encoded after a return, but only changes what it writes. -/
theorem exists_step {step : Option Expr} (hs : ∀ e ∈ step, ∃ sort, Expr.Typed Γ e sort)
    (hst : Stage Γ scope (nodesOfExpr step) d) (hu : d.Unguarded)
    (hy : Yields (encodeOptional step) d () d') (hm : d.HoldsIn m) :
    ∃ m', Extends d m d' m' ∧ Later d d' ∧
      ∀ id, (∀ e ∈ step, id ∉ e.writes) → d'.store m' id = d.store m id := by
  cases step with
  | none =>
    obtain ⟨-, rfl⟩ := yields_pure.1 hy
    exact ⟨m, ⟨.refl _ m, hm⟩, .refl _, fun _ _ => rfl⟩
  | some e =>
    obtain ⟨sort, ht⟩ := hs e rfl
    obtain ⟨m', hx⟩ := ht.exists_extends hst hu hy hm
    have hg := ht.grows hst hy
    refine ⟨m', hx, hg.later, fun id hid => ?_⟩
    rw [← hx.store (.refl d), store_eq, store_eq, hg.unwritten (hid e rfl)]

/-- Leaving a loop only closes the path condition that its test opened. -/
theorem leave_parts {condition : Option Expr} (hy : Yields (leave condition) d () d') :
    Later d d' ∧ (∀ m, d'.HoldsIn m ↔ d.HoldsIn m) ∧ ∀ m, d'.store m = d.store m := by
  cases condition with
  | none =>
    obtain ⟨-, rfl⟩ := yields_pure.1 hy
    exact ⟨.refl _, fun _ => Iff.rfl, fun _ => rfl⟩
  | some e =>
    obtain ⟨-, rfl⟩ := yields_popPath.1 hy
    exact ⟨.withPath, fun _ => Iff.rfl, fun _ => rfl⟩

/-- The encoded turn stands for the last turn of a run, from the values that the turns before left
to those that the run leaves. -/
theorem realised_turn {written : List Nat} {condition step : Option Expr} {body : Stmt}
    (hc : ∀ e ∈ condition, Expr.Typed Γ e .bool) (hs : ∀ e ∈ step, ∃ sort, Expr.Typed Γ e sort)
    (hws : ∀ e ∈ step, ∀ id ∈ e.writes, id ∈ written)
    (hpb : body.Plain loops Γ returns) (hb : body.Realised loops Γ scope returns)
    (hst : Stage Γ scope (nodesOfExpr condition ++ (body.nodes ++ nodesOfExpr step)) d)
    (hu : d.Unguarded) (hy : EncodesTurn returns location written condition step body d exits d')
    (hm : d.HoldsIn m) (ho : d.Open m) (hf : Follows loops Γ rules m ρ) (hρ : Ranged Γ ρ)
    (hout : ∀ id, id ∉ written → ρ id = d.store m id)
    (hlast : (flow = .next ∧ testOf rules condition ρ = some (false, σ₂)) ∨
      ∃ σ₁, testOf rules condition ρ = some (true, σ₁) ∧
        body.exec rules returns fuel σ₁ = some (flow, σ₂))
    (hτ : Ranged Γ τ) (hend : ∀ id, id ∉ written → τ id = σ₂ id) :
    Reaches d m d' exits flow τ := by
  obtain ⟨d₁, d₂, e₁, e₂, d₅, h₁, hg, hst₁, h₂, hst₂, h₃, hgb, hst₃, h₄, h₅, hloop, h₆⟩ :=
    turn_parts (grows_encode body) hst (fun e he => ⟨(hc e he).consistent, (hc e he).termSort⟩)
      (fun e he => (hs e he).elim fun _ ht => ht.consistent) hpb.consistent hy
  have hclosed := hst.ready.closed
  -- The first row of forgotten variables leads to the store before the last turn.
  obtain ⟨m₁, hx₁, rfl⟩ : ∃ m₁, Extends d m d₁ m₁ ∧ d₁.store m₁ = ρ := by
    have hw : (d.warned location .loop).Ready Γ scope :=
      hst.ready.grows (.warned (L := bodyLicence [] d.settings)) (List.nil_subset _)
    obtain ⟨m₁, hx, hs₁⟩ := exists_forgetAll_store hw (holdsIn_warned.2 hm) hρ hout h₁
    exact ⟨m₁, ⟨hx.agrees, hx.holds⟩, hs₁⟩
  have hu₁ := hu.later hg.later
  have ho₁ : d₁.Open m₁ := hg.open_iff.2 ((hclosed.open_iff hx₁.agrees).2 ho)
  -- The body runs in this turn, or it is not entered and changes nothing.
  obtain ⟨m₂, m₃, hx₂, hl₂, hx₃, hσ₃, hflow⟩ : ∃ m₂ m₃, Extends d₁ m₁ d₂ m₂ ∧ Later d₁ d₂ ∧
      Extends d₂ m₂ e₁ m₃ ∧ e₁.store m₃ = σ₂ ∧ Draft.flow exits m₃ = flow := by
    have hf₁ := hf.extended hx₁
    obtain ⟨rfl, ht⟩ | ⟨σ₁, ht, hrun⟩ := hlast
    · obtain ⟨m₂, hx₂, hl₂, rfl, hopen⟩ :=
        exists_enter_test hc hst₁ hu₁ h₂ hx₁.holds ho₁ hf₁.within ht
      have hnot : ¬ d₂.Open m₂ := by simp [hopen]
      obtain ⟨m₃, hx₃, hs₃⟩ := hgb.grows.exists_untaken hst₂.ready.closed hx₂.holds hnot
      exact ⟨m₂, m₃, hx₂, hl₂, hx₃, hs₃,
        hgb.flow_of_not_open (mt (hst₂.ready.closed.open_iff hx₃.agrees).1 hnot)⟩
    · obtain ⟨m₂, hx₂, hl₂, rfl, hopen⟩ :=
        exists_enter_test hc hst₁ hu₁ h₂ hx₁.holds ho₁ hf₁.within ht
      have hf₂ : Follows loops Γ rules m₂ (d₂.store m₂) := (hf₁.testOf ht).extended hx₂
      obtain ⟨m₃, hx₃, hs₃, hflow⟩ := hb hst₂.left (hu₁.later hl₂) h₃ m₂ hx₂.holds (hopen.2 rfl) hf₂
        fuel flow σ₂ hrun
      exact ⟨m₂, m₃, hx₂, hl₂, hx₃, hs₃, hflow⟩
  -- The second row of forgotten variables makes up for a step after the end of the run.
  obtain ⟨m₄, hx₄, hl₄, hs₄⟩ :=
    exists_step hs hst₃ ((hu₁.later hl₂).later hgb.grows.later) h₄ hx₃.holds
  obtain ⟨hl₅, hm₅, hs₅⟩ := leave_parts h₅
  have hd₅ : d₅.Ready Γ scope := hst₁.ready.grows hloop.grows hst₁.scope
  have hkept : ∀ id, id ∉ written → τ id = d₅.store m₄ id := fun id hid => by
    rw [hend id hid, hs₅, hs₄ id (fun e he hide => hid (hws e he id hide)), hσ₃]
  obtain ⟨m', hx', hτ'⟩ := exists_forgetAll_store hd₅ ((hm₅ m₄).2 hx₄.holds) hτ hkept h₆
  have hx₃' : Extends e₁ m₃ d' m' :=
    ⟨hx₄.agrees.trans (hl₄.agreeOn (hl₅.agreeOn hx'.agrees)), hx'.holds⟩
  have hl₃ := hl₂.trans hgb.grows.later
  refine ⟨m', hx₁.trans hg.later ((hx₂.trans hl₂ hx₃).trans hl₃ hx₃'), hτ', ?_⟩
  rw [hgb.flow_eq hx₃'.agrees, hflow]

/-! ### Whole loops -/

theorem mem_ordered {ids : List Nat} {id : Nat} : id ∈ ordered ids ↔ id ∈ ids :=
  OrderedSet.mem_ofList fun a b => by simp; omega

theorem mem_writesOfExpr {e : Expr} {x : Option Expr} (he : e ∈ x) {id : Nat}
    (hid : id ∈ e.writes) :
    id ∈ writesOfExpr x := by
  cases he
  exact hid

/-- The write set of a loop frames all of its turns. -/
theorem preserves_written (hb : rules.Bounds Γ) (written : List Nat) (σ : Store) :
    rules.Preserves (· ∈ written) fun τ => Ranged Γ τ ∧ ∀ id, id ∉ written → τ id = σ id :=
  hb.preserves.and (preserves_frame rules _ σ)

theorem realised_whileLoop {condition : Expr} {body : Stmt} {isBodyFirst : Bool}
    (hp : (whileLoop location condition body isBodyFirst).Plain loops Γ returns)
    (hb : body.Realised loops Γ scope returns) :
    (whileLoop location condition body isBodyFirst).Realised loops Γ scope returns := by
  intro rules d d' exits hst hu hy m hm ho hf fuel flow τ hr
  obtain ⟨hl, hc, hpb⟩ := hp
  have hτ : Ranged Γ τ := (hf.exec hr).ranged hl
  have hP := preserves_written (hf.bounds hl) (ordered (body.writes ++ condition.writes))
    (d.store m)
  have hkc := Expr.eval_preserves hP condition fun id hid => mem_ordered.2 (by simp [hid])
  have hkb : body.Keeps rules returns fuel _ _ :=
    exec_preserves hP body fun id hid => mem_ordered.2 (by simp [hid])
  have hstart : Ranged Γ (d.store m) ∧ ∀ id,
      id ∉ ordered (body.writes ++ condition.writes) → d.store m id = d.store m id :=
    ⟨hf.ranged hl, fun _ _ => rfl⟩
  cases isBodyFirst with
  | false =>
    obtain ⟨ρ, ⟨hρ, hout⟩, hlast⟩ := turns_last (keeps_some hkc) keeps_none hkb hstart hr
    exact realised_turn (fun e he => Option.some.inj he ▸ hc) (by simp) (by simp) hpb hb
      (stage_whileLoop hst).1 hu (yields_whileLoop_testFirst.1 hy) hm
      ho { hf with ranged := fun _ => hρ } hρ hout
      (hlast.imp_right fun ⟨hret, σ₁, ht, hrun⟩ => ⟨σ₁, ht, hret ▸ hrun⟩) hτ fun _ _ => rfl
  | true =>
    obtain ⟨ρ, ⟨hρ, hout⟩, hlast⟩ := turnsBodyFirst_last hkc hkb hstart hr
    obtain ⟨σ₂, hrun, hend⟩ : ∃ σ₂, body.exec rules returns fuel ρ = some (flow, σ₂) ∧
        ∀ id, id ∉ ordered (body.writes ++ condition.writes) → τ id = σ₂ id := by
      obtain ⟨rfl, σ₁, h₁, h₂⟩ | ⟨rfl, h₁⟩ := hlast
      · have hframe := preserves_frame rules
          (· ∈ ordered (body.writes ++ condition.writes)) σ₁
        have hkeep := Expr.eval_preserves hframe condition fun id hid => mem_ordered.2
          (by simp [hid])
        exact ⟨σ₁, h₁, keeps_test hkeep (fun _ _ => rfl) h₂⟩
      · exact ⟨τ, h₁, fun _ _ => rfl⟩
    exact realised_turn (by simp) (fun e he => Option.some.inj he ▸ ⟨.bool, hc⟩)
      (fun e he => Option.some.inj he ▸ fun id hid => mem_ordered.2 (by simp [hid])) hpb hb
      (stage_whileLoop hst).2 hu (yields_whileLoop_bodyFirst.1 hy) hm ho
      { hf with ranged := fun _ => hρ } hρ hout (.inr ⟨ρ, rfl, hrun⟩) hτ hend

/-- The statement before a loop does not return. -/
theorem simple_exits {s : Stmt} (hs : s.isSimple) (hy : Yields (s.encode returns) d exits d') :
    exits = [] := by
  cases s with
  | declare => exact (yields_declare.1 hy).1
  | expression => exact (yields_expression.1 hy).1
  | block | branch | whileLoop | forLoop | ret => cases hs

theorem realised_start {first : Option Stmt} (hf : ∀ s ∈ first, s.Realised loops Γ scope returns)
    (hst : Stage Γ scope (nodesOfOption first) d) (hu : d.Unguarded)
    (hy : Yields (start returns first) d exits d') (hm : d.HoldsIn m) (ho : d.Open m)
    (hw : Follows loops Γ rules m (d.store m))
    (hr : execOption rules returns fuel first (d.store m) = some (flow, τ)) :
    Reaches d m d' exits flow τ := by
  cases first with
  | none =>
    obtain ⟨rfl, rfl⟩ := yields_pure.1 hy
    cases hr
    exact ⟨m, ⟨.refl _ m, hm⟩, rfl, rfl⟩
  | some s => exact hf s rfl hst hu hy m hm ho hw fuel flow τ hr

theorem realised_forLoop {first : Option Stmt} {condition step : Option Expr} {body : Stmt}
    (hp : (forLoop location first condition step body).Plain loops Γ returns)
    (hfirst : ∀ s ∈ first, s.Realised loops Γ scope returns)
    (hb : body.Realised loops Γ scope returns) :
    (forLoop location first condition step body).Realised loops Γ scope returns := by
  intro rules d d' exits hst hu hy m hm ho hf fuel flow τ hr
  obtain ⟨hl, hsimple, hpf, hc, hs, hpb⟩ := hp
  have hτ : Ranged Γ τ := (hf.exec hr).ranged hl
  obtain ⟨startExits, d₀, bodyExits, h₀, h₁, rfl⟩ := yields_forLoop.1 hy
  have hst' : Stage Γ scope
      (nodesOfOption first ++ (nodesOfExpr condition ++ (body.nodes ++ nodesOfExpr step))) d := hst
  obtain ⟨hg₀, hnil⟩ : Grows (bodyLicence (nodesOfOption first) d.settings) d d₀ ∧
      startExits = [] := by
    cases first with
    | none =>
      obtain ⟨rfl, rfl⟩ := yields_pure.1 h₀
      exact ⟨.refl _, rfl⟩
    | some s =>
      exact ⟨(grows_encode s hst'.left (Plain.consistent hpf) h₀).grows,
        simple_exits (hsimple s rfl) h₀⟩
  subst hnil
  obtain ⟨σ₁, hr₁, hr₂⟩ | ⟨rfl, hr₁⟩ := exec_forLoop.1 hr
  · obtain ⟨m₁, hx₁, rfl, -⟩ := realised_start hfirst hst'.left hu h₀ hm ho hf hr₁
    have hf₁ : Follows loops Γ rules m₁ (d₀.store m₁) := (hf.execOption hr₁).extended hx₁
    have hP := preserves_written (hf.bounds hl)
      (ordered (body.writes ++ writesOfExpr condition ++ writesOfExpr step)) (d₀.store m₁)
    have hws : ∀ e ∈ step, ∀ id ∈ e.writes,
        id ∈ ordered (body.writes ++ writesOfExpr condition ++ writesOfExpr step) :=
      fun e he id hid => mem_ordered.2 (by simp [mem_writesOfExpr he hid])
    have hkc := fun (e : Expr) (he : e ∈ condition) => Expr.eval_preserves hP e fun id hid =>
      mem_ordered.2 (by simp [mem_writesOfExpr he hid])
    have hks := fun (e : Expr) (he : e ∈ step) => Expr.eval_preserves hP e (hws e he)
    have hkb : body.Keeps rules returns fuel _ _ :=
      exec_preserves hP body fun id hid => mem_ordered.2 (by simp [hid])
    obtain ⟨ρ, ⟨hρ, hout⟩, hlast⟩ :=
      turns_last hkc hks hkb ⟨hf₁.ranged hl, fun _ _ => rfl⟩ hr₂
    have ho₁ := hg₀.open_iff.2 ((hst.ready.closed.open_iff hx₁.agrees).2 ho)
    obtain ⟨m', hx, hτ', hflow⟩ := realised_turn hc hs hws hpb hb
      (hst'.next hg₀ (List.Subset.refl _)) (hu.later hg₀.later) h₁ hx₁.holds ho₁
      { hf₁ with ranged := fun _ => hρ } hρ hout
      (hlast.imp_right fun ⟨hret, σ₁, ht, hrun⟩ => ⟨σ₁, ht, hret ▸ hrun⟩) hτ fun _ _ => rfl
    exact ⟨m', hx₁.trans hg₀.later hx, hτ', hflow⟩
  · obtain ⟨m₁, -, -, hflow⟩ := realised_start hfirst hst'.left hu h₀ hm ho hf hr₁
    cases hflow

/-! ### All statements -/

mutual

/-- Every run of a statement of the fragment is found in a model of its encoding. -/
theorem Plain.realised : ∀ {s : Stmt}, s.Plain loops Γ returns → Declares Γ s.locals →
    s.Realised loops Γ scope returns
  | .block _ _, h, hd => fun _ _ _ _ hst hu hy m hm ho hf fuel flow τ hr =>
    PlainAll.realised h hd hst hu hy m hm ho hf fuel flow τ hr
  | .declare _ _ _, h, hd => realised_declare h hd
  | .expression _ _, h, _ => realised_expression h
  | .branch _ _ _ none, h, hd => realised_branch h (h.2.1.realised hd.left) (by simp)
  | .branch _ _ _ (some no), h, hd => by
    have hno : no.Plain loops Γ returns := h.2.2
    exact realised_branch h (h.2.1.realised hd.left)
      (fun s hs => Option.some.inj hs ▸ hno.realised hd.right)
  | .whileLoop _ _ _ _, h, hd => realised_whileLoop h (h.2.2.realised hd)
  | .forLoop _ none _ _ _, h, hd => by
    have hb := h.2.2.2.2.2
    exact realised_forLoop h (by simp) (hb.realised hd.right)
  | .forLoop _ (some first) _ _ _, h, hd => by
    have hf : first.Plain loops Γ returns := h.2.2.1
    have hb := h.2.2.2.2.2
    exact realised_forLoop h (fun s hs => Option.some.inj hs ▸ hf.realised hd.left)
      (hb.realised hd.right)
  | .ret _ _, h, _ => realised_ret h

theorem PlainAll.realised : ∀ {body : List Stmt}, PlainAll loops Γ returns body →
    Declares Γ (localsOfAll body) → RealisedAll loops Γ scope returns body
  | [], _, _ => fun _ d d' exits _ _ hy m hm _ _ _ flow τ hr => by
    obtain ⟨rfl, rfl⟩ := yields_encodeAll_nil.1 hy
    cases hr
    exact ⟨m, ⟨.refl _ m, hm⟩, rfl, rfl⟩
  | _ :: _, h, hd => realised_cons h (h.1.realised hd.left) (PlainAll.realised h.2 hd.right)

end

end Source.Stmt

end PathFormula
