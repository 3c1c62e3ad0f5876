import PathFormula.Proofs.Composition

/-!
# History of drafts

Whatever is done to a draft, failed operations included, its constraints and symbols stay, and one
operation moves at most the one variable that it names, by one version (`Operation.prolongs_run`).
Sequences of operations inherit that (`history_append_only`).
-/
namespace PathFormula.Draft

open Source

/-- The variables of a draft apart from their versions. -/
def roster (d : Draft) : List (Nat × String × Domain × Partition) :=
  d.registry.map fun v => (v.id, v.name, v.domain, v.partition)

/-- The registration is over. -/
def HasBegun (d : Draft) : Prop := d.phase = .encoding ∨ d.phase = .finalized

/-- What one operation that may write one variable does to a draft. -/
structure Prolongs (target : Option Nat) (d d' : Draft) : Prop where
  constraints : d.constraints <+: d'.constraints
  known : ∀ id sort, d.known.lookup id = some sort → d'.known.lookup id = some sort
  version : ∀ id k, d.version? id = some k →
    d'.version? id = some k ∨ target = some id ∧ d'.version? id = some (k + 1)
  entered : ∀ id k, d.version? id = none → d'.version? id = some k → k = 0
  begun : d.HasBegun → d'.HasBegun ∧ d'.roster = d.roster

/-- At most the one variable was moved to its next version. -/
def Moved (target : Option Nat) (d d' : Draft) : Prop :=
  d'.registry = d.registry ∨ ∃ id, target = some id ∧ d'.registry = (d.advanced id).registry

variable {α β : Type} {target : Option Nat} {d d₁ d' : Draft} {x : Drafting α}
  {f : α → Drafting β} {id : Nat}

theorem roster_advanced (d : Draft) (id : Nat) : (d.advanced id).roster = d.roster := by
  unfold roster advanced
  rw [List.map_map]
  refine List.map_congr_left fun v _ => ?_
  simp only [Function.comp_apply]
  split <;> rfl

theorem version?_advanced (d : Draft) (id other : Nat) :
    (d.advanced id).version? other =
      (d.version? other).map (· + if other = id then 1 else 0) := by
  unfold version?
  rw [registered?_advanced, Option.map_map, Option.map_map]
  rfl

theorem version?_of_registry (h : d'.registry = d.registry) (id : Nat) :
    d'.version? id = d.version? id := by
  unfold version? registered?
  rw [h]

theorem Prolongs.of_later (h : Later d d') (hm : Moved target d d') : Prolongs target d d' where
  constraints := h.constraints
  known := h.known
  version id k hk := by
    rcases hm with hr | ⟨i, ht, hr⟩
    · exact .inl ((version?_of_registry hr id).trans hk)
    · rw [version?_of_registry hr, version?_advanced, hk]
      by_cases hi : id = i
      · subst hi
        exact .inr ⟨ht, by simp⟩
      · exact .inl (by simp [hi])
  entered id k hn hk := by
    obtain ⟨n, hr⟩ := h.registered id
    rw [version?, hr, Option.map_map] at hk
    obtain ⟨v, hv, -⟩ := Option.map_eq_some_iff.1 hk
    rw [version?, hv] at hn
    cases hn
  begun hb := by
    refine ⟨by rw [HasBegun, h.phase]; exact hb, ?_⟩
    rcases hm with hr | ⟨i, -, hr⟩
    · rw [roster, hr, roster]
    · have ha := roster_advanced d i
      rwa [roster, ← hr] at ha

theorem Prolongs.refl (d : Draft) : Prolongs target d d := .of_later (.refl d) (.inl rfl)

/-- What moves no variable comes after what may move one. -/
theorem Prolongs.trans (h : Prolongs target d d₁) (h' : Prolongs none d₁ d') :
    Prolongs target d d' where
  constraints := h.constraints.trans h'.constraints
  known id sort hs := h'.known id sort (h.known id sort hs)
  version id k hk := by
    rcases h.version id k hk with hk₁ | ⟨ht, hk₁⟩
    · rcases h'.version id k hk₁ with hk' | ⟨⟨⟩, -⟩
      exact .inl hk'
    · rcases h'.version id _ hk₁ with hk' | ⟨⟨⟩, -⟩
      exact .inr ⟨ht, hk'⟩
  entered id k hn hk := by
    cases h₁ : d₁.version? id with
    | none => exact h'.entered id k h₁ hk
    | some n =>
      obtain rfl := h.entered id n hn h₁
      rcases h'.version id 0 h₁ with hk' | ⟨⟨⟩, -⟩
      exact Option.some.inj (hk.symm.trans hk')
  begun hb := by
    obtain ⟨hb₁, hr₁⟩ := h.begun hb
    obtain ⟨hb', hr'⟩ := h'.begun hb₁
    exact ⟨hb', hr'.trans hr₁⟩

/-! ### Calls -/

/-- The mandate of a call that may write one variable, and opens no branch. -/
def callMandate (target : Option Nat) (registered : Nat → Bool) : Mandate where
  nodes _ := True
  opens _ := True
  writes id := target = some id
  registered := registered
  branches := False

/-- The computation moves at most one variable, whether it succeeds or not. -/
def Moves (target : Option Nat) (x : Drafting α) (d : Draft) : Prop :=
  Ends x d (fun _ d' => Moved target d d') fun _ d' => Moved target d d'

theorem Moved.still_trans (h : Moved none d d₁) (h' : Moved target d₁ d') : Moved target d d' := by
  have hr : d₁.registry = d.registry := h.resolve_right fun ⟨_, ht, _⟩ => nomatch ht
  rcases h' with h' | ⟨id, ht, h'⟩
  · exact .inl (h'.trans hr)
  · refine .inr ⟨id, ht, h'.trans ?_⟩
    unfold advanced
    rw [hr]

theorem Moved.trans_still (h : Moved target d d₁) (h' : Moved none d₁ d') : Moved target d d' := by
  have hr : d'.registry = d₁.registry := h'.resolve_right fun ⟨_, ht, _⟩ => nomatch ht
  rcases h with h | ⟨id, ht, h⟩
  · exact .inl (hr.trans h)
  · exact .inr ⟨id, ht, hr.trans h⟩

theorem Moves.still_bind (hx : Moves none x d) (hf : ∀ a d₁, Moves target (f a) d₁) :
    Moves target (x >>= f) d := by
  refine ends_bind.2 (hx.mono (fun a d₁ _ h₁ => ?_) fun _ _ h₁ => h₁.still_trans (.inl rfl))
  exact (hf a d₁).mono (fun _ _ _ => h₁.still_trans) fun _ _ => h₁.still_trans

theorem Moves.bind_still (hx : Moves target x d) (hf : ∀ a d₁, Moves none (f a) d₁) :
    Moves target (x >>= f) d := by
  refine ends_bind.2 (hx.mono (fun a d₁ _ h₁ => ?_) fun _ _ h₁ => h₁)
  exact (hf a d₁).mono (fun _ _ _ => h₁.trans_still) fun _ _ => h₁.trans_still

/-- A computation that may write no variable moves none. -/
theorem moves_of_composed {xs : List Expr}
    (h : Composed (callMandate none d.isRegistered) xs x) : Moves target x d := by
  have hR : (callMandate none d.isRegistered).Allows
      fun d d' => Later d d' ∧ d'.registry = d.registry :=
    { later := fun h => h.1
      refl := fun d => ⟨.refl d, rfl⟩
      trans := fun h h' => ⟨h.1.trans h'.1, h'.2.trans h.2⟩
      warned := fun _ _ _ => ⟨.warned, rfl⟩
      emitted := fun _ _ _ => ⟨.emitted, rfl⟩
      named := fun _ hk => ⟨.named hk, rfl⟩
      advanced := fun _ _ hw => nomatch hw
      withPath := fun _ _ _ => ⟨.withPath, rfl⟩ }
  exact (h.changes hR rfl).mono (fun _ _ _ h => .inl h.1.2) fun _ _ h => .inl h.2

section Pieces

variable {e operand : Expr} {t : Term} {location : Location}

theorem moves_valueOf : Moves none (valueOf e) d := moves_of_composed (composed_valueOf trivial)

theorem moves_define : Moves none (define e t) d := moves_of_composed (.define e t)

theorem moves_write {fact : Variable → Term} : Moves (some id) (write id location fact) d :=
  .write (fun _ _ => .inl rfl) (fun _ _ _ => .inr ⟨id, rfl, rfl⟩) fun _ => .inl rfl

theorem moves_assign : Moves (some id) (assign id t location) d := moves_write

theorem moves_step {isUp isBefore : Bool} :
    Moves operand.place? (step e isUp isBefore operand) d := by
  unfold step
  dsimp only
  split
  · exact Or.inl rfl
  · split
    · refine ends_get_bind.2 ?_
      split
      · exact Or.inl rfl
      · rename_i i old ho
        obtain ⟨j, rfl, hj⟩ := Option.bind_eq_some_iff.1 ho
        obtain ⟨-, -, rfl, rfl⟩ := Option.map_eq_some_iff.1 hj
        exact Moves.bind_still moves_write fun _ _ => moves_define
    · exact Or.inl rfl

theorem moves_assignedValue {target : Expr} {op : AssignOp} :
    Moves none (assignedValue e target op id t) d := by
  unfold assignedValue
  split
  · exact Or.inl rfl
  · split
    · exact Or.inl rfl
    · refine ends_get_bind.2 ?_
      split
      · exact Or.inl rfl
      · rename_i op _ _ _ _ _ _
        by_cases hop : op = .div
        · subst hop
          refine Ends.arithmetic_div_bind ?_
          split <;> exact Or.inl rfl
        · rw [arithmetic_eq_pure hop]
          exact Or.inl rfl
  · exact Or.inl rfl
  · exact Or.inl rfl

theorem moves_assignment : Moves e.written? (assignment e) d := by
  cases e with
  | assignment node op target value =>
    unfold assignment
    dsimp only
    split
    · split
      · exact Or.inl rfl
      · refine Moves.still_bind moves_valueOf fun _ _ => Moves.still_bind moves_assignedValue
          fun r _ => ?_
        split
        · exact Or.inl rfl
        · exact Moves.bind_still moves_write fun _ _ => moves_define
    · exact Or.inl rfl
  | _ => exact Or.inl rfl

theorem moves_unary : Moves e.written? (unary e) d := by
  cases e with
  | unary node op isBefore operand =>
    cases op with
    | increment | decrement => exact moves_step
    | delete => exact Or.inl rfl
    | _ => exact moves_of_composed (composed_unary ⟨trivial, fun _ => trivial, nofun⟩ trivial)
  | _ => exact Or.inl rfl

end Pieces

/-- The variable that a call may write. -/
def Call.target? : Call → Option Nat
  | .assign id _ _ | .assignFrom id _ _ | .forget id _ | .merge id _ _ _ _ => some id
  | .assignment e | .unary e => e.written?
  | _ => none

theorem Call.composed_run (call : Call) (registered : Nat → Bool) :
    ∃ xs, Composed (callMandate call.target? registered) xs call.run := by
  have hadmits : ∀ e : Expr, (callMandate e.written? registered).Admits e := fun e =>
    ⟨trivial, fun _ => trivial, fun _ hid => hid⟩
  cases call with
  | create e => exact ⟨[], .create trivial⟩
  | valueOf e => exact ⟨[], (composed_valueOf trivial).discard⟩
  | define e value => exact ⟨[], .define e value⟩
  | defineFrom e source => exact ⟨[], composed_defineFrom trivial⟩
  | defineFromVariable e id => exact ⟨[], composed_defineFromVariable⟩
  | assign id value location => exact ⟨[], composed_assign rfl⟩
  | assignFrom id source location => exact ⟨[], composed_assignFrom rfl trivial⟩
  | assignment e =>
    cases e with
    | assignment node op target value =>
      exact ⟨_, composed_assignment (hadmits (.assignment node op target value)) trivial⟩
    | _ => exact ⟨[], (Composed.reject rfl : Composed _ [] (throw (.unsupported .notAssignment _)))⟩
  | forget id location => exact ⟨[], composed_forget rfl⟩
  | merge id condition yes no location => exact ⟨[], composed_assign rfl⟩
  | assume e => exact ⟨[], composed_assume trivial⟩
  | unary e =>
    cases e with
    | unary node op isBefore operand =>
      exact ⟨_, composed_unary (hadmits (.unary node op isBefore operand)) trivial⟩
    | _ => exact ⟨[], (Composed.reject rfl : Composed _ [] (throw (.unsupported .notUnary _)))⟩
  | binary e =>
    cases e with
    | binary node op left right common => exact ⟨_, composed_binary trivial trivial⟩
    | _ => exact ⟨[], (Composed.reject rfl : Composed _ [] (throw (.unsupported .notBinary _)))⟩

theorem Call.moves_of_target?_eq_none {call : Call} (h : call.target? = none) :
    Moves target call.run d := by
  obtain ⟨xs, hc⟩ := call.composed_run d.isRegistered
  rw [h] at hc
  exact moves_of_composed hc

theorem Call.moves_run (call : Call) (d : Draft) : Moves call.target? call.run d := by
  cases call with
  | assign id value location => exact moves_assign
  | assignFrom id source location => exact Moves.still_bind moves_valueOf fun _ _ => moves_assign
  | assignment e => exact moves_assignment
  | forget id location => exact moves_write
  | merge id condition yes no location => exact moves_assign
  | unary e => exact moves_unary
  | create | valueOf | define | defineFrom | defineFromVariable | assume | binary =>
    exact Call.moves_of_target?_eq_none rfl

theorem prolongs_of_composed {xs : List Expr}
    (h : Composed (callMandate target d.isRegistered) xs x) (hm : Moves target x d) :
    Prolongs target d (after x d) :=
  (((h.changes allows_later rfl).and hm).mono (fun _ _ _ h => Prolongs.of_later h.1.1 h.2)
    fun _ _ h => Prolongs.of_later h.1 h.2).after

theorem Call.prolongs_run (call : Call) (d : Draft) :
    Prolongs call.target? d (after call.run d) := by
  obtain ⟨xs, h⟩ := call.composed_run d.isRegistered
  exact prolongs_of_composed h (call.moves_run d)

/-! ### Relations between drafts -/

section Relations

variable {R : Draft → Draft → Prop} (hr : ∀ d, R d d)
include hr

theorem after_requirePhase_bind {phase : Phase} {activity : Activity} {f : Unit → Drafting β}
    (h : d.phase = phase → R d (after (f ()) d)) :
    R d (after (requirePhase phase activity >>= f) d) := by
  rw [after, run_requirePhase_bind]
  by_cases hp : d.phase = phase
  · rw [if_pos hp]
    exact h hp
  · rw [if_neg hp]
    exact hr d

theorem after_forM (ht : ∀ {d d₁ d' : Draft}, R d d₁ → R d₁ d' → R d d') {as : List α}
    {g : α → Drafting Unit} (h : ∀ a d, R d (after (g a) d)) (d : Draft) :
    R d (after (as.forM g) d) := by
  induction as generalizing d with
  | nil => exact hr d
  | cons a rest ih => exact after_bind_trans ht (h a d) fun _ d₁ _ => ih d₁

/-- A registration warns, fails or enters a variable at its first version. -/
theorem after_register {partition : Partition} {declaration : Declaration}
    (hw : ∀ location notice, R d (d.warned location notice))
    (he : ∀ {v : Registered} {location : Location}, d.phase = .registering →
      d.registered? v.id = none → v.version = 0 → R d (d.entered v location)) :
    R d (after (register partition declaration) d) := by
  refine after_requirePhase_bind hr fun hp => ?_
  cases hv : Variable.ofDeclaration declaration with
  | error err => exact hw _ _
  | ok v =>
    have hversion : v.version = 0 := version_enrol
      (p := (partition, declaration)) (v := { v with partition }) (by simp [enrol, hv])
    change R d (after (if d.isRegistered v.id then throw _ >>= _ else _) d)
    split
    · exact hr d
    · rename_i hn
      exact he hp (by simpa [isRegistered] using hn) hversion

end Relations

/-! ### Operations -/

/-- The variable that an operation may write. -/
def Operation.target? : Operation → Option Nat
  | .call action => action.target?
  | _ => none

/-- A change that ends or continues the registration. -/
theorem Prolongs.of_registry (hc : d'.constraints = d.constraints) (hk : d'.known = d.known)
    (hr : d'.registry = d.registry) (hb : d.HasBegun → d'.HasBegun) : Prolongs none d d' where
  constraints := ⟨[], by rw [hc, List.append_nil]⟩
  known id sort hs := by rwa [hk]
  version id k hv := .inl ((version?_of_registry hr id).trans hv)
  entered id k hn hv := by
    rw [version?_of_registry hr, hn] at hv
    cases hv
  begun hd := ⟨hb hd, by rw [roster, hr, roster]⟩

theorem Prolongs.bind (hx : Prolongs none d (after x d))
    (hf : ∀ a d₁, Yields x d a d₁ → Prolongs none d₁ (after (f a) d₁)) :
    Prolongs none d (after (x >>= f) d) :=
  after_bind_trans Prolongs.trans hx hf

theorem not_hasBegun (h : d.phase = .created ∨ d.phase = .registering) : ¬ d.HasBegun := by
  rintro (hp | hp) <;> simp [hp] at h

theorem prolongs_startRegistration {contract function : String} :
    Prolongs none d (after (startRegistration contract function) d) :=
  after_requirePhase_bind .refl fun hp =>
    .of_registry rfl rfl rfl fun hb => absurd hb (not_hasBegun (.inl hp))

theorem prolongs_startEncoding : Prolongs none d (after startEncoding d) :=
  after_requirePhase_bind .refl fun _ => .of_registry rfl rfl rfl fun _ => .inl rfl

theorem prolongs_entered {v : Registered} {location : Location} (hp : d.phase = .registering)
    (hn : d.registered? v.id = none) (hv : v.version = 0) :
    Prolongs none d (d.entered v location) where
  constraints := List.prefix_append _ _
  known _ _ hs := hs
  version id k hk := by
    obtain ⟨w, hw, rfl⟩ := Option.map_eq_some_iff.1 hk
    refine .inl ?_
    rw [version?, registered?_entered hn, if_neg, hw]
    · rfl
    · rintro rfl
      rw [hn] at hw
      cases hw
  entered id k hnone hk := by
    rw [version?, registered?_entered hn] at hk
    by_cases hi : id = v.id
    · rw [if_pos hi] at hk
      exact (Option.some.inj hk).symm.trans hv
    · rw [if_neg hi, ← version?, hnone] at hk
      cases hk
  begun hb := absurd hb (not_hasBegun (.inr hp))

theorem prolongs_register {partition : Partition} {declaration : Declaration} :
    Prolongs none d (after (register partition declaration) d) :=
  after_register .refl (fun _ _ => .of_registry rfl rfl rfl fun hb => hb) prolongs_entered

theorem Operation.prolongs_run (operation : Operation) (d : Draft) :
    Prolongs operation.target? d (after operation.run d) := by
  cases operation with
  | startRegistration contract function => exact prolongs_startRegistration
  | register partition declaration => exact prolongs_register
  | startEncoding => exact prolongs_startEncoding
  | prepare contract function =>
    refine .bind prolongs_startRegistration fun _ d₁ _ => ?_
    refine .bind (after_forM .refl .trans (fun p _ => prolongs_register) d₁) fun _ d₂ _ => ?_
    exact prolongs_startEncoding
  | call action => exact action.prolongs_run d
  | pushPath e sign =>
    refine .bind (prolongs_of_composed (composed_valueOf trivial) moves_valueOf) fun _ d₁ _ => ?_
    exact .of_registry rfl rfl rfl fun hb => hb
  | pushCondition condition => exact .of_registry rfl rfl rfl fun hb => hb
  | popPath =>
    change Prolongs none d (after Draft.popPath d)
    rw [after, run_popPath]
    by_cases hp : d.path = []
    · rw [if_pos hp]
      exact .refl d
    · rw [if_neg hp]
      exact .of_registry rfl rfl rfl fun hb => hb
  | warn location notice => exact .of_registry rfl rfl rfl fun hb => hb
  | takeDiagnostics => exact .of_registry rfl rfl rfl fun hb => hb
  | finalize => exact .of_registry rfl rfl rfl fun _ => .inr rfl

/-! ### Sequences of operations -/

/-- How many of some operations may write a variable. -/
def writesTo (id : Nat) (operations : List Operation) : Nat :=
  operations.countP fun operation => operation.target? = some id

theorem writesTo_cons (id : Nat) (operation : Operation) (rest : List Operation) :
    writesTo id (operation :: rest) =
      writesTo id rest + if operation.target? = some id then 1 else 0 := by
  simp [writesTo, List.countP_cons]

theorem constraints_afterAll (operations : List Operation) (d : Draft) :
    d.constraints <+: (afterAll operations d).constraints := by
  induction operations generalizing d with
  | nil => exact List.prefix_rfl
  | cons operation rest ih => exact (operation.prolongs_run d).constraints.trans (ih _)

theorem known_afterAll (operations : List Operation) {sort : TermSort}
    (h : d.known.lookup id = some sort) : (afterAll operations d).known.lookup id = some sort := by
  induction operations generalizing d with
  | nil => exact h
  | cons operation rest ih => exact ih ((operation.prolongs_run d).known id sort h)

theorem roster_afterAll (operations : List Operation) (h : d.HasBegun) :
    (afterAll operations d).HasBegun ∧ (afterAll operations d).roster = d.roster := by
  induction operations generalizing d with
  | nil => exact ⟨h, rfl⟩
  | cons operation rest ih =>
    obtain ⟨hb, hr⟩ := (operation.prolongs_run d).begun h
    obtain ⟨hb', hr'⟩ := ih hb
    exact ⟨hb', hr'.trans hr⟩

/-- A version only grows, by one for a write at most. -/
theorem version?_afterAll (operations : List Operation) {k : Nat} (h : d.version? id = some k) :
    ∃ n ≤ writesTo id operations, (afterAll operations d).version? id = some (k + n) := by
  induction operations generalizing d k with
  | nil => exact ⟨0, Nat.le_refl _, h⟩
  | cons operation rest ih =>
    rw [writesTo_cons]
    rcases (operation.prolongs_run d).version id k h with hk | ⟨ht, hk⟩
    · obtain ⟨n, hn, hv⟩ := ih hk
      exact ⟨n, Nat.le_add_right_of_le hn, hv⟩
    · obtain ⟨n, hn, hv⟩ := ih hk
      refine ⟨n + 1, ?_, by rw [Nat.add_comm n, ← Nat.add_assoc]; exact hv⟩
      rw [if_pos ht]
      exact Nat.succ_le_succ hn

/-- A variable that enters on the way starts at its first version. -/
theorem version?_afterAll_of_none (operations : List Operation) {k : Nat}
    (h : d.version? id = none) (hk : (afterAll operations d).version? id = some k) :
    k ≤ writesTo id operations := by
  induction operations generalizing d with
  | nil => cases h.symm.trans hk
  | cons operation rest ih =>
    have hrest : k ≤ writesTo id rest := by
      cases h₁ : (after operation.run d).version? id with
      | none => exact ih h₁ hk
      | some n =>
        obtain rfl := (operation.prolongs_run d).entered id n h h₁
        obtain ⟨n, hn, hv⟩ := version?_afterAll rest h₁
        cases hv.symm.trans hk
        simpa using hn
    rw [writesTo_cons]
    exact Nat.le_add_right_of_le hrest

/-- **History is only appended to.** Whatever operations follow, the constraints of a draft stay at
the front, a symbol that was given out is handed out again, and once the registration is over the
variables and their partitions stay. An operation moves at most the one variable it names, from a
version to the next, so that versions only grow, and to no more than the number of writes. -/
theorem history_append_only (d : Draft) (operations : List Operation) :
    d.constraints <+: (afterAll operations d).constraints ∧
    (∀ e t, d.expression? e.id = some t →
      (valueOf e).run (afterAll operations d) = .ok t (afterAll operations d)) ∧
    (d.HasBegun → (afterAll operations d).HasBegun ∧
      (afterAll operations d).roster = d.roster) ∧
    (∀ (operation : Operation) id k, d.version? id = some k →
      (after operation.run d).version? id = some k ∨
        operation.target? = some id ∧ (after operation.run d).version? id = some (k + 1)) ∧
    (∀ id k, d.version? id = some k → ∃ n ≤ writesTo id operations,
      (afterAll operations d).version? id = some (k + n)) ∧
    ∀ settings id k, (afterAll operations { settings }).version? id = some k →
      k ≤ writesTo id operations := by
  refine ⟨constraints_afterAll operations d, fun e t ht => ?_, roster_afterAll operations,
    fun operation => (operation.prolongs_run d).version, fun id k => version?_afterAll operations,
    fun settings id k => version?_afterAll_of_none operations rfl⟩
  obtain ⟨sort, hk, rfl⟩ := Option.map_eq_some_iff.1 ht
  refine run_valueOf_of_known ?_
  rw [expression?, known_afterAll operations hk]
  rfl

def marker : Expr := .literal ⟨2, {}, .bool⟩ (.bool true)

/-- A draft with one variable and one symbol. -/
def ledger : Draft :=
  afterAll [.startRegistration "C" "f", .register .local ⟨1, "x", .bool, {}, none⟩, .startEncoding,
    .call (.create marker)] {}

theorem ledger_history :
    let writes : List Operation := [.call (.assign 1 (.ofBool true) {}), .finalize,
      .call (.forget 1 {})]
    ledger.HasBegun ∧ ledger.version? 1 = some 0 ∧
      (∃ t, ledger.expression? marker.id = some t ∧
        (valueOf marker).run (afterAll writes ledger) = .ok t (afterAll writes ledger)) ∧
      (afterAll writes ledger).roster = ledger.roster ∧
      (afterAll writes ledger).version? 1 = some 1 ∧
      ∃ n ≤ writesTo 1 writes, (afterAll writes ledger).version? 1 = some (0 + n) := by
  intro writes
  have hbegun : ledger.HasBegun := .inl (by decide)
  have hversion : ledger.version? 1 = some 0 := by decide
  obtain ⟨t, ht⟩ : ∃ t, ledger.expression? marker.id = some t :=
    Option.isSome_iff_exists.1 (by decide)
  obtain ⟨-, hlookup, hroster, -, hversions, -⟩ := history_append_only ledger writes
  exact ⟨hbegun, hversion, ⟨t, ht, hlookup marker t ht⟩, (hroster hbegun).2, by decide,
    hversions 1 0 hversion⟩

end PathFormula.Draft
