import PathFormula.Report
import PathFormula.Proofs.Joins

/-!
# The opening of a draft

Before the body, a draft has exactly the variables of the function's declarations with types that
have terms, each at version zero and with the fact of its partition. Its models are the stores the
function may be entered with (`holdsIn_opening`), and every such store has a model
(`exists_model_of_starts`).
-/
namespace PathFormula

open Source

namespace OrderedSet

theorem perm_insert {α : Type} {before : α → α → Bool} {a : α} {set : List α}
    (h : ∀ b ∈ set, before a b = true ∨ before b a = true) : (insert before a set).Perm
    (a :: set) := by
  induction set with
  | nil => exact .refl _
  | cons b rest ih =>
    simp only [List.mem_cons, forall_eq_or_imp] at h
    simp only [insert]
    split
    · exact .refl _
    · rename_i hab
      rw [if_pos (h.1.resolve_left hab)]
      exact ((ih h.2).cons b).trans (.swap a b rest)

end OrderedSet

namespace Draft

/-- The variable of a declaration, if its type has terms. -/
def enrol (p : Partition × Declaration) : Option Registered :=
  match Variable.ofDeclaration p.2 with
  | .ok v => some { toVariable := v, partition := p.1 }
  | .error _ => none

/-- The variables of a function in the order of their registration. -/
def enrolment (contract : Contract) (f : Function) : List Registered :=
  (declarations contract f).filterMap enrol

def entered (d : Draft) (v : Registered) (location : Location) : Draft :=
  { d with registry := OrderedSet.insert (fun a b => decide (a.id < b.id)) v d.registry }.emitted
    (v.partition.startFact v.toVariable) location

variable {d d' : Draft} {u : Unit}

theorem ty_of_ofDeclaration {declaration : Declaration} {err : UnsupportedType}
    (h : Variable.ofDeclaration declaration = .error err) : err.ty = declaration.ty := by
  unfold Variable.ofDeclaration Ty.domain at h
  cases ht : declaration.ty <;> rw [ht] at h <;> cases h <;> rfl

theorem yields_register {partition : Partition} {declaration : Declaration} :
    Yields (register partition declaration) d u d' ↔
      d.phase = .registering ∧
        ((enrol (partition, declaration) = none ∧
            d' = d.warned declaration.location (.variableType declaration.ty)) ∨
          ∃ v, enrol (partition, declaration) = some v ∧ d.registered? v.id = none ∧
            d' = d.entered v declaration.location) := by
  unfold register enrol
  cases hv : Variable.ofDeclaration declaration with
  | error err =>
    simp [ty_of_ofDeclaration hv]
  | ok v =>
    cases hr : d.registered? v.id with
    | none => simp [isRegistered, hr, enter, entered]
    | some w => simp [isRegistered, hr]

/-- The facts of some declarations, in the order of their registration. -/
def openingConstraints (ds : List (Partition × Declaration)) : List Constraint :=
  ds.filterMap fun p => (enrol p).map fun v =>
    ⟨.ofBool true, p.1.startFact v.toVariable, p.2.location⟩

/-- What registering declarations leaves of a draft. -/
structure Opens (ds : List (Partition × Declaration)) (d d' : Draft) : Prop where
  settings : d'.settings = d.settings
  phase : d'.phase = d.phase
  known : d'.known = d.known
  path : d'.path = d.path
  registry : d'.registry.Perm (d.registry ++ ds.filterMap enrol)
  constraints : d'.constraints = d.constraints ++ openingConstraints ds

theorem registered?_eq_none {id : Nat} : d.registered? id = none ↔ id ∉ d.registry.map (·.id) := by
  simp [registered?]

theorem perm_entered {v : Registered} {location : Location} (h : d.registered? v.id = none) :
    (d.entered v location).registry.Perm (v :: d.registry) := by
  refine OrderedSet.perm_insert fun w hw => ?_
  have hne : w.id ≠ v.id := fun he => registered?_eq_none.1 h (List.mem_map.2 ⟨w, hw, he⟩)
  simp only [decide_eq_true_eq]
  omega

theorem find?_insert {v : Registered} {vs : List Registered} {id : Nat}
    (h : ∀ w ∈ vs, w.id ≠ v.id) :
    (OrderedSet.insert (fun a b => decide (a.id < b.id)) v vs).find? (fun w => w.id == id) =
      if id = v.id then some v else vs.find? fun w => w.id == id := by
  have hv : (v.id == id) = decide (id = v.id) := by
    by_cases hi : id = v.id
    · simp [hi]
    · rw [decide_eq_false hi]
      exact beq_eq_false_iff_ne.2 (Ne.symm hi)
  induction vs with
  | nil => by_cases hi : id = v.id <;> simp [OrderedSet.insert, hv, hi]
  | cons w rest ih =>
    simp only [List.mem_cons, forall_eq_or_imp] at h
    simp only [OrderedSet.insert]
    split
    · by_cases hi : id = v.id <;> simp [hv, hi]
    · rename_i hlt
      have hlt' : decide (w.id < v.id) = true := by
        have := h.1
        simp only [decide_eq_true_eq] at hlt ⊢
        omega
      rw [if_pos hlt', List.find?_cons, List.find?_cons, ih h.2]
      cases hw : w.id == id with
      | true =>
        have hne : ¬ id = v.id := fun he => h.1 ((beq_iff_eq.1 hw).trans he)
        simp [hne]
      | false => rfl

theorem registered?_entered {v : Registered} {location : Location} (h : d.registered? v.id = none)
    (id : Nat) : (d.entered v location).registered? id =
      if id = v.id then some v else d.registered? id :=
  find?_insert fun w hw he => registered?_eq_none.1 h (List.mem_map.2 ⟨w, hw, he⟩)

theorem not_owns_unregistered {v : Registered} {k : Nat} (h : d.registered? v.id = none) :
    ¬ d.Owns (v.symbol k).name := by
  intro ho
  obtain ⟨w, hw, -⟩ := exists_of_owns_version ho
  cases h.symm.trans hw

theorem covers_entered {v : Registered} {location : Location} (h : d.registered? v.id = none)
    {t : Term} (ht : d.Covers t) : (d.entered v location).Covers t := by
  intro name hn
  rcases ht name hn with ⟨id, w, k, hw, hk, hn⟩ | hrest
  · refine .inl ⟨id, w, k, ?_, hk, hn⟩
    rw [registered?_entered h, if_neg, hw]
    rintro rfl
    rw [h] at hw
    cases hw
  · exact .inr hrest

theorem covers_startFact {v : Registered} (h : d.registered? v.id = some v) (p : Partition) :
    d.Covers (p.startFact v.toVariable) := by
  have hc : d.Covers v.current := covers_version h (Nat.le_refl _)
  cases p with
  | state | parameter => exact covers_rangeFact hc
  | «local» | «return» => exact covers_dyadic.2 ⟨hc, covers_zero _⟩

theorem Closed.entered {v : Registered} {location : Location} (hd : d.Closed)
    (h : d.registered? v.id = none) : (d.entered v location).Closed := by
  refine ⟨fun t ht => covers_entered h (hd.path t ht), fun c hc => ?_⟩
  rcases List.mem_append.1 hc with hc | hc
  · exact ⟨covers_entered h (hd.constraints c hc).1, covers_entered h (hd.constraints c hc).2⟩
  · rw [List.mem_singleton] at hc
    subst hc
    exact ⟨covers_entered h hd.covers_pathCondition,
      covers_startFact (by rw [registered?_entered h, if_pos rfl]) _⟩

theorem nodup_entered {v : Registered} {location : Location} (hd : (d.registry.map (·.id)).Nodup)
    (h : d.registered? v.id = none) : ((d.entered v location).registry.map (·.id)).Nodup := by
  rw [((perm_entered h).map _).nodup_iff]
  exact List.nodup_cons.2 ⟨registered?_eq_none.1 h, hd⟩

/-- What holds of a draft and is kept by every registered variable holds after all of them. -/
theorem register_induction {P : Draft → Prop} (hw : ∀ {d location notice}, P d →
      P (d.warned location notice))
    (he : ∀ {d v location}, d.registered? v.id = none → P d → P (d.entered v location))
    {ds : List (Partition × Declaration)} (hd : P d)
    (h : Yields (ds.forM fun p => register p.1 p.2) d u d') : P d' := by
  induction ds generalizing d with
  | nil =>
    obtain rfl := yields_forM_nil.1 h
    exact hd
  | cons p rest ih =>
    obtain ⟨d₁, h₁, h₂⟩ := yields_forM_cons.1 h
    obtain ⟨-, ⟨-, rfl⟩ | ⟨v, -, hr, rfl⟩⟩ := yields_register.1 h₁
    · exact ih (hw hd) h₂
    · exact ih (he hr hd) h₂

theorem enrol_partition {p : Partition × Declaration} {v : Registered} (h : enrol p = some v) :
    v.partition = p.1 := by
  unfold enrol at h
  split at h <;> cases h
  rfl

theorem opens_of_yields {ds : List (Partition × Declaration)}
    (hp : d.path = []) (h : Yields (ds.forM fun p => register p.1 p.2) d u d') : Opens ds d d' := by
  induction ds generalizing d with
  | nil =>
    obtain rfl := yields_forM_nil.1 h
    exact ⟨rfl, rfl, rfl, rfl, by simp, by simp [openingConstraints]⟩
  | cons p rest ih =>
    obtain ⟨d₁, h₁, h₂⟩ := yields_forM_cons.1 h
    obtain ⟨-, ⟨hn, rfl⟩ | ⟨v, hv, hr, rfl⟩⟩ := yields_register.1 h₁
    · have hi := ih (d := d.warned p.2.location (.variableType p.2.ty)) hp h₂
      refine ⟨hi.settings, hi.phase, hi.known, hi.path, ?_, ?_⟩
      · rw [List.filterMap_cons_none hn]
        exact hi.registry
      · rw [openingConstraints, List.filterMap_cons_none (by simp [hn])]
        exact hi.constraints
    · have hi := ih (d := d.entered v p.2.location) hp h₂
      refine ⟨hi.settings, hi.phase, hi.known, hi.path, ?_, ?_⟩
      · rw [List.filterMap_cons_some hv]
        refine hi.registry.trans (((perm_entered hr).append_right _).trans ?_)
        exact List.perm_middle.symm
      · have hc : (d.entered v p.2.location).constraints = d.constraints ++
            [⟨.ofBool true, p.1.startFact v.toVariable, p.2.location⟩] := by
          rw [← enrol_partition hv]
          simp [entered, pathCondition, hp]
        rw [hi.constraints, hc, List.append_assoc, openingConstraints, openingConstraints,
          List.filterMap_cons_some (by rw [hv]; rfl)]
        rfl

/-- Declarations with numbers of their own can be registered. -/
theorem exists_yields_register {ds : List (Partition × Declaration)} (hp : d.phase = .registering)
    (hn : ((d.registry ++ ds.filterMap enrol).map (·.id)).Nodup) :
    ∃ d', Yields (ds.forM fun p => register p.1 p.2) d () d' := by
  induction ds generalizing d with
  | nil => exact ⟨d, yields_forM_nil.2 rfl⟩
  | cons p rest ih =>
    cases hv : enrol p with
    | none =>
      rw [List.filterMap_cons_none hv] at hn
      obtain ⟨d', h⟩ := ih (d := d.warned p.2.location (.variableType p.2.ty)) hp hn
      exact ⟨d', yields_forM_cons.2 ⟨_, yields_register.2 ⟨hp, .inl ⟨hv, rfl⟩⟩, h⟩⟩
    | some v =>
      rw [List.filterMap_cons_some hv] at hn
      have hperm : (d.registry ++ v :: rest.filterMap enrol).Perm
          (v :: (d.registry ++ rest.filterMap enrol)) := List.perm_middle
      have hn' := (hperm.map fun w : Registered => w.id).nodup_iff.1 hn
      have hr : d.registered? v.id = none := by
        rw [registered?_eq_none]
        intro hm
        refine (List.nodup_cons.1 hn').1 ?_
        rw [List.map_append]
        exact List.mem_append_left _ hm
      have hperm' : ((d.entered v p.2.location).registry ++ rest.filterMap enrol).Perm
          (v :: (d.registry ++ rest.filterMap enrol)) := (perm_entered hr).append_right _
      obtain ⟨d', h⟩ := ih (d := d.entered v p.2.location) hp
        ((hperm'.map fun w : Registered => w.id).nodup_iff.2 hn')
      exact ⟨d', yields_forM_cons.2 ⟨_, yields_register.2 ⟨hp, .inr ⟨v, hv, hr, rfl⟩⟩, h⟩⟩

/-! ### Prepared drafts -/

variable {contract : Contract} {f : Function} {settings : Settings}

/-- A draft that was prepared for a function. -/
structure Opening (contract : Contract) (f : Function) (settings : Settings)
    (d : Draft) : Prop where
  settings : d.settings = settings
  phase : d.phase = .encoding
  known : d.known = []
  path : d.path = []
  registry : d.registry.Perm (enrolment contract f)
  constraints : d.constraints = openingConstraints (declarations contract f)
  distinct : (d.registry.map (·.id)).Nodup
  closed : d.Closed

theorem yields_prepare :
    Yields (prepare contract f) d u d' ↔
      d.phase = .created ∧ ∃ d₁, Yields
          ((declarations contract f).forM fun p => register p.1 p.2)
          { d with contract := contract.name, function := f.name, phase := .registering } () d₁ ∧
        d₁.phase = .registering ∧ d' = { d₁ with phase := .encoding } := by
  unfold prepare startRegistration startEncoding
  rw [bind_assoc, yields_requirePhase_bind, yields_modify_bind, yields_seq]
  refine and_congr_right fun _ => exists_congr fun d₁ => and_congr_right fun _ => ?_
  rw [yields_requirePhase_bind, yields_modify]

theorem yields_warnings {ds : Diagnostics} (h : Yields f.warnings { settings, diagnostics := ds } u
    d) :
    ∃ ds', d = { settings, diagnostics := ds' } := by
  unfold Function.warnings at h
  cases hc : f.isConstructor <;> cases hm : f.modifiers.isEmpty <;> simp [hc, hm] at h <;>
    exact ⟨_, h⟩

theorem exists_yields_warnings (f : Function) (d : Draft) : ∃ d', Yields f.warnings d () d' := by
  unfold Function.warnings
  cases hc : f.isConstructor <;> cases hm : f.modifiers.isEmpty <;> simp

theorem Opening.of_yields {ds : Diagnostics}
    (h : Yields (prepare contract f) { settings, diagnostics := ds } u d) :
    Opening contract f settings d := by
  obtain ⟨-, d₁, hr, -, rfl⟩ := yields_prepare.1 h
  have ho := opens_of_yields rfl hr
  have hp : (d₁.registry.map (·.id)).Nodup ∧ d₁.Closed := by
    refine register_induction (P := fun e => (e.registry.map fun v : Registered => v.id).Nodup ∧
      e.Closed) (fun he => ⟨he.1, he.2.later .warned rfl rfl⟩)
      (fun hn he => ⟨nodup_entered he.1 hn, he.2.entered hn⟩) ?_ hr
    exact ⟨List.nodup_nil, ⟨by simp, by simp⟩⟩
  exact
    { settings := ho.settings
      phase := rfl
      known := ho.known
      path := ho.path
      registry := ho.registry
      constraints := ho.constraints
      distinct := hp.1
      closed := ⟨hp.2.path, hp.2.constraints⟩ }

theorem find?_of_mem {vs : List Registered} (hn : (vs.map (·.id)).Nodup) {v : Registered}
    (hv : v ∈ vs) : vs.find? (fun w => w.id == v.id) = some v := by
  cases hf : vs.find? fun w => w.id == v.id with
  | none =>
    have := List.find?_eq_none.1 hf v hv
    simp at this
  | some w =>
    have hid : w.id = v.id := by simpa using List.find?_some hf
    exact congrArg some (List.inj_on_of_nodup_map hn (List.mem_of_find?_eq_some hf) hv hid)

theorem role?_eq (contract : Contract) (f : Function) (id : Nat) :
    role? contract f id =
      ((enrolment contract f).find? fun v => v.id == id).map fun v => (v.partition, v.domain) := by
  unfold role? entries enrolment
  induction declarations contract f with
  | nil => rfl
  | cons p rest ih =>
    unfold enrol Variable.ofDeclaration
    obtain ⟨partition, declaration⟩ := p
    cases ht : declaration.ty.domain with
    | error err =>
      rw [List.filterMap_cons_none (by simp [ht]), List.filterMap_cons_none
        (by simp [ht, Except.map])]
      exact ih
    | ok domain =>
      rw [List.filterMap_cons_some (by simp [ht]; rfl),
        List.filterMap_cons_some (by simp [ht, Except.map]; rfl)]
      by_cases hi : declaration.id = id
      · simp [hi]
      · have hb : (declaration.id == id) = false := beq_eq_false_iff_ne.2 hi
        simp only [List.findSome?_cons, if_neg hi, List.find?_cons, hb]
        exact ih

theorem version_enrol {p : Partition × Declaration} {v : Registered} (h : enrol p = some v) :
    v.version = 0 := by
  unfold enrol Variable.ofDeclaration at h
  split at h <;> cases h
  rename_i hv
  cases ht : p.2.ty.domain <;> rw [ht] at hv <;> cases hv
  rfl

theorem id_enrol {p : Partition × Declaration} {v : Registered} (h : enrol p = some v) :
    v.id = p.2.id := by
  unfold enrol Variable.ofDeclaration at h
  split at h <;> cases h
  rename_i hv
  cases ht : p.2.ty.domain <;> rw [ht] at hv <;> cases hv
  rfl

theorem sort_of_starts {partition : Partition} {domain : Domain} {x : Value}
    (h : partition.starts domain x) : x.sort = domain.sort := by
  unfold Partition.starts at h
  cases partition with
  | state | parameter => cases domain <;> cases x <;> simp [Domain.admits] at h <;> rfl
  | «local» | «return» =>
    rw [decide_eq_true_eq] at h
    rw [h, Value.zero_sort]

theorem holds_startFact {v : Registered} {m : Model} :
    (v.partition.startFact v.toVariable).Holds m ↔
      v.partition.starts v.domain (v.current.value m) := by
  have hzero : v.zeroFact.Holds m ↔ v.current.value m = .zero v.domain.sort := by
    rw [Variable.zeroFact, Term.holds_eq, Term.value_zero]
    rfl
  cases hp : v.partition with
  | state | parameter => exact holds_rangeFact
  | «local» | «return» =>
    rw [Partition.starts, decide_eq_true_eq]
    exact hzero

namespace Opening

/-- A draft starts with the variables of its function. -/
theorem role? (h : Opening contract f settings d) (id : Nat) :
    (d.registered? id).map (fun v => (v.partition, v.domain)) = role? contract f id := by
  rw [role?_eq]
  congr 1
  have hn : ((enrolment contract f).map (·.id)).Nodup := (h.registry.map _).nodup_iff.1 h.distinct
  cases hr : d.registered? id with
  | none =>
    refine (List.find?_eq_none.2 fun v hv => ?_).symm
    exact List.find?_eq_none.1 hr v (h.registry.mem_iff.2 hv)
  | some v =>
    have hm := h.registry.mem_iff.1 (List.mem_of_find?_eq_some hr)
    rw [← id_of_registered? hr]
    exact (find?_of_mem hn hm).symm

theorem of_mem (h : Opening contract f settings d) {v : Registered} (hv : v ∈ d.registry) :
    d.registered? v.id = some v ∧ v.version = 0 := by
  refine ⟨registered?_of_mem h.distinct hv, ?_⟩
  obtain ⟨p, -, hp⟩ := List.mem_filterMap.1 (h.registry.mem_iff.1 hv)
  exact version_enrol hp

theorem term_current (h : Opening contract f settings d) {id : Nat} {v : Registered}
    (hv : d.registered? id = some v) : v.current = v.term 0 := by
  rw [Variable.current, (h.of_mem (List.mem_of_find?_eq_some hv)).2]

theorem storeAt_zero (h : Opening contract f settings d) (m : Model) :
    d.storeAt 0 m = d.store m := by
  funext id
  rw [store_eq, storeAt, term?, Option.map_map]
  cases hv : d.registered? id with
  | none => rfl
  | some v => simp [h.term_current hv]

/-- All that is said at first is where the variables start. -/
theorem holdsIn_iff (h : Opening contract f settings d) {m : Model} :
    d.HoldsIn m ↔ ∀ v ∈ d.registry, v.partition.starts v.domain (v.current.value m) := by
  have hc : d.HoldsIn m ↔ ∀ v ∈ enrolment contract f,
      (v.partition.startFact v.toVariable).Holds m := by
    rw [HoldsIn, h.constraints]
    simp only [openingConstraints, enrolment, List.mem_filterMap, Option.map_eq_some_iff]
    constructor
    · rintro hm v ⟨p, hp, hv⟩
      rw [enrol_partition hv]
      exact hm _ ⟨p, hp, v, hv, rfl⟩ (by simp [Term.Holds, Value.truth])
    · rintro hm _ ⟨p, hp, v, hv, rfl⟩ -
      have := hm v ⟨p, hp, hv⟩
      rwa [enrol_partition hv] at this
  rw [hc]
  refine forall_congr' fun v => ?_
  rw [h.registry.mem_iff, holds_startFact]

/-- A prepared draft has exactly the stores that its function may start with. -/
theorem holdsIn_iff_starts (h : Opening contract f settings d) {m : Model} :
    d.HoldsIn m ↔ f.Starts contract (d.store m) := by
  rw [h.holdsIn_iff]
  unfold Function.Starts
  constructor
  · intro hm id
    rw [← h.role? id, store_eq]
    cases hv : d.registered? id with
    | none => rfl
    | some v => exact ⟨_, rfl, hm v (List.mem_of_find?_eq_some hv)⟩
  · intro hs v hv
    have := hs v.id
    rw [← h.role? v.id, store_eq, (h.of_mem hv).1] at this
    obtain ⟨x, hx, hp⟩ := this
    cases hx
    exact hp

/-- Every store that a function may start with has a model, with any quotients by zero. -/
theorem exists_model (h : Opening contract f settings d) {σ : Store} (hs : f.Starts contract σ)
    (byZero : Int → Int) : ∃ m : Model, m.byZero = byZero ∧ d.HoldsIn m ∧ d.store m = σ := by
  let x? (name : String) : Option Value :=
    (d.registry.find? fun v => (v.symbol 0).name == name).bind fun v => σ v.id
  let m : Model :=
    { bool := fun name => ((x? name).getD (.bool false)).truth
      int := fun name => ((x? name).getD (.int 0)).number
      byZero }
  have hx : ∀ v ∈ d.registry, x? (v.symbol 0).name = σ v.id := by
    intro v hv
    cases hf : d.registry.find? fun w => (w.symbol 0).name == (v.symbol 0).name with
    | none =>
      have := List.find?_eq_none.1 hf v hv
      simp at this
    | some w =>
      have hid := (Variable.name_injective (by simpa using List.find?_some hf)).2.1
      simp only [x?, hf, Option.bind_some, hid]
  have hstore : d.store m = σ := by
    funext id
    have hid := hs id
    rw [← h.role? id] at hid
    rw [store_eq]
    cases hv : d.registered? id with
    | none =>
      rw [hv] at hid
      exact hid.symm
    | some v =>
      rw [hv] at hid
      obtain ⟨x, hσ, hp⟩ := hid
      have hxv := hx v (List.mem_of_find?_eq_some hv)
      rw [id_of_registered? hv, hσ] at hxv
      rw [hσ, Option.map_some, h.term_current hv]
      refine congrArg some (m.value_eq (sort_of_starts hp) ?_ ?_)
      · simp only [m, hxv, Option.getD_some]
      · simp only [m, hxv, Option.getD_some]
  exact ⟨m, rfl, h.holdsIn_iff_starts.2 (hstore.symm ▸ hs), hstore⟩

/-- A prepared draft is ready for a body whose expressions have numbers of their own. -/
theorem stage (h : Opening contract f settings d) {nodes : List Expr}
    (hn : (nodes.map Expr.id).Nodup) : Stage (domain? contract f) nodes nodes d where
  ready :=
    { ids := h.distinct
      declares := fun id => by rw [domain?, ← h.role? id, Option.map_map]; rfl
      distinct := hn
      sorts := fun x _ sort hk => by simp [h.known] at hk
      closed := h.closed
      guards := fun t ht => by simp [h.path] at ht }
  scope := List.Subset.refl _
  awaits := ⟨hn, fun x _ => by simp [h.known]⟩

theorem opened (h : Opening contract f settings d) (m : Model) : d.Open m := by
  simp [Open, pathCondition, h.path, Term.Holds, Value.truth]

end Opening

/-! ### The outcome of an analysis -/

/-- A draft that takes no more constraints, without its diagnostics. -/
def finished (d : Draft) : Draft := { d with phase := .finalized, diagnostics := [] }

/-- An analysis succeeds where the body can be encoded in the prepared draft. -/
theorem outcome_eq_ok {e : Draft} :
    (f.analyze settings contract).outcome = .ok e ↔
      ∃ d₀ d exits d₁, Yields f.warnings { settings } () d₀ ∧ Yields (prepare contract f) d₀ () d ∧
        Yields (Stmt.encodeAll f.returns f.body) d exits d₁ ∧ e = d₁.finished := by
  have hy : ∀ d₁, Yields (f.encode contract) { settings } () d₁ ↔
      ∃ d₀ d exits, Yields f.warnings { settings } () d₀ ∧ Yields (prepare contract f) d₀ () d ∧
        Yields (Stmt.encodeAll f.returns f.body) d exits d₁ := by
    intro d₁
    have hd : discard (Stmt.encodeAll f.returns f.body) =
        (fun _ => ()) <$> Stmt.encodeAll f.returns f.body := rfl
    simp only [Function.encode, yields_seq, hd, yields_map, and_true]
    constructor
    · rintro ⟨d₀, h₀, d, h₁, exits, h₂⟩
      exact ⟨d₀, d, exits, h₀, h₁, h₂⟩
    · rintro ⟨d₀, d, exits, h₀, h₁, h₂⟩
      exact ⟨d₀, h₀, d, h₁, exits, h₂⟩
  have ho : (f.analyze settings contract).outcome = .ok e ↔
      ∃ d₁, Yields (f.encode contract) { settings } () d₁ ∧ e = d₁.finished := by
    unfold Function.analyze Yields
    cases (f.encode contract).run { settings } with
    | ok u d₁ => simp [finished, eq_comm]
    | error err d₁ => simp
  rw [ho]
  simp only [hy]
  constructor
  · rintro ⟨d₁, ⟨d₀, d, exits, h₀, h₁, h₂⟩, rfl⟩
    exact ⟨d₀, d, exits, d₁, h₀, h₁, h₂, rfl⟩
  · rintro ⟨d₀, d, exits, d₁, h₀, h₁, h₂, rfl⟩
    exact ⟨d₁, ⟨d₀, d, exits, h₀, h₁, h₂⟩, rfl⟩

theorem exists_opening {e : Draft} (h : (f.analyze settings contract).outcome = .ok e) :
    ∃ d exits d₁, Opening contract f settings d ∧
      Yields (Stmt.encodeAll f.returns f.body) d exits d₁ ∧ e = d₁.finished := by
  obtain ⟨d₀, d, exits, d₁, h₀, h₁, h₂, he⟩ := outcome_eq_ok.1 h
  obtain ⟨ds, rfl⟩ := yields_warnings h₀
  exact ⟨d, exits, d₁, .of_yields h₁, h₂, he⟩

theorem nodup_enrolment (h : ((declarations contract f).map (·.2.id)).Nodup) :
    ((enrolment contract f).map (·.id)).Nodup := by
  refine List.Sublist.nodup ?_ h
  unfold enrolment
  induction declarations contract f with
  | nil => exact .slnil
  | cons p rest ih =>
    cases hp : enrol p with
    | none =>
      rw [List.filterMap_cons_none hp]
      exact .cons _ ih
    | some v =>
      rw [List.filterMap_cons_some hp, List.map_cons, List.map_cons, id_enrol hp]
      exact .cons_cons _ ih

/-- A function whose variables have numbers of their own can be prepared for. -/
theorem exists_yields_prepare (h : ((enrolment contract f).map (·.id)).Nodup)
    (settings : Settings) (ds : Diagnostics) :
    ∃ d, Yields (prepare contract f) { settings, diagnostics := ds } () d := by
  obtain ⟨d₁, h₁⟩ := exists_yields_register
    (d := { settings, diagnostics := ds, contract := contract.name, function := f.name,
            phase := .registering }) rfl h
  have hp : d₁.phase = .registering := (opens_of_yields rfl h₁).phase
  exact ⟨{ d₁ with phase := .encoding }, yields_prepare.2 ⟨rfl, d₁, h₁, hp, rfl⟩⟩

/-- An analysis of such a function succeeds if its body can be encoded. -/
theorem exists_opening_outcome (h : ((enrolment contract f).map (·.id)).Nodup)
    (settings : Settings) :
    ∃ d, Opening contract f settings d ∧
      ∀ exits d₁, Yields (Stmt.encodeAll f.returns f.body) d exits d₁ →
        (f.analyze settings contract).outcome = .ok d₁.finished := by
  obtain ⟨d₀, h₀⟩ := exists_yields_warnings f { settings }
  obtain ⟨ds, rfl⟩ := yields_warnings h₀
  obtain ⟨d, hp⟩ := exists_yields_prepare h settings ds
  exact ⟨d, .of_yields hp, fun exits d' hb => outcome_eq_ok.2 ⟨_, _, exits, d', h₀, hp, hb, rfl⟩⟩

end Draft

end PathFormula
