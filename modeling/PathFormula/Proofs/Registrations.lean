import Mathlib.Data.List.Forall2
import PathFormula.Proofs.Endings
import PathFormula.Proofs.Footprints
import PathFormula.Proofs.Opening

/-!
# Registrations

Before a body is encoded, its declarations are collected by a recursion of their own. It finds
exactly those of the declaration statements inside the body (`Piece.mem_locals_iff`). Registering a
function fails at the first declaration whose number is taken, and otherwise sorts all declarations
with types that have terms into the four partitions (`registration_partitions`).
-/
namespace PathFormula

open Source

/-! ### Declarations inside a piece -/

namespace Piece

/-- The declarations that are collected from a piece. -/
def locals : Piece → List Declaration
  | .sequence body => Stmt.localsOfAll body
  | .statement s => s.locals
  | .turn _ _ _ _ body => body.locals
  | .expression _ => []

/-- A declaration is made by a declaration statement inside the piece. -/
def Declares (p : Piece) (declaration : Declaration) : Prop :=
  ∃ location declarations initial,
    p.Contains (.statement (.declare location declarations initial)) ∧ declaration ∈ declarations

variable {p q : Piece} {role : Role} {declaration : Declaration}

theorem Declares.of_part (hp : (role, q) ∈ p.parts) (h : q.Declares declaration) :
    p.Declares declaration := by
  obtain ⟨location, declarations, initial, hc, hm⟩ := h
  exact ⟨location, declarations, initial, .head ⟨role, hp⟩ hc, hm⟩

theorem locals_subset_statement {s : Stmt} (hp : (role, q) ∈ s.parts) : q.locals ⊆ s.locals := by
  intro declaration hd
  cases s with
  | branch location condition yes no =>
    cases no <;> grind [Stmt.parts, locals, Stmt.locals, Stmt.localsOfOption]
  | whileLoop location condition body isBodyFirst =>
    cases isBodyFirst <;> cases List.mem_singleton.1 hp <;> grind [locals, Stmt.locals]
  | forLoop location start condition step body =>
    cases start <;> grind [Stmt.parts, locals, Stmt.locals, Stmt.localsOfOption]
  | declare location declarations initial | ret location initial =>
    cases initial <;> grind [Stmt.parts, locals]
  | _ => grind [Stmt.parts, locals, Stmt.locals]

theorem locals_subset (hp : (role, q) ∈ p.parts) : q.locals ⊆ p.locals := by
  cases p with
  | sequence body =>
    cases body with
    | nil => cases hp
    | cons s rest => grind [parts, locals, Stmt.localsOfAll]
  | statement s => exact locals_subset_statement hp
  | turn location written condition step body =>
    intro declaration hd
    cases condition <;> cases step <;> grind [parts, locals]
  | expression e => cases hp

/-- A collected declaration is one of the piece itself, or it is collected from a part. -/
theorem exists_part_of_mem_locals (h : declaration ∈ p.locals) :
    p.Declares declaration ∨ ∃ role q, (role, q) ∈ p.parts ∧ declaration ∈ q.locals := by
  cases p with
  | sequence body =>
    cases body with
    | nil => cases h
    | cons s rest =>
      rcases List.mem_append.1 h with h | h
      · exact .inr ⟨.first, .statement s, by simp [parts], h⟩
      · exact .inr ⟨.rest, .sequence rest, by simp [parts], h⟩
  | turn location written condition step body =>
    exact .inr ⟨.body, .statement body, by simp [parts], h⟩
  | expression e => cases h
  | statement s =>
    cases s with
    | block location body => exact .inr ⟨.inner, .sequence body, by simp [parts, Stmt.parts], h⟩
    | declare location declarations initial =>
      exact .inl ⟨location, declarations, initial, .refl, h⟩
    | expression | ret => cases h
    | branch location condition yes no =>
      rcases List.mem_append.1 h with h | h
      · exact .inr ⟨.inner, .statement yes, by simp [parts, Stmt.parts], h⟩
      · cases no with
        | none => cases h
        | some no => exact .inr ⟨.inner, .statement no, by simp [parts, Stmt.parts], h⟩
    | whileLoop location condition body isBodyFirst =>
      cases isBodyFirst with
      | true => exact .inr ⟨.turn, _, List.mem_singleton_self _, h⟩
      | false => exact .inr ⟨.turn, _, List.mem_singleton_self _, h⟩
    | forLoop location start condition step body =>
      rcases List.mem_append.1 h with h | h
      · cases start with
        | none => cases h
        | some start => exact .inr ⟨.start, .statement start, by simp [parts, Stmt.parts], h⟩
      · exact .inr ⟨.turn, _, List.mem_append_right _ (List.mem_singleton_self _), h⟩

/-- The declarations that are collected are those of the declaration statements in the piece,
through any nesting. -/
theorem mem_locals_iff : declaration ∈ p.locals ↔ p.Declares declaration := by
  constructor
  · intro h
    induction p using parts_induction with
    | step p ih =>
      rcases exists_part_of_mem_locals h with hd | ⟨role, q, hq, hm⟩
      · exact hd
      · exact (ih role q hq hm).of_part hq
  · rintro ⟨location, declarations, initial, hc, hm⟩
    have hsubset :
        (Piece.statement (.declare location declarations initial)).locals ⊆ p.locals := by
      clear hm
      induction hc using Relation.ReflTransGen.head_induction_on with
      | refl => exact List.Subset.refl _
      | head hq _ ih =>
        obtain ⟨role, hq⟩ := hq
        exact List.Subset.trans ih (locals_subset hq)
    exact hsubset hm

end Piece

/-- Terms can speak of the values of the type. -/
def Source.Ty.isSupported : Ty → Bool
  | .bool | .integer _ => true
  | _ => false

namespace Draft

/-! ### Declarations that get variables -/

/-- The declarations with types that have terms, out of some. -/
def supported (ds : List (Partition × Declaration)) : List (Partition × Declaration) :=
  ds.filter fun p => p.2.ty.isSupported

/-- The declarations of a function that get variables, in the order of their registration. -/
def enlisted (contract : Contract) (f : Function) : List (Partition × Declaration) :=
  supported (declarations contract f)

variable {p : Partition × Declaration} {ds : List (Partition × Declaration)} {v : Registered}
  {d d' : Draft}

theorem enrol_eq_none_iff : enrol p = none ↔ p.2.ty.isSupported = false := by
  unfold enrol Variable.ofDeclaration Ty.domain Ty.isSupported
  cases p.2.ty <;> simp [Except.map]

theorem enrol_declared (h : enrol p = some v) : v.name = p.2.name ∧ v.domain.ty = p.2.ty := by
  unfold enrol Variable.ofDeclaration Ty.domain at h
  cases ht : p.2.ty <;> simp [ht, Except.map] at h <;> subst h <;> exact ⟨rfl, rfl⟩

theorem supported_cons_of_enrol (h : enrol p = some v) :
    supported (p :: ds) = p :: supported ds := by
  have ht : p.2.ty.isSupported = true := by
    rw [← Bool.not_eq_false, ← enrol_eq_none_iff, h]
    simp
  simp [supported, ht]

theorem supported_cons_of_none (h : enrol p = none) : supported (p :: ds) = supported ds := by
  simp [supported, enrol_eq_none_iff.1 h]

theorem map_id_enrol (ds : List (Partition × Declaration)) :
    (ds.filterMap enrol).map (·.id) = (supported ds).map (·.2.id) := by
  induction ds with
  | nil => rfl
  | cons p rest ih =>
    cases hv : enrol p with
    | none => rw [List.filterMap_cons_none hv, supported_cons_of_none hv, ih]
    | some v =>
      rw [List.filterMap_cons_some hv, supported_cons_of_enrol hv, List.map_cons, List.map_cons, ih,
        id_enrol hv]

/-! ### A number that is taken -/

theorem run_register (hp : d.phase = .registering) :
    (register p.1 p.2).run d = match enrol p with
      | none => .ok () (d.warned p.2.location (.variableType p.2.ty))
      | some v =>
          if d.isRegistered v.id then
            .error (.duplicateDeclaration p.2.name p.2.id p.2.location) d
          else .ok () (d.entered v p.2.location) := by
  unfold register enrol
  rw [run_requirePhase_bind, if_pos hp]
  cases hv : Variable.ofDeclaration p.2 with
  | error err =>
    rw [← ty_of_ofDeclaration hv]
    rfl
  | ok v =>
    rw [run_get_bind]
    dsimp only
    cases d.isRegistered v.id <;> rfl

/-- The numbers that are taken after a variable was entered. -/
theorem perm_ids_entered (hv : enrol p = some v) (hr : d.registered? v.id = none)
    (ids : List Nat) :
    ((d.entered v p.2.location).registry.map (·.id) ++ ids).Perm
      (d.registry.map (·.id) ++ p.2.id :: ids) := by
  have hentered : (d.entered v p.2.location).registry.Perm (v :: d.registry) := perm_entered hr
  have hperm := (hentered.map (·.id)).append_right ids
  rw [List.map_cons, id_enrol hv] at hperm
  exact hperm.trans List.perm_middle.symm

/-- Registration stops at the first declaration whose number is taken. -/
theorem exists_duplicate (hp : d.phase = .registering) (hd : (d.registry.map (·.id)).Nodup)
    (hn : ¬ (d.registry.map (·.id) ++ (supported ds).map (·.2.id)).Nodup) :
    ∃ before p after d', supported ds = before ++ p :: after ∧
      (d.registry.map (·.id) ++ before.map (·.2.id)).Nodup ∧
      p.2.id ∈ d.registry.map (·.id) ++ before.map (·.2.id) ∧
      (ds.forM fun p => register p.1 p.2).run d =
        .error (.duplicateDeclaration p.2.name p.2.id p.2.location) d' := by
  induction ds generalizing d with
  | nil =>
    rw [supported, List.filter_nil, List.map_nil, List.append_nil] at hn
    exact absurd hd hn
  | cons p rest ih =>
    have hrun := run_register (p := p) hp
    cases hv : enrol p with
    | none =>
      rw [supported_cons_of_none hv] at hn ⊢
      rw [hv] at hrun
      obtain ⟨before, q, after, d', hsplit, hfresh, htaken, herror⟩ :=
        ih (d := d.warned p.2.location (.variableType p.2.ty)) hp hd hn
      exact ⟨before, q, after, d', hsplit, hfresh, htaken, (run_bind_of_yields hrun).trans herror⟩
    | some v =>
      rw [supported_cons_of_enrol hv] at hn ⊢
      rw [hv] at hrun
      dsimp only at hrun
      cases hr : d.isRegistered v.id with
      | true =>
        -- the number is taken by a variable that is there
        rw [hr, if_pos rfl] at hrun
        refine ⟨[], p, supported rest, d, rfl, ?_, ?_, run_bind_of_error hrun⟩
        · rw [List.map_nil, List.append_nil]
          exact hd
        · apply List.mem_append_left
          rw [← id_enrol hv]
          by_contra hnot
          rw [isRegistered, registered?_eq_none.2 hnot] at hr
          cases hr
      | false =>
        -- from here on the number counts as taken
        rw [hr, if_neg Bool.false_ne_true] at hrun
        have hnone : d.registered? v.id = none := by simpa [isRegistered] using hr
        have hperm := perm_ids_entered hv hnone
        rw [List.map_cons, ← (hperm _).nodup_iff] at hn
        obtain ⟨before, q, after, d', hsplit, hfresh, htaken, herror⟩ :=
          ih (d := d.entered v p.2.location) hp (nodup_entered hd hnone) hn
        refine ⟨p :: before, q, after, d', by rw [hsplit, List.cons_append], ?_, ?_, ?_⟩
        · exact (hperm _).nodup_iff.1 hfresh
        · exact (hperm _).mem_iff.1 htaken
        · exact (run_bind_of_yields hrun).trans herror

/-! ### Prepared drafts -/

variable {contract : Contract} {f : Function} {settings : Settings}

/-- A preparation fails where a registration does. -/
theorem run_prepare_of_error {e : DraftError} (hp : d.phase = .created)
    (h : ((declarations contract f).forM fun p => register p.1 p.2).run
      { d with contract := contract.name, function := f.name, phase := .registering } =
        .error e d') :
    (prepare contract f).run d = .error e d' := by
  unfold prepare startRegistration
  have hstart : Yields (modify fun d : Draft =>
      { d with contract := contract.name, function := f.name, phase := .registering }) d () _ :=
    yields_modify.2 rfl
  rw [bind_assoc, run_requirePhase_bind, if_pos hp, run_bind_of_yields hstart]
  exact run_bind_of_error h

/-- The declaration has a variable in its partition, which was not written since, and the constraint
says where that starts: anywhere in its type, if it is a state variable or a parameter, and at zero,
if it is a local or a return slot. -/
def Enters (d : Draft) (p : Partition × Declaration) (c : Constraint) : Prop :=
  ∃ v, d.registered? p.2.id = some v ∧ v.name = p.2.name ∧ v.domain.ty = p.2.ty ∧
    v.version = 0 ∧ v.partition = p.1 ∧ c.guard = .ofBool true ∧ c.location = p.2.location ∧
      ((p.1 = .state ∨ p.1 = .parameter) ∧ c.fact = v.rangeFact ∨
        (p.1 = .local ∨ p.1 = .return) ∧ c.fact = v.zeroFact)

theorem startFact_cases (partition : Partition) (v : Variable) :
    (partition = .state ∨ partition = .parameter) ∧ partition.startFact v = v.rangeFact ∨
      (partition = .local ∨ partition = .return) ∧ partition.startFact v = v.zeroFact := by
  cases partition <;> simp [Partition.startFact]

/-- The numbers of the variables in a partition. -/
def numbers (d : Draft) (partition : Partition) : List Nat :=
  (d.registry.filter fun v => v.partition = partition).map (·.id)

theorem forall₂_enters
    (h : ∀ p ∈ ds, ∀ v, enrol p = some v → d.registered? p.2.id = some v) :
    List.Forall₂ d.Enters (supported ds) (openingConstraints ds) := by
  induction ds with
  | nil => exact .nil
  | cons p rest ih =>
    rw [List.forall_mem_cons] at h
    have hrest := ih h.2
    cases hv : enrol p with
    | none =>
      rw [supported_cons_of_none hv, openingConstraints, List.filterMap_cons_none (by simp [hv])]
      exact hrest
    | some v =>
      rw [supported_cons_of_enrol hv, openingConstraints,
        List.filterMap_cons_some (by rw [hv]; rfl)]
      have hdeclared := enrol_declared hv
      exact .cons ⟨v, h.1 v hv, hdeclared.1, hdeclared.2, version_enrol hv, enrol_partition hv, rfl,
        rfl, startFact_cases _ _⟩ hrest

namespace Opening

theorem registered?_of_enrol (h : Opening contract f settings d) (hp : p ∈ declarations contract f)
    (hv : enrol p = some v) : d.registered? p.2.id = some v := by
  have hmem : v ∈ d.registry := h.registry.mem_iff.2 (List.mem_filterMap.2 ⟨p, hp, hv⟩)
  rw [← id_enrol hv]
  exact (h.of_mem hmem).1

theorem partition?_of_mem (h : Opening contract f settings d) (hp : p ∈ enlisted contract f) :
    d.partition? p.2.id = some p.1 := by
  obtain ⟨hmem, ht⟩ := List.mem_filter.1 hp
  cases hv : enrol p with
  | none =>
    rw [enrol_eq_none_iff.1 hv] at ht
    cases ht
  | some v => rw [partition?, h.registered?_of_enrol hmem hv, Option.map_some, enrol_partition hv]

theorem mem_numbers_iff (h : Opening contract f settings d) {id : Nat} {partition : Partition} :
    id ∈ d.numbers partition ↔ d.partition? id = some partition := by
  simp only [numbers, List.mem_map, List.mem_filter, decide_eq_true_eq, partition?,
    Option.map_eq_some_iff]
  constructor
  · rintro ⟨v, ⟨hv, hpartition⟩, rfl⟩
    exact ⟨v, (h.of_mem hv).1, hpartition⟩
  · rintro ⟨v, hv, hpartition⟩
    exact ⟨v, ⟨List.mem_of_find?_eq_some hv, hpartition⟩, id_of_registered? hv⟩

end Opening

/-- A function whose enlisted declarations have numbers of their own can be prepared for. -/
theorem exists_prepared (settings : Settings) (hn : ((enlisted contract f).map (·.2.id)).Nodup) :
    ∃ d, (prepare contract f).run { settings } = .ok () d ∧ Opening contract f settings d := by
  rw [enlisted, ← map_id_enrol] at hn
  obtain ⟨d, hp⟩ := exists_yields_prepare hn settings []
  exact ⟨d, hp, .of_yields hp⟩

theorem exists_rejected (settings : Settings) (hn : ¬ ((enlisted contract f).map (·.2.id)).Nodup) :
    ∃ before p after d', enlisted contract f = before ++ p :: after ∧
      (before.map (·.2.id)).Nodup ∧ p.2.id ∈ before.map (·.2.id) ∧
      (prepare contract f).run { settings } =
        .error (.duplicateDeclaration p.2.name p.2.id p.2.location) d' := by
  obtain ⟨before, p, after, d', hsplit, hfresh, htaken, herror⟩ :=
    exists_duplicate
      (d := { settings, contract := contract.name, function := f.name, phase := .registering }) rfl
      List.nodup_nil hn
  exact ⟨before, p, after, d', hsplit, hfresh, htaken, run_prepare_of_error rfl herror⟩

/-- A declaration that the encoding of a body comes to is enlisted, and its variable is still a
local one. -/
theorem Opening.declared_local (h : Opening contract f settings d) {location : Location}
    {declarations : List Declaration} {initial : Option Expr} {c : Draft}
    (hr : Visit.Reaches f.returns ⟨.sequence f.body, d⟩
      ⟨.statement (.declare location declarations initial), c⟩)
    {declaration : Declaration} (hm : declaration ∈ declarations)
    (ht : declaration.ty.isSupported = true) :
    (.local, declaration) ∈ enlisted contract f ∧ c.partition? declaration.id = some .local := by
  have hlocal : declaration ∈ f.locals :=
    Piece.mem_locals_iff (p := .sequence f.body) |>.2
      ⟨location, declarations, initial, hr.contains, hm⟩
  have hlisted : (Partition.local, declaration) ∈ enlisted contract f :=
    List.mem_filter.2 ⟨by simp [Draft.declarations, hlocal], ht⟩
  obtain ⟨k, hk⟩ := hr.later.registered declaration.id
  refine ⟨hlisted, ?_⟩
  rw [partition?, hk, Option.map_map]
  exact h.partition?_of_mem hlisted

/-- **Registration is a partition.** Take the declarations of a function whose types have terms: the
state variables of value types, the parameters, the locals and the return slots. A new draft fails
to be prepared for the function if and only if two of them have one number, and then at the first
whose number is taken. Else each gets a variable in its own partition and in no other, its start is
stated once, in this order, and nothing else is. The locals are the declarations of the declaration
statements inside the body, so that the encoding comes to none that was not registered. -/
theorem registration_partitions (contract : Contract) (f : Function) (settings : Settings) :
    let listed := enlisted contract f
    let prepared := (prepare contract f).run { settings }
    ((∃ name id location d, prepared = .error (.duplicateDeclaration name id location) d) ↔
      ¬ (listed.map (·.2.id)).Nodup) ∧
    (¬ (listed.map (·.2.id)).Nodup → ∃ before p after d, listed = before ++ p :: after ∧
      (before.map (·.2.id)).Nodup ∧ p.2.id ∈ before.map (·.2.id) ∧
      prepared = .error (.duplicateDeclaration p.2.name p.2.id p.2.location) d) ∧
    ((listed.map (·.2.id)).Nodup → ∃ d, prepared = .ok () d ∧
      (d.registry.map (·.id)).Perm (listed.map (·.2.id)) ∧
      (∀ p ∈ listed, ∀ partition, p.2.id ∈ d.numbers partition ↔ partition = p.1) ∧
      List.Forall₂ d.Enters listed d.constraints ∧
      ∀ location declarations initial c, Visit.Reaches f.returns ⟨.sequence f.body, d⟩
          ⟨.statement (.declare location declarations initial), c⟩ →
        ∀ declaration ∈ declarations, declaration.ty.isSupported = true →
          (.local, declaration) ∈ listed ∧ c.partition? declaration.id = some .local) ∧
    ∀ declaration, declaration ∈ f.locals ↔ (Piece.sequence f.body).Declares declaration := by
  intro listed prepared
  have hlocals : ∀ declaration,
      declaration ∈ f.locals ↔ (Piece.sequence f.body).Declares declaration :=
    fun _ => Piece.mem_locals_iff (p := .sequence f.body)
  refine ⟨⟨?_, fun hn => ?_⟩, exists_rejected settings, fun hn => ?_, hlocals⟩
  · rintro ⟨name, id, location, d, herror⟩ hn
    obtain ⟨d', hok, -⟩ := exists_prepared settings hn
    cases hok.symm.trans herror
  · obtain ⟨-, p, -, d', -, -, -, herror⟩ := exists_rejected settings hn
    exact ⟨_, _, _, d', herror⟩
  · obtain ⟨d, hok, ho⟩ := exists_prepared settings hn
    refine ⟨d, hok, ?_, fun p hp partition => ?_, ?_, fun _ _ _ _ hr _ hm ht => ?_⟩
    · have hperm := ho.registry.map (·.id)
      rw [enrolment, map_id_enrol] at hperm
      exact hperm
    · rw [ho.mem_numbers_iff, ho.partition?_of_mem hp, Option.some.injEq, eq_comm]
    · rw [ho.constraints]
      exact forall₂_enters fun p hp v hv => ho.registered?_of_enrol hp hv
    · exact ho.declared_local hr hm ht

/-- A contract with a state variable that is enlisted, one of a type without terms, and one that is
not of a value type. -/
def cellar : Contract where
  id := 0
  name := "C"
  location := {}
  stateVariables := [⟨1, "total", .integer ⟨8, false⟩, {}, none⟩, ⟨2, "owner", .address, {}, none⟩,
    ⟨3, "shares", .mapping .address .bool, {}, none⟩]
  functions := []

/-- The only local is declared in the start of a loop inside a block. -/
def nesting (slot : Nat) : Function where
  id := 9
  name := "f"
  location := {}
  parameters := [⟨4, "p", .bool, {}, none⟩]
  returns := [⟨slot, "r", .integer ⟨8, false⟩, {}, none⟩]
  body := [.block {} [.forLoop {} (some (.declare {} [⟨5, "i", .integer ⟨8, true⟩, {}, none⟩] none))
    none none (.block {} [])]]

theorem nesting_registers :
    (enlisted cellar (nesting 6)).map (·.2.id) = [1, 4, 5, 6] ∧
      (∃ d, (prepare cellar (nesting 6)).run {} = .ok () d ∧
        d.constraints.map Constraint.fact = [
          .and (.ge (.symbol ⟨"total-1_0", .int⟩) (.ofInt 0))
            (.le (.symbol ⟨"total-1_0", .int⟩) (.ofInt 255)),
          .implies (.symbol ⟨"p-4_0", .bool⟩) (.ofBool true),
          .eq (.symbol ⟨"i-5_0", .int⟩) (.ofInt 0), .eq (.symbol ⟨"r-6_0", .int⟩) (.ofInt 0)] ∧
        (∀ partition, 5 ∈ d.numbers partition ↔ partition = .local) ∧
        d.partition? 5 = some .local) ∧
      ∃ name id location d, (prepare cellar (nesting 5)).run {} =
        .error (.duplicateDeclaration name id location) d := by
  let counter : Declaration := ⟨5, "i", .integer ⟨8, true⟩, {}, none⟩
  have hids : (enlisted cellar (nesting 6)).map (·.2.id) = [1, 4, 5, 6] := by decide
  have hnodup : ((enlisted cellar (nesting 6)).map (·.2.id)).Nodup := by
    rw [hids]
    decide
  obtain ⟨-, -, hprepared, -⟩ := registration_partitions cellar (nesting 6) {}
  obtain ⟨d, hok, -, hone, -, hreached⟩ := hprepared hnodup
  have hfacts := congrArg (fun
    | .ok _ d => d.constraints.map Constraint.fact
    | .error _ _ => []) hok
  have hvisit : Visit.Reaches (nesting 6).returns ⟨.sequence (nesting 6).body, d⟩
      ⟨.statement (.declare {} [counter] none), d⟩ :=
    (((Visit.Part.reaches .first).then .block).then .first).then .start
  obtain ⟨hlisted, hpartition⟩ := hreached _ _ _ _ hvisit counter (by simp) rfl
  obtain ⟨hrejected, -⟩ := registration_partitions cellar (nesting 5) {}
  exact ⟨hids, ⟨d, hok, hfacts.symm.trans (by decide +kernel), hone _ hlisted, hpartition⟩,
    hrejected.2 (by decide)⟩

end Draft

end PathFormula
