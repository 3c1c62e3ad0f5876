import PathFormula.Proofs.Execution
import PathFormula.Proofs.Names
import PathFormula.Proofs.Steps
import PathFormula.Term.Sorting

/-!
# Growth of drafts

Encoding only ever adds to a draft. `Grows` lists what it adds: symbols for expressions,
definitions of symbols that are new, forgotten variables and assumed facts, each under the path
conditions that are open. What holds of every encoding is proved here once, by induction on growth.
A grown draft is later than the one it came from (`Grows.later`). A model of a draft extends to
what was added as long as nothing was assumed (`Grows.extension`), or where the path is not taken
(`Grows.untaken`).
-/
namespace PathFormula

namespace Registered

/-- The same variable after some more writes. -/
def later (v : Registered) (k : Nat) : Registered := { v with version := v.version + k }

variable (v : Registered) (k n : Nat)

@[simp] theorem later_id : (v.later k).id = v.id := rfl
@[simp] theorem later_domain : (v.later k).domain = v.domain := rfl
@[simp] theorem later_version : (v.later k).version = v.version + k := rfl
@[simp] theorem later_zero : v.later 0 = v := rfl
@[simp] theorem later_later : (v.later k).later n = v.later
    (k + n) := by simp [later, Nat.add_assoc]
@[simp] theorem symbol_later : (v.later k).symbol n = v.symbol n := rfl
@[simp] theorem term_later : (v.later k).term n = v.term n := rfl

end Registered

theorem Constraint.holds_term {m : Model} {c : Constraint} :
    c.term.Holds m ↔ (c.guard.Holds m → c.fact.Holds m) := by
  unfold term
  split
  · rename_i h
    simp [Term.holds_of_isTrue h]
  · exact Term.holds_implies

namespace Draft

open Source

/-! ### The names of a draft -/

/-- The names that a draft has used up, and those of constants. -/
def Owns (d : Draft) (name : String) : Prop :=
  (∃ id v k, d.registered? id = some v ∧ k ≤ v.version ∧ name = (v.symbol k).name) ∨
    (∃ id sort, d.known.lookup id = some sort ∧ name = expressionName id) ∨
      (Term.constant? name).isSome

def Covers (d : Draft) (t : Term) : Prop := ∀ name ∈ t.names, d.Owns name

section Covers

variable {d : Draft} {a b c : Term}

@[simp] theorem covers_not : d.Covers (.not a) ↔ d.Covers a := Iff.rfl

@[simp] theorem covers_dyadic {op : Dyadic} :
    d.Covers (.dyadic op a b) ↔ d.Covers a ∧ d.Covers b := by
  simp [Covers, Term.names, or_imp, forall_and]

@[simp] theorem covers_ite : d.Covers (.ite c a b) ↔ d.Covers c ∧ d.Covers a ∧ d.Covers b := by
  simp [Covers, Term.names, or_imp, forall_and]

@[simp] theorem covers_implies : d.Covers (.implies a b) ↔ d.Covers a ∧ d.Covers b := by
  simp [Term.implies]

@[simp] theorem covers_ne : d.Covers (.ne a b) ↔ d.Covers a ∧ d.Covers b := by
  simp [Term.ne]

@[simp] theorem covers_ofBool (x : Bool) : d.Covers (.ofBool x) := by
  intro name hn
  refine .inr (.inr ?_)
  cases x <;> simp [Term.ofBool, Term.names] at hn <;> simp [hn, Term.constant?]

@[simp] theorem covers_ofInt (n : Int) : d.Covers (.ofInt n) := by
  intro name hn
  refine .inr (.inr ?_)
  simp only [Term.ofInt, Term.names, List.mem_singleton] at hn
  simp [hn, Term.constant?, Term.integerText_ne_true, Term.integerText_ne_false,
    Term.readInteger?_integerText]

@[simp] theorem covers_neg : d.Covers (.neg a) ↔ d.Covers a := by
  simp [Term.neg]

@[simp] theorem covers_zero (sort : TermSort) : d.Covers (.zero sort) := by
  cases sort <;> simp [Term.zero]

theorem covers_expression {id : Nat} {sort : TermSort} (h : d.known.lookup id = some sort) :
    d.Covers (.symbol (expressionSymbol id sort)) := by
  simp only [Covers, Term.names, List.mem_singleton, forall_eq, name_expressionSymbol]
  exact .inr (.inl ⟨id, sort, h, rfl⟩)

theorem covers_version {id k : Nat} {v : Registered} (h : d.registered? id = some v)
    (hk : k ≤ v.version) : d.Covers (v.term k) := by
  simp only [Covers, Variable.term, Term.names, List.mem_singleton, forall_eq]
  exact .inl ⟨id, v, k, h, hk, rfl⟩

theorem covers_disjunction {exits : List Term} {t : Term} (h : Term.disjunction? exits = some t)
    (hc : ∀ x ∈ exits, d.Covers x) : d.Covers t :=
  Term.disjunction?_induction (fun ha hb => covers_dyadic.2 ⟨ha, hb⟩) h hc

end Covers

theorem id_of_registered? {d : Draft} {id : Nat} {v : Registered} (h : d.registered? id = some v) :
    v.id = id := by
  simpa using List.find?_some h

/-- The name of a version is used up only by a variable of that number. -/
theorem exists_of_owns_version {d : Draft} {v : Registered} {k : Nat}
    (h : d.Owns (v.symbol k).name) : ∃ w, d.registered? v.id = some w ∧ k ≤ w.version := by
  rcases h with ⟨id, w, l, hw, hl, hn⟩ | ⟨id, sort, -, hn⟩ | hc
  · obtain ⟨-, hi, rfl⟩ := Variable.name_injective hn
    have hid : w.id = id := id_of_registered? hw
    exact ⟨w, by rw [hi, hid, hw], hl⟩
  · exact absurd hn (name_ne_expressionName v.toVariable k id)
  · simp [Term.constant?_name] at hc

/-- A version that was not written yet has a new name. -/
theorem not_owns_version {d : Draft} {v : Registered} {k : Nat} (h : d.registered? v.id = some v)
    (hk : v.version < k) : ¬ d.Owns (v.symbol k).name := by
  intro ho
  obtain ⟨w, hw, hl⟩ := exists_of_owns_version ho
  cases h.symm.trans hw
  omega

/-- An expression without a symbol has a new name. -/
theorem not_owns_expression {d : Draft} {id : Nat} {sort : TermSort}
    (h : d.known.lookup id = none) : ¬ d.Owns (expressionSymbol id sort).name := by
  rw [name_expressionSymbol]
  rintro (⟨_, w, l, -, -, hn⟩ | ⟨other, sort, hk, hn⟩ | hc)
  · exact name_ne_expressionName w.toVariable l id hn.symm
  · rw [expressionName_injective hn, hk] at h
    cases h
  · simp [Term.constant?_expressionName] at hc

@[simp] theorem registered?_warned (d : Draft) (location : Location) (notice : Notice) (id : Nat) :
    (d.warned location notice).registered? id = d.registered? id := rfl

@[simp] theorem registered?_emitted (d : Draft) (fact : Term) (location : Location) (id : Nat) :
    (d.emitted fact location).registered? id = d.registered? id := rfl

@[simp] theorem registered?_named (d : Draft) (other : Nat) (sort : TermSort) (id : Nat) :
    (d.named other sort).registered? id = d.registered? id := rfl

@[simp] theorem registered?_pushed (d : Draft) (condition : Term) (id : Nat) :
    (d.pushed condition).registered? id = d.registered? id := rfl

/-! ### Later drafts -/

theorem registered?_advanced (d : Draft) (id other : Nat) :
    (d.advanced id).registered? other =
      (d.registered? other).map fun v => v.later (if other = id then 1 else 0) := by
  simp only [registered?, advanced]
  induction d.registry with
  | nil => rfl
  | cons v rest ih =>
    simp only [List.map_cons, List.find?_cons]
    by_cases hv : v.id = id <;> by_cases ho : v.id = other
    · subst hv ho
      simp [Variable.advance, Registered.later]
    · have hb : (v.id == other) = false := by simpa using ho
      simpa [if_pos hv, Variable.advance, hb] using ih
    · have hn : ¬ other = id := fun h => hv (ho.trans h)
      have hb : (v.id == other) = true := by simpa using ho
      simp [if_neg hv, hb, hn]
    · have hb : (v.id == other) = false := by simpa using ho
      simpa [if_neg hv, hb] using ih

/-- The second draft came from the first by encoding, under whatever path conditions. -/
structure Later (d d' : Draft) : Prop where
  settings : d'.settings = d.settings
  phase : d'.phase = d.phase
  ids : d'.registry.map (·.id) = d.registry.map (·.id)
  registered : ∀ id, ∃ k, d'.registered? id = (d.registered? id).map (·.later k)
  known : ∀ id sort, d.known.lookup id = some sort → d'.known.lookup id = some sort
  constraints : d.constraints <+: d'.constraints

namespace Later

variable {d d₁ d₂ : Draft}

theorem refl (d : Draft) : Later d d :=
  ⟨rfl, rfl, rfl, fun id => ⟨0, by simp⟩, fun _ _ h => h, List.prefix_rfl⟩

theorem trans (h : Later d d₁) (h' : Later d₁ d₂) : Later d d₂ where
  settings := h'.settings.trans h.settings
  phase := h'.phase.trans h.phase
  ids := h'.ids.trans h.ids
  registered id := by
    obtain ⟨k, hk⟩ := h.registered id
    obtain ⟨n, hn⟩ := h'.registered id
    exact ⟨k + n, by rw [hn, hk, Option.map_map]; simp [Function.comp_def]⟩
  known id sort hk := h'.known id sort (h.known id sort hk)
  constraints := h.constraints.trans h'.constraints

theorem owns (h : Later d d₁) {name : String} (hn : d.Owns name) : d₁.Owns name := by
  rcases hn with ⟨id, v, k, hv, hk, hn⟩ | ⟨id, sort, hk, hn⟩ | hc
  · obtain ⟨n, hr⟩ := h.registered id
    rw [hv] at hr
    exact .inl ⟨id, v.later n, k, hr, Nat.le_trans hk (Nat.le_add_right _ _), hn⟩
  · exact .inr (.inl ⟨id, sort, h.known id sort hk, hn⟩)
  · exact .inr (.inr hc)

theorem covers (h : Later d d₁) {t : Term} (ht : d.Covers t) : d₁.Covers t :=
  fun name hn => h.owns (ht name hn)

theorem warned {location : Location} {notice : Notice} : Later d (d.warned location notice) :=
  { refl d with settings := rfl }

theorem emitted {fact : Term} {location : Location} : Later d (d.emitted fact location) :=
  { refl d with constraints := List.prefix_append _ _ }

theorem named {id : Nat} {sort : TermSort} (h : d.known.lookup id = none) :
    Later d (d.named id sort) := by
  refine { refl d with known := fun other s hs => ?_ }
  have hne : (other == id) = false := by
    rw [beq_eq_false_iff_ne]
    rintro rfl
    rw [h] at hs
    cases hs
  simp [List.lookup_cons, hne, hs]

theorem advanced {id : Nat} : Later d (d.advanced id) := by
  refine { refl d with ids := ?_, registered := fun other => ⟨_, registered?_advanced d id other⟩ }
  simp only [Draft.advanced, List.map_map]
  refine List.map_congr_left fun v _ => ?_
  simp only [Function.comp_apply]
  split <;> rfl

theorem pushed {condition : Term} : Later d (d.pushed condition) :=
  { refl d with settings := rfl }

theorem withPath {path : List Term} : Later d { d with path } :=
  { refl d with settings := rfl }

end Later

/-! ### Models of drafts -/

/-- All that was emitted is true in the model. -/
def HoldsIn (d : Draft) (m : Model) : Prop :=
  ∀ c ∈ d.constraints, c.guard.Holds m → c.fact.Holds m

/-- The open path conditions are true in the model. -/
def Open (d : Draft) (m : Model) : Prop := d.pathCondition.Holds m

/-- The values a model gives the current versions of the variables. -/
def store (d : Draft) (m : Model) : Store := fun id => (d.current? id).map (·.value m)

/-- The values a model gives one version of all variables. -/
def storeAt (d : Draft) (version : Nat) (m : Model) : Store :=
  fun id => (d.term? id version).map (·.value m)

theorem holds_formula {d : Draft} {m : Model} : d.formula.Holds m ↔ d.HoldsIn m := by
  simp [formula, Term.holds_conjunction, HoldsIn, Constraint.holds_term]

/-- Nothing in a draft has a name that it does not own. -/
structure Closed (d : Draft) : Prop where
  path : ∀ t ∈ d.path, d.Covers t
  constraints : ∀ c ∈ d.constraints, d.Covers c.guard ∧ d.Covers c.fact

section Models

variable {d d' : Draft} {m m' : Model}

@[simp] theorem holdsIn_warned {location : Location} {notice : Notice} :
    (d.warned location notice).HoldsIn m ↔ d.HoldsIn m := Iff.rfl

@[simp] theorem holdsIn_named {id : Nat} {sort : TermSort} :
    (d.named id sort).HoldsIn m ↔ d.HoldsIn m := Iff.rfl

@[simp] theorem holdsIn_advanced {id : Nat} : (d.advanced id).HoldsIn m ↔ d.HoldsIn m := Iff.rfl

@[simp] theorem holdsIn_pushed {t : Term} : (d.pushed t).HoldsIn m ↔ d.HoldsIn m := Iff.rfl

@[simp] theorem holdsIn_emitted {fact : Term} {location : Location} :
    (d.emitted fact location).HoldsIn m ↔ d.HoldsIn m ∧ (d.Open m → fact.Holds m) := by
  simp [HoldsIn, or_imp, forall_and, Open]

@[simp] theorem open_pushed {condition : Term} :
    (d.pushed condition).Open m ↔ d.Open m ∧ condition.Holds m := by
  have hp : (d.pushed condition).pathCondition =
      if d.pathCondition.isTrue then condition else .and d.pathCondition condition := rfl
  rw [Open, Open, hp]
  split
  · rename_i h
    simp [Term.holds_of_isTrue h]
  · exact Term.holds_and

theorem store_eq (d : Draft) (m : Model) (id : Nat) :
    d.store m id = (d.registered? id).map fun v => v.current.value m := by
  simp [store, current?, Option.map_map, Function.comp_def]

theorem Closed.covers_pathCondition (h : d.Closed) : d.Covers d.pathCondition :=
  forall_pathCondition (covers_ofBool true) h.path

theorem Closed.open_iff (h : d.Closed) (ha : m.AgreeOn d.Owns m') : d.Open m' ↔ d.Open m :=
  Term.holds_iff_of_agreeOn ha h.covers_pathCondition

theorem Closed.holdsIn_iff (h : d.Closed) (ha : m.AgreeOn d.Owns m') :
    d.HoldsIn m' ↔ d.HoldsIn m := by
  refine forall₂_congr fun c hc => ?_
  obtain ⟨hg, hf⟩ := h.constraints c hc
  rw [Term.holds_iff_of_agreeOn ha hg, Term.holds_iff_of_agreeOn ha hf]

theorem store_of_agreeOn (ha : m.AgreeOn d.Owns m') : d.store m' = d.store m := by
  funext id
  rw [store_eq, store_eq]
  cases hr : d.registered? id with
  | none => rfl
  | some v =>
    have hv := Term.value_eq_of_agreeOn ha (covers_version hr (Nat.le_refl v.version))
    exact congrArg some hv

theorem Later.holdsIn (h : Later d d') (hm : d'.HoldsIn m) : d.HoldsIn m :=
  fun c hc => hm c (h.constraints.subset hc)

theorem Later.agreeOn (h : Later d d') (ha : m.AgreeOn d'.Owns m') : m.AgreeOn d.Owns m' :=
  ha.mono fun _ hn => h.owns hn

end Models

/-! ### Growth -/

/-- What an encoding may add: symbols for some expressions, new versions of some variables, and
facts that are no definitions. -/
structure Licence where
  nodes : List Expr
  writes : Nat → Prop
  asserts : Prop

def Licence.names (L : Licence) (id : Nat) (sort : TermSort) : Prop :=
  ∃ x ∈ L.nodes, x.id = id ∧ x.termSort = .ok sort

/-- The first licence allows no more than the second. -/
structure Licence.Within (L L' : Licence) : Prop where
  nodes : L.nodes ⊆ L'.nodes
  writes : ∀ id, L.writes id → L'.writes id
  asserts : L.asserts → L'.asserts

inductive Grows (L : Licence) : Draft → Draft → Prop where
  | refl (d : Draft) : Grows L d d
  | trans {d d₁ d₂ : Draft} : Grows L d d₁ → Grows L d₁ d₂ → Grows L d d₂
  | warned {d : Draft} {location : Location} {notice : Notice} :
      Grows L d (d.warned location notice)
  | named {d : Draft} {id : Nat} {sort : TermSort} (hk : d.known.lookup id = none)
      (hn : L.names id sort) : Grows L d (d.named id sort)
  | defined {d : Draft} {id : Nat} {sort : TermSort} {t : Term} {location : Location}
      (hk : d.known.lookup id = none) (hn : L.names id sort) (ht : d.Covers t)
      (hs : t.HasSort sort) :
      Grows L d
        ((d.named id sort).emitted (.eq (.symbol (expressionSymbol id sort)) t) location)
  | assigned {d : Draft} {v : Registered} {t : Term} {location : Location}
      (hv : d.registered? v.id = some v) (hw : L.writes v.id) (ht : d.Covers t)
      (hs : t.HasSort v.sort) :
      Grows L d ((d.advanced v.id).emitted (.eq (v.term (v.version + 1)) t) location)
  | forgot {d : Draft} {v : Registered} {location : Location}
      (hv : d.registered? v.id = some v) (hw : L.writes v.id) :
      Grows L d ((d.advanced v.id).emitted v.advance.rangeFact location)
  | assumed {d : Draft} {fact : Term} {location : Location} (ha : L.asserts)
      (ht : d.Covers fact) (hs : fact.HasSort .bool) (hf : ∀ a b, fact ≠ .eq a b) :
      Grows L d (d.emitted fact location)
  | gated {d e : Draft} {condition : Term} (hc : d.Covers condition)
      (hs : condition.HasSort .bool) (h : Grows L (d.pushed condition) e) :
      Grows L d { e with path := d.path }

namespace Grows

variable {L L' : Licence} {d d' : Draft}

theorem mono (h : Grows L d d') (hL : L.Within L') : Grows L' d d' := by
  have hnames : ∀ {id sort}, L.names id sort → L'.names id sort :=
    fun ⟨x, hx, hs⟩ => ⟨x, hL.nodes hx, hs⟩
  induction h with
  | refl d => exact .refl d
  | trans _ _ ih₁ ih₂ => exact .trans ih₁ ih₂
  | warned => exact .warned
  | named hk hn => exact .named hk (hnames hn)
  | defined hk hn ht hs => exact .defined hk (hnames hn) ht hs
  | assigned hv hw ht hs => exact .assigned hv (hL.writes _ hw) ht hs
  | forgot hv hw => exact .forgot hv (hL.writes _ hw)
  | assumed ha ht hs hf => exact .assumed (hL.asserts ha) ht hs hf
  | gated hc hs _ ih => exact .gated hc hs ih

theorem later (h : Grows L d d') : Later d d' := by
  induction h with
  | refl d => exact .refl d
  | trans _ _ ih₁ ih₂ => exact ih₁.trans ih₂
  | warned => exact .warned
  | named hk => exact .named hk
  | defined hk => exact (Later.named hk).trans .emitted
  | assigned => exact Later.advanced.trans .emitted
  | forgot => exact Later.advanced.trans .emitted
  | assumed => exact .emitted
  | gated _ _ _ ih => exact (Later.pushed.trans ih).trans .withPath

theorem path (h : Grows L d d') : d'.path = d.path := by
  induction h with
  | trans _ _ ih₁ ih₂ => exact ih₂.trans ih₁
  | _ => rfl

theorem open_iff (h : Grows L d d') {m : Model} : d'.Open m ↔ d.Open m := by
  rw [Open, Open, pathCondition, pathCondition, h.path]

/-- A closed branch leaves the path as it was. -/
theorem popped_eq {condition : Term} (h : Grows L (d.pushed condition) d') :
    d'.popped = { d' with path := d.path } := by
  simp only [popped, h.path]
  rfl

/-- Only licensed expressions get symbols. -/
theorem names (h : Grows L d d') {id : Nat} {sort : TermSort}
    (hk : d'.known.lookup id = some sort) : d.known.lookup id = some sort ∨ L.names id sort := by
  induction h with
  | refl | warned | assigned | forgot | assumed => exact .inl hk
  | trans _ _ ih₁ ih₂ =>
    rcases ih₂ hk with hk | hn
    · exact ih₁ hk
    · exact .inr hn
  | @named d id' sort' _ hn | @defined d id' sort' _ _ _ hn =>
    simp only [emitted_known, named_known, List.lookup_cons] at hk
    split at hk
    · rename_i hid
      rw [beq_iff_eq] at hid
      cases hk
      exact .inr (hid ▸ hn)
    · exact .inl hk
  | gated _ _ _ ih => exact ih hk

/-- Variables that may not be written keep their versions. -/
theorem unwritten (h : Grows L d d') {id : Nat} (hw : ¬ L.writes id) :
    d'.registered? id = d.registered? id := by
  induction h with
  | refl | warned | named | defined | assumed => rfl
  | trans _ _ ih₁ ih₂ => exact ih₂.trans ih₁
  | @assigned d v _ _ _ hv | @forgot d v _ _ hv =>
    have hne : ¬ id = v.id := by
      rintro rfl
      exact hw hv
    simp [registered?_advanced, hne]
  | gated _ _ _ ih => exact ih

end Grows

/-! ### Extension of models -/

section Extension

variable {d : Draft} {m : Model} {v : Registered} {s : Symbol} {t : Term}

theorem store_advanced (m : Model) (hv : d.registered? v.id = some v) :
    (d.advanced v.id).store m =
      Function.update (d.store m) v.id (some ((v.term (v.version + 1)).value m)) := by
  funext id
  by_cases hid : id = v.id
  · subst hid
    simp [store_eq, registered?_advanced, hv, Variable.current]
  · simp [store_eq, registered?_advanced, hid]

/-- The value of a new version is all that a write changes in the store. -/
theorem store_write (m : Model) (hv : d.registered? v.id = some v) (fact : Term)
    (location : Location) :
    ((d.advanced v.id).emitted fact location).store m =
      Function.update (d.store m) v.id (some (m.value (v.symbol (v.version + 1)).name v.sort)) :=
  store_advanced m hv

/-- A symbol that is new can be given the value of a term. -/
theorem holds_eq_set (hn : ¬ d.Owns s.name) (ht : d.Covers t) (hs : t.HasSort s.sort) :
    (Term.eq (.symbol s) t).Holds (m.set s (t.value m)) := by
  have hv := Model.value_set m s (hs.value_sort m)
  have hw := Term.value_eq_of_agreeOn (m.agreeOn_set hn (t.value m)) ht
  simp [Term.Holds, Term.value, Dyadic.value, hv, hw, Value.truth]

theorem holds_rangeFact {v : Variable} :
    v.rangeFact.Holds m ↔ v.domain.admits (v.current.value m) := by
  unfold Variable.rangeFact
  cases hd : v.domain with
  | bool =>
    simp only [Variable.current, Variable.term, Term.value, Variable.symbol, Variable.sort, hd,
      Domain.sort, Model.value, Domain.admits, Term.holds_implies, iff_true]
    intro _
    simp [Term.Holds, Value.truth]
  | integer ty =>
    simp [Variable.current, Variable.term, Term.value, Variable.symbol, Variable.sort, hd,
      Domain.sort, Model.value, Domain.admits, Term.Holds, Dyadic.value, Value.truth,
      Value.number]

theorem holds_rangeFact_advance {v : Variable} :
    v.advance.rangeFact.Holds m ↔
      v.domain.admits (m.value (v.symbol (v.version + 1)).name v.sort) :=
  holds_rangeFact

theorem admits_zero (domain : Domain) : domain.admits (.zero domain.sort) := by
  cases domain with
  | bool => rfl
  | integer ty => simp [Domain.sort, Value.zero, Domain.admits, ty.min_le_zero, ty.zero_le_max]

theorem covers_rangeFact {v : Variable} (h : d.Covers v.current) : d.Covers v.rangeFact := by
  unfold Variable.rangeFact
  cases v.domain <;> simp [h]

theorem Closed.emitted (hd : d.Closed) (hf : d.Covers t) {location : Location} :
    (d.emitted t location).Closed := by
  refine ⟨hd.path, fun c hc => ?_⟩
  rcases List.mem_append.1 hc with hc | hc
  · exact hd.constraints c hc
  · rw [List.mem_singleton] at hc
    subst hc
    exact ⟨hd.covers_pathCondition, hf⟩

/-- New names close what was closed. -/
theorem Closed.later {d' : Draft} (hd : d.Closed) (h : Later d d') (hp : d'.path = d.path)
    (hc : d'.constraints = d.constraints) : d'.Closed := by
  refine ⟨fun t ht => ?_, fun c hm => ?_⟩
  · rw [hp] at ht
    exact h.covers (hd.path t ht)
  · rw [hc] at hm
    exact ⟨h.covers (hd.constraints c hm).1, h.covers (hd.constraints c hm).2⟩

theorem Closed.pushed (hd : d.Closed) (ht : d.Covers t) : (d.pushed t).Closed where
  path :=
    forall_path_pushed (covers_ofBool true) (fun _ _ ha hb => covers_dyadic.2 ⟨ha, hb⟩) hd.path ht
  constraints := hd.constraints

theorem covers_advanced (hv : d.registered? v.id = some v) :
    (d.advanced v.id).Covers (v.term (v.version + 1)) := by
  have hr : (d.advanced v.id).registered? v.id = some (v.later 1) := by
    simp [registered?_advanced, hv]
  have hc := covers_version hr (Nat.le_refl (v.later 1).version)
  exact hc

end Extension

namespace Grows

variable {L : Licence} {d d' : Draft}

theorem closed (h : Grows L d d') (hd : d.Closed) : d'.Closed := by
  induction h with
  | refl => exact hd
  | trans _ _ ih₁ ih₂ => exact ih₂ (ih₁ hd)
  | warned => exact hd.later .warned rfl rfl
  | named hk => exact hd.later (.named hk) rfl rfl
  | @defined d id sort t location hk _ ht =>
    have hl : Later d (d.named id sort) := .named hk
    refine (hd.later hl rfl rfl).emitted (covers_dyadic.2 ⟨?_, hl.covers ht⟩)
    exact covers_expression (by simp)
  | @assigned d v t location hv _ ht =>
    have hl : Later d (d.advanced v.id) := .advanced
    exact (hd.later hl rfl rfl).emitted (covers_dyadic.2 ⟨covers_advanced hv, hl.covers ht⟩)
  | @forgot d v location hv =>
    have hl : Later d (d.advanced v.id) := .advanced
    have hc : (d.advanced v.id).Covers v.advance.current := covers_advanced hv
    exact (hd.later hl rfl rfl).emitted (covers_rangeFact hc)
  | assumed _ ht => exact hd.emitted ht
  | gated hc _ h ih =>
    have he := ih (hd.pushed hc)
    have hl := Later.pushed.trans h.later
    exact ⟨fun t ht => hl.covers (hd.path t ht), he.constraints⟩

/-- A model extends to what an encoding adds, unless facts are assumed. -/
theorem extension (h : Grows L d d') (ha : ¬ L.asserts) (hd : d.Closed) {m : Model}
    (hm : d.HoldsIn m) : ∃ m' : Model, m.AgreeOn d.Owns m' ∧ d'.HoldsIn m' := by
  induction h generalizing m with
  | refl => exact ⟨m, .refl _ m, hm⟩
  | trans h₁ _ ih₁ ih₂ =>
    obtain ⟨m₁, ha₁, hm₁⟩ := ih₁ hd hm
    obtain ⟨m₂, ha₂, hm₂⟩ := ih₂ (h₁.closed hd) hm₁
    exact ⟨m₂, ha₁.trans (h₁.later.agreeOn ha₂), hm₂⟩
  | warned => exact ⟨m, .refl _ m, hm⟩
  | named => exact ⟨m, .refl _ m, hm⟩
  | @defined d id sort t location hk _ ht hs =>
    have hn : ¬ d.Owns (expressionSymbol id sort).name := not_owns_expression hk
    have hag := m.agreeOn_set hn (t.value m)
    refine ⟨_, hag, holdsIn_emitted.2 ⟨(hd.holdsIn_iff hag).2 hm, fun _ => ?_⟩⟩
    exact holds_eq_set hn ht hs
  | @assigned d v t location hv _ ht hs =>
    have hn := not_owns_version hv (Nat.lt_add_one _)
    have hag := m.agreeOn_set hn (t.value m)
    refine ⟨_, hag, holdsIn_emitted.2 ⟨(hd.holdsIn_iff hag).2 hm, fun _ => ?_⟩⟩
    exact holds_eq_set hn ht hs
  | @forgot d v location hv _ =>
    have hn := not_owns_version hv (Nat.lt_add_one _)
    have hag := m.agreeOn_set hn (.zero v.sort)
    refine ⟨_, hag, holdsIn_emitted.2 ⟨(hd.holdsIn_iff hag).2 hm, fun _ => ?_⟩⟩
    have hz : (m.set (v.symbol (v.version + 1)) (.zero v.sort)).value
        (v.symbol (v.version + 1)).name v.sort = .zero v.sort :=
      m.value_set (v.symbol (v.version + 1)) (Value.zero_sort v.sort)
    rw [holds_rangeFact_advance, hz]
    exact admits_zero v.domain
  | assumed hp => exact absurd hp ha
  | gated hc _ _ ih => exact ih (hd.pushed hc) (holdsIn_pushed.2 hm)

/-- On a path that is not taken a model extends to all that is added, and the variables can keep
their values. -/
theorem untaken (h : Grows L d d') (hd : d.Closed) {m : Model} (hm : d.HoldsIn m)
    (ho : ¬ d.Open m) :
    ∃ m' : Model, m.AgreeOn d.Owns m' ∧ d'.HoldsIn m' ∧ d'.store m' = d.store m := by
  induction h generalizing m with
  | refl => exact ⟨m, .refl _ m, hm, rfl⟩
  | trans h₁ _ ih₁ ih₂ =>
    obtain ⟨m₁, ha₁, hm₁, hs₁⟩ := ih₁ hd hm ho
    have ho₁ := mt h₁.open_iff.1 (mt (hd.open_iff ha₁).1 ho)
    obtain ⟨m₂, ha₂, hm₂, hs₂⟩ := ih₂ (h₁.closed hd) hm₁ ho₁
    exact ⟨m₂, ha₁.trans (h₁.later.agreeOn ha₂), hm₂, hs₂.trans hs₁⟩
  | warned => exact ⟨m, .refl _ m, hm, rfl⟩
  | named => exact ⟨m, .refl _ m, hm, rfl⟩
  | defined => exact ⟨m, .refl _ m, holdsIn_emitted.2 ⟨hm, fun h => absurd h ho⟩, rfl⟩
  | @assigned d v _ _ hv | @forgot d v _ hv =>
    have hn := not_owns_version hv (Nat.lt_add_one _)
    have hag := m.agreeOn_set hn (v.current.value m)
    have ho' := mt (hd.open_iff hag).1 ho
    refine ⟨_, hag, holdsIn_emitted.2 ⟨(hd.holdsIn_iff hag).2 hm, fun h => absurd h ho'⟩, ?_⟩
    have hc := m.value_set (v.symbol (v.version + 1)) (x := v.current.value m)
      (m.value_sort (v.symbol v.version).name v.sort)
    rw [store_write _ hv, store_of_agreeOn hag, Function.update_eq_self_iff, store_eq, hv]
    exact congrArg some hc
  | assumed => exact ⟨m, .refl _ m, holdsIn_emitted.2 ⟨hm, fun h => absurd h ho⟩, rfl⟩
  | gated hc _ _ ih =>
    exact ih (hd.pushed hc) (holdsIn_pushed.2 hm) (fun h => ho (open_pushed.1 h).1)

end Grows

end Draft

end PathFormula
