import PathFormula.Term.Meaning

/-!
# Models that agree

The value of a term depends on the names in it and on division by zero only
(`value_eq_of_agreeOn`), and a model can be given a new value for one symbol without a change
elsewhere (`agreeOn_set`).
-/
namespace PathFormula

namespace Term

/-- The texts of the leaves and symbols of a term. -/
def names : Term → List String
  | .leaf text _ => [text]
  | .symbol s => [s.name]
  | .not a => a.names
  | .dyadic _ a b => a.names ++ b.names
  | .ite condition yes no => condition.names ++ yes.names ++ no.names

end Term

def Value.zero : TermSort → Value
  | .bool => .bool false
  | .int => .int 0

theorem Value.zero_sort (sort : TermSort) : (Value.zero sort).sort = sort := by
  cases sort <;> rfl

namespace Model

/-- The second model is like the first on the names of a set. -/
structure AgreeOn (names : String → Prop) (m m' : Model) : Prop where
  bool : ∀ name, names name → m'.bool name = m.bool name
  int : ∀ name, names name → m'.int name = m.int name
  byZero : m'.byZero = m.byZero

theorem AgreeOn.refl (names : String → Prop) (m : Model) : AgreeOn names m m :=
  ⟨fun _ _ => rfl, fun _ _ => rfl, rfl⟩

theorem AgreeOn.mono {names names' : String → Prop} {m m' : Model} (h : AgreeOn names' m m')
    (hn : ∀ name, names name → names' name) : AgreeOn names m m' :=
  ⟨fun name hm => h.bool name (hn name hm), fun name hm => h.int name (hn name hm), h.byZero⟩

theorem AgreeOn.trans {names : String → Prop} {m₁ m₂ m₃ : Model} (h₁ : AgreeOn names m₁ m₂)
    (h₂ : AgreeOn names m₂ m₃) : AgreeOn names m₁ m₃ :=
  ⟨fun name hn => (h₂.bool name hn).trans (h₁.bool name hn),
    fun name hn => (h₂.int name hn).trans (h₁.int name hn), h₂.byZero.trans h₁.byZero⟩

theorem AgreeOn.value {names : String → Prop} {m m' : Model} (h : AgreeOn names m m')
    {name : String} (hn : names name) (sort : TermSort) : m'.value name sort = m.value name sort :=
    by
  cases sort with
  | bool => exact congrArg Value.bool (h.bool name hn)
  | int => exact congrArg Value.int (h.int name hn)

/-- The value of a symbol is read at its sort. -/
theorem value_eq (m : Model) {name : String} {sort : TermSort} {x : Value} (h : x.sort = sort)
    (hb : m.bool name = x.truth) (hi : m.int name = x.number) : m.value name sort = x := by
  subst h
  cases x with
  | bool b => exact congrArg Value.bool hb
  | int n => exact congrArg Value.int hi

/-- Change the value of one symbol. -/
def set (m : Model) (s : Symbol) (x : Value) : Model :=
  match s.sort with
  | .bool => { m with bool := fun name => if name = s.name then x.truth else m.bool name }
  | .int => { m with int := fun name => if name = s.name then x.number else m.int name }

theorem value_set (m : Model) (s : Symbol) {x : Value} (h : x.sort = s.sort) :
    (m.set s x).value s.name s.sort = x := by
  obtain ⟨name, sort⟩ := s
  cases sort <;> cases x <;> simp [Value.sort] at h <;> simp [set, value, Value.truth, Value.number]

theorem agreeOn_set (m : Model) {s : Symbol} {names : String → Prop} (h : ¬ names s.name)
    (x : Value) : AgreeOn names m (m.set s x) := by
  have hne : ∀ name, names name → name ≠ s.name := by
    rintro name hn rfl
    exact h hn
  obtain ⟨name, sort⟩ := s
  cases sort
  · exact ⟨fun n hn => by simp [set, hne n hn], fun _ _ => rfl, rfl⟩
  · exact ⟨fun _ _ => rfl, fun n hn => by simp [set, hne n hn], rfl⟩

end Model

namespace Term

theorem value_eq_of_agreeOn {names : String → Prop} {m m' : Model} (h : Model.AgreeOn names m m')
    {t : Term} (ht : ∀ name ∈ t.names, names name) : t.value m' = t.value m := by
  induction t with
  | leaf text sort =>
    simp only [value]
    rw [h.value (ht text (by simp [Term.names]))]
  | symbol s => exact h.value (ht s.name (by simp [Term.names])) s.sort
  | not a ih => simp only [value, ih ht]
  | dyadic op a b iha ihb =>
    simp only [Term.names, List.mem_append] at ht
    simp only [value, iha fun n hn => ht n (.inl hn), ihb fun n hn => ht n (.inr hn)]
    cases op <;> simp [Dyadic.value, Model.quotient, h.byZero]
  | ite condition yes no ihc ihy ihn =>
    simp only [Term.names, List.mem_append] at ht
    simp only [value, ihc fun n hn => ht n (.inl (.inl hn)),
      ihy fun n hn => ht n (.inl (.inr hn)), ihn fun n hn => ht n (.inr hn)]

theorem holds_iff_of_agreeOn {names : String → Prop} {m m' : Model} (h : Model.AgreeOn names m m')
    {t : Term} (ht : ∀ name ∈ t.names, names name) : t.Holds m' ↔ t.Holds m := by
  rw [Holds, Holds, value_eq_of_agreeOn h ht]

theorem holds_eq {m : Model} {a b : Term} : (eq a b).Holds m ↔ a.value m = b.value m := by
  simp [Holds, value, Dyadic.value, Value.truth]

theorem value_ite_of_holds {m : Model} {c a b : Term} (h : c.Holds m) :
    (ite c a b).value m = a.value m := if_pos h

theorem value_ite_of_not_holds {m : Model} {c a b : Term} (h : ¬ c.Holds m) :
    (ite c a b).value m = b.value m := if_neg h

end Term

end PathFormula
