import PathFormula.OrderedSet
import PathFormula.Term.Basic

/-!
# Text, declarations and free symbols of a term

Under a nonce every free symbol is renamed, so that one term can be written in several contexts.
`serialize` gives the text of a term beside the commands that declare its renamed symbols.
-/
namespace PathFormula

namespace Symbol

/-- The order of declarations: by name, then booleans before integers. -/
def before (a b : Symbol) : Bool :=
  if a.name < b.name then true
  else if b.name < a.name then false
  else a.sort = .bool && b.sort = .int

/-- An empty nonce leaves the name as it is. -/
def renamed (nonce : String) (s : Symbol) : Symbol :=
  if nonce = "" then s else { s with name := s.name ++ "." ++ nonce }

def declaration (s : Symbol) : String :=
  "(declare-const " ++ s.name ++ " " ++ s.sort.text ++ ")"

theorem before_iff {a b : Symbol} :
    before a b = true ↔
      a.name < b.name ∨ (a.name = b.name ∧ a.sort = .bool ∧ b.sort = .int) := by
  unfold before
  split
  · simp [*]
  · rename_i hlt
    split
    · rename_i hgt
      have hne : a.name ≠ b.name := fun h => String.lt_irrefl _ (h ▸ hgt)
      simp [hlt, hne]
    · rename_i hgt
      have heq : a.name = b.name :=
        String.le_antisymm (String.not_lt.1 hgt) (String.not_lt.1 hlt)
      simp [heq]

theorem separates_before : OrderedSet.Separates before := by
  intro a b hab hba
  rw [← Bool.not_eq_true, before_iff] at hab hba
  obtain ⟨a, s⟩ := a
  obtain ⟨b, t⟩ := b
  have hle : a ≤ b := String.not_lt.1 fun h => hba (.inl h)
  have hge : b ≤ a := String.not_lt.1 fun h => hab (.inl h)
  obtain rfl := String.le_antisymm hle hge
  cases s <;> cases t <;> simp at hab hba ⊢

theorem before_irrefl (a : Symbol) : before a a = false := by
  rw [← Bool.not_eq_true, before_iff]
  rintro (h | ⟨-, h, h'⟩)
  · exact String.lt_irrefl _ h
  · rw [h] at h'
    cases h'

theorem before_trans (a b c : Symbol) (hab : before a b = true) (hbc : before b c = true) :
    before a c = true := by
  rw [before_iff] at *
  obtain hab | ⟨hab, -, hb⟩ := hab
  · obtain hbc | ⟨hbc, -, -⟩ := hbc
    · exact .inl (String.lt_trans hab hbc)
    · exact .inl (hbc ▸ hab)
  · obtain hbc | ⟨-, hb', -⟩ := hbc
    · exact .inl (hab ▸ hbc)
    · rw [hb] at hb'
      cases hb'

end Symbol

namespace Term

/-- Prefix notation, with the free symbols renamed. -/
def render (nonce : String) : Term → String
  | .leaf text _ => text
  | .symbol s => (s.renamed nonce).name
  | .not a => "(" ++ Operator.not.symbol ++ " " ++ a.render nonce ++ ")"
  | .dyadic op a b =>
      "(" ++ op.symbol ++ " " ++ a.render nonce ++ " " ++ b.render nonce ++ ")"
  | .ite condition yes no =>
      "(" ++ Operator.ite.symbol ++ " " ++ condition.render nonce ++ " " ++ yes.render nonce ++ " "
        ++ no.render nonce ++ ")"

def text (t : Term) : String := t.render ""

/-- The declaration of every occurrence of a free symbol, from left to right. -/
def declared (nonce : String) : Term → List String
  | .leaf .. => []
  | .symbol s => [(s.renamed nonce).declaration]
  | .not a => a.declared nonce
  | .dyadic _ a b => a.declared nonce ++ b.declared nonce
  | .ite condition yes no => condition.declared nonce ++ yes.declared nonce ++ no.declared nonce

structure Serialized where
  text : String
  declarations : List String
  deriving DecidableEq, Repr

/-- The declarations are sorted, each once. -/
def serialize (nonce : String) (t : Term) : Serialized where
  text := t.render nonce
  declarations := OrderedSet.ofList (fun a b => decide (a < b)) (t.declared nonce)

def symbols : Term → List Symbol
  | .leaf .. => []
  | .symbol s => [s]
  | .not a => a.symbols
  | .dyadic _ a b => a.symbols ++ b.symbols
  | .ite condition yes no => condition.symbols ++ yes.symbols ++ no.symbols

def freeSymbols (t : Term) : List Symbol := OrderedSet.ofList Symbol.before t.symbols

/-- The free symbols of several terms together. -/
def freeSymbolsOf (terms : List Term) : List Symbol :=
  OrderedSet.ofList Symbol.before (terms.flatMap symbols)

theorem mem_freeSymbols {t : Term} {s : Symbol} : s ∈ t.freeSymbols ↔ s ∈ t.symbols :=
  OrderedSet.mem_ofList Symbol.separates_before

theorem mem_freeSymbolsOf {terms : List Term} {s : Symbol} :
    s ∈ freeSymbolsOf terms ↔ ∃ t ∈ terms, s ∈ t.symbols := by
  rw [freeSymbolsOf, OrderedSet.mem_ofList Symbol.separates_before, List.mem_flatMap]

theorem nodup_freeSymbols (t : Term) : t.freeSymbols.Nodup :=
  OrderedSet.nodup_ofList Symbol.separates_before Symbol.before_trans Symbol.before_irrefl _

theorem nodup_freeSymbolsOf (terms : List Term) : (freeSymbolsOf terms).Nodup :=
  OrderedSet.nodup_ofList Symbol.separates_before Symbol.before_trans Symbol.before_irrefl _

end Term

end PathFormula
