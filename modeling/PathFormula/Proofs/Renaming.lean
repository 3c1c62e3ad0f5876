import PathFormula.Proofs.Constructions
import PathFormula.Proofs.Lines

/-!
# Renaming of free symbols

A term is written under a nonce by a recursion over its arguments, and its free symbols can be
collected by a walk that keeps on a stack what is still to be visited. Both come to the same symbols
(`collect_eq_freeSymbols`), the text under a nonce is one text with the renamed symbols filled in
(`render_eq_join`), and without dots in the names of the symbols the declarations under two nonces
have nothing in common (`hoists_renamed`).
-/
namespace PathFormula

/-! ### The free symbols by a walk -/

/-- Strictly increasing lists with the same members are one list. -/
theorem OrderedSet.eq_of_mem_iff {α : Type} {before : α → α → Bool}
    (ht : ∀ a b c, before a b → before b c → before a c) (hi : ∀ a, before a a = false)
    {as bs : List α} (ha : as.Pairwise fun x y => before x y)
    (hb : bs.Pairwise fun x y => before x y) (h : ∀ x, x ∈ as ↔ x ∈ bs) : as = bs := by
  have hne : ∀ {a b}, before a b = true → a ≠ b := by
    rintro a _ hab rfl
    rw [hi] at hab
    cases hab
  have hperm : as.Perm bs :=
    (List.perm_ext_iff_of_nodup (ha.imp hne) (hb.imp hne)).2 h
  refine hperm.eq_of_pairwise (fun a b _ _ hab hba => ?_) ha hb
  exact absurd rfl (hne (ht a b a hab hba))

namespace Term

def size : Term → Nat
  | .leaf .. | .symbol _ => 1
  | .not a => a.size + 1
  | .dyadic _ a b => a.size + b.size + 1
  | .ite condition yes no => condition.size + yes.size + no.size + 1

def stackSize : List Term → Nat
  | [] => 0
  | t :: rest => t.size + stackSize rest

/-- The symbols found so far and those of the terms on the stack, where the last argument of a term
is the next to be visited. -/
def collect (found : List Symbol) : List Term → List Symbol
  | [] => found
  | .leaf .. :: rest => collect found rest
  | .symbol s :: rest => collect (OrderedSet.insert Symbol.before s found) rest
  | .not a :: rest => collect found (a :: rest)
  | .dyadic _ a b :: rest => collect found (b :: a :: rest)
  | .ite condition yes no :: rest => collect found (no :: yes :: condition :: rest)
termination_by stack => stackSize stack
decreasing_by all_goals simp only [stackSize, size]; omega

theorem mem_collect {found : List Symbol} {stack : List Term} {s : Symbol} :
    s ∈ collect found stack ↔ s ∈ found ∨ s ∈ stack.flatMap symbols := by
  fun_induction collect found stack with
  | case1 => simp
  | case2 found text sort rest ih | case4 found a rest ih => exact ih
  | case3 found s' rest ih =>
    simp [ih, OrderedSet.mem_insert Symbol.separates_before, symbols, or_assoc, or_left_comm]
  | case5 found op a b rest ih => simp [ih, symbols, or_left_comm]
  | case6 found condition yes no rest ih => simp [ih, symbols, or_left_comm]

theorem pairwise_collect {found : List Symbol} {stack : List Term}
    (h : found.Pairwise fun a b => Symbol.before a b) :
    (collect found stack).Pairwise fun a b => Symbol.before a b := by
  fun_induction collect found stack with
  | case1 => exact h
  | case3 found s rest ih =>
    exact ih (OrderedSet.pairwise_insert Symbol.separates_before Symbol.before_trans h)
  | case2 | case4 | case5 | case6 =>
    rename_i ih
    exact ih h

theorem collect_eq_freeSymbols (t : Term) : collect [] [t] = t.freeSymbols := by
  refine OrderedSet.eq_of_mem_iff Symbol.before_trans Symbol.before_irrefl
    (pairwise_collect .nil)
    (OrderedSet.pairwise_insertAll Symbol.separates_before Symbol.before_trans .nil) fun s => ?_
  rw [mem_collect, mem_freeSymbols]
  simp

theorem mem_symbols_of_mem_arguments {t a : Term} {s : Symbol} (ha : a ∈ t.arguments)
    (hs : s ∈ a.symbols) : s ∈ t.symbols := by
  cases t <;> simp only [Term.arguments, List.mem_cons, List.not_mem_nil, or_false] at ha
  · obtain rfl := ha
    exact hs
  · obtain rfl | rfl := ha
    · exact List.mem_append_left _ hs
    · exact List.mem_append_right _ hs
  · obtain rfl | rfl | rfl := ha
    · exact List.mem_append_left _ (List.mem_append_left _ hs)
    · exact List.mem_append_left _ (List.mem_append_right _ hs)
    · exact List.mem_append_right _ hs

/-- The free symbols are those that stand at some position. -/
theorem mem_symbols_iff {t : Term} {s : Symbol} :
    s ∈ t.symbols ↔ ∃ path, t.at? path = some (.symbol s) := by
  constructor
  · intro h
    induction t with
    | leaf => cases h
    | symbol s' =>
      obtain rfl := List.mem_singleton.1 h
      exact ⟨[], rfl⟩
    | not a ha =>
      obtain ⟨path, hpath⟩ := ha h
      exact ⟨0 :: path, hpath⟩
    | dyadic op a b ha hb =>
      rcases List.mem_append.1 h with h | h
      · obtain ⟨path, hpath⟩ := ha h
        exact ⟨0 :: path, hpath⟩
      · obtain ⟨path, hpath⟩ := hb h
        exact ⟨1 :: path, hpath⟩
    | ite condition yes no hc hy hn =>
      rcases List.mem_append.1 h with h | h
      · rcases List.mem_append.1 h with h | h
        · obtain ⟨path, hpath⟩ := hc h
          exact ⟨0 :: path, hpath⟩
        · obtain ⟨path, hpath⟩ := hy h
          exact ⟨1 :: path, hpath⟩
      · obtain ⟨path, hpath⟩ := hn h
        exact ⟨2 :: path, hpath⟩
  · rintro ⟨path, hpath⟩
    induction path generalizing t with
    | nil =>
      cases hpath
      exact List.mem_singleton_self s
    | cons i path ih =>
      obtain ⟨a, ha, hs⟩ := Option.bind_eq_some_iff.1 hpath
      exact mem_symbols_of_mem_arguments (List.mem_of_getElem? ha) (ih hs)

end Term

/-! ### The text with the symbols filled in -/

/-- A stretch of a text that no nonce changes, or an occurrence of a free symbol. -/
inductive Stretch where
  | fixed (text : String)
  | occurrence (s : Symbol)

def Stretch.fill (nonce : String) : Stretch → String
  | .fixed text => text
  | .occurrence s => (s.renamed nonce).name

namespace Term

def stretches : Term → List Stretch
  | .leaf text _ => [.fixed text]
  | .symbol s => [.occurrence s]
  | .not a => .fixed ("(" ++ Operator.not.symbol) :: (.fixed " " :: a.stretches ++ [.fixed ")"])
  | .dyadic op a b =>
      .fixed ("(" ++ op.symbol) ::
        (.fixed " " :: a.stretches ++ .fixed " " :: b.stretches ++ [.fixed ")"])
  | .ite condition yes no =>
      .fixed ("(" ++ Operator.ite.symbol) ::
        (.fixed " " :: condition.stretches ++ .fixed " " :: yes.stretches ++
          .fixed " " :: no.stretches ++ [.fixed ")"])

theorem render_eq_join (t : Term) (nonce : String) :
    t.render nonce = String.join (t.stretches.map (Stretch.fill nonce)) := by
  induction t with
  | leaf | symbol => simp [render, stretches, Stretch.fill]
  | not a ha => simp [render, stretches, Stretch.fill, ha, String.append_assoc]
  | dyadic op a b ha hb => simp [render, stretches, Stretch.fill, ha, hb, String.append_assoc]
  | ite condition yes no hc hy hn =>
    simp [render, stretches, Stretch.fill, hc, hy, hn, String.append_assoc]

theorem stretches_eq_of_mem_arguments {t a : Term} (h : a ∈ t.arguments) :
    t.stretches = .fixed ("(" ++ t.head) ::
      (t.arguments.flatMap fun a => .fixed " " :: a.stretches) ++ [.fixed ")"] := by
  cases t with
  | leaf | symbol => cases h
  | not | dyadic | ite => simp [stretches, Term.arguments, head]

theorem occurrence_mem_stretches {t : Term} {s : Symbol} :
    .occurrence s ∈ t.stretches ↔ s ∈ t.symbols := by
  induction t with
  | leaf | symbol => simp [stretches, symbols]
  | not a ha => simp [stretches, symbols, ha]
  | dyadic op a b ha hb => simp [stretches, symbols, ha, hb]
  | ite condition yes no hc hy hn => simp [stretches, symbols, hc, hy, hn]

/-- The stretches of an argument lie together among those of the term. -/
theorem stretches_of_mem_arguments {t a : Term} (h : a ∈ t.arguments) :
    ∃ before after, t.stretches = before ++ a.stretches ++ after := by
  have ht := stretches_eq_of_mem_arguments h
  obtain ⟨earlier, later, hsplit⟩ := List.append_of_mem h
  rw [hsplit, List.flatMap_append, List.flatMap_cons] at ht
  refine ⟨.fixed ("(" ++ t.head) ::
      (earlier.flatMap fun a => .fixed " " :: a.stretches) ++ [.fixed " "],
    (later.flatMap fun a => .fixed " " :: a.stretches) ++ [.fixed ")"], ?_⟩
  rw [ht]
  simp only [List.cons_append, List.append_assoc, List.nil_append]

theorem stretches_of_at? {t u : Term} {path : List Nat} (h : t.at? path = some u) :
    ∃ before after, t.stretches = before ++ u.stretches ++ after := by
  induction path generalizing t with
  | nil =>
    cases h
    exact ⟨[], [], by simp⟩
  | cons i path ih =>
    obtain ⟨a, ha, hu⟩ := Option.bind_eq_some_iff.1 h
    obtain ⟨before, after, hin⟩ := ih hu
    obtain ⟨before', after', hout⟩ := stretches_of_mem_arguments (List.mem_of_getElem? ha)
    refine ⟨before' ++ before, after ++ after', ?_⟩
    rw [hout, hin]
    simp only [List.append_assoc]

end Term

/-! ### Names and declarations apart -/

/-- What precedes the first separator, and what follows it, can be read off a list. -/
theorem Names.split_first_unique {c : Char} {a b xs ys : List Char} (hx : c ∉ xs) (hy : c ∉ ys)
    (h : xs ++ c :: a = ys ++ c :: b) : xs = ys ∧ a = b := by
  have hr := congrArg List.reverse h
  simp only [List.reverse_append, List.reverse_cons, List.append_assoc, List.singleton_append] at hr
  obtain ⟨ha, hxs⟩ := split_unique (by simpa using hx) (by simpa using hy) hr
  exact ⟨List.reverse_inj.1 hxs, List.reverse_inj.1 ha⟩

namespace Symbol

theorem renamed_empty (s : Symbol) : s.renamed "" = s := if_pos rfl

theorem toList_name_renamed {nonce : String} (h : nonce ≠ "") (s : Symbol) :
    (s.renamed nonce).name.toList = s.name.toList ++ '.' :: nonce.toList := by
  simp [renamed, h]

/-- The nonce can be read off a name, if the name without it has no dot. -/
theorem nonce_eq_of_name_eq {a b : Symbol} {n k : String} (ha : '.' ∉ a.name.toList)
    (hb : '.' ∉ b.name.toList) (h : (a.renamed n).name = (b.renamed k).name) : n = k := by
  have hl := congrArg String.toList h
  by_cases hn : n = ""
  · by_cases hk : k = ""
    · rw [hn, hk]
    · rw [hn, renamed_empty, toList_name_renamed hk] at hl
      exact absurd (hl ▸ by simp) ha
  · by_cases hk : k = ""
    · rw [hk, renamed_empty, toList_name_renamed hn] at hl
      exact absurd (hl ▸ by simp) hb
    · rw [toList_name_renamed hn, toList_name_renamed hk] at hl
      exact String.toList_inj.1 (Names.split_first_unique ha hb hl).2

end Symbol

namespace Term

theorem separates_text : OrderedSet.Separates fun a b : String => decide (a < b) := by
  intro a b hab hba
  exact String.le_antisymm (String.not_lt.1 (of_decide_eq_false hba))
    (String.not_lt.1 (of_decide_eq_false hab))

theorem declared_eq_map (t : Term) (nonce : String) :
    t.declared nonce = t.symbols.map fun s => (s.renamed nonce).declaration := by
  induction t with
  | leaf | symbol => rfl
  | not a ha => exact ha
  | dyadic op a b ha hb => rw [declared, symbols, List.map_append, ha, hb]
  | ite condition yes no hc hy hn =>
    rw [declared, symbols, List.map_append, List.map_append, hc, hy, hn]

theorem mem_declarations {t : Term} {nonce d : String} :
    d ∈ (t.serialize nonce).declarations ↔
      ∃ s ∈ t.freeSymbols, d = (s.renamed nonce).declaration := by
  simp only [serialize, OrderedSet.mem_ofList separates_text, declared_eq_map, List.mem_map,
    mem_freeSymbols, eq_comm]

theorem pairwise_declarations (t : Term) (nonce : String) :
    (t.serialize nonce).declarations.Pairwise (· < ·) := by
  have htrans : ∀ a b c : String, decide (a < b) = true → decide (b < c) = true →
      decide (a < c) = true := by
    intro a b c hab hbc
    exact decide_eq_true (String.lt_trans (of_decide_eq_true hab) (of_decide_eq_true hbc))
  have h : (t.serialize nonce).declarations.Pairwise fun a b => decide (a < b) = true :=
    OrderedSet.pairwise_insertAll separates_text htrans .nil
  exact h.imp of_decide_eq_true

/-- The declarations under two nonces have nothing in common. -/
theorem disjoint_declarations {t : Term} (h : ∀ s ∈ t.freeSymbols, '.' ∉ s.name.toList)
    {n k : String} (hn : n ≠ k) :
    (t.serialize n).declarations.Disjoint (t.serialize k).declarations := by
  intro d hd hd'
  obtain ⟨a, ha, rfl⟩ := mem_declarations.1 hd
  obtain ⟨b, hb, hab⟩ := mem_declarations.1 hd'
  rw [Symbol.declaration_eq_line, Symbol.declaration_eq_line] at hab
  have hname := congrArg Symbol.name (Symbol.declarationLine_injective hab)
  exact hn (Symbol.nonce_eq_of_name_eq (h a ha) (h b hb) hname)

/-- **Declarations are the renamed free symbols.** The declarations under a nonce are those of the
renamed free symbols, which are the symbols at the positions of the term, and which a walk with a
stack finds as well. The text is that of stretches which no nonce changes and of the renamed symbols
between them, each at its position. Where no name has a dot, no declaration is shared by two
nonces. -/
theorem hoists_renamed (t : Term) (nonce : String) :
    ((t.serialize nonce).declarations.Pairwise (· < ·) ∧
      ∀ d, d ∈ (t.serialize nonce).declarations ↔
        ∃ s ∈ t.freeSymbols, d = (s.renamed nonce).declaration) ∧
    (∀ s : Symbol, s.renamed nonce =
      ⟨if nonce = "" then s.name else s.name ++ "." ++ nonce, s.sort⟩) ∧
    (collect [] [t] = t.freeSymbols ∧
      ∀ s, s ∈ t.freeSymbols ↔ ∃ path, t.at? path = some (.symbol s)) ∧
    ((t.serialize nonce).text = String.join (t.stretches.map (Stretch.fill nonce)) ∧
      (∀ s, .occurrence s ∈ t.stretches ↔ s ∈ t.freeSymbols) ∧
      ∀ path u, t.at? path = some u →
        ∃ before after, t.stretches = before ++ u.stretches ++ after) ∧
    ((∀ s ∈ t.freeSymbols, '.' ∉ s.name.toList) → ∀ other, other ≠ nonce →
      (t.serialize other).declarations.Disjoint (t.serialize nonce).declarations) := by
  refine ⟨⟨pairwise_declarations t nonce, fun _ => mem_declarations⟩, fun s => ?_,
    ⟨collect_eq_freeSymbols t, fun s => ?_⟩,
    ⟨render_eq_join t nonce, fun s => ?_, fun _ _ => stretches_of_at?⟩,
    fun h _ => disjoint_declarations h⟩
  · unfold Symbol.renamed
    split <;> rfl
  · rw [mem_freeSymbols, mem_symbols_iff]
  · rw [mem_freeSymbols, occurrence_mem_stretches]

/-- Twice `x` or the leaf `k.a`. -/
def twice : Term :=
  .ite (.symbol ⟨"c", .bool⟩) (.add (.symbol ⟨"x", .int⟩) (.symbol ⟨"x", .int⟩)) (.leaf "k.a" .int)

theorem twice_hoists :
    (∀ s ∈ twice.freeSymbols, '.' ∉ s.name.toList) ∧
      "(declare-const x.a Int)" ∈ (twice.serialize "a").declarations ∧
      "(declare-const x.a Int)" ∉ (twice.serialize "").declarations ∧
      (twice.serialize "a").text = "(ite c.a (+ x.a x.a) k.a)" := by
  have hdots : ∀ s ∈ twice.freeSymbols, '.' ∉ s.name.toList := by decide
  obtain ⟨⟨-, hmem⟩, -, -, ⟨htext, -⟩, hdisjoint⟩ := hoists_renamed twice "a"
  have hx : "(declare-const x.a Int)" ∈ (twice.serialize "a").declarations :=
    (hmem _).2 ⟨⟨"x", .int⟩, by decide, rfl⟩
  refine ⟨hdots, hx, fun h => hdisjoint hdots "" (by decide) h hx, htext.trans ?_⟩
  decide

end Term

end PathFormula
