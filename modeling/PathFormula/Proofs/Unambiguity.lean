import PathFormula.Proofs.Constructions
import PathFormula.Proofs.Queries

/-!
# Unambiguous texts

A negative number is written as a list that looks like an application of the difference, but for the
number of its items. The expression that a text is read as tells the operator or the text at every
position of the term (`label?_eq_of_expression_eq`), and so does the text of a term that is
constructed from words and constants (`text_unambiguous`).
-/
namespace PathFormula

open SExpr (IsWord)

theorem Operator.symbol_injective {a b : Operator} (h : a.symbol = b.symbol) : a = b := by
  have ha := Operator.ofSymbol?_symbol a
  rw [h, Operator.ofSymbol?_symbol] at ha
  exact (Option.some.inj ha).symm

namespace Term

/-- The operator at the head of a term, if there is one, and the text of the head. -/
def label (t : Term) : Option Operator × String := (t.operator?, t.head)

def label? (t : Term) (path : List Nat) : Option (Option Operator × String) :=
  (t.at? path).map label

/-! ### What an expression tells -/

theorem expression_of_operator? {t : Term} {op : Operator} (h : t.operator? = some op) :
    t.expression = .list (.atom op.symbol :: t.arguments.map expression) := by
  cases t <;> simp [operator?] at h <;> subst h <;> rfl

theorem head_of_operator? {t : Term} {op : Operator} (h : t.operator? = some op) :
    t.head = op.symbol := by
  cases t <;> simp [operator?] at h <;> subst h <;> rfl

theorem arguments_of_operator?_eq_none {t : Term} (h : t.operator? = none) :
    t.arguments = [] := by
  cases t <;> simp [operator?] at h <;> rfl

theorem text_of_operator?_eq_none {t : Term} (h : t.operator? = none) : t.text = t.head := by
  cases t <;> simp [operator?] at h <;> rfl

/-- A leaf is a list in one form only, with a single item after the sign. -/
theorem leafExpression_eq_list {text : String} {items : List SExpr}
    (h : leafExpression text = .list items) : ∃ digits, items = [.atom "-", .atom digits] := by
  unfold leafExpression at h
  split at h
  · split at h
    · cases h
      exact ⟨_, rfl⟩
    · cases h
  · cases h

/-- Applications have too many items for that, or begin with another word. -/
theorem expression_ne_of_operator? {s t : Term} {op : Operator} (hs : s.operator? = none)
    (ht : t.operator? = some op) : s.expression ≠ t.expression := by
  intro h
  rw [expression_of_operator? ht] at h
  cases s with
  | symbol => cases h
  | leaf text =>
    obtain ⟨digits, hitems⟩ := leafExpression_eq_list h
    obtain ⟨hminus, harguments⟩ := List.cons.inj hitems
    have hop : op = .dyadic .sub := Operator.symbol_injective (SExpr.atom.inj hminus)
    have hlength := congrArg List.length harguments
    rw [List.length_map, length_arguments ht, hop] at hlength
    cases hlength
  | not | dyadic | ite => cases hs

/-- Equal expressions are those of leaves and symbols, or of applications of one operator. -/
theorem operator?_eq_of_expression_eq {s t : Term} (h : s.expression = t.expression) :
    s.operator? = t.operator? := by
  cases hs : s.operator? with
  | none =>
    cases ht : t.operator? with
    | none => rfl
    | some op => exact absurd h (expression_ne_of_operator? hs ht)
  | some op =>
    cases ht : t.operator? with
    | none => exact absurd h.symm (expression_ne_of_operator? ht hs)
    | some op' =>
      rw [expression_of_operator? hs, expression_of_operator? ht] at h
      have hsymbol := SExpr.atom.inj (List.cons.inj (SExpr.list.inj h)).1
      rw [Operator.symbol_injective hsymbol]

theorem label_eq_of_expression_eq {s t : Term} (h : s.expression = t.expression) :
    s.label = t.label := by
  have ho := operator?_eq_of_expression_eq h
  cases hs : s.operator? with
  | some op => rw [label, label, ← ho, hs, head_of_operator? hs, head_of_operator? (ho ▸ hs)]
  | none =>
    have htext : s.text = t.text := by rw [← text_expression, h, text_expression]
    rw [label, label, ← ho, ← text_of_operator?_eq_none hs, htext,
      text_of_operator?_eq_none (ho ▸ hs)]

/-- The expressions tell the terms apart at every position. -/
theorem label?_eq_of_expression_eq {s t : Term} (h : s.expression = t.expression)
    (path : List Nat) : s.label? path = t.label? path := by
  -- the first step of a path leads to arguments whose expressions are equal items of equal lists
  induction path generalizing s t with
  | nil => exact congrArg some (label_eq_of_expression_eq h)
  | cons i path ih =>
    have harguments : s.arguments.map expression = t.arguments.map expression := by
      have ho := operator?_eq_of_expression_eq h
      cases hs : s.operator? with
      | none =>
        rw [arguments_of_operator?_eq_none hs, arguments_of_operator?_eq_none (ho ▸ hs)]
      | some op =>
        rw [expression_of_operator? hs, expression_of_operator? (ho ▸ hs)] at h
        exact (List.cons.inj (SExpr.list.inj h)).2
    have hi := congrArg (fun items => items[i]?) harguments
    simp only [List.getElem?_map] at hi
    simp only [label?, at?]
    cases hs : s.arguments[i]? with
    | none =>
      rw [hs, Option.map_none, eq_comm, Option.map_eq_none_iff] at hi
      rw [hi]
    | some a =>
      rw [hs, Option.map_some, eq_comm] at hi
      obtain ⟨b, hb, hab⟩ := Option.map_eq_some_iff.1 hi
      rw [hb]
      exact ih hab.symm

/-! ### What a text tells -/

/-- The text is read back, and printed again without a change. -/
theorem read_text {t : Term} (h : t.Readable) : SExpr.read t.text.toList = .ok t.expression := by
  rw [← text_expression]
  exact SExpr.read_text h.worded

theorem expression_eq_of_text_eq {s t : Term} (hs : s.Readable) (ht : t.Readable)
    (h : s.text = t.text) : s.expression = t.expression := by
  have hread := read_text hs
  rw [h, read_text ht] at hread
  exact (Except.ok.inj hread).symm

theorem text_eq_of_label?_eq {s t : Term} (h : ∀ path, s.label? path = t.label? path) :
    s.text = t.text := by
  induction s generalizing t with
  | leaf | symbol =>
    obtain ⟨ho, hhead⟩ := Prod.mk.inj (Option.some.inj (h []))
    rw [text_of_operator?_eq_none rfl, text_of_operator?_eq_none ho.symm, hhead]
  | not a ha =>
    obtain ⟨ho, -⟩ := Prod.mk.inj (Option.some.inj (h []))
    cases t with
    | not b =>
      have hab : a.text = b.text := ha fun path => h (0 :: path)
      simp only [Term.text, render] at hab ⊢
      rw [hab]
    | leaf | symbol | dyadic | ite => cases ho
  | dyadic op a b ha hb =>
    obtain ⟨ho, -⟩ := Prod.mk.inj (Option.some.inj (h []))
    cases t with
    | dyadic op' c d =>
      cases ho
      have hac : a.text = c.text := ha fun path => h (0 :: path)
      have hbd : b.text = d.text := hb fun path => h (1 :: path)
      simp only [Term.text, render] at hac hbd ⊢
      rw [hac, hbd]
    | leaf | symbol | not | ite => cases ho
  | ite condition yes no hc hy hn =>
    obtain ⟨ho, -⟩ := Prod.mk.inj (Option.some.inj (h []))
    cases t with
    | ite condition' yes' no' =>
      have hcc : condition.text = condition'.text := hc fun path => h (0 :: path)
      have hyy : yes.text = yes'.text := hy fun path => h (1 :: path)
      have hnn : no.text = no'.text := hn fun path => h (2 :: path)
      simp only [Term.text, render] at hcc hyy hnn ⊢
      rw [hcc, hyy, hnn]
    | leaf | symbol | not | dyadic => cases ho

end Term

/-! ### Constructions from words -/

namespace Construction

mutual

/-- The leaves and the names of the symbols are words. -/
def Worded : Construction → Prop
  | .bool _ | .int _ => True
  | .leaf text _ => IsWord text
  | .symbol s => IsWord s.name
  | .not a | .neg a => a.Worded
  | .dyadic _ a b | .implies a b | .ne a b | .division _ a b => a.Worded ∧ b.Worded
  | .ite condition yes no => condition.Worded ∧ yes.Worded ∧ no.Worded
  | .apply _ arguments | .applyNamed _ arguments => WordedAll arguments
  | .conjunction cs => WordedAll cs

def WordedAll : List Construction → Prop
  | [] => True
  | c :: rest => c.Worded ∧ WordedAll rest

end

end Construction

section Ensures

variable {ε α β : Type} {P : α → Prop} {Q : β → Prop}

/-- What is obtained, if something is, has the property. -/
def Ensures (P : α → Prop) (x : Except ε α) : Prop := ∀ a, x = .ok a → P a

theorem Ensures.pure {a : α} (h : P a) : Ensures P (pure a : Except ε α) := by
  rintro _ ⟨⟩
  exact h

theorem Ensures.bind {x : Except ε α} {F : α → Except ε β} (h : Ensures P x)
    (hF : ∀ a, P a → Ensures Q (F a)) : Ensures Q (x >>= F) := by
  cases x with
  | error e => exact fun _ hb => nomatch hb
  | ok a => exact hF a (h a rfl)

theorem Ensures.both {x y : Except ε α} {f : α → α → β} (hx : Ensures P x) (hy : Ensures P y)
    (hf : ∀ a b, P a → P b → Q (f a b)) : Ensures Q (do return f (← x) (← y)) :=
  hx.bind fun a ha => hy.bind fun b hb => .pure (hf a b ha hb)

end Ensures

namespace Term

theorem readable_ofBool (b : Bool) : (ofBool b).Readable := by
  cases b
  · exact .inl (by decide)
  · exact .inl (by decide)

theorem readable_ofInt (n : Int) : (ofInt n).Readable := .inr ⟨n, rfl⟩

theorem readable_neg {a : Term} (h : a.Readable) : (neg a).Readable := ⟨readable_ofInt 0, h⟩

theorem readable_conjunction {ts : List Term} (h : ∀ t ∈ ts, t.Readable) :
    (conjunction ts).Readable := by
  cases ts with
  | nil => exact readable_ofBool true
  | cons first rest =>
    obtain ⟨hfirst, hrest⟩ := List.forall_mem_cons.1 h
    change (rest.foldl and first).Readable
    exact List.foldlRecOn rest and hfirst fun _ hs t ht => ⟨hs, hrest t ht⟩

theorem readable_quotient (ty : Source.IntegerType) {a b : Term} (ha : a.Readable)
    (hb : b.Readable) : (quotient ty a b).Readable := by
  have h0 := readable_ofInt 0
  unfold quotient
  split
  · have hna := readable_neg ha
    have hnb := readable_neg hb
    exact ⟨⟨ha, h0⟩, ⟨⟨hb, h0⟩, ⟨ha, hb⟩, readable_neg ⟨ha, hnb⟩⟩,
      ⟨hb, h0⟩, readable_neg ⟨hna, hb⟩, ⟨hna, hnb⟩⟩
  · exact ⟨ha, hb⟩

theorem readable_iff_of_operator? {t : Term} {op : Operator} (h : t.operator? = some op) :
    t.Readable ↔ ∀ a ∈ t.arguments, a.Readable := by
  cases t <;> simp [operator?] at h <;> simp [Readable, Term.arguments]

theorem ensures_apply {op : Operator} {ts : List Term} (h : ∀ t ∈ ts, t.Readable) :
    Ensures Readable (apply op ts) := by
  intro t ht
  obtain ⟨ho, rfl⟩ := apply_eq_ok_iff.1 ht
  exact (readable_iff_of_operator? ho).2 h

theorem ensures_applyNamed {name : String} {ts : List Term} (h : ∀ t ∈ ts, t.Readable) :
    Ensures Readable (applyNamed name ts) := by
  unfold applyNamed
  split
  · exact ensures_apply h
  · exact fun _ ht => nomatch ht

end Term

mutual

theorem readable_term (c : Construction) (h : c.Worded) : Ensures Term.Readable c.term := by
  match c with
  | .bool b => exact .pure (Term.readable_ofBool b)
  | .int n => exact .pure (Term.readable_ofInt n)
  | .leaf text sort => exact .pure (.inl h)
  | .symbol s => exact .pure h
  | .not a => exact (readable_term a h).bind fun _ ha => .pure ha
  | .neg a => exact (readable_term a h).bind fun _ ha => .pure (Term.readable_neg ha)
  | .dyadic op a b | .implies a b | .ne a b =>
    exact (readable_term a h.1).both (readable_term b h.2) fun _ _ ha hb => ⟨ha, hb⟩
  | .division ty a b =>
    exact (readable_term a h.1).both (readable_term b h.2) fun _ _ ha hb =>
      Term.readable_quotient ty ha hb
  | .ite condition yes no =>
    exact (readable_term condition h.1).bind fun _ hc => (readable_term yes h.2.1).bind fun _ hy =>
      (readable_term no h.2.2).bind fun _ hn => .pure ⟨hc, hy, hn⟩
  | .apply op cs => exact (readable_terms cs h).bind fun _ hs => Term.ensures_apply hs
  | .applyNamed name cs => exact (readable_terms cs h).bind fun _ hs => Term.ensures_applyNamed hs
  | .conjunction cs =>
    exact (readable_terms cs h).bind fun _ hs => .pure (Term.readable_conjunction hs)

theorem readable_terms (cs : List Construction) (h : Construction.WordedAll cs) :
    Ensures (fun ts => ∀ t ∈ ts, t.Readable) (Construction.terms cs) := by
  match cs with
  | [] => exact .pure fun _ ht => absurd ht List.not_mem_nil
  | c :: rest =>
    exact (readable_term c h.1).bind fun _ ht => (readable_terms rest h.2).bind fun _ hs =>
      .pure (List.forall_mem_cons.2 ⟨ht, hs⟩)

end

/-- **Texts are unambiguous.** The text of a term that is constructed from words and constants is
one expression, which the reader accepts and prints back. Two such terms have the same text if and
only if they have the same operators and the same texts of leaves at the same positions. No
application is written like a number of either sign, and no two numbers are written alike. -/
theorem text_unambiguous {c d : Construction} {f g : Term} (hc : c.Worded) (hd : d.Worded)
    (hf : c.term = .ok f) (hg : d.term = .ok g) :
    (∃ e, SExpr.read (f.serialize "").text.toList = .ok e ∧ e.text = (f.serialize "").text) ∧
    ((f.serialize "").text = (g.serialize "").text ↔ ∀ path, f.label? path = g.label? path) ∧
    (f.operator?.isSome → ∀ n, (f.serialize "").text ≠ ((Term.ofInt n).serialize "").text) ∧
    ∀ m n, ((Term.ofInt m).serialize "").text = ((Term.ofInt n).serialize "").text ↔ m = n := by
  have hfr : f.Readable := readable_term c hc f hf
  have hgr : g.Readable := readable_term d hd g hg
  refine ⟨⟨f.expression, Term.read_text hfr, Term.text_expression f⟩, ⟨fun h => ?_, fun h => ?_⟩,
    fun ho n h => ?_, fun m n => ⟨Term.integerText_injective, fun h => h ▸ rfl⟩⟩
  · exact Term.label?_eq_of_expression_eq (Term.expression_eq_of_text_eq hfr hgr h)
  · exact Term.text_eq_of_label?_eq h
  · have hnumber := Term.expression_eq_of_text_eq hfr (Term.readable_ofInt n) h
    rw [Term.operator?_eq_of_expression_eq hnumber] at ho
    cases ho

/-- The difference of minus five and a free symbol. -/
def lowered : Construction := .dyadic .sub (.int (-5)) (.symbol ⟨"x", .int⟩)

/-- The same with a leaf in the place of the symbol, and applied by its name. -/
def loweredLeaf : Construction := .applyNamed "-" [.int (-5), .leaf "x" .int]

theorem lowered_reads :
    lowered.Worded ∧ loweredLeaf.Worded ∧ ∃ f g, lowered.term = .ok f ∧
      loweredLeaf.term = .ok g ∧ f ≠ g ∧ (∀ path, f.label? path = g.label? path) ∧
      (∃ e, SExpr.read "(- (- 5) x)".toList = .ok e ∧ e.text = "(- (- 5) x)") ∧
      (f.serialize "").text ≠ ((Term.ofInt (-5)).serialize "").text := by
  have hx : IsWord "x" := by decide
  have hc : lowered.Worded := ⟨trivial, hx⟩
  have hd : loweredLeaf.Worded := ⟨trivial, hx, trivial⟩
  refine ⟨hc, hd, _, _, rfl, rfl, by simp, ?_⟩
  obtain ⟨hread, hlabels, hnumber, -⟩ := text_unambiguous hc hd rfl rfl
  exact ⟨hlabels.1 rfl, hread, hnumber rfl (-5)⟩

end PathFormula
