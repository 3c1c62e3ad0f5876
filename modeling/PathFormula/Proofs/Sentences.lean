import PathFormula.Proofs.Layouts

/-!
# Sentences

A row of tokens is a sentence if it is one atom, or one list in which the parentheses match. What
matching is, the count of open lists says without expressions (`Closes`). The rows of tokens of
expressions are exactly the sentences (`isSentence_iff`), and the reader accepts a text if and only
if its tokens are one (`reads_sentences`).
-/
namespace PathFormula.SExpr

/-- The parentheses match, where `depth` lists are open before the tokens and none after them. -/
def Closes : Nat → List Token → Prop
  | depth, [] => depth = 0
  | depth, .left :: rest => Closes (depth + 1) rest
  | 0, .right :: _ => False
  | depth + 1, .right :: rest => Closes depth rest
  | depth, .atom _ :: rest => Closes depth rest

/-- One atom or one list, and nothing after it. -/
inductive IsSentence : List Token → Prop
  | atom (a : String) : IsSentence [.atom a]
  | list {inner : List Token} (h : Closes 0 inner) : IsSentence (.left :: (inner ++ [.right]))

/-! ### Expressions are sentences -/

mutual

/-- An expression closes all that it opens. -/
theorem closes_tokens_append (e : SExpr) (depth : Nat) (rest : List Token) :
    Closes depth (e.tokens ++ rest) ↔ Closes depth rest := by
  match e with
  | .atom a => cases depth <;> simp [tokens, Closes]
  | .list items =>
    have h := closes_itemsTokens_append items (depth + 1) (.right :: rest)
    simp only [tokens, List.cons_append, List.append_assoc, List.nil_append, Closes]
    exact h

theorem closes_itemsTokens_append (items : List SExpr) (depth : Nat) (rest : List Token) :
    Closes depth (itemsTokens items ++ rest) ↔ Closes depth rest := by
  match items with
  | [] => simp [itemsTokens]
  | item :: later =>
    rw [itemsTokens, List.append_assoc, closes_tokens_append item,
      closes_itemsTokens_append later]

end

theorem isSentence_tokens (e : SExpr) : IsSentence e.tokens := by
  cases e with
  | atom a => exact .atom a
  | list items =>
    have h := closes_itemsTokens_append items 0 []
    simp only [List.append_nil, Closes, iff_true] at h
    exact .list h

/-! ### Sentences are expressions -/

/-- The reader takes up tokens that close all lists but the outermost, and the parenthesis that
closes that one. -/
theorem exists_resume {depth : Nat} {inner : List Token} (h : Closes depth inner)
    (items : List SExpr) (stack : List (List SExpr)) (hs : stack.length = depth) :
    ∃ e, resume (items :: stack) (inner ++ [.right]) = .ok (e, []) := by
  -- `items` are those of the innermost open list, and `stack` those of the lists around it
  induction inner generalizing depth items stack with
  | nil =>
    have hstack : stack = [] := by
      apply List.eq_nil_of_length_eq_zero
      rw [hs]
      exact h
    subst hstack
    exact ⟨.list items.reverse, rfl⟩
  | cons t rest ih =>
    cases t with
    | left => exact ih h [] (items :: stack) (by simp [hs])
    | atom a =>
      have hrest : Closes depth rest := by cases depth <;> exact h
      exact ih hrest (.atom a :: items) stack hs
    | right =>
      cases stack with
      | nil =>
        simp only [List.length_nil] at hs
        subst hs
        exact h.elim
      | cons outer stack =>
        simp only [List.length_cons] at hs
        subst hs
        exact ih h (.list items.reverse :: outer) stack rfl

theorem isSentence_iff {ts : List Token} : IsSentence ts ↔ ∃ e : SExpr, ts = e.tokens := by
  constructor
  · intro h
    cases h with
    | atom a => exact ⟨.atom a, rfl⟩
    | list h =>
      rcases exists_resume h [] [] rfl with ⟨e, he⟩
      have ht := tokens_of_resume he
      exact ⟨e, by simpa [openTokens, itemsTokens] using ht⟩
  · rintro ⟨e, rfl⟩
    exact isSentence_tokens e

/-! ### Canonical texts of what is read -/

/-- The atoms that a text spells are words. -/
theorem Spells.isWord {ts : List Token} {text : List Char} (h : Spells ts text) {w : String}
    (hw : .atom w ∈ ts) : IsWord w := by
  induction h with
  | nil => simp at hw
  | blank _ _ ih => exact ih hw
  | left _ ih => exact ih (by simpa using hw)
  | right _ ih => exact ih (by simpa using hw)
  | word hword _ _ ih =>
    rcases List.mem_cons.1 hw with hw | hw
    · cases hw
      exact hword
    · exact ih hw

mutual

theorem worded_of_atoms (e : SExpr) (h : ∀ w, .atom w ∈ e.tokens → IsWord w) : e.Worded := by
  match e with
  | .atom a => exact h a (by simp [tokens])
  | .list items => exact wordedAll_of_atoms items fun w hw => h w (by simp [tokens, hw])

theorem wordedAll_of_atoms (items : List SExpr)
    (h : ∀ w, .atom w ∈ itemsTokens items → IsWord w) : WordedAll items := by
  match items with
  | [] => trivial
  | item :: rest =>
    exact ⟨worded_of_atoms item fun w hw => h w (by simp [itemsTokens, hw]),
      wordedAll_of_atoms rest fun w hw => h w (by simp [itemsTokens, hw])⟩

end

/-- All atoms of an expression that was read are words. -/
theorem worded_of_read {text : List Char} {e : SExpr} (h : read text = .ok e) : e.Worded := by
  have hs := read_eq_ok_iff.1 h
  exact worded_of_atoms e fun w hw => hs.isWord hw

/-- **The reader accepts exactly its grammar.** The tokens of a text are the only ones that it
spells: its parentheses, and the longest words between them and its blanks. It is read if and only
if these are a sentence, the canonical text of what is read has the same tokens, and the canonical
text of every expression of words is read back as the expression. -/
theorem reads_sentences (text : List Char) :
    (∀ ts, Spells ts text ↔ ts = tokenize text) ∧
    ((∃ e, read text = .ok e) ↔ IsSentence (tokenize text)) ∧
    (∀ e, read text = .ok e → tokenize e.text.toList = tokenize text) ∧
    ∀ e : SExpr, e.Worded → read e.text.toList = .ok e := by
  refine ⟨fun ts => ?_, ?_, fun e h => ?_, fun e => read_text⟩
  · rw [← tokenize_eq_iff, eq_comm]
  · rw [isSentence_iff]
    apply exists_congr
    intro e
    rw [read_eq_ok_iff, ← tokenize_eq_iff]
  · have ht : tokenize text = e.tokens := tokenize_eq_iff.2 (read_eq_ok_iff.1 h)
    rw [ht, tokenize_eq_iff]
    exact spells_text (worded_of_read h)

/-- Blanks of all kinds, atoms that touch parentheses, and an empty list. -/
def nestedText : List Char := " (ab( c\t)\n())".toList

/-- The expression `(ab (c) ())`. -/
def nested : SExpr := .list [.atom "ab", .list [.atom "c"], .list []]

theorem nested_reads :
    read nestedText = .ok nested ∧ tokenize nested.text.toList = tokenize nestedText ∧
      nested.Worded ∧ read nested.text.toList = .ok nested ∧
      ∀ e, read "(a)b".toList ≠ .ok e := by
  have hread : read nestedText = .ok nested := by rfl
  have hab : IsWord "ab" := by decide
  have hc : IsWord "c" := by decide
  have hwords : nested.Worded := ⟨hab, ⟨hc, trivial⟩, trivial, trivial⟩
  rcases reads_sentences nestedText with ⟨-, -, hround, hcanonical⟩
  refine ⟨hread, hround nested hread, hwords, hcanonical nested hwords, ?_⟩
  intro e he
  have h : IsSentence [.left, .atom "a", .right, .atom "b"] :=
    (reads_sentences "(a)b".toList).2.1.1 ⟨e, he⟩
  generalize hts : [Token.left, .atom "a", .right, .atom "b"] = ts at h
  cases h with
  | atom a => simp at hts
  | list =>
    -- a list ends with its closing parenthesis, and this text does not
    have hlast := congrArg List.getLast? hts
    rw [← List.cons_append, List.getLast?_concat] at hlast
    simp at hlast

end PathFormula.SExpr
