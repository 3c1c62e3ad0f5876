import PathFormula.SExpr

/-!
# Layouts of S-expressions

Many texts hold the same tokens: blanks may stand anywhere between two tokens, and have to stand
between two words only. `Spells` is the relation of a token list to these texts. The scanner
computes it (`tokenize_eq_iff`), the reader accepts exactly the texts that spell one expression
(`read_eq_ok_iff`), and the canonical text of an expression is one of them (`spells_text`).
-/
namespace PathFormula.SExpr

/-- A character that can stand in an atom. -/
def isPlain (c : Char) : Bool := !(c = '(' || c = ')' || Text.isBlank c)

/-- A text that is read as one atom. -/
def IsWord (text : String) : Prop := text.toList ≠ [] ∧ ∀ c ∈ text.toList, isPlain c

instance (text : String) : Decidable (IsWord text) :=
  have : Decidable (∀ c ∈ text.toList, isPlain c) := List.decidableBAll _ _
  inferInstanceAs (Decidable (_ ∧ _))

/-- No word goes on into this text. -/
def Ends : List Char → Prop
  | [] => True
  | c :: _ => isPlain c = false

/-- The text holds these tokens in this order. -/
inductive Spells : List Token → List Char → Prop
  | nil : Spells [] []
  | blank {c : Char} {ts : List Token} {text : List Char} (hc : Text.isBlank c)
      (h : Spells ts text) : Spells ts (c :: text)
  | left {ts : List Token} {text : List Char} (h : Spells ts text) :
      Spells (.left :: ts) ('(' :: text)
  | right {ts : List Token} {text : List Char} (h : Spells ts text) :
      Spells (.right :: ts) (')' :: text)
  | word {w : String} {ts : List Token} {text : List Char} (hw : IsWord w) (hb : Ends text)
      (h : Spells ts text) : Spells (.atom w :: ts) (w.toList ++ text)

theorem isPlain_eq_false_iff {c : Char} :
    isPlain c = false ↔ c = '(' ∨ c = ')' ∨ Text.isBlank c = true := by
  simp only [isPlain, Bool.not_eq_false', Bool.or_eq_true, decide_eq_true_eq, or_assoc]

theorem isPlain_of_isBlank {c : Char} (h : Text.isBlank c) : isPlain c = false :=
  isPlain_eq_false_iff.2 (.inr (.inr h))

@[simp] theorem ends_nil : Ends [] := trivial

@[simp] theorem ends_cons {c : Char} {rest : List Char} : Ends (c :: rest) ↔ isPlain c = false :=
  Iff.rfl

theorem Ends.append {a b : List Char} (ha : Ends a) (hb : Ends b) : Ends (a ++ b) := by
  cases a with
  | nil => exact hb
  | cons c rest => exact ha

theorem Spells.append {ts us : List Token} {a b : List Char} (ha : Spells ts a) (hb : Spells us b)
    (he : Ends b) : Spells (ts ++ us) (a ++ b) := by
  induction ha with
  | nil => exact hb
  | blank hc _ ih => exact .blank hc ih
  | left _ ih => exact .left ih
  | right _ ih => exact .right ih
  | word hw hends _ ih =>
    rw [List.append_assoc]
    exact .word hw (hends.append he) ih

/-! ### The scanner -/

/-- The characters that are pending are those of a word, if there are any. -/
theorem Spells.pending {pending : List Char} (hp : ∀ c ∈ pending, isPlain c) {ts : List Token}
    {text : List Char} (he : Ends text) (h : Spells ts text) :
    Spells (pendingAtom pending ++ ts) (pending.reverse ++ text) := by
  cases pending with
  | nil => exact h
  | cons c rest =>
    have hw : IsWord (String.ofList (c :: rest).reverse) := by
      refine ⟨by simp, fun d hd => hp d ?_⟩
      rwa [String.toList_ofList, List.mem_reverse] at hd
    have := Spells.word hw he h
    rwa [String.toList_ofList] at this

theorem spells_scan {pending : List Char} (hp : ∀ c ∈ pending, isPlain c) (text : List Char) :
    Spells (scan pending text) (pending.reverse ++ text) := by
  induction text generalizing pending with
  | nil => simpa [scan] using Spells.pending hp ends_nil .nil
  | cons c rest ih =>
    have hrest : Spells (scan [] rest) rest := ih fun _ h => absurd h List.not_mem_nil
    simp only [scan]
    split
    · rename_i hc
      subst hc
      exact Spells.pending hp rfl (.left hrest)
    · split
      · rename_i hc
        subst hc
        exact Spells.pending hp rfl (.right hrest)
      · split
        · rename_i hc
          exact Spells.pending hp (isPlain_of_isBlank hc) (.blank hc hrest)
        · rename_i hl hr hc
          have hplain : isPlain c = true := by simp [isPlain, hl, hr, hc]
          have := ih (List.forall_mem_cons.2 ⟨hplain, hp⟩)
          rwa [List.reverse_cons, List.append_assoc] at this

theorem scan_append {word : List Char} (hw : ∀ c ∈ word, isPlain c) (pending text : List Char) :
    scan pending (word ++ text) = scan (word.reverse ++ pending) text := by
  induction word generalizing pending with
  | nil => rfl
  | cons c word ih =>
    obtain ⟨hc, hrest⟩ := List.forall_mem_cons.1 hw
    simp only [isPlain, Bool.not_eq_true', Bool.or_eq_false_iff, decide_eq_false_iff_not] at hc
    obtain ⟨⟨hl, hr⟩, hb⟩ := hc
    rw [List.cons_append, scan, if_neg hl, if_neg hr, if_neg (by simp [hb]), ih hrest]
    simp

/-- A text that no word goes on into is scanned on its own. -/
theorem scan_of_ends {text : List Char} (h : Ends text) (pending : List Char) :
    scan pending text = pendingAtom pending ++ tokenize text := by
  cases text with
  | nil => simp [tokenize, scan, pendingAtom]
  | cons c rest =>
    rcases isPlain_eq_false_iff.1 h with rfl | rfl | hc
    · simp [tokenize, scan, pendingAtom]
    · simp [tokenize, scan, pendingAtom]
    · have hl : c ≠ '(' := by rintro rfl; exact absurd hc (by decide)
      have hr : c ≠ ')' := by rintro rfl; exact absurd hc (by decide)
      simp [tokenize, scan, pendingAtom, hl, hr, hc]

theorem tokenize_blank {c : Char} (hc : Text.isBlank c) (text : List Char) :
    tokenize (c :: text) = tokenize text := by
  have hl : c ≠ '(' := by rintro rfl; exact absurd hc (by decide)
  have hr : c ≠ ')' := by rintro rfl; exact absurd hc (by decide)
  simp [tokenize, scan, pendingAtom, hl, hr, hc]

/-- The scanner finds the tokens that a text spells, and no other tokens. -/
theorem tokenize_eq_iff {text : List Char} {ts : List Token} :
    tokenize text = ts ↔ Spells ts text := by
  constructor
  · rintro rfl
    exact spells_scan (fun _ h => absurd h List.not_mem_nil) text
  · intro h
    induction h with
    | nil => rfl
    | blank hc _ ih => rw [tokenize_blank hc, ih]
    | left _ ih => simpa [tokenize, scan, pendingAtom] using ih
    | right _ ih => simpa [tokenize, scan, pendingAtom] using ih
    | @word w ts text hw hends _ ih =>
      have hne : w.toList.reverse.isEmpty = false := by simpa using hw.1
      rw [tokenize, scan_append hw.2, scan_of_ends hends, ih, List.append_nil, pendingAtom, hne]
      simp

/-! ### The reader -/

/-- The tokens that the open lists have taken up. -/
def openTokens : List (List SExpr) → List Token
  | [] => []
  | items :: outer => openTokens outer ++ .left :: itemsTokens items.reverse

theorem itemsTokens_append (a b : List SExpr) :
    itemsTokens (a ++ b) = itemsTokens a ++ itemsTokens b := by
  induction a with
  | nil => rfl
  | cons e rest ih => simp [itemsTokens, ih]

theorem openTokens_cons (e : SExpr) (items : List SExpr) (outer : List (List SExpr)) :
    openTokens ((e :: items) :: outer) = openTokens (items :: outer) ++ e.tokens := by
  simp [openTokens, itemsTokens_append, itemsTokens]

/-- The reader takes up exactly the tokens of the expression that it returns. -/
theorem tokens_of_resume {stack : List (List SExpr)} {ts rest : List Token} {e : SExpr}
    (h : resume stack ts = .ok (e, rest)) : openTokens stack ++ ts = e.tokens ++ rest := by
  fun_induction resume stack ts with
  | case1 => cases h
  | case2 => cases h
  | case3 stack ts ih => simpa [openTokens, itemsTokens] using ih h
  | case4 => cases h
  | case5 items ts =>
    cases h
    simp [openTokens, tokens]
  | case6 items outer stack ts ih =>
    have := ih h
    rw [openTokens_cons] at this
    simpa [openTokens, tokens] using this
  | case7 w ts =>
    cases h
    simp [openTokens, tokens]
  | case8 items stack w ts ih =>
    have := ih h
    rw [openTokens_cons] at this
    simpa [tokens] using this

theorem resume_eq_ok_iff {ts rest : List Token} {e : SExpr} :
    resume [] ts = .ok (e, rest) ↔ ts = e.tokens ++ rest := by
  constructor
  · exact tokens_of_resume
  · rintro rfl
    rw [resume_tokens, finish]

/-- A text is read as an expression if and only if it spells the tokens of the expression. -/
theorem read_eq_ok_iff {text : List Char} {e : SExpr} :
    read text = .ok e ↔ Spells e.tokens text := by
  rw [← tokenize_eq_iff, read]
  constructor
  · intro h
    split at h
    · cases h
    · rename_i hr
      cases h
      simpa using resume_eq_ok_iff.1 hr
    · cases h
  · intro h
    have : resume [] (tokenize text) = .ok (e, []) := resume_eq_ok_iff.2 (by simpa using h)
    rw [this]

/-! ### Canonical text -/

mutual

/-- All atoms of the expression are words. -/
def Worded : SExpr → Prop
  | .atom a => IsWord a
  | .list items => WordedAll items

def WordedAll : List SExpr → Prop
  | [] => True
  | item :: rest => item.Worded ∧ WordedAll rest

end

theorem wordedAll_iff {items : List SExpr} : WordedAll items ↔ ∀ item ∈ items, item.Worded := by
  induction items with
  | nil => simp [WordedAll]
  | cons item rest ih => simp [WordedAll, ih]

theorem itemsText_eq (items : List SExpr) :
    itemsText items = " ".intercalate (items.map text) := by
  induction items with
  | nil => rfl
  | cons item rest ih =>
    cases rest with
    | nil => simp [itemsText]
    | cons next rest => rw [itemsText, ih]; simp

theorem blank_space : Text.isBlank ' ' := by decide

mutual

theorem spells_text {e : SExpr} (h : e.Worded) : Spells e.tokens e.text.toList := by
  match e with
  | .atom a => simpa [tokens, text] using Spells.word h ends_nil .nil
  | .list items =>
    have hitems : Spells (itemsTokens items) (itemsText items).toList := spells_itemsText h
    have := (hitems.append (.right .nil) rfl).left
    simpa [tokens, text] using this

theorem spells_itemsText {items : List SExpr} (h : WordedAll items) :
    Spells (itemsTokens items) (itemsText items).toList := by
  match items with
  | [] => exact .nil
  | [item] => simpa [itemsTokens, itemsText] using spells_text h.1
  | item :: next :: rest =>
    have hrest : Spells (itemsTokens (next :: rest)) (itemsText (next :: rest)).toList :=
      spells_itemsText h.2
    have := (spells_text h.1).append (.blank blank_space hrest) (isPlain_of_isBlank blank_space)
    simpa [itemsTokens, itemsText] using this

end

/-- The canonical text of an expression is read back as the expression. -/
theorem read_text {e : SExpr} (h : e.Worded) : read e.text.toList = .ok e :=
  read_eq_ok_iff.2 (spells_text h)

end PathFormula.SExpr
