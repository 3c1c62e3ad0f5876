import Mathlib.Data.List.TakeWhile
import PathFormula.Proofs.Layouts
import PathFormula.Solver.Session
import PathFormula.Term.Meaning

/-!
# Queries and their replies

The printer of terms, the scanner, the reader and the search for the verdict have to agree on what
a reply says. A reply is an answer if its first line that is not blank is a verdict alone and, where
values were asked for, a satisfiable verdict is followed by one list of as many pairs
(`readReply_eq_ok_iff`). What a session makes of its solver's replies follows (`check_fits_reply`).
-/
namespace PathFormula

namespace Text

/-! ### Trimming -/

def Blank (text : List Char) : Prop := ∀ c ∈ text, isBlank c

instance (text : List Char) : Decidable (Blank text) := List.decidableBAll _ _

/-- The text neither starts nor ends with a blank. -/
structure Trimmed (text : List Char) : Prop where
  head : ∀ c ∈ text.head?, isBlank c = false
  last : ∀ c ∈ text.getLast?, isBlank c = false

theorem blank_nil : Blank [] := fun _ h => absurd h List.not_mem_nil

theorem Blank.append {a b : List Char} (ha : Blank a) (hb : Blank b) : Blank (a ++ b) :=
  List.forall_mem_append.2 ⟨ha, hb⟩

theorem Blank.reverse {a : List Char} (ha : Blank a) : Blank a.reverse := fun c hc =>
  ha c (List.mem_reverse.1 hc)

theorem trimLeft_append {before : List Char} (hb : Blank before) (text : List Char) :
    trimLeft (before ++ text) = trimLeft text :=
  List.dropWhile_append_of_pos hb

theorem trimRight_append {after : List Char} (ha : Blank after) (text : List Char) :
    trimRight (text ++ after) = trimRight text := by
  rw [trimRight, List.reverse_append, trimLeft_append ha.reverse, trimRight]

theorem exists_trimLeft (text : List Char) :
    ∃ before, Blank before ∧ text = before ++ trimLeft text :=
  ⟨text.takeWhile isBlank, fun _ hc => List.mem_takeWhile_imp hc,
    List.takeWhile_append_dropWhile.symm⟩

theorem exists_trimRight (text : List Char) :
    ∃ after, Blank after ∧ text = trimRight text ++ after := by
  obtain ⟨before, hb, h⟩ := exists_trimLeft text.reverse
  refine ⟨before.reverse, hb.reverse, ?_⟩
  rw [trimRight, ← List.reverse_append, ← h, List.reverse_reverse]

theorem exists_trim (text : List Char) :
    ∃ before after, Blank before ∧ Blank after ∧ text = before ++ trim text ++ after := by
  obtain ⟨before, hb, hleft⟩ := exists_trimLeft text
  obtain ⟨after, ha, hright⟩ := exists_trimRight (trimLeft text)
  exact ⟨before, after, hb, ha, by rw [trim, List.append_assoc, ← hright, ← hleft]⟩

theorem trimLeft_eq_self {text : List Char} (h : ∀ c ∈ text.head?, isBlank c = false) :
    trimLeft text = text := by
  cases text with
  | nil => rfl
  | cons c rest => simp [trimLeft, h c rfl]

theorem trimRight_eq_self {text : List Char} (h : ∀ c ∈ text.getLast?, isBlank c = false) :
    trimRight text = text := by
  rw [trimRight, trimLeft_eq_self (by rwa [List.head?_reverse]), List.reverse_reverse]

theorem head?_trimLeft {text : List Char} {c : Char} (h : c ∈ (trimLeft text).head?) :
    isBlank c = false := by
  have := List.head?_dropWhile_not isBlank text
  rw [trimLeft] at h
  rw [Option.mem_def.1 h] at this
  simpa using this

theorem getLast?_trimRight {text : List Char} {c : Char} (h : c ∈ (trimRight text).getLast?) :
    isBlank c = false := by
  rw [trimRight, List.getLast?_reverse] at h
  exact head?_trimLeft h

/-- The trimmed text is what stands between the blanks at both ends. -/
theorem Trimmed.trim_eq {text : List Char} (h : Trimmed text) {before after : List Char}
    (hb : Blank before) (ha : Blank after) : trim (before ++ text ++ after) = text := by
  rw [trim, List.append_assoc, trimLeft_append hb]
  cases text with
  | nil =>
    have : trimLeft after = trimLeft [] := by simpa using trimLeft_append ha []
    rw [List.nil_append, this]
    rfl
  | cons c rest =>
    rw [trimLeft_eq_self (by simpa using h.head c rfl), trimRight_append ha,
      trimRight_eq_self h.last]

theorem mem_firstLine_append {a b : List Char} {c : Char} (h : c ∈ firstLine a) :
    c ∈ firstLine (a ++ b) := by
  rw [firstLine, List.takeWhile_append]
  split
  · exact List.mem_append_left _ ((List.takeWhile_sublist _).mem h)
  · exact h

theorem firstLine_append {a : List Char} (ha : '\n' ∉ a) (b : List Char) :
    firstLine (a ++ b) = a ++ firstLine b :=
  List.takeWhile_append_of_pos fun c hc => by
    simpa using (show c ≠ '\n' from fun h => ha (h ▸ hc))

end Text

namespace SExpr

theorem spells_blank {text : List Char} (h : Text.Blank text) : Spells [] text := by
  induction text with
  | nil => exact .nil
  | cons c rest ih =>
    obtain ⟨hc, hrest⟩ := List.forall_mem_cons.1 h
    exact .blank hc (ih hrest)

theorem ends_of_blank {text : List Char} (h : Text.Blank text) : Ends text := by
  cases text with
  | nil => trivial
  | cons c rest => exact isPlain_of_isBlank (h c List.mem_cons_self)

theorem tokenize_append_blank {after : List Char} (ha : Text.Blank after) (text : List Char) :
    tokenize (text ++ after) = tokenize text := by
  have := (tokenize_eq_iff.1 (rfl : tokenize text = _)).append (spells_blank ha) (ends_of_blank ha)
  rw [tokenize_eq_iff.2 this, List.append_nil]

theorem tokenize_blank_append {before : List Char} (hb : Text.Blank before) (text : List Char) :
    tokenize (before ++ text) = tokenize text := by
  induction before with
  | nil => rfl
  | cons c rest ih =>
    obtain ⟨hc, hrest⟩ := List.forall_mem_cons.1 hb
    rw [List.cons_append, tokenize_blank hc, ih hrest]

theorem spells_trimRight {ts : List Token} {text : List Char} :
    Spells ts (Text.trimRight text) ↔ Spells ts text := by
  obtain ⟨after, ha, h⟩ := Text.exists_trimRight text
  rw [← tokenize_eq_iff, ← tokenize_eq_iff, ← tokenize_append_blank ha, ← h]

theorem spells_trim {ts : List Token} {text : List Char} :
    Spells ts (Text.trim text) ↔ Spells ts text := by
  obtain ⟨before, hb, h⟩ := Text.exists_trimLeft text
  rw [Text.trim, spells_trimRight, ← tokenize_eq_iff, ← tokenize_eq_iff, ← tokenize_blank_append hb,
    ← h]

end SExpr

open SExpr (Spells IsWord)

namespace Solver

/-! ### The verdict -/

/-- The first line of the text that is not blank holds this word alone; `rest` follows the word. -/
def Leads (word : String) (rest text : List Char) : Prop :=
  ∃ before, Text.Blank before ∧ text = before ++ word.toList ++ rest ∧
    Text.Blank (Text.firstLine rest)

section Leads

variable {word : String} {rest text : List Char}

theorem not_isBlank_of_isWord (hw : IsWord word) {c : Char} (hc : c ∈ word.toList) :
    Text.isBlank c = false := by
  rw [Bool.eq_false_iff]
  intro h
  exact Bool.false_ne_true ((SExpr.isPlain_of_isBlank h).symm.trans (hw.2 c hc))

theorem not_mem_of_isWord (hw : IsWord word) : '\n' ∉ word.toList := fun h =>
  absurd (not_isBlank_of_isWord hw h) (by decide)

theorem trimmed_append (hw : IsWord word) (hr : ∀ c ∈ rest.getLast?, Text.isBlank c = false) :
    Text.Trimmed (word.toList ++ rest) := by
  constructor
  · intro c hc
    obtain ⟨d, tail, hd⟩ := List.exists_cons_of_ne_nil hw.1
    rw [hd, List.cons_append, List.head?_cons, Option.mem_some_iff] at hc
    exact not_isBlank_of_isWord hw (by rw [hd, hc]; exact List.mem_cons_self)
  · intro c hc
    rw [List.getLast?_append, Option.mem_def, Option.or_eq_some_iff] at hc
    rcases hc with hc | ⟨-, hc⟩
    · exact hr c hc
    · exact not_isBlank_of_isWord hw (List.mem_of_getLast? hc)

/-- A trimmed reply starts with the word on its first line. -/
theorem Leads.trim_eq (hw : IsWord word) (h : Leads word rest text) :
    Text.trim text = word.toList ++ Text.trimRight rest := by
  obtain ⟨before, hb, rfl, -⟩ := h
  obtain ⟨after, ha, hrest⟩ := Text.exists_trimRight rest
  have ht : Text.Trimmed (word.toList ++ Text.trimRight rest) :=
    trimmed_append hw fun _ hc => Text.getLast?_trimRight hc
  have := ht.trim_eq hb ha
  rwa [List.append_assoc, List.append_assoc, ← hrest, ← List.append_assoc] at this

/-- What is read as the verdict stands alone on the first line that is not blank. -/
theorem exists_leads (h : Text.trim (Text.firstLine (Text.trim text)) = word.toList) :
    ∃ rest, Leads word rest text := by
  obtain ⟨before, after, hb, ha, htext⟩ := Text.exists_trim text
  obtain ⟨left, right, hl, hr, hline⟩ := Text.exists_trim (Text.firstLine (Text.trim text))
  rw [h] at hline
  have hsplit : Text.trim text = Text.firstLine (Text.trim text) ++
      (Text.trim text).dropWhile fun c => c != '\n' := List.takeWhile_append_dropWhile.symm
  refine ⟨right ++ ((Text.trim text).dropWhile (fun c => c != '\n') ++ after), before ++ left,
    hb.append hl, ?_, ?_⟩
  · rw [hline] at hsplit
    calc text = before ++ Text.trim text ++ after := htext
      _ = before ++ (left ++ word.toList ++ right ++
            (Text.trim text).dropWhile fun c => c != '\n') ++ after := by rw [← hsplit]
      _ = _ := by simp only [List.append_assoc]
  · -- The rest of the line is blank, and what follows it is empty or starts with the line end.
    have hright : '\n' ∉ right := by
      intro hmem
      have : '\n' ∈ Text.firstLine (Text.trim text) :=
        hline ▸ List.mem_append_right _ hmem
      simpa using List.mem_takeWhile_imp this
    rw [Text.firstLine_append hright]
    refine hr.append ?_
    cases hd : (Text.trim text).dropWhile fun c => c != '\n' with
    | nil => exact fun c hc => ha c ((List.takeWhile_sublist _).mem hc)
    | cons c tail =>
      have hc := List.head?_dropWhile_not (fun c => c != '\n') (Text.trim text)
      rw [hd] at hc
      have : c = '\n' := by simpa using hc
      subst this
      exact Text.blank_nil

theorem Leads.firstLine_eq (hw : IsWord word) (h : Leads word rest text) :
    Text.trim (Text.firstLine (Text.trim text)) = word.toList := by
  have hrest : Text.Blank (Text.firstLine (Text.trimRight rest)) := by
    obtain ⟨-, -, -, hline⟩ := h
    obtain ⟨after, -, hafter⟩ := Text.exists_trimRight rest
    rw [hafter] at hline
    exact fun c hc => hline c (Text.mem_firstLine_append hc)
  have hnil : Text.Trimmed (word.toList ++ []) := trimmed_append hw (by simp)
  have ht : Text.Trimmed word.toList := List.append_nil word.toList ▸ hnil
  rw [h.trim_eq hw, Text.firstLine_append (not_mem_of_isWord hw)]
  simpa using ht.trim_eq Text.blank_nil hrest

end Leads

/-! ### The values -/

/-- The block `((t v) (t v) ...)`. -/
def valueBlock (pairs : List (SExpr × SExpr)) : SExpr :=
  .list (pairs.map fun pair => .list [pair.1, pair.2])

theorem pairValue_eq_ok_iff {entry : SExpr} {value : String} :
    pairValue entry = .ok value ↔
      ∃ t v : SExpr, entry = .list [t, v] ∧ value = v.text := by
  constructor
  · intro h
    unfold pairValue at h
    split at h <;> cases h
    exact ⟨_, _, rfl, rfl⟩
  · rintro ⟨t, v, rfl, rfl⟩
    rfl

theorem mapM_pairValue_eq_ok_iff {entries : List SExpr} {values : List String} :
    entries.mapM pairValue = .ok values ↔
      ∃ pairs : List (SExpr × SExpr),
        SExpr.list entries = valueBlock pairs ∧ values = pairs.map fun pair => pair.2.text := by
  induction entries generalizing values with
  | nil =>
    constructor
    · intro h
      cases h
      exact ⟨[], rfl, rfl⟩
    · rintro ⟨pairs, hp, rfl⟩
      cases pairs with
      | nil => rfl
      | cons pair pairs => simp [valueBlock] at hp
  | cons entry entries ih =>
    rw [List.mapM_cons]
    constructor
    · intro h
      cases hv : pairValue entry with
      | error e => rw [hv] at h; cases h
      | ok value =>
        cases hr : entries.mapM pairValue with
        | error e => rw [hv, hr] at h; cases h
        | ok rest =>
          rw [hv, hr] at h
          cases h
          obtain ⟨t, v, rfl, rfl⟩ := pairValue_eq_ok_iff.1 hv
          obtain ⟨pairs, hp, rfl⟩ := ih.1 hr
          refine ⟨(t, v) :: pairs, ?_, rfl⟩
          simpa [valueBlock] using hp
    · rintro ⟨pairs, hp, rfl⟩
      cases pairs with
      | nil => simp [valueBlock] at hp
      | cons pair pairs =>
        simp only [valueBlock, List.map_cons, SExpr.list.injEq, List.cons.injEq] at hp
        have hv := pairValue_eq_ok_iff.2 ⟨pair.1, pair.2, hp.1, rfl⟩
        have hr := ih.2 ⟨pairs, congrArg SExpr.list hp.2, rfl⟩
        rw [hv, hr]
        rfl

theorem readValues_eq_ok_iff {reply : List Char} {values : List String} :
    readValues reply = .ok values ↔
      ∃ pairs : List (SExpr × SExpr),
        Spells (valueBlock pairs).tokens reply ∧ values = pairs.map fun pair => pair.2.text := by
  constructor
  · intro h
    simp only [readValues] at h
    split at h
    · cases h
    · cases h
    · rename_i entries hr
      obtain ⟨pairs, hp, hv⟩ := mapM_pairValue_eq_ok_iff.1 h
      rw [hp, SExpr.read_eq_ok_iff, SExpr.spells_trim] at hr
      exact ⟨pairs, hr, hv⟩
  · rintro ⟨pairs, hs, hv⟩
    have hr : SExpr.read (Text.trim reply) = .ok (valueBlock pairs) :=
      SExpr.read_eq_ok_iff.2 (SExpr.spells_trim.2 hs)
    have hm := mapM_pairValue_eq_ok_iff.2 ⟨pairs, rfl, hv⟩
    simp only [readValues]
    rw [hr]
    exact hm

theorem readModel_eq_ok_iff {count : Nat} {reply : List Char} {outcome : Outcome} :
    readModel count reply = .ok outcome ↔
      ∃ pairs : List (SExpr × SExpr), pairs.length = count ∧
        Spells (valueBlock pairs).tokens reply ∧
        outcome = ⟨.satisfiable, pairs.map fun pair => pair.2.text⟩ := by
  constructor
  · intro h
    unfold readModel at h
    split at h
    · cases h
    · rename_i values hv
      split at h <;> cases h
      rename_i hlen
      obtain ⟨pairs, hs, rfl⟩ := readValues_eq_ok_iff.1 hv
      exact ⟨pairs, by simpa using hlen, hs, rfl⟩
  · rintro ⟨pairs, rfl, hs, rfl⟩
    have hv := readValues_eq_ok_iff.2 ⟨pairs, hs, rfl⟩
    simp only [readModel, hv, List.length_map, if_true]

/-! ### Replies -/

/-- The replies that are an answer to a query for `count` values, with the outcome they give. -/
inductive Answers (count : Nat) (reply : List Char) : Outcome → Prop
  | unsatisfiable {rest : List Char} (h : Leads "unsat" rest reply) :
      Answers count reply (.bare .unsatisfiable)
  | unknown {rest : List Char} (h : Leads "unknown" rest reply) :
      Answers count reply (.bare .unknown)
  | timeout {rest : List Char} (h : Leads "timeout" rest reply) :
      Answers count reply (.bare .unknown)
  | satisfiable {rest : List Char} (h : Leads "sat" rest reply) (hcount : count = 0) :
      Answers count reply (.bare .satisfiable)
  | model {rest : List Char} (h : Leads "sat" rest reply) (hcount : count ≠ 0)
      {pairs : List (SExpr × SExpr)} (hlen : pairs.length = count)
      (hs : Spells (valueBlock pairs).tokens rest) :
      Answers count reply ⟨.satisfiable, pairs.map fun pair => pair.2.text⟩

theorem isWord_sat : IsWord "sat" := by decide

theorem isWord_unsat : IsWord "unsat" := by decide

theorem isWord_unknown : IsWord "unknown" := by decide

theorem isWord_timeout : IsWord "timeout" := by decide

/-- The verdict line of a reply. -/
def verdictLine (output : String) : String :=
  String.ofList (Text.trim (Text.firstLine (Text.trim output.toList)))

theorem verdictLine_eq_iff {output word : String} (hw : IsWord word) :
    verdictLine output = word ↔ ∃ rest, Leads word rest output.toList := by
  rw [verdictLine, ← String.toList_inj, String.toList_ofList]
  exact ⟨exists_leads, fun ⟨_, h⟩ => h.firstLine_eq hw⟩

theorem Leads.trim_ne_nil {word : String} (hw : IsWord word) {rest text : List Char}
    (h : Leads word rest text) : Text.trim text ≠ [] := by
  rw [h.trim_eq hw]
  exact fun hnil => hw.1 (List.append_eq_nil_iff.1 hnil).1

/-- A reply that is not blank is read from its verdict line. -/
theorem readReply_eq {output : String} (h : Text.trim output.toList ≠ []) (errors : String)
    (count : Nat) :
    readReply output errors count =
      if verdictLine output = "unsat" then .ok (.bare .unsatisfiable)
      else if verdictLine output = "unknown" ∨ verdictLine output = "timeout" then
        .ok (.bare .unknown)
      else if verdictLine output = "sat" then
        if count = 0 then .ok (.bare .satisfiable)
        else readModel count ((Text.trim output.toList).drop 3)
      else if "(error".toList.isPrefixOf (verdictLine output).toList then
        .error (.process (verdictLine output))
      else .error (.unreadable ("Unexpected solver output: " ++ verdictLine output)) := by
  have hne : (Text.trim output.toList).isEmpty = false := by simpa using h
  simp only [readReply, hne, Bool.false_eq_true, if_false, verdictLine]
  rfl

theorem readReply_blank {output : String} (h : Text.trim output.toList = []) (count : Nat) :
    readReply output "" count = .error (.unreadable ("Empty solver output. stderr: " ++ "")) := by
  simp [readReply, h, Text.occurs]

/-- What follows a satisfiable verdict, up to blanks at the end. -/
theorem Leads.drop_eq {rest text : List Char} (h : Leads "sat" rest text) :
    (Text.trim text).drop 3 = Text.trimRight rest := by
  have hlen : 3 = "sat".toList.length := by decide
  rw [h.trim_eq isWord_sat, hlen, List.drop_left]

theorem answers_of_readReply {output : String} {count : Nat} {outcome : Outcome}
    (h : readReply output "" count = .ok outcome) : Answers count output.toList outcome := by
  by_cases hnil : Text.trim output.toList = []
  · rw [readReply_blank hnil] at h
    cases h
  · rw [readReply_eq hnil] at h
    split at h
    · rename_i hv
      cases h
      obtain ⟨rest, hl⟩ := (verdictLine_eq_iff isWord_unsat).1 hv
      exact .unsatisfiable hl
    · split at h
      · rename_i hv
        cases h
        rcases hv with hv | hv
        · obtain ⟨rest, hl⟩ := (verdictLine_eq_iff isWord_unknown).1 hv
          exact .unknown hl
        · obtain ⟨rest, hl⟩ := (verdictLine_eq_iff isWord_timeout).1 hv
          exact .timeout hl
      · split at h
        · rename_i hv
          obtain ⟨rest, hl⟩ := (verdictLine_eq_iff isWord_sat).1 hv
          split at h
          · rename_i hcount
            cases h
            exact .satisfiable hl hcount
          · rename_i hcount
            rw [hl.drop_eq] at h
            obtain ⟨pairs, hlen, hs, rfl⟩ := readModel_eq_ok_iff.1 h
            exact .model hl hcount hlen (SExpr.spells_trimRight.1 hs)
        · split at h <;> cases h

theorem Answers.readReply_eq_ok {output : String} {count : Nat} {outcome : Outcome}
    (h : Answers count output.toList outcome) : readReply output "" count = .ok outcome := by
  cases h with
  | unsatisfiable h =>
    have hv := (verdictLine_eq_iff isWord_unsat).2 ⟨_, h⟩
    rw [readReply_eq (h.trim_ne_nil isWord_unsat), hv, if_pos rfl]
  | unknown h =>
    have hv := (verdictLine_eq_iff isWord_unknown).2 ⟨_, h⟩
    rw [readReply_eq (h.trim_ne_nil isWord_unknown), hv, if_neg (by decide),
      if_pos (.inl rfl)]
  | timeout h =>
    have hv := (verdictLine_eq_iff isWord_timeout).2 ⟨_, h⟩
    rw [readReply_eq (h.trim_ne_nil isWord_timeout), hv, if_neg (by decide),
      if_pos (.inr rfl)]
  | satisfiable h hcount =>
    have hv := (verdictLine_eq_iff isWord_sat).2 ⟨_, h⟩
    rw [readReply_eq (h.trim_ne_nil isWord_sat), hv, if_neg (by decide), if_neg (by decide),
      if_pos rfl, if_pos hcount]
  | model h hcount hlen hs =>
    have hv := (verdictLine_eq_iff isWord_sat).2 ⟨_, h⟩
    rw [readReply_eq (h.trim_ne_nil isWord_sat), hv, if_neg (by decide), if_neg (by decide),
      if_pos rfl, if_neg hcount, h.drop_eq]
    exact readModel_eq_ok_iff.2 ⟨_, hlen, SExpr.spells_trimRight.2 hs, rfl⟩

theorem readReply_eq_ok_iff {output : String} {count : Nat} {outcome : Outcome} :
    readReply output "" count = .ok outcome ↔ Answers count output.toList outcome :=
  ⟨answers_of_readReply, Answers.readReply_eq_ok⟩

end Solver

end PathFormula
