/-!
# Sets kept as strictly increasing lists

A set is the list of its members, each once, in the order of a strict comparison `before`.
Two elements of which neither is before the other are the same member; the one that is
already in the list stays. Membership is kept by insertion (`mem_insert`) and a list and its
set have the same members (`mem_ofList`).
-/
namespace PathFormula.OrderedSet

variable {α : Type}

def insert (before : α → α → Bool) (a : α) : List α → List α
  | [] => [a]
  | b :: rest =>
      if before a b then a :: b :: rest
      else if before b a then b :: insert before a rest
      else b :: rest

def insertAll (before : α → α → Bool) (set : List α) (elements : List α) : List α :=
  elements.foldl (fun set a => insert before a set) set

def ofList (before : α → α → Bool) (elements : List α) : List α :=
  insertAll before [] elements

/-- A comparison under which incomparable elements are equal. -/
def Separates (before : α → α → Bool) : Prop :=
  ∀ a b, before a b = false → before b a = false → a = b

theorem mem_insert {before : α → α → Bool} (hs : Separates before) {a x : α} {set : List α} :
    x ∈ insert before a set ↔ x = a ∨ x ∈ set := by
  induction set with
  | nil => simp [insert]
  | cons b rest ih =>
    simp only [insert]
    split
    · simp
    · rename_i hab
      split
      · simp [ih, or_left_comm]
      · rename_i hba
        have h := hs a b (by simpa using hab) (by simpa using hba)
        simp [h]

theorem mem_insertAll {before : α → α → Bool} (hs : Separates before) {x : α}
    {set elements : List α} :
    x ∈ insertAll before set elements ↔ x ∈ set ∨ x ∈ elements := by
  induction elements generalizing set with
  | nil => simp [insertAll]
  | cons a rest ih =>
    have h : insertAll before set (a :: rest) = insertAll before (insert before a set) rest := rfl
    rw [h, ih, mem_insert hs]
    simp [or_assoc, or_left_comm, or_comm]

theorem mem_ofList {before : α → α → Bool} (hs : Separates before) {x : α} {elements : List α} :
    x ∈ ofList before elements ↔ x ∈ elements := by
  simp [ofList, mem_insertAll hs]

/-- Adding an element keeps the list strictly increasing. -/
theorem pairwise_insert {before : α → α → Bool} (hs : Separates before)
    (ht : ∀ a b c, before a b → before b c → before a c) {a : α} {set : List α}
    (h : set.Pairwise fun x y => before x y) :
    (insert before a set).Pairwise fun x y => before x y := by
  induction set with
  | nil => simp [insert]
  | cons b rest ih =>
    obtain ⟨hb, hrest⟩ := List.pairwise_cons.1 h
    simp only [insert]
    split
    · rename_i hab
      refine List.pairwise_cons.2 ⟨fun y hy => ?_, h⟩
      rcases List.mem_cons.1 hy with rfl | hy
      · exact hab
      · exact ht _ _ _ hab (hb y hy)
    · split
      · rename_i hba
        refine List.pairwise_cons.2 ⟨fun y hy => ?_, ih hrest⟩
        rcases (mem_insert hs).1 hy with rfl | hy
        · exact hba
        · exact hb y hy
      · exact h

theorem pairwise_insertAll {before : α → α → Bool} (hs : Separates before)
    (ht : ∀ a b c, before a b → before b c → before a c) {set elements : List α}
    (h : set.Pairwise fun x y => before x y) :
    (insertAll before set elements).Pairwise fun x y => before x y := by
  induction elements generalizing set with
  | nil => exact h
  | cons a rest ih => exact ih (pairwise_insert hs ht h)

theorem nodup_ofList {before : α → α → Bool} (hs : Separates before)
    (ht : ∀ a b c, before a b → before b c → before a c) (hi : ∀ a, before a a = false)
    (elements : List α) : (ofList before elements).Nodup := by
  refine (pairwise_insertAll hs ht .nil).imp fun {a b} hab => ?_
  rintro rfl
  rw [hi] at hab
  cases hab

end PathFormula.OrderedSet
