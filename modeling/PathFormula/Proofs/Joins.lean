import PathFormula.Proofs.Encoding

/-!
# Joins of branches

What is emitted at the start of a second branch (`restore`) and at the end of both
(`mergeVersions`) is a row of assignments (`yields_restore`, `yields_mergeVersions`). In a model
they give every variable the value from before the branch, or from the end of the branch that was
taken.
-/
namespace PathFormula.Draft

open Source

variable {Γ : Nat → Option Domain} {scope : List Expr} {L : Licence} {d d₀ d₁ d' : Draft} {u : Unit}
  {m : Model} {location : Location}

@[simp] theorem yields_forM_nil {α : Type} {f : α → Drafting Unit} :
    Yields (List.forM [] f) d u d' ↔ d' = d := by
  simp [List.forM]

@[simp] theorem yields_forM_cons {α : Type} {f : α → Drafting Unit} {a : α} {rest : List α} :
    Yields (List.forM (a :: rest) f) d u d' ↔
      ∃ d₁, Yields (f a) d () d₁ ∧ Yields (rest.forM f) d₁ u d' :=
  yields_seq

/-! ### Versions -/

theorem Later.term? (h : Later d d') (id k : Nat) : d'.term? id k = d.term? id k := by
  obtain ⟨n, hn⟩ := h.registered id
  rw [Draft.term?, Draft.term?, hn, Option.map_map]
  rfl

theorem Later.sort? (h : Later d d') (id : Nat) : d'.sort? id = d.sort? id := by
  obtain ⟨k, hk⟩ := h.registered id
  rw [Draft.sort?, Draft.sort?, hk, Option.map_map]
  rfl

theorem Later.expression? (h : Later d d') {id : Nat} {t : Term} (ht : d.expression? id = some t) :
    d'.expression? id = some t := by
  obtain ⟨sort, hk, rfl⟩ := Option.map_eq_some_iff.1 ht
  exact Option.map_eq_some_iff.2 ⟨sort, h.known id sort hk, rfl⟩

theorem Later.isRegistered (h : Later d d') (id : Nat) : d'.isRegistered id = d.isRegistered id :=
    by
  obtain ⟨n, hn⟩ := h.registered id
  simp [Draft.isRegistered, hn]

theorem Later.version {v : Registered} (h : Later d d') {id : Nat}
    (hv : d.registered? id = some v) :
    ∃ k, d'.registered? id = some (v.later k) := by
  obtain ⟨k, hk⟩ := h.registered id
  exact ⟨k, by rw [hk, hv]; rfl⟩

/-- A variable of a later draft was there before, with the same terms. -/
theorem Later.earlier {w : Registered} (h : Later d d') {id : Nat}
    (hw : d'.registered? id = some w) :
    ∃ v k, d.registered? id = some v ∧ w = v.later k := by
  obtain ⟨k, hk⟩ := h.registered id
  rw [hw] at hk
  obtain ⟨v, hv, he⟩ := Option.map_eq_some_iff.1 hk.symm
  exact ⟨v, k, hv, he.symm⟩

theorem registered?_of_mem (hn : (d.registry.map (·.id)).Nodup) {v : Registered}
    (hv : v ∈ d.registry) : d.registered? v.id = some v := by
  cases hr : d.registered? v.id with
  | none =>
    have hf := List.find?_eq_none.1 hr v hv
    simp at hf
  | some w =>
    have hid := id_of_registered? hr
    exact congrArg some (List.inj_on_of_nodup_map hn (List.mem_of_find?_eq_some hr) hv hid)

theorem mem_versions (hn : (d.registry.map (·.id)).Nodup) {id k : Nat} :
    (id, k) ∈ d.versions ↔ ∃ v, d.registered? id = some v ∧ v.version = k := by
  constructor
  · intro h
    obtain ⟨v, hv, he⟩ := List.mem_map.1 h
    cases he
    exact ⟨v, registered?_of_mem hn hv, rfl⟩
  · rintro ⟨v, hv, rfl⟩
    refine List.mem_map.2 ⟨v, List.mem_of_find?_eq_some hv, ?_⟩
    rw [id_of_registered? hv]

theorem lookup_versions (d : Draft) (id : Nat) :
    d.versions.lookup id = d.version? id := by
  unfold versions version? registered?
  induction d.registry with
  | nil => rfl
  | cons v rest ih =>
    simp only [List.map_cons, List.lookup_cons, List.find?_cons, ih, BEq.comm (a := id)]
    split <;> rfl

theorem Later.store_eq (h : Later d d') {id : Nat} {v : Registered}
    (hv : d'.registered? id = some v) {k : Nat} (hk : d.version? id = some k) (m : Model) :
    d.store m id = some ((v.term k).value m) := by
  obtain ⟨w, n, hw, rfl⟩ := h.earlier hv
  rw [version?, hw] at hk
  cases hk
  rw [Draft.store_eq, hw]
  rfl

theorem Later.version?_isSome (h : Later d d') {id : Nat} {v : Registered}
    (hv : d'.registered? id = some v) : ∃ k, d.version? id = some k ∧ k ≤ v.version := by
  obtain ⟨w, n, hw, rfl⟩ := h.earlier hv
  exact ⟨w.version, by rw [version?, hw]; rfl, Nat.le_add_right _ _⟩

theorem Later.unregistered (h : Later d d') {id : Nat} (hv : d'.registered? id = none) :
    d.registered? id = none := by
  obtain ⟨k, hk⟩ := h.registered id
  rw [hv] at hk
  exact Option.map_eq_none_iff.1 hk.symm

theorem store_eq_none {id : Nat} (hv : d.registered? id = none) (m : Model) :
    d.store m id = none := by
  rw [store_eq, hv]
  rfl

/-! ### Rows of assignments -/

def assignAll (location : Location) (ts : List (Nat × Term)) : Drafting Unit :=
  ts.forM fun p => assign p.1 p.2 location

theorem grows_assignAll {ts : List (Nat × Term)} (hw : ∀ p ∈ ts, L.writes p.1)
    (hc : ∀ p ∈ ts, d.Covers p.2)
    (hs : ∀ p ∈ ts, ∀ v, d.registered? p.1 = some v → p.2.HasSort v.sort)
    (h : Yields (assignAll location ts) d u d') : Grows L d d' := by
  induction ts generalizing d with
  | nil =>
    obtain rfl := yields_forM_nil.1 h
    exact .refl _
  | cons p rest ih =>
    obtain ⟨d₁, ha, h⟩ := yields_forM_cons.1 h
    simp only [List.mem_cons, forall_eq_or_imp] at hw hc hs
    have hg := grows_assign hw.1 hc.1 hs.1 ha
    refine hg.trans (ih hw.2 (fun q hq => hg.later.covers (hc.2 q hq)) (fun q hq w hv => ?_) h)
    obtain ⟨v, k, hv', rfl⟩ := hg.later.earlier hv
    exact hs.2 q hq v hv'

theorem later_assign {id : Nat} {t : Term} (h : Yields (assign id t location) d u d') :
    Later d d' := by
  obtain ⟨-, ⟨-, rfl⟩ | ⟨v, -, rfl⟩⟩ := yields_assign.1 h
  · exact .warned
  · exact Later.advanced.trans .emitted

theorem later_assignAll {ts : List (Nat × Term)} (h : Yields (assignAll location ts) d u d') :
    Later d d' := by
  induction ts generalizing d with
  | nil =>
    obtain rfl := yields_forM_nil.1 h
    exact .refl _
  | cons p rest ih =>
    obtain ⟨d₁, ha, h⟩ := yields_forM_cons.1 h
    exact (later_assign ha).trans (ih h)

theorem version_assign {id : Nat} {v : Registered} {t : Term}
    (h : Yields (assign id t location) d u d') (hv : d.registered? id = some v) :
    d'.registered? id = some (v.later 1) := by
  obtain ⟨-, ⟨hn, -⟩ | ⟨w, -, rfl⟩⟩ := yields_assign.1 h
  · rw [hv] at hn
    cases hn
  · simp [registered?_advanced, hv]

/-- Every assignment of a row moves its variable on. -/
theorem version_assignAll {ts : List (Nat × Term)} (h : Yields (assignAll location ts) d u d')
    {p : Nat × Term} (hp : p ∈ ts) {v : Registered} (hv : d.registered? p.1 = some v) :
    ∃ k, 0 < k ∧ d'.registered? p.1 = some (v.later k) := by
  induction ts generalizing d v with
  | nil => cases hp
  | cons q rest ih =>
    obtain ⟨d₁, ha, hr⟩ := yields_forM_cons.1 h
    rcases List.mem_cons.1 hp with rfl | hp
    · obtain ⟨k, hk⟩ := (later_assignAll hr).version (version_assign ha hv)
      exact ⟨1 + k, by omega, by rw [hk, Registered.later_later]⟩
    · obtain ⟨n, hn⟩ := (later_assign ha).version hv
      obtain ⟨k, hpos, hk⟩ := ih hr hp hn
      exact ⟨n + k, by omega, by rw [hk, Registered.later_later]⟩

theorem open_assign {id : Nat} {t : Term} (h : Yields (assign id t location) d u d') :
    d'.Open m ↔ d.Open m := by
  obtain ⟨-, ⟨-, rfl⟩ | ⟨v, -, rfl⟩⟩ := yields_assign.1 h <;> rfl

/-- Where the path is taken, an assigned variable has the value it was assigned. -/
theorem store_assign {id : Nat} {v : Registered} {t : Term}
    (h : Yields (assign id t location) d u d') (hv : d.registered? id = some v) (hm : d'.HoldsIn m)
    (ho : d.Open m) : d'.store m = Function.update (d.store m) id (some (t.value m)) := by
  obtain ⟨-, ⟨hn, -⟩ | ⟨w, hw, rfl⟩⟩ := yields_assign.1 h
  · rw [hv] at hn
    cases hn
  · obtain rfl := id_of_registered? hw
    have hf := Term.holds_eq.1 ((holdsIn_emitted.1 hm).2 ho)
    rw [store_write m hw]
    exact congrArg (fun x => Function.update (d.store m) w.id (some x)) hf

/-- A row of assignments that agrees with a store leads to it. -/
theorem store_assignAll {ts : List (Nat × Term)} {σ : Store}
    (h : Yields (assignAll location ts) d u d') (hm : d'.HoldsIn m) (ho : d.Open m)
    (hin : ∀ p ∈ ts, (∃ v, d.registered? p.1 = some v) ∧ σ p.1 = some (p.2.value m))
    (hout : ∀ id, id ∉ ts.map Prod.fst → σ id = d.store m id) : d'.store m = σ := by
  induction ts generalizing d with
  | nil =>
    obtain rfl := yields_forM_nil.1 h
    exact funext fun id => (hout id (by simp)).symm
  | cons p rest ih =>
    obtain ⟨d₁, ha, h⟩ := yields_forM_cons.1 h
    simp only [List.mem_cons, forall_eq_or_imp] at hin
    obtain ⟨⟨⟨v, hv⟩, hp⟩, hrest⟩ := hin
    have hl := later_assign ha
    have hst := store_assign ha hv ((later_assignAll h).holdsIn hm) ho
    refine ih h ((open_assign ha).2 ho) (fun q hq => ?_) (fun id hid => ?_)
    · obtain ⟨⟨w, hw⟩, hq⟩ := hrest q hq
      obtain ⟨k, hk⟩ := hl.version hw
      exact ⟨⟨_, hk⟩, hq⟩
    · rw [hst]
      by_cases hp' : id = p.1
      · subst hp'
        simp [hp]
      · rw [Function.update_of_ne hp']
        exact hout id (by simp [hp', hid])

/-- A loop that makes at most one assignment a turn, of a term that assignments do not change. -/
theorem yields_forM_assign {α : Type} {f : α → Drafting Unit} {g : Draft → α → Option (Nat × Term)}
    (hf : ∀ a {d d' : Draft}, Yields (f a) d () d' ↔
      (g d a = none ∧ d' = d) ∨ ∃ p, g d a = some p ∧ Yields (assign p.1 p.2 location) d () d')
    (hg : ∀ {d d' : Draft}, Later d d' → g d' = g d) (xs : List α) :
    Yields (xs.forM f) d u d' ↔ Yields (assignAll location (xs.filterMap (g d))) d u d' := by
  induction xs generalizing d with
  | nil => rfl
  | cons a rest ih =>
    rw [yields_forM_cons, List.filterMap_cons]
    cases ha : g d a with
    | none =>
      simp only [hf, ha, true_and, reduceCtorEq, false_and, exists_false, or_false, exists_eq_left]
      exact ih
    | some p =>
      simp only [hf, ha, reduceCtorEq, false_and, false_or, Option.some.injEq, exists_eq_left',
        assignAll, yields_forM_cons]
      refine exists_congr fun d₁ => and_congr_right fun h₁ => ?_
      rw [ih, hg (later_assign h₁)]
      rfl

/-! ### The start of a second branch -/

/-- The assignments that undo a branch. -/
def restored (d : Draft) (before yes : Versions) : List (Nat × Term) :=
  before.filterMap fun (id, k) =>
    if yes.lookup id = some k then none else (d.term? id k).map (id, ·)

theorem yields_restore {before yes : Versions} :
    Yields (restore before yes location) d u d' ↔
      Yields (assignAll location (d.restored before yes)) d u d' := by
  refine yields_forM_assign (g := fun d (id, k) =>
    if yes.lookup id = some k then none else (d.term? id k).map (id, ·)) (fun p d d' => ?_)
    (fun hl => ?_) before
  · obtain ⟨id, k⟩ := p
    by_cases hk : yes.lookup id = some k
    · simp [hk]
    · cases ht : d.term? id k <;> simp [hk, ht]
  · funext p
    simp only [hl.term?]

theorem of_mem_restored (hn : (d₀.registry.map (·.id)).Nodup) {yes : Versions}
    {p : Nat × Term} (hp : p ∈ d.restored d₀.versions yes) :
    ∃ v k, d.registered? p.1 = some v ∧ d₀.version? p.1 = some k ∧ p.2 = v.term k := by
  obtain ⟨⟨id, k⟩, hk, he⟩ := List.mem_filterMap.1 hp
  dsimp only at he
  split at he
  · cases he
  · obtain ⟨t, ht, rfl⟩ := Option.map_eq_some_iff.1 he
    obtain ⟨w, hw, rfl⟩ := Option.map_eq_some_iff.1 ht
    obtain ⟨v, hv, rfl⟩ := (mem_versions hn).1 hk
    exact ⟨w, v.version, hw, by rw [version?, hv]; rfl, rfl⟩

theorem mem_restored (hn : (d₀.registry.map (·.id)).Nodup) {id k : Nat} {v : Registered}
    (hv : d₁.registered? id = some v) (hk : d₀.version? id = some k)
    (hne : d₁.version? id ≠ some k) :
    (id, v.term k) ∈ d₁.restored d₀.versions d₁.versions := by
  obtain ⟨w, hw, he⟩ := Option.map_eq_some_iff.1 hk
  refine List.mem_filterMap.2 ⟨(id, k), (mem_versions hn).2 ⟨w, hw, he⟩, ?_⟩
  simp [lookup_versions, hne, term?, hv]

theorem grows_restore (hl : Later d₀ d) (hn : (d₀.registry.map (·.id)).Nodup) {yes : Versions}
    (hw : ∀ id, L.writes id) (h : Yields (restore d₀.versions yes location) d u d') :
    Grows L d d' := by
  refine grows_assignAll (fun p _ => hw p.1) (fun p hp => ?_) (fun p hp w hv => ?_)
    (yields_restore.1 h)
  · obtain ⟨v, k, hv, hk, ht⟩ := of_mem_restored hn hp
    rw [ht]
    obtain ⟨n, hn, hle⟩ := hl.version?_isSome hv
    cases hk.symm.trans hn
    exact covers_version hv hle
  · obtain ⟨v, k, hv', -, ht⟩ := of_mem_restored hn hp
    cases hv.symm.trans hv'
    rw [ht]
    exact Term.hasSort_version w.toVariable k

/-- The second branch starts from the store before the first. -/
theorem store_restore (hl : Later d₀ d₁) (hn : (d₀.registry.map (·.id)).Nodup)
    (h : Yields (restore d₀.versions d₁.versions location) d₁ u d') (hm : d'.HoldsIn m)
    (ho : d₁.Open m) : d'.store m = d₀.store m := by
  refine store_assignAll (yields_restore.1 h) hm ho (fun p hp => ?_) (fun id hid => ?_)
  · obtain ⟨v, k, hv, hk, ht⟩ := of_mem_restored hn hp
    rw [ht]
    exact ⟨⟨v, hv⟩, hl.store_eq hv hk m⟩
  · cases hv : d₁.registered? id with
    | none => rw [store_eq_none hv, store_eq_none (hl.unregistered hv)]
    | some v =>
      obtain ⟨k, hk, -⟩ := hl.version?_isSome hv
      have hsame : d₁.version? id = some k := by
        by_contra hne
        exact hid (List.mem_map_of_mem (mem_restored hn hv hk hne))
      rw [hl.store_eq hv hk, (Later.refl d₁).store_eq hv hsame]

/-- A variable that was not written after the second branch started was not written in the first
either. -/
theorem version?_restore (hl : Later d₀ d₁) (hn : (d₀.registry.map (·.id)).Nodup)
    (h : Yields (restore d₀.versions d₁.versions location) d₁ u d) (hl' : Later d d') {id : Nat}
    (he : d'.version? id = d₁.version? id) : d₁.version? id = d₀.version? id := by
  cases hv : d₁.registered? id with
  | none => rw [version?, version?, hv, hl.unregistered hv]
  | some v =>
    obtain ⟨k, hk, -⟩ := hl.version?_isSome hv
    by_contra hne
    rw [hk] at hne
    obtain ⟨n, hpos, hn⟩ := version_assignAll (yields_restore.1 h) (mem_restored hn hv hk hne) hv
    obtain ⟨n', hn'⟩ := hl'.version hn
    simp only [version?, hv, hn', Option.map_some, Option.some.injEq,
      Registered.later_version] at he
    omega

/-! ### The end of both branches -/

/-- The assignments that join two branches. -/
def joined (d : Draft) (guard : Term) (before yes no : Versions) : List (Nat × Term) :=
  before.filterMap fun (id, k) =>
    let y := (yes.lookup id).getD k
    let n := (no.lookup id).getD k
    if y = k ∧ n = k then none
    else (d.registered? id).map fun v =>
      (id, .ite guard (v.term y) (v.term (if n = y then k else n)))

theorem yields_mergeVersions {guard : Term} {before yes no : Versions} :
    Yields (mergeVersions guard before yes no location) d u d' ↔
      Yields (assignAll location (d.joined guard before yes no)) d u d' := by
  refine yields_forM_assign (g := fun d (id, k) =>
    let y := (yes.lookup id).getD k
    let n := (no.lookup id).getD k
    if y = k ∧ n = k then none
    else (d.registered? id).map fun v =>
      (id, .ite guard (v.term y) (v.term (if n = y then k else n)))) (fun p d d' => ?_)
    (fun hl => ?_) before
  · obtain ⟨id, k⟩ := p
    by_cases hk : (yes.lookup id).getD k = k ∧ (no.lookup id).getD k = k
    · simp [hk]
    · cases hv : d.registered? id <;> simp [hk, term?, hv, merge]
  · funext p
    obtain ⟨k, hk⟩ := hl.registered p.1
    simp only [hk, Option.map_map]
    rfl

section Ends

variable {dy dn e : Draft} {guard t : Term}

theorem of_mem_joined (hn : (d₀.registry.map (·.id)).Nodup) (hly : Later dy d) (hln : Later dn d)
    {p : Nat × Term} (hp : p ∈ d.joined guard d₀.versions dy.versions dn.versions) :
    ∃ v k y n, d.registered? p.1 = some v ∧ d₀.version? p.1 = some k ∧ dy.version? p.1 = some y ∧
      dn.version? p.1 = some n ∧
        p.2 = .ite guard (v.term y) (v.term (if n = y then k else n)) := by
  obtain ⟨⟨id, k⟩, hk, he⟩ := List.mem_filterMap.1 hp
  dsimp only at he
  split at he
  · cases he
  · obtain ⟨v, hv, rfl⟩ := Option.map_eq_some_iff.1 he
    obtain ⟨w, hw, rfl⟩ := (mem_versions hn).1 hk
    obtain ⟨y, hy, -⟩ := hly.version?_isSome hv
    obtain ⟨n, hn, -⟩ := hln.version?_isSome hv
    refine ⟨v, w.version, y, n, hv, by rw [version?, hw]; rfl, hy, hn, ?_⟩
    simp only [lookup_versions, hy, hn, Option.getD_some]

theorem mem_joined (hn : (d₀.registry.map (·.id)).Nodup) {id k y n : Nat} {v : Registered}
    (hv : d.registered? id = some v) (hk : d₀.version? id = some k) (hy : dy.version? id = some y)
    (hn' : dn.version? id = some n) (hne : ¬ (y = k ∧ n = k)) :
    (id, .ite guard (v.term y) (v.term (if n = y then k else n))) ∈
      d.joined guard d₀.versions dy.versions dn.versions := by
  obtain ⟨w, hw, he⟩ := Option.map_eq_some_iff.1 hk
  refine List.mem_filterMap.2 ⟨(id, k), (mem_versions hn).2 ⟨w, hw, he⟩, ?_⟩
  simp [lookup_versions, hy, hn', hne, hv]

theorem grows_mergeVersions (hn : (d₀.registry.map (·.id)).Nodup) (hl : Later d₀ d)
    (hly : Later dy d) (hln : Later dn d) (hc : d.Covers guard) (hs : guard.HasSort .bool)
    (hw : ∀ id, L.writes id)
    (h : Yields (mergeVersions guard d₀.versions dy.versions dn.versions location) d u d') :
    Grows L d d' := by
  have hle : ∀ {e : Draft} {id k : Nat} {v : Registered}, Later e d → d.registered? id = some v →
      e.version? id = some k → k ≤ v.version := by
    intro e id k v he hv hk
    obtain ⟨n, hn, hle⟩ := he.version?_isSome hv
    cases hk.symm.trans hn
    exact hle
  refine grows_assignAll (fun p _ => hw p.1) (fun p hp => ?_) (fun p hp w hv => ?_)
    (yields_mergeVersions.1 h)
  · obtain ⟨v, k, y, n, hv, hk, hy, hn, ht⟩ := of_mem_joined hn hly hln hp
    rw [ht, covers_ite]
    refine ⟨hc, covers_version hv (hle hly hv hy), covers_version hv ?_⟩
    split
    · exact hle hl hv hk
    · exact hle hln hv hn
  · obtain ⟨v, k, y, n, hv', -, -, -, ht⟩ := of_mem_joined hn hly hln hp
    cases hv.symm.trans hv'
    rw [ht]
    exact .ite hs (Term.hasSort_version w.toVariable _) (Term.hasSort_version w.toVariable _)

/-- After the join every variable has the value from the end of the branch taken. Where the second
branch has the version of the first it was not written there, and has its value from before. -/
theorem store_mergeVersions (hn : (d₀.registry.map (·.id)).Nodup) (hl : Later d₀ d)
    (hly : Later dy d) (hln : Later dn d) {τ : Store}
    (hτ : ∀ id, τ id = if dn.version? id = dy.version? id then d₀.store m id else dn.store m id)
    (hcur : ∀ id, dy.version? id = d₀.version? id → dn.version? id = d₀.version? id →
      d.version? id = d₀.version? id)
    (h : Yields (mergeVersions guard d₀.versions dy.versions dn.versions location) d u d')
    (hm : d'.HoldsIn m) (ho : d.Open m) :
    (guard.Holds m → d'.store m = dy.store m) ∧ (¬ guard.Holds m → d'.store m = τ) := by
  have hstore : ∀ σ : Store, (guard.Holds m → σ = dy.store m) → (¬ guard.Holds m → σ = τ) →
      d'.store m = σ := by
    intro σ hyes hno
    refine store_assignAll (yields_mergeVersions.1 h) hm ho (fun p hp => ?_) (fun id hid => ?_)
    · obtain ⟨v, k, y, n, hv, hk, hy, hn, ht⟩ := of_mem_joined hn hly hln hp
      refine ⟨⟨v, hv⟩, ?_⟩
      rw [ht]
      by_cases hg : guard.Holds m
      · rw [hyes hg, Term.value_ite_of_holds hg]
        exact hly.store_eq hv hy m
      · rw [hno hg, Term.value_ite_of_not_holds hg, hτ, hn, hy]
        by_cases he : n = y
        · rw [if_pos (congrArg some he), if_pos he]
          exact hl.store_eq hv hk m
        · rw [if_neg (fun hs => he (Option.some.inj hs)), if_neg he]
          exact hln.store_eq hv hn m
    · cases hv : d.registered? id with
      | none =>
        have hτ' : τ id = none := by
          rw [hτ, store_eq_none (hl.unregistered hv), store_eq_none (hln.unregistered hv), ite_self]
        rw [store_eq_none hv]
        by_cases hg : guard.Holds m
        · rw [hyes hg, store_eq_none (hly.unregistered hv)]
        · rw [hno hg, hτ']
      | some v =>
        obtain ⟨k, hk, -⟩ := hl.version?_isSome hv
        obtain ⟨y, hy, -⟩ := hly.version?_isSome hv
        obtain ⟨n, hn', -⟩ := hln.version?_isSome hv
        have hsame : y = k ∧ n = k := by
          by_contra hne
          exact hid (List.mem_map_of_mem (mem_joined hn hv hk hy hn' hne))
        obtain ⟨rfl, rfl⟩ := hsame
        have hd := (hcur id (hy.trans hk.symm) (hn'.trans hk.symm)).trans hk
        rw [(Later.refl d).store_eq hv hd]
        by_cases hg : guard.Holds m
        · rw [hyes hg, hly.store_eq hv hy]
        · rw [hno hg, hτ, hn', hy, if_pos rfl, hl.store_eq hv hk]
  exact ⟨fun hg => hstore _ (fun _ => rfl) (absurd hg), fun hg => hstore _ (absurd · hg)
    fun _ => rfl⟩

/-- A variable has the same value wherever it has the same version. -/
theorem Later.store_of_version (hl : Later d₀ d₁) {id : Nat} (he : d₁.version? id = d₀.version? id)
    (m : Model) : d₁.store m id = d₀.store m id := by
  cases hv : d₁.registered? id with
  | none => rw [store_eq_none hv, store_eq_none (hl.unregistered hv)]
  | some v =>
    obtain ⟨k, hk, -⟩ := hl.version?_isSome hv
    rw [hl.store_eq hv hk, (Later.refl d₁).store_eq hv (he.trans hk)]

/-- After a side that can be passed by, the variables have their values from its end or from before
it. -/
theorem store_merge_optional (hn : (d₀.registry.map (·.id)).Nodup) (hl : Later d₀ d)
    (hd : dn = d ∨ dn = d₀)
    (h : Yields (mergeVersions guard d₀.versions d.versions dn.versions location) d u d')
    (hm : d'.HoldsIn m) (ho : d.Open m) :
    (guard.Holds m → d'.store m = d.store m) ∧ (¬ guard.Holds m → d'.store m = d₀.store m) := by
  obtain rfl | rfl := hd
  · refine store_mergeVersions hn hl (.refl dn) (.refl dn) (fun id => ?_) (fun _ he _ => he) h hm ho
    rw [if_pos rfl]
  · refine store_mergeVersions hn hl (.refl d) hl (fun id => ?_) (fun _ he _ => he) h hm ho
    rw [ite_self]

/-- After two sides, the variables have their values from the end of the one that was taken. -/
theorem store_merge_both (hn : (d₀.registry.map (·.id)).Nodup) (hl : Later d₀ d₁)
    (hr : Yields (restore d₀.versions d₁.versions location) (d₁.pushed t) () e) (hle : Later e d)
    (h : Yields (mergeVersions guard d₀.versions d₁.versions d.versions location) d u d')
    (hm : d'.HoldsIn m) (ho : d.Open m) :
    (guard.Holds m → d'.store m = d₁.store m) ∧ (¬ guard.Holds m → d'.store m = d.store m) := by
  have hlr : Later d₁ e := Later.pushed.trans (later_assignAll (yields_restore.1 hr))
  refine store_mergeVersions hn (hl.trans (hlr.trans hle)) (hlr.trans hle) (.refl d) (fun id => ?_)
    (fun _ _ he => he) h hm ho
  split
  · rename_i he
    have hlp : Later d₀ (d₁.pushed t) := hl.trans .pushed
    have hback : d₁.version? id = d₀.version? id := version?_restore hlp hn hr hle he
    exact (hl.trans (hlr.trans hle)).store_of_version (he.trans hback) m
  · rfl

end Ends

end PathFormula.Draft
