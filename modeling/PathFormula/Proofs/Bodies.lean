import PathFormula.Proofs.Forms
import PathFormula.Proofs.Joins

/-!
# Encoding of statements is growth

A statement with consistent annotations is encoded by steps that `Grows` lists, and every path
condition it answers for a return implies the one it started under (`grows_encode`).
-/
namespace PathFormula

open Source

namespace Draft

variable {Γ : Nat → Option Domain} {scope : List Expr} {L L' : Licence} {d d₁ d' e : Draft}
  {u : Unit} {exits : List Term} {location : Location}

/-- A draft grows, and returns were taken under some conditions meanwhile. -/
structure GrowsTo (L : Licence) (d : Draft) (exits : List Term) (d' : Draft) : Prop where
  grows : Grows L d d'
  covers : ∀ x ∈ exits, d'.Covers x
  sorts : ∀ x ∈ exits, x.HasSort .bool
  opens : ∀ x ∈ exits, ∀ m, x.Holds m → d.Open m

namespace GrowsTo

theorem nil (h : Grows L d d') : GrowsTo L d [] d' := ⟨h, by simp, by simp, by simp⟩

theorem mono (h : GrowsTo L d exits d') (hL : L.Within L') : GrowsTo L' d exits d' :=
  { h with grows := h.grows.mono hL }

theorem after (hg : Grows L d d₁) (h : GrowsTo L d₁ exits d') : GrowsTo L d exits d' :=
  { h with
    grows := hg.trans h.grows
    opens := fun x hx m hm => hg.open_iff.1 (h.opens x hx m hm) }

theorem before (h : GrowsTo L d exits d₁) (hg : Grows L d₁ d') : GrowsTo L d exits d' :=
  { h with
    grows := h.grows.trans hg
    covers := fun x hx => hg.later.covers (h.covers x hx) }

theorem append {later : List Term} (h : GrowsTo L d exits d₁) (h' : GrowsTo L d₁ later d') :
    GrowsTo L d (exits ++ later) d' where
  grows := h.grows.trans h'.grows
  covers x hx := (List.mem_append.1 hx).elim (fun hx => h'.grows.later.covers (h.covers x hx))
    (h'.covers x)
  sorts x hx := (List.mem_append.1 hx).elim (h.sorts x) (h'.sorts x)
  opens x hx m hm := (List.mem_append.1 hx).elim (fun hx => h.opens x hx m hm)
    fun hx => h.grows.open_iff.1 (h'.opens x hx m hm)

theorem gated {condition : Term} (hc : d.Covers condition) (hs : condition.HasSort .bool)
    (h : GrowsTo L (d.pushed condition) exits e) : GrowsTo L d exits e.popped where
  grows := by
    rw [h.grows.popped_eq]
    exact .gated hc hs h.grows
  covers := h.covers
  sorts := h.sorts
  opens x hx m hm := (open_pushed.1 (h.opens x hx m hm)).1

theorem covers_taken (h : GrowsTo L d exits d') {taken : Term}
    (ht : Term.disjunction? exits = some taken) : d'.Covers taken :=
  covers_disjunction ht h.covers

end GrowsTo

/-- What encoding statements may add: a body may write all variables. -/
def bodyLicence (nodes : List Expr) (settings : Settings) : Licence :=
  licence nodes (fun _ => True) settings

theorem bodyLicence_within {nodes nodes' : List Expr} (h : nodes ⊆ nodes') (settings : Settings) :
    (bodyLicence nodes settings).Within (bodyLicence nodes' settings) :=
  licence_within h (fun _ hw => hw) settings

theorem yields_pushPath_known {x : Expr} {sort : TermSort} {sign : Bool}
    (hk : d.known.lookup x.id = some sort) :
    Yields (pushPath x sign) d u d' ↔
      d' = d.pushed (if sign then .symbol (expressionSymbol x.id sort)
        else .not (.symbol (expressionSymbol x.id sort))) := by
  simp [yields_pushPath, yields_valueOf_known hk]

theorem yields_forgetAll_cons {id : Nat} {rest : List Nat} :
    Yields (forgetAll (id :: rest) location) d u d' ↔
      ∃ d₁, ((d.registered? id = none ∧ d₁ = d) ∨
          (d.registered? id).isSome ∧ Yields (forget id location) d () d₁) ∧
        Yields (forgetAll rest location) d₁ u d' := by
  unfold forgetAll
  rw [yields_forM_cons]
  refine exists_congr fun d₁ => and_congr_left fun _ => ?_
  cases hv : d.registered? id <;> simp [isRegistered, hv]

theorem grows_forgetAll {ids : List Nat} (hw : ∀ id ∈ ids, L.writes id)
    (h : Yields (forgetAll ids location) d u d') : Grows L d d' := by
  induction ids generalizing d with
  | nil =>
    obtain rfl := yields_forM_nil.1 h
    exact .refl _
  | cons id rest ih =>
    simp only [List.mem_cons, forall_eq_or_imp] at hw
    obtain ⟨d₁, ⟨-, rfl⟩ | ⟨-, hf⟩, hr⟩ := yields_forgetAll_cons.1 h
    · exact ih hw.2 hr
    · exact (grows_forget hw.1 hf).trans (ih hw.2 hr)

theorem Stage.encode {x : Expr} (h : Stage Γ scope x.nodes d) (hc : x.Consistent Γ)
    (hy : Yields x.encode d u d') : Grows (bodyLicence x.nodes d.settings) d d' :=
  (Expr.grows_encode x h.ready h.scope hc h.awaits hy).mono
    (licence_within (List.Subset.refl _) (fun _ _ => trivial) _)

/-- The value of an expression right after it was encoded. -/
theorem Stage.valueOf {x : Expr} {next : List Expr} (h : Stage Γ scope (x.nodes ++ next) d)
    (hc : x.Consistent Γ) {t : Term} (h₁ : Yields x.encode d () d₁)
    (h₂ : Yields (valueOf x) d₁ t d') :
    ∃ sort, x.termSort = .ok sort ∧ t = .symbol (expressionSymbol x.id sort) ∧
      d'.known.lookup x.id = some sort ∧ Grows (bodyLicence x.nodes d.settings) d d' ∧
        Stage Γ scope next d' := by
  have hg₁ := h.left.encode hc h₁
  have hd₁ := h.left.ready.grows hg₁ h.left.scope
  obtain ⟨sort, hs, ht, hk, hg₂⟩ := grows_valueOf (L := bodyLicence x.nodes d.settings) hd₁
    (h.left.scope x.mem_nodes_self) x.mem_nodes_self h₂
  exact ⟨sort, hs, ht, hk, hg₁.trans hg₂, h.next (hg₁.trans hg₂) (List.Subset.refl _)⟩

end Draft

namespace Source.Stmt

open Draft

variable {Γ : Nat → Option Domain} {scope : List Expr} {returns : List Declaration}
  {d d₁ d₂ d' : Draft} {exits : List Term} {location : Location}

/-- Encoding a statement is growth, and the conditions of its returns imply that of its start. -/
def Adds (Γ : Nat → Option Domain) (scope : List Expr) (returns : List Declaration) (s : Stmt) :
    Prop :=
  ∀ ⦃d d' : Draft⦄ ⦃exits : List Term⦄, Stage Γ scope s.nodes d → s.Consistent Γ returns →
    Yields (s.encode returns) d exits d' → GrowsTo (bodyLicence s.nodes d.settings) d exits d'

theorem grows_encodeOptional {e : Option Expr} (h : Stage Γ scope (nodesOfExpr e) d)
    (hc : ∀ x, e = some x → x.Consistent Γ) (hy : Yields (encodeOptional e) d () d') :
    Grows (bodyLicence (nodesOfExpr e) d.settings) d d' := by
  cases e with
  | none =>
    obtain ⟨-, rfl⟩ := yields_pure.1 hy
    exact .refl _
  | some x => exact h.encode (hc x rfl) hy

/-- A variable takes the value of an expression that was just encoded. -/
theorem grows_assignFrom {e : Expr} (h : Stage Γ scope e.nodes d) (hc : e.Consistent Γ)
    {slot : Declaration} (hs : e.Suits Γ [slot]) (h₁ : Yields e.encode d () d₁)
    (h₂ : Yields (assignFrom slot.id e location) d₁ () d') :
    Grows (bodyLicence e.nodes d.settings) d d' := by
  obtain ⟨t, d₂, hv, ha⟩ := yields_bind.1 h₂
  have h' : Stage Γ scope (e.nodes ++ []) d := by rwa [List.append_nil]
  obtain ⟨sort, hsort, rfl, hk, hg, hst⟩ := h'.valueOf hc h₁ hv
  refine hg.trans (grows_assign trivial (covers_expression hk) (fun v hv => ?_) ha)
  have he : sort = v.sort := hs v.domain (hst.ready.domain hv) sort hsort
  rw [← he]
  exact Term.hasSort_expression e.id sort

theorem grows_declare {declarations : List Declaration} {initial : Option Expr}
    (h : Stage Γ scope (nodesOfExpr initial) d)
    (hc : ∀ e, initial = some e → e.Consistent Γ ∧ e.Suits Γ declarations)
    (hy : Yields (Draft.declare location declarations initial) d () d') :
    Grows (bodyLicence (nodesOfExpr initial) d.settings) d d' := by
  by_cases hm : ∃ declaration, declarations = [declaration]
  · obtain ⟨declaration, rfl⟩ := hm
    cases initial with
    | none =>
      obtain ⟨-, rfl⟩ | ⟨v, hv, ha⟩ := yields_declare_none.1 hy
      · exact .refl _
      · refine grows_assign trivial (covers_zero v.sort) (fun w hw => ?_) ha
        cases hv.symm.trans hw
        exact Term.hasSort_zero v.sort
    | some e =>
      obtain ⟨d₁, he, ⟨-, rfl⟩ | ⟨-, ha⟩⟩ := yields_declare_some.1 hy
      · exact h.encode (hc e rfl).1 he
      · exact grows_assignFrom h (hc e rfl).1 (hc e rfl).2 he ha
  · obtain ⟨d₁, he, hf⟩ := (yields_declare_many fun x hx => hm ⟨x, hx⟩).1 hy
    have hg := grows_encodeOptional h (fun x hx => (hc x hx).1) he
    exact hg.trans (.trans .warned (grows_forgetAll (fun _ _ => trivial) hf))

theorem grows_ret {value : Option Expr} (h : Stage Γ scope (nodesOfExpr value) d)
    (hc : ∀ e, value = some e → e.Consistent Γ ∧ e.Suits Γ returns)
    (hy : Yields ((ret location value).encode returns) d exits d') :
    GrowsTo (bodyLicence (nodesOfExpr value) d.settings) d exits d' := by
  have hret : ∀ {L : Licence}, Grows L d d' → exits = [d'.pathCondition] → L.nodes ⊆ scope →
      GrowsTo L d exits d' := by
    rintro L hg rfl hL
    have hd := h.ready.grows hg hL
    refine ⟨hg, ?_, ?_, ?_⟩ <;> simp only [List.mem_singleton, forall_eq]
    · exact hd.closed.covers_pathCondition
    · exact hd.hasSort_pathCondition
    · exact fun m hm => hg.open_iff.1 hm
  cases value with
  | none =>
    obtain ⟨he, rfl⟩ := yields_ret_none.1 hy
    exact hret (.refl _) he h.scope
  | some e =>
    obtain ⟨d₁, h₁, h₂, he⟩ := yields_ret_some.1 hy
    refine hret ?_ he h.scope
    have hg := h.encode (hc e rfl).1 h₁
    by_cases hm : ∃ slot, returns = [slot]
    · obtain ⟨slot, rfl⟩ := hm
      obtain ⟨-, rfl⟩ | ⟨-, ha⟩ := yields_giveBack_one.1 h₂
      · exact hg
      · exact grows_assignFrom h (hc e rfl).1 (hc e rfl).2 h₁ ha
    · obtain rfl := (yields_giveBack_many fun slot hs => hm ⟨slot, hs⟩).1 h₂
      exact hg.trans .warned

/-! ### Branches -/

/-- The second side of a branch starts with the values from before the first. -/
theorem encodeElse_parts {condition : Expr} {no : Stmt} {d₀ : Draft}
    (hno : no.Adds Γ scope returns) (hc : no.Consistent Γ returns) (hl : Later d₀ d)
    (hk : d.known.lookup condition.id = some .bool) (h : Stage Γ scope no.nodes d)
    (hy : Yields (encodeElse returns location condition d₀.versions d.versions (some no)) d exits
      d') :
    ∃ e₁ e₂, Yields (restore d₀.versions d.versions location)
        (d.pushed (.not (condition.term .bool))) () e₁ ∧
      Grows (bodyLicence [] d.settings) (d.pushed (.not (condition.term .bool))) e₁ ∧
        Stage Γ scope no.nodes e₁ ∧ Yields (no.encode returns) e₁ exits e₂ ∧ Later e₁ e₂ ∧
          GrowsTo (bodyLicence no.nodes d.settings) (d.pushed (.not (condition.term .bool))) exits
            e₂ ∧ d' = e₂.popped := by
  obtain ⟨_, e₁, e₂, hp, hr, he, -, rfl⟩ := yields_encodeElse.1 hy
  obtain rfl := (yields_pushPath_known hk).1 hp
  have hcov : d.Covers (.not (condition.term .bool)) := covers_not.2 (covers_expression hk)
  have hst := h.pushed hcov (.not (Term.hasSort_expression _ _))
  have hn : (d₀.registry.map (·.id)).Nodup := hl.ids ▸ h.ready.ids
  have hg : Grows (bodyLicence [] d.settings) (d.pushed (.not (condition.term .bool))) e₁ :=
    grows_restore (hl.trans .pushed) hn (fun _ => trivial) hr
  have hst₁ := hst.still hg (List.Subset.refl _)
  have hgn := hno hst₁ hc he
  rw [hg.later.settings, pushed_settings] at hgn
  exact ⟨e₁, e₂, hr, hg, hst₁, he, hgn.grows.later,
    .after (hg.mono (bodyLicence_within (List.nil_subset _) _)) hgn, rfl⟩

/-- The condition of a branch or loop is a known boolean after it was encoded. -/
theorem condition_parts {condition : Expr} {next : List Expr}
    (h : Stage Γ scope (condition.nodes ++ next) d) (hc : condition.Consistent Γ)
    (hb : condition.termSort = .ok .bool) {t : Term} (h₁ : Yields condition.encode d () d₁)
    (h₂ : Yields (Draft.valueOf condition) d₁ t d₂) :
    t = condition.term .bool ∧ d₂.known.lookup condition.id = some .bool ∧
      Grows (bodyLicence condition.nodes d.settings) d d₂ ∧ Stage Γ scope next d₂ := by
  obtain ⟨sort, hs, rfl, hk, hg, hst⟩ := h.valueOf hc h₁ h₂
  cases hb.symm.trans hs
  exact ⟨rfl, hk, hg, hst⟩

theorem branch_parts {condition : Expr} {yes : Stmt} {no : Option Stmt}
    (hyes : yes.Adds Γ scope returns)
    (h : Stage Γ scope (branch location condition yes no).nodes d)
    (hc : (branch location condition yes no).Consistent Γ returns)
    (hy : Yields ((branch location condition yes no).encode returns) d exits d') :
    ∃ d₁ d₂ yesExits e₁ noExits d₅, Yields condition.encode d () d₁ ∧
      Yields (Draft.valueOf condition) d₁ (condition.term .bool) d₂ ∧
      d₂.known.lookup condition.id = some .bool ∧
      Grows (bodyLicence condition.nodes d.settings) d d₂ ∧
      Stage Γ scope (yes.nodes ++ nodesOfOption no) (d₂.pushed (condition.term .bool)) ∧
      Yields (yes.encode returns) (d₂.pushed (condition.term .bool)) yesExits e₁ ∧
      GrowsTo (bodyLicence yes.nodes d.settings) (d₂.pushed (condition.term .bool)) yesExits e₁ ∧
      Stage Γ scope (nodesOfOption no) e₁.popped ∧
      Yields (encodeElse returns location condition d₂.versions e₁.popped.versions no) e₁.popped
        noExits d₅ ∧
      Yields (mergeVersions (condition.term .bool) d₂.versions e₁.popped.versions d₅.versions
        location) d₅ () d' ∧ exits = yesExits ++ noExits := by
  obtain ⟨d₁, guard, d₂, _, yesExits, e₁, noExits, d₅, h₁, h₂, h₃, h₄, -, h₅, h₆, rfl⟩ :=
    yields_branch.1 hy
  obtain ⟨hcc, hcb, hcy, hcn⟩ := hc
  obtain ⟨rfl, hk, hg, hst⟩ := condition_parts h hcc hcb h₁ h₂
  obtain rfl := (yields_pushPath_known hk).1 h₃
  have hcov : d₂.Covers (condition.term .bool) := covers_expression hk
  have hsort : (condition.term .bool).HasSort .bool := Term.hasSort_expression _ _
  have hstp := hst.pushed hcov hsort
  have hgy := hyes hstp.left hcy h₄
  rw [pushed_settings, hg.later.settings] at hgy
  exact ⟨d₁, d₂, yesExits, e₁, noExits, d₅, h₁, h₂, hk, hg, hstp, h₄, hgy,
    hst.next (hgy.gated hcov hsort).grows (List.Subset.refl _), h₅, h₆, rfl⟩

theorem grows_branch {condition : Expr} {yes : Stmt} {no : Option Stmt}
    (hyes : yes.Adds Γ scope returns) (hno : ∀ s, no = some s → s.Adds Γ scope returns) :
    (branch location condition yes no).Adds Γ scope returns := by
  intro d d' exits h hc hy
  obtain ⟨d₁, d₂, yesExits, e₁, noExits, d₅, h₁, h₂, hk, hg, -, h₄, hgy, hste, h₅, h₆, rfl⟩ :=
    branch_parts hyes h hc hy
  have hcov : d₂.Covers (condition.term .bool) := covers_expression hk
  have hsort : (condition.term .bool).HasSort .bool := Term.hasSort_expression _ _
  have hgate := hgy.gated hcov hsort
  have hle := hgate.grows.later
  have hn : (d₂.registry.map (·.id)).Nodup := hle.ids ▸ hste.ready.ids
  have helse : GrowsTo (bodyLicence (nodesOfOption no) d.settings) e₁.popped noExits d₅ := by
    cases no with
    | none =>
      obtain ⟨rfl, rfl⟩ := yields_pure.1 h₅
      exact .nil (.refl _)
    | some no =>
      have hk' := hle.known _ _ hk
      obtain ⟨e₂, e₃, -, -, -, -, -, hgn, rfl⟩ :=
        encodeElse_parts (hno no rfl) hc.2.2.2 hle hk' hste h₅
      rw [hle.settings, hg.later.settings] at hgn
      exact hgn.gated (covers_not.2 (covers_expression hk')) (.not hsort)
  have hjoin : Grows (bodyLicence [] d.settings) d₅ d' :=
    grows_mergeVersions hn (hle.trans helse.grows.later) helse.grows.later (.refl d₅)
      (helse.grows.later.covers (hle.covers hcov)) hsort (fun _ => trivial) h₆
  have hsubc : condition.nodes ⊆ (branch location condition yes no).nodes := by
    simp [nodes]
  have hsuby : yes.nodes ⊆ (branch location condition yes no).nodes := by
    intro x hx
    simp [nodes, hx]
  have hsubn : nodesOfOption no ⊆ (branch location condition yes no).nodes := by
    intro x hx
    simp [nodes, hx]
  exact .after (hg.mono (bodyLicence_within hsubc _))
    (((hgate.mono (bodyLicence_within hsuby _)).append
      (helse.mono (bodyLicence_within hsubn _))).before
        (hjoin.mono (bodyLicence_within (List.nil_subset _) _)))

/-! ### Loops -/

theorem enter_parts {condition : Option Expr} {next : List Expr}
    (h : Stage Γ scope (nodesOfExpr condition ++ next) d)
    (hc : ∀ e, condition = some e → e.Consistent Γ ∧ e.termSort = .ok .bool)
    (hy : Yields (enter condition) d () d') :
    Stage Γ scope next d' ∧
      ((condition = none ∧ d' = d) ∨
        ∃ e d₁ d₂, condition = some e ∧ Yields e.encode d () d₁ ∧
          Yields (Draft.valueOf e) d₁ (e.term .bool) d₂ ∧ d₂.known.lookup e.id = some .bool ∧
            Grows (bodyLicence e.nodes d.settings) d d₂ ∧ d' = d₂.pushed (e.term .bool)) := by
  cases condition with
  | none =>
    obtain ⟨-, rfl⟩ := yields_pure.1 hy
    exact ⟨h, .inl ⟨rfl, rfl⟩⟩
  | some e =>
    obtain ⟨d₁, h₁, hp⟩ := yields_seq.1 hy
    obtain ⟨t, d₂, h₂, rfl⟩ := yields_pushPath.1 hp
    obtain ⟨rfl, hk, hg, hst⟩ := condition_parts h (hc e rfl).1 (hc e rfl).2 h₁ h₂
    exact ⟨hst.pushed (covers_expression hk) (Term.hasSort_expression _ _),
      .inr ⟨e, d₁, d₂, rfl, h₁, h₂, hk, hg, rfl⟩⟩

/-- What is encoded inside a loop is growth outside of it. -/
theorem growsTo_leave {condition : Option Expr} {L : Licence} {e e' : Draft}
    (hL : (bodyLicence (nodesOfExpr condition) d.settings).Within L)
    (henter : (condition = none ∧ d₁ = d) ∨
      ∃ x c d₂, condition = some x ∧ Yields x.encode d () c ∧
        Yields (Draft.valueOf x) c (x.term .bool) d₂ ∧ d₂.known.lookup x.id = some .bool ∧
          Grows (bodyLicence x.nodes d.settings) d d₂ ∧ d₁ = d₂.pushed (x.term .bool))
    (hg : GrowsTo L d₁ exits e) (hleave : Yields (leave condition) e () e') :
    GrowsTo L d exits e' := by
  obtain ⟨rfl, rfl⟩ | ⟨x, c, d₂, rfl, -, -, hk, hx, rfl⟩ := henter
  · obtain ⟨-, rfl⟩ := yields_pure.1 hleave
    exact hg
  · obtain ⟨-, rfl⟩ := yields_popPath.1 hleave
    exact .after (hx.mono hL) (hg.gated (covers_expression hk) (Term.hasSort_expression _ _))

theorem turn_parts {written : List Nat} {condition step : Option Expr} {body : Stmt}
    (hb : body.Adds Γ scope returns)
    (h : Stage Γ scope (nodesOfExpr condition ++ (body.nodes ++ nodesOfExpr step)) d)
    (hc : ∀ e, condition = some e → e.Consistent Γ ∧ e.termSort = .ok .bool)
    (hcs : ∀ e, step = some e → e.Consistent Γ) (hcb : body.Consistent Γ returns)
    (hy : EncodesTurn returns location written condition step body d exits d') :
    ∃ d₁ d₂ e₁ e₂ d₅, Yields (forgetAll written location) (d.warned location .loop) () d₁ ∧
      Grows (bodyLicence [] d.settings) d d₁ ∧
      Stage Γ scope (nodesOfExpr condition ++ (body.nodes ++ nodesOfExpr step)) d₁ ∧
      Yields (enter condition) d₁ () d₂ ∧ Stage Γ scope (body.nodes ++ nodesOfExpr step) d₂ ∧
      Yields (body.encode returns) d₂ exits e₁ ∧
      GrowsTo (bodyLicence body.nodes d.settings) d₂ exits e₁ ∧
      Stage Γ scope (nodesOfExpr step) e₁ ∧ Yields (encodeOptional step) e₁ () e₂ ∧
      Yields (leave condition) e₂ () d₅ ∧
      GrowsTo (bodyLicence (nodesOfExpr condition ++ (body.nodes ++ nodesOfExpr step)) d.settings)
        d₁ exits d₅ ∧
      Yields (forgetAll written location) d₅ () d' := by
  obtain ⟨d₁, d₂, e₁, e₂, d₅, h₁, h₂, h₃, h₄, h₅, h₆⟩ := hy
  have hg : Grows (bodyLicence [] d.settings) d d₁ :=
    .trans .warned (grows_forgetAll (fun _ _ => trivial) h₁)
  have hst := h.still hg (List.Subset.refl _)
  obtain ⟨hst₂, hen⟩ := enter_parts hst hc h₂
  have hset : d₂.settings = d.settings := by
    obtain ⟨-, rfl⟩ | ⟨x, c, d₃, -, -, -, -, hx, rfl⟩ := hen
    · exact hg.later.settings
    · exact hx.later.settings.trans hg.later.settings
  have hgb := hb hst₂.left hcb h₃
  rw [hset] at hgb
  have hst₃ := hst₂.next hgb.grows (List.Subset.refl _)
  have hgs := grows_encodeOptional hst₃ hcs h₄
  rw [hgb.grows.later.settings, hset] at hgs
  have hsubb : body.nodes ⊆ nodesOfExpr condition ++ (body.nodes ++ nodesOfExpr step) :=
    List.Subset.trans (List.subset_append_left _ _) (List.subset_append_right _ _)
  have hsubs : nodesOfExpr step ⊆ nodesOfExpr condition ++ (body.nodes ++ nodesOfExpr step) :=
    List.Subset.trans (List.subset_append_right _ _) (List.subset_append_right _ _)
  have hinner := (hgb.mono (bodyLicence_within hsubb _)).before
    (hgs.mono (bodyLicence_within hsubs _))
  have hloop := growsTo_leave
    (hg.later.settings ▸ bodyLicence_within (List.subset_append_left _ _) _) hen hinner h₅
  exact ⟨d₁, d₂, e₁, e₂, d₅, h₁, hg, hst, h₂, hst₂, h₃, hgb, hst₃, h₄, h₅, hloop, h₆⟩

theorem growsTo_turn {written : List Nat} {condition step : Option Expr} {body : Stmt}
    (hb : body.Adds Γ scope returns)
    (h : Stage Γ scope (nodesOfExpr condition ++ (body.nodes ++ nodesOfExpr step)) d)
    (hc : ∀ e, condition = some e → e.Consistent Γ ∧ e.termSort = .ok .bool)
    (hcs : ∀ e, step = some e → e.Consistent Γ) (hcb : body.Consistent Γ returns)
    (hy : EncodesTurn returns location written condition step body d exits d') :
    GrowsTo (bodyLicence (nodesOfExpr condition ++ (body.nodes ++ nodesOfExpr step)) d.settings)
      d exits d' := by
  obtain ⟨d₁, d₂, e₁, e₂, d₅, -, hg, -, -, -, -, -, -, -, -, hloop, h₆⟩ :=
    turn_parts hb h hc hcs hcb hy
  exact .after (hg.mono (bodyLicence_within (List.nil_subset _) _))
    (hloop.before (grows_forgetAll (fun _ _ => trivial) h₆))

/-- The parts of a loop in the order in which they are encoded. -/
theorem stage_whileLoop {condition : Expr} {body : Stmt} {isBodyFirst : Bool}
    (h : Stage Γ scope (whileLoop location condition body isBodyFirst).nodes d) :
    Stage Γ scope (nodesOfExpr (some condition) ++ (body.nodes ++ nodesOfExpr none)) d ∧
      Stage Γ scope (nodesOfExpr none ++ (body.nodes ++ nodesOfExpr (some condition))) d := by
  have h' : Stage Γ scope (condition.nodes ++ body.nodes) d := h
  exact ⟨by simpa [nodesOfExpr] using h', by simpa [nodesOfExpr] using h'.swap⟩

theorem grows_whileLoop {condition : Expr} {body : Stmt} {isBodyFirst : Bool}
    (hb : body.Adds Γ scope returns) :
    (whileLoop location condition body isBodyFirst).Adds Γ scope returns := by
  intro d d' exits h hc hy
  obtain ⟨hcc, hcs, hcb⟩ := hc
  cases isBodyFirst with
  | false =>
    have hg := growsTo_turn hb (stage_whileLoop h).1 (fun e he => Option.some.inj he ▸ ⟨hcc, hcs⟩)
      (by simp) hcb (yields_whileLoop_testFirst.1 hy)
    exact hg.mono (bodyLicence_within (by simp [nodesOfExpr, nodes]) _)
  | true =>
    have hg := growsTo_turn hb (stage_whileLoop h).2 (by simp)
      (fun e he => Option.some.inj he ▸ hcc) hcb (yields_whileLoop_bodyFirst.1 hy)
    exact hg.mono (bodyLicence_within (by simp [nodesOfExpr, nodes]) _)

theorem grows_forLoop {first : Option Stmt} {condition step : Option Expr} {body : Stmt}
    (hf : ∀ s, first = some s → s.Adds Γ scope returns) (hb : body.Adds Γ scope returns) :
    (forLoop location first condition step body).Adds Γ scope returns := by
  intro d d' exits h hc hy
  obtain ⟨hcf, hcc, hcs, hcb⟩ := hc
  obtain ⟨startExits, d₀, bodyExits, h₀, h₁, rfl⟩ := yields_forLoop.1 hy
  have hgf : GrowsTo (bodyLicence (nodesOfOption first) d.settings) d startExits d₀ := by
    cases first with
    | none =>
      obtain ⟨rfl, rfl⟩ := yields_pure.1 h₀
      exact .nil (.refl _)
    | some s => exact hf s rfl h.left hcf h₀
  have hgt := growsTo_turn hb (h.next hgf.grows (List.Subset.refl _)) hcc hcs hcb h₁
  rw [hgf.grows.later.settings] at hgt
  exact (hgf.mono (bodyLicence_within (List.subset_append_left _ _) _)).append
    (hgt.mono (bodyLicence_within (List.subset_append_right _ _) _))

/-! ### Sequences -/

theorem sequence_parts {s : Stmt} {rest : List Stmt} (hs : s.Adds Γ scope returns)
    (h : Stage Γ scope (nodesOfAll (s :: rest)) d) (hc : ConsistentAll Γ returns (s :: rest))
    (hy : Yields (encodeAll returns (s :: rest)) d exits d') :
    ∃ first d₁, Yields (s.encode returns) d first d₁ ∧
      GrowsTo (bodyLicence s.nodes d.settings) d first d₁ ∧ Stage Γ scope (nodesOfAll rest) d₁ ∧
        ((Term.disjunction? first = none ∧ Yields (encodeAll returns rest) d₁ exits d') ∨
          ∃ taken later e, Term.disjunction? first = some taken ∧
            d₁.Covers (.not taken) ∧ (Term.not taken).HasSort .bool ∧
              Yields (encodeAll returns rest) (d₁.pushed (.not taken)) later e ∧
                Yields (mergeVersions (.not taken) d₁.versions e.popped.versions d₁.versions
                  s.location) e.popped () d' ∧ exits = first ++ later) := by
  obtain ⟨first, d₁, h₁, h₂⟩ := yields_encodeAll_cons.1 hy
  have hg := hs h.left hc.1 h₁
  refine ⟨first, d₁, h₁, hg, h.next hg.grows (List.Subset.refl _), h₂.imp_right ?_⟩
  rintro ⟨taken, later, e, ht, hr, -, hj, he⟩
  exact ⟨taken, later, e, ht, covers_not.2 (hg.covers_taken ht),
    .not (Term.hasSort_disjunction ht hg.sorts), hr, hj, he⟩

mutual

theorem grows_encode (s : Stmt) : s.Adds Γ scope returns := by
  cases s with
  | block _ body =>
    intro d d' exits h hc hy
    exact grows_encodeAll body h hc hy
  | declare _ declarations initial =>
    intro d d' exits h hc hy
    obtain ⟨rfl, hd⟩ := yields_declare.1 hy
    exact .nil (grows_declare h hc hd)
  | expression _ e =>
    intro d d' exits h hc hy
    obtain ⟨rfl, he⟩ := yields_expression.1 hy
    exact .nil (h.encode hc he)
  | branch _ condition yes no =>
    cases no with
    | none => exact grows_branch (grows_encode yes) (by simp)
    | some no =>
      exact grows_branch (grows_encode yes) fun s hs => Option.some.inj hs ▸ grows_encode no
  | whileLoop _ condition body isBodyFirst => exact grows_whileLoop (grows_encode body)
  | forLoop _ first condition step body =>
    cases first with
    | none => exact grows_forLoop (by simp) (grows_encode body)
    | some first =>
      exact grows_forLoop (fun s hs => Option.some.inj hs ▸ grows_encode first) (grows_encode body)
  | ret _ value => exact fun _ _ _ h hc hy => grows_ret h hc hy

theorem grows_encodeAll (body : List Stmt) {d d' : Draft} {exits : List Term}
    (h : Stage Γ scope (nodesOfAll body) d) (hc : ConsistentAll Γ returns body)
    (hy : Yields (encodeAll returns body) d exits d') :
    GrowsTo (bodyLicence (nodesOfAll body) d.settings) d exits d' := by
  cases body with
  | nil =>
    obtain ⟨rfl, rfl⟩ := yields_encodeAll_nil.1 hy
    exact .nil (.refl _)
  | cons s rest =>
    obtain ⟨first, d₁, h₁, hg, hst, ⟨ht, h₂⟩ | ⟨taken, later, e, ht, hcov, hsort, h₂, h₃, rfl⟩⟩ :=
      sequence_parts (grows_encode s) h hc hy
    · have hr := grows_encodeAll rest hst hc.2 h₂
      rw [hg.grows.later.settings] at hr
      exact .after (hg.grows.mono (bodyLicence_within (List.subset_append_left _ _) _))
        (hr.mono (bodyLicence_within (List.subset_append_right _ _) _))
    · have hr := grows_encodeAll rest (hst.pushed hcov hsort) hc.2 h₂
      rw [pushed_settings, hg.grows.later.settings] at hr
      have hp := hr.gated hcov hsort
      have hj : Grows (bodyLicence [] d.settings) e.popped d' :=
        grows_mergeVersions hst.ready.ids hp.grows.later (.refl _) hp.grows.later
          (hp.grows.later.covers hcov) hsort (fun _ => trivial) h₃
      exact (hg.mono (bodyLicence_within (List.subset_append_left _ _) _)).append
        ((hp.mono (bodyLicence_within (List.subset_append_right _ _) _)).before
          (hj.mono (bodyLicence_within (List.nil_subset _) _)))

end

end Source.Stmt

end PathFormula
