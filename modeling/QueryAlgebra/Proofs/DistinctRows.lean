import QueryAlgebra.Proofs.TreeNullability
import QueryAlgebra.Proofs.Uniqueness
import QueryAlgebra.Tree.Normal.Modifiers

/-!
# Duplicate elimination below injective bindings

A construction whose bindings are variables, constants and templates moves above duplicate
elimination. This is right as long as the rows that it computes tell apart the rows that it needs of
its child. A template gives distinct values for distinct arguments, but it is NULL for all argument
lists that have a NULL: from a NULL it can only be told that one of the nullable variables is NULL.
So a binding tells the value of a variable if its other nullable variables are NULL together with it
(`Term.Recovers`).

Main statements: `Tree.normalizeDistinct_rows` — each row of the child is there once, provided that
what the construction needs can be told from its rows; `Tree.not_normalizeDistinct_rows` — a row
that is there twice, as its two arguments are not NULL together.
-/

namespace QueryAlgebra

-- ---------------------------------------------------------------------------
-- What the value of a term tells
-- ---------------------------------------------------------------------------

namespace Term

variable {I : Interpretation} {n : Nullability} {ρ σ : Row} {t : Term} {y : Variable}

/-- The value of the term tells that of `y`, also where it is NULL: its other nullable variables are
NULL together with `y`, and it has no NULL of its own. -/
def Recovers (n : Nullability) (y : Variable) (t : Term) : Prop :=
  y ∈ t.vars ∧ t.isNullable (fun _ => false) = false ∧ ∀ z ∈ t.vars.toList,
    n.isNullable z = true → z = y ∨ ∃ g ∈ n.groups.toList, z ∈ g ∧ y ∈ g

instance : Decidable (Recovers n y t) := inferInstanceAs (Decidable (_ ∧ _ ∧ _))

/-- Only templates keep arguments apart. -/
theorem exists_template {f : Symbol} {args : List Term} (h : (app f args).isInjective = true) :
    (∃ pattern arity, f = ⟨.template pattern, arity⟩) ∧ ∀ t ∈ args, t.isInjective = true := by
  rw [isInjective, Bool.and_eq_true, areInjective_eq_all, List.all_eq_true] at h
  refine ⟨?_, h.2⟩
  obtain ⟨op, arity⟩ := f
  cases op with
  | template pattern => exact ⟨pattern, arity, rfl⟩
  | _ => exact absurd h.1 (by simp [Symbol.isInjective, Operation.isInjective])

theorem eval_template {pattern : String} {arity : Nat} {args : List Term} :
    I.eval ρ (app ⟨.template pattern, arity⟩ args)
      = Interpretation.strictly (args.map (I.eval ρ))
          (I.value ⟨.template pattern, arity⟩ (args.map (I.eval ρ))) := by
  rw [Interpretation.eval_app]
  rfl

/-- An injective term that is not NULL tells the values of all its variables. -/
theorem agree_of_eval_eq (ht : t.isInjective = true) (hne : I.eval ρ t ≠ .null)
    (he : I.eval ρ t = I.eval σ t) : ∀ x ∈ t.vars, ρ x = σ x := by
  induction t using Term.inductionOn with
  | var x =>
    intro z hz
    rw [mem_vars_var.1 hz]
    exact he
  | const c => exact fun _ hz => absurd hz not_mem_vars_const
  | app f args ih =>
    obtain ⟨⟨pattern, arity, rfl⟩, hargs⟩ := exists_template ht
    have hvalue (ρ : Row) (h : I.eval ρ (app ⟨.template pattern, arity⟩ args) ≠ .null) :
        Constant.null ∉ args.map (I.eval ρ) ∧
          I.eval ρ (app ⟨.template pattern, arity⟩ args)
            = I.value ⟨.template pattern, arity⟩ (args.map (I.eval ρ)) := by
      rw [eval_template, Interpretation.strictly] at h ⊢
      split at h
      · exact absurd rfl h
      · next hnull => exact ⟨hnull, if_neg hnull⟩
    obtain ⟨hρ, hρvalue⟩ := hvalue ρ hne
    obtain ⟨hσ, hσvalue⟩ := hvalue σ (he ▸ hne)
    have hvalues : args.map (I.eval ρ) = args.map (I.eval σ) :=
      I.template_injective pattern arity _ _ (by simp) hρ hσ
        (hρvalue.symm.trans (he.trans hσvalue))
    intro x hx
    obtain ⟨t, hmem, hx⟩ := mem_vars_app.1 hx
    have hnet : I.eval ρ t ≠ .null := fun hnull => hρ (List.mem_map.2 ⟨t, hmem, hnull⟩)
    exact ih t hmem (hargs t hmem) hnet (List.map_inj_left.1 hvalues t hmem) x hx

/-- A strict term without a NULL of its own is only NULL where one of its variables is. -/
theorem exists_null_of_eval_eq_null (ht : t.isNullable (fun _ => false) = false)
    (h : I.eval ρ t = .null) : ∃ z ∈ t.vars, ρ z = .null := by
  by_contra hnone
  push Not at hnone
  let σ : Row := fun x => if x ∈ t.vars then ρ x else .boolean true
  have hσ : ∀ x, σ x ≠ .null := by
    intro x
    by_cases hx : x ∈ t.vars
    · rw [show σ x = ρ x from if_pos hx]
      exact hnone x hx
    · rw [show σ x = .boolean true from if_neg hx]
      nofun
  have hsame : I.eval ρ t = I.eval σ t := Interpretation.eval_congr fun x hx => (if_pos hx).symm
  exact Interpretation.eval_ne_null_of_isNullable (fun x _ => hσ x) ht (hsame ▸ h)

theorem Recovers.eq_null (h : t.Recovers n y) (hρ : n.Admits ρ) (hnull : I.eval ρ t = .null) :
    ρ y = .null := by
  obtain ⟨-, hown, hothers⟩ := h
  obtain ⟨z, hz, hznull⟩ := exists_null_of_eval_eq_null hown hnull
  have hnullable : n.isNullable z = true := by
    by_contra hne
    exact hρ.var_ne_null (by simpa using hne) hznull
  rcases hothers z hz hnullable with rfl | ⟨g, hg, hzg, hyg⟩
  · exact hznull
  · exact (hρ.together g hg).eq_null hzg hznull y hyg

/-- Rows on which such a term has one value have one value for the variable. -/
theorem Recovers.eq (h : t.Recovers n y) (ht : t.isInjective = true) (hρ : n.Admits ρ)
    (hσ : n.Admits σ) (he : I.eval ρ t = I.eval σ t) : ρ y = σ y := by
  by_cases hnull : I.eval ρ t = .null
  · rw [h.eq_null hρ hnull, h.eq_null hσ (he ▸ hnull)]
  · exact agree_of_eval_eq ht hnull he y h.1

end Term

-- ---------------------------------------------------------------------------
-- Duplicate elimination
-- ---------------------------------------------------------------------------

namespace Tree

variable {D : Database} {σ : BuildSettings} {projected : VarSet} {bindings : Substitution}
  {child t : Tree} {m : Bool}

/-- If the tree is a construction with injective bindings, it passes each variable that it needs
through or has a binding that tells its value. -/
def TellsRows : Tree → Prop
  | construct _ projected bindings child =>
    bindings.bindings.all (·.2.isInjective) = true →
      ∀ y ∈ (requiredVars projected bindings).toList, y ∈ passedThrough projected bindings ∨
        ∃ b ∈ bindings.bindings, b.2.Recovers child.nullability y
  | _ => True

instance : DecidablePred TellsRows
  | construct _ _ _ _ => inferInstanceAs (Decidable (_ → _))
  | filter _ _ _ | join _ _ _ | leftJoin _ _ _ _ | union _ _ _ | distinct _ _ => .isTrue trivial
  | slice _ _ _ | orderBy _ _ _ | aggregate _ _ _ _ | leaf _ _ => .isTrue trivial

/-- A construction looks at nothing but what it needs. -/
theorem constructed_cut_requiredVars (ρ : Row) :
    D.constructed projected bindings (Row.cut (requiredVars projected bindings) ρ)
      = D.constructed projected bindings ρ := by
  funext x
  unfold Source.constructed
  split
  · next hx =>
    exact Interpretation.eval_congr fun y hy =>
      if_pos (vars_applyVar_subset_requiredVars hx y hy)
  · rfl

/-- Rows from which one row is computed agree on what is needed. -/
theorem agreeOn_of_constructed_eq (htells : (construct m projected bindings child).TellsRows)
    (hdomain : bindings.domain ⊆ projected)
    (hinjective : bindings.bindings.all (·.2.isInjective) = true) {ρ ρ' : Row}
    (hρ : child.nullability.Admits ρ) (hρ' : child.nullability.Admits ρ')
    (h : D.constructed projected bindings ρ = D.constructed projected bindings ρ') :
    Row.AgreeOn (requiredVars projected bindings) ρ ρ' := by
  have hvalue {x : Variable} (hx : x ∈ projected) :
      D.eval ρ (bindings.applyVar x) = D.eval ρ' (bindings.applyVar x) := by
    have hsame := congrFun h x
    rwa [Source.constructed, Source.constructed, if_pos hx, if_pos hx] at hsame
  intro y hy
  rcases htells hinjective y hy with hpassed | ⟨⟨x, t⟩, hmem, hrecovers⟩
  · obtain ⟨hyp, hyd⟩ := mem_passedThrough.1 hpassed
    have hsame := hvalue hyp
    rwa [Substitution.applyVar_of_not_mem_domain hyd] at hsame
  · have hfind := Substitution.mem_bindings.1 hmem
    have hsame := hvalue (hdomain x (Substitution.mem_domain.2 ⟨t, hfind⟩))
    rw [Substitution.applyVar_of_find? hfind] at hsame
    exact hrecovers.eq (List.all_eq_true.1 hinjective _ hmem) hρ hρ' hsame

/-- The distinct rows of the required columns, put through the construction, are the distinct rows
of the construction. -/
theorem nodup_constructed_distinct {rows : List Row}
    (hsame : ∀ ρ ∈ rows, ∀ ρ' ∈ rows,
      D.constructed projected bindings ρ = D.constructed projected bindings ρ' →
        Row.AgreeOn (requiredVars projected bindings) ρ ρ') :
    ((Row.distinct (requiredVars projected bindings) rows).map
      (D.constructed projected bindings)).Nodup := by
  refine List.pairwise_map.2 (Row.uniqueOn_distinct.imp_of_mem fun hρ hρ' hdiffer he => ?_)
  exact hdiffer (hsame _ (Row.mem_of_mem_distinct hρ) _ (Row.mem_of_mem_distinct hρ') he)

/-- A projection to columns that are there. -/
theorem project_eq_ok {xs : VarSet} (hxs : xs ⊆ child.vars) :
    σ.project xs child = .ok (construct false xs ∅ child) ∧
      (construct false xs ∅ child).rows D = (child.rows D).map (Row.cut xs) := by
  refine ⟨build_eq_ok ⟨nofun, nofun, nofun, fun x hx => ?_⟩, rfl⟩
  rcases mem_requiredVars.1 hx with ⟨hx, -⟩ | hx
  · exact hxs x hx
  · exact absurd hx (SortedSet.not_mem_empty x)

/-- What a normalized duplicate elimination is to return: each row of the child once. -/
structure ListsOnce (D : Database) (child u : Tree) : Prop where
  vars : u.vars = child.vars
  nodup : (u.rows D).Nodup
  mem_rows : ∀ ρ, ρ ∈ u.rows D ↔ ρ ∈ child.rows D

theorem listsOnce_distinct : child.ListsOnce D (distinct m child) where
  vars := rfl
  nodup := Row.nodup_distinct _
  mem_rows _ := Row.mem_distinct (rows_supported child)

/-- A construction above the distinct rows of what it needs. -/
theorem listsOnce_lifted {inner : Tree} (hvars : inner.vars = requiredVars projected bindings)
    (hrows : inner.rows D = (child.rows D).map (Row.cut (requiredVars projected bindings)))
    (hsame : ∀ ρ ∈ child.rows D, ∀ ρ' ∈ child.rows D,
      D.constructed projected bindings ρ = D.constructed projected bindings ρ' →
        Row.AgreeOn (requiredVars projected bindings) ρ ρ') :
    (construct m projected bindings child).ListsOnce D
      (construct false projected bindings (distinct false inner)) := by
  have hmem (τ : Row) : τ ∈ inner.rows D ↔
      ∃ ρ ∈ child.rows D, Row.cut (requiredVars projected bindings) ρ = τ := by
    rw [hrows, List.mem_map]
  refine ⟨rfl, ?_, fun ν => ?_⟩
  · rw [rows, rows, hvars]
    refine nodup_constructed_distinct fun τ hτ τ' hτ' he => ?_
    obtain ⟨ρ, hρ, rfl⟩ := (hmem τ).1 hτ
    obtain ⟨ρ', hρ', rfl⟩ := (hmem τ').1 hτ'
    rw [constructed_cut_requiredVars, constructed_cut_requiredVars] at he
    exact (Row.agreeOn_cut.trans (hsame ρ hρ ρ' hρ' he)).trans Row.agreeOn_cut.symm
  · rw [rows, rows, rows, List.mem_map, List.mem_map]
    constructor
    · rintro ⟨τ, hτ, rfl⟩
      obtain ⟨ρ, hρ, rfl⟩ := (hmem τ).1 (Row.mem_of_mem_distinct hτ)
      exact ⟨ρ, hρ, (constructed_cut_requiredVars ρ).symm⟩
    · rintro ⟨ρ, hρ, rfl⟩
      refine ⟨_, ?_, constructed_cut_requiredVars ρ⟩
      exact (Row.mem_distinct (rows_supported inner)).2 ((hmem _).2 ⟨ρ, hρ, rfl⟩)

/-- Duplicate elimination over a construction with injective bindings moves below it. -/
theorem listsOnce_lift (hroot : (construct m projected bindings child).RootValid)
    (hadmits : child.NullabilityHolds D)
    (htells : (construct m projected bindings child).TellsRows)
    (hinjective : bindings.bindings.all (·.2.isInjective) = true) :
    ∃ u, (do
        let inner ← if child.vars = requiredVars projected bindings then Except.ok child
          else σ.project (requiredVars projected bindings) child
        σ.construct projected bindings (← σ.distinct inner)) = .ok u ∧
      (construct m projected bindings child).ListsOnce D u := by
  obtain ⟨hdomain, hdisjoint, htargets, hrequired⟩ := hroot
  have hsame : ∀ ρ ∈ child.rows D, ∀ ρ' ∈ child.rows D,
      D.constructed projected bindings ρ = D.constructed projected bindings ρ' →
        Row.AgreeOn (requiredVars projected bindings) ρ ρ' := fun ρ hρ ρ' hρ' =>
    agreeOn_of_constructed_eq htells hdomain hinjective (hadmits.admits ρ hρ)
      (hadmits.admits ρ' hρ')
  have hlift {inner : Tree} (hvars : inner.vars = requiredVars projected bindings) :
      (σ.distinct inner >>= σ.construct projected bindings)
        = .ok (construct false projected bindings (distinct false inner)) := by
    have hinner : σ.distinct inner = .ok (distinct false inner) := build_eq_ok trivial
    rw [hinner]
    exact build_eq_ok ⟨hdomain, hdisjoint, htargets, fun x hx => hvars ▸ hx⟩
  split
  · next hvars =>
    refine ⟨_, hlift hvars, listsOnce_lifted hvars ?_ hsame⟩
    rw [map_cut_rows fun x hx => hvars ▸ hx]
  · obtain ⟨hproject, hrows⟩ := project_eq_ok (σ := σ) (D := D) hrequired
    rw [hproject]
    exact ⟨_, hlift rfl, listsOnce_lifted rfl hrows hsame⟩

/-- Normalizing duplicate elimination gives a tree that returns each row of the child exactly once:
the child itself where its rows are known to differ, and the construction over distinct rows where
its bindings are injective and its rows tell what it needs of its child. -/
theorem normalizeDistinct_rows (h : ∀ u ∈ child.nodes, u.Inferable)
    (htells : child.isDistinct = false → child.TellsRows) :
    ∃ u, normalizeDistinct σ child = .ok u ∧ u.vars = child.vars ∧ (u.rows D).Nodup ∧
      ∀ ρ, ρ ∈ u.rows D ↔ ρ ∈ child.rows D := by
  suffices hlists : ∃ u, normalizeDistinct σ child = .ok u ∧ child.ListsOnce D u by
    obtain ⟨u, hok, hu⟩ := hlists
    exact ⟨u, hok, hu.vars, hu.nodup, hu.mem_rows⟩
  have hdistinct : ∃ u, σ.distinct child = .ok u ∧ child.ListsOnce D u :=
    ⟨_, build_eq_ok trivial, listsOnce_distinct⟩
  obtain ⟨hroot, hchildren⟩ := forall_mem_nodes.1 h
  unfold normalizeDistinct
  split
  · next hsame =>
    refine ⟨child, rfl, rfl, ?_, fun _ => .rfl⟩
    rcases Bool.or_eq_true_iff.1 hsame with hempty | hd
    · cases child with
      | leaf m l =>
        cases l with
        | empty projected => exact List.nodup_nil
        | _ => cases hempty
      | _ => cases hempty
    · exact (uniquenessHolds D.keepsKeys fun u hu => (h u hu).checked).nodup hd
  · next hnot =>
    rw [Bool.not_eq_true, Bool.or_eq_false_iff] at hnot
    split
    · split
      · next hlifts =>
        have hvalid := checkNode_eq_ok.1 (hroot.checked nofun)
        exact listsOnce_lift hvalid (nullabilityHolds (hchildren _ (.head _)))
          (htells hnot.2) (Bool.and_eq_true_iff.1 hlifts).2
      · exact hdistinct
    · exact hdistinct

/-- A template over a column that takes NULL, beside a column that is passed through. -/
theorem normalizeDistinct_rows_of_template :
    let r : Relation := ⟨"r", [⟨"a", .integer, true⟩, ⟨"b", .integer, false⟩], []⟩
    let one := Constant.integer 1
    let D := Database.ofTable r [[.null, one], [.null, one], [.integer 2, one],
      [.null, .integer 2]] (by decide) (by decide) (by decide)
    let child : Tree := construct false (.ofList [⟨"y"⟩, ⟨"z"⟩])
      (.singleton ⟨"z"⟩ (.app ⟨.template "item/\x7b\x7d", 1⟩ [.var ⟨"x"⟩]))
      (.leaf false (.extensional ⟨r, [.var ⟨"x"⟩, .var ⟨"y"⟩]⟩))
    (∀ u ∈ child.nodes, u.Inferable) ∧ (child.isDistinct = false → child.TellsRows) ∧
      child.isDistinct = false ∧ (child.rows D).length = 4 ∧
      ∃ u, normalizeDistinct ⟨true⟩ child = .ok u ∧ (u.rows D).Nodup ∧ (u.rows D).length = 3 := by
  intro r one D child
  have hvalid : ∀ u ∈ child.nodes, u.RootValid := by decide +kernel
  have hinferable : ∀ u ∈ child.nodes, u.Inferable := by
    intro u hu
    have hchecked := checkNode_eq_ok.2 (hvalid u hu)
    have hu : u = child ∨ u = .leaf false (.extensional ⟨r, [.var ⟨"x"⟩, .var ⟨"y"⟩]⟩) := by
      simpa [child, nodes] using hu
    have hread : (∀ m q, u ≠ .leaf m (.native q)) ∧ u.conditions = [] := by
      rcases hu with rfl | rfl <;> simp [child, conditions]
    refine ⟨fun m q h => absurd h (hread.1 m q), fun _ => hchecked, ?_⟩
    rw [hread.2]
    exact List.forall_mem_nil _
  have htells : child.isDistinct = false → child.TellsRows := fun _ => by decide +kernel
  obtain ⟨u, hu, -, hnodup, -⟩ := normalizeDistinct_rows (D := D) (σ := ⟨true⟩) hinferable htells
  refine ⟨hinferable, htells, by decide +kernel, by decide +kernel, u, hu, hnodup, ?_⟩
  have hlength : ((normalizeDistinct ⟨true⟩ child).toOption.elim 0 fun u => (u.rows D).length)
      = 3 := by decide +kernel
  rw [hu] at hlength
  exact hlength

/-- A template over two columns, one of which takes NULL: rows that differ in the other one become
one row, which is there once for each of them. -/
theorem not_normalizeDistinct_rows :
    let r : Relation := ⟨"r", [⟨"a", .integer, true⟩, ⟨"b", .integer, false⟩], []⟩
    let D := Database.ofTable r [[.null, .integer 1], [.null, .integer 2]] (by decide) (by decide)
      (by decide)
    let child : Tree := construct false (.singleton ⟨"z"⟩)
      (.singleton ⟨"z"⟩ (.app ⟨.template "item/\x7b\x7d/\x7b\x7d", 2⟩ [.var ⟨"x"⟩, .var ⟨"y"⟩]))
      (.leaf false (.extensional ⟨r, [.var ⟨"x"⟩, .var ⟨"y"⟩]⟩))
    child.validate = .ok () ∧
      ∃ u, normalizeDistinct ⟨false⟩ child = .ok u ∧ ¬(u.rows D).Nodup := by
  intro r D child
  have hvalid : ∀ u ∈ child.nodes, u.RootValid := by decide +kernel
  refine ⟨validate_eq_ok.2 hvalid, ?_⟩
  obtain ⟨u, hu, hvars, hrows⟩ : ∃ u, normalizeDistinct ⟨false⟩ child = .ok u ∧
      u.vars = child.vars ∧ ¬(u.rows D).Pairwise fun ρ σ => ¬Row.AgreeOn child.vars ρ σ := by
    decide +kernel
  refine ⟨u, hu, fun hnodup => hrows (Row.uniqueOn_of_nodup hnodup ?_)⟩
  exact hvars ▸ rows_supported u

end Tree

end QueryAlgebra
