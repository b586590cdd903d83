import QueryAlgebra.Proofs.Lifting.Basic
import QueryAlgebra.Proofs.Pushdown

/-!
# Normal left joins

The rule for left joins keeps, for each left row, the decision whether it matches something: with it
the row gives what it matches, without it one padded row. There are two ways in which the rule changes
what is matched. A condition that is left over is told to the right side, which may then drop rows, but
none that satisfies the condition together with a left row that it joins
(`Source.matched_perm_of_pruned`). And bindings of the left side are lifted, where what the right side
learns of them makes it match exactly what it matched before (`Source.leftJoined_constructed`).

Main statement: `Tree.normalizeLeftJoin_rows` — a left join over core trees is rewritten to a tree with
the same rows.
-/

namespace QueryAlgebra

open QueryAlgebra.Except (Ends Returns)

variable {D : Database} {f : Fragment} {σ : BuildSettings} {push : Pushdown}
  {condition? : Option Expression} {e : Expression} {xs ys projected : VarSet} {rows rows' : List Row}
  {bindings : Substitution} {child left right : Tree} {m m' : Bool}

-- ---------------------------------------------------------------------------
-- Conditions that the right side is told
-- ---------------------------------------------------------------------------

/-- Rows that cannot satisfy a condition are not matched under it. -/
theorem Source.matched_perm_of_pruned (h : Pruned (D.Possible ys (some e)) rows' rows) (ρ : Row) :
    (D.matched xs ys (some e) rows' ρ).Perm (D.matched xs ys (some e) rows ρ) := by
  have hjoined : Pruned (fun τ => D.HoldsOptional τ (some e) ∧
      decide (D.HoldsOptional τ (some e)) = true)
      (Row.joinedWith xs ys rows' ρ) (Row.joinedWith xs ys rows ρ) := by
    refine Pruned.map (Pruned.filter (h.mono fun τ _ hτ => ?_))
    obtain ⟨⟨hholds, -⟩, hjoins⟩ := hτ
    exact ⟨_, fun x hx => (of_decide_eq_true hjoins).merge_right hx, hholds⟩
  exact (Pruned.filter hjoined).perm fun τ hτ => of_decide_eq_true (List.mem_filter.1 hτ).2

namespace Tree

/-- A left join over a right side that lost rows that cannot satisfy the condition. -/
theorem rows_leftJoin_of_pruned {right' : Tree} (hvars : right'.vars = right.vars)
    (h : Pruned (D.Possible right.vars (some e)) (right'.rows D) (right.rows D)) :
    ((leftJoin m (some e) left right').rows D).Perm ((leftJoin m' (some e) left right).rows D) := by
  rw [rows, rows, hvars]
  refine List.Perm.flatMap_left _ fun ρ _ => ?_
  have hperm : (D.matched left.vars right.vars (some e) (right'.rows D) ρ).Perm
      (D.matched left.vars right.vars (some e) (right.rows D) ρ) := Source.matched_perm_of_pruned h ρ
  rw [Source.leftJoined_eq, Source.leftJoined_eq, Alike.isEmpty_eq (b := false) hperm]
  split
  · exact .refl _
  · exact hperm

theorem hasBag_padRight (h : ∀ ρ ∈ left.rows D,
      D.matched left.vars right.vars condition? (right.rows D) ρ = []) :
    Returns (HasBag D (left.vars ∪ right.vars) ((leftJoin m condition? left right).rows D))
      (σ.padWithNulls left (rightSpecific left right)) :=
  (hasRows_padRight h).imp fun _ hu => hu.hasBag (.refl _)

theorem returns_simplifyLeftJoin (hpush : push.Sound D f) (hleft : left.Core f) (hright : right.Core f)
    (hcondition : ∀ c ∈ condition?, c.WellApplied) :
    Returns (HasBag D (left.vars ∪ right.vars) ((leftJoin m condition? left right).rows D))
      (simplifyLeftJoin σ push condition? left right) := by
  unfold simplifyLeftJoin
  split
  · exact hasRows_leftJoin.imp fun _ hu => hu.hasBag (.refl _)
  · next c =>
    have hverdict : ∀ τ ∈ joinRows D [left, right], D.HoldsOptional τ (some c) ↔
        (c.evaluateTwoValued (joinedNullability [left, right])).truthIn D.toInterpretation τ
          = some true := by
      intro τ hτ
      have hadmits := admits_joinedNullability (f := f) (by simpa using ⟨hleft, hright⟩) τ hτ
      rw [Interpretation.holdsOptional_some,
        Expression.truthIn_evaluateTwoValued hadmits (hcondition c rfl)]
    split
    · next htrue =>
      rw [htrue] at hverdict
      rw [rows_leftJoin_congr none fun τ hτ => by simp [hverdict τ hτ, Verdict.truthIn]]
      exact hasRows_leftJoin.imp fun _ hu => hu.hasBag (.refl _)
    · next hfalse =>
      rw [hfalse] at hverdict
      exact hasBag_padRight (not_matched fun τ hτ => by simp [hverdict τ hτ, Verdict.truthIn])
    · next hnull =>
      rw [hnull] at hverdict
      exact hasBag_padRight (not_matched fun τ hτ => by simp [hverdict τ hτ, Verdict.truthIn])
    · next e he =>
      rw [he] at hverdict
      rw [rows_leftJoin_congr (some e) fun τ hτ =>
        (hverdict τ hτ).trans Interpretation.holdsOptional_some.symm]
      refine (hpush.propagate hright ((hcondition c rfl).residual he)).bind fun right' hright' => ?_
      split
      · next hempty =>
        -- the right side lost all of its rows, so none of them was matched
        refine hasBag_padRight fun ρ _ => List.Perm.eq_nil ?_
        refine (Source.matched_perm_of_pruned hright'.pruned ρ).symm.trans (.of_eq ?_)
        rw [rows_of_isEmpty hempty]
        rfl
      · rw [← hright'.vars]
        exact hasRows_leftJoin.imp fun _ hu =>
          hu.hasBag (rows_leftJoin_of_pruned (m := m) hright'.vars hright'.pruned)

-- ---------------------------------------------------------------------------
-- Bindings of the left side
-- ---------------------------------------------------------------------------

section Lifted

variable {names s : Substitution} {known : VarSet} {es : List Expression} {left' right' : Tree}
  (hbindings : bindings.Computes projected child.vars)
  (hcondition : conditionVars condition? ⊆ projected ∪ right.vars)
  (hnames : names.Renames (hiddenClashes projected bindings child.vars right.vars) known)
  (hchild : child.vars ⊆ known) (hright : right.vars ⊆ known)
include hbindings hcondition hnames hchild hright

/-- Lifted bindings above the left join of images compute its rows. -/
theorem map_constructed_leftJoin
    (hrelays : (bindings.mapTerms names.apply).Relays projected (names.applyVars child.vars)
      right.vars s es)
    (hleft' : left'.HasBag D (names.applyVars child.vars)
      (Row.renamed D.toInterpretation names child.vars (child.rows D)))
    (hright' : right'.HasBag D (s.applyVars right.vars)
      (Row.renamed D.toInterpretation s right.vars (right.rows D))) :
    (((leftJoin false (Expression.andOptional
          (condition?.map (bindings.mapTerms names.apply).applyExpression)
          (Expression.conjunction es)) left' right').rows D).map
      (D.constructed (projected ∪ right.vars) (bindings.mapTerms names.apply))).Perm
      ((leftJoin m condition? (construct m' projected bindings child) right).rows D) := by
  have hjoined {ρ : Row} (hρ : ρ.Supported (names.applyVars child.vars)) :=
    Source.leftJoined_constructed (D := D) hrelays (hnames.computes_mapTerms hbindings)
      (fun x hx => hnames.mem_projected_of_shared hright hx) (conditionVars_subset_iff.1 hcondition)
      (rows_supported (D := D) right) hρ
  have hlifted : (left'.rows D).flatMap (fun ρ =>
        D.leftJoined projected right.vars condition? (right.rows D)
          (D.constructed projected (bindings.mapTerms names.apply) ρ)) = _ :=
    List.flatMap_congr fun ρ hρ => hjoined (hleft'.vars ▸ rows_supported left' ρ hρ)
  have hconstructed := hleft'.perm.map (D.constructed projected (bindings.mapTerms names.apply))
  rw [hnames.map_constructed hbindings hchild] at hconstructed
  -- both sides go through the rows below the construction one after the other
  rw [rows, rows, rows, vars, hleft'.vars, hright'.vars, List.map_flatMap]
  refine .trans ?_ (hconstructed.flatMap_right _)
  rw [List.flatMap_map, hlifted]
  exact List.Perm.flatMap_left _ fun ρ _ =>
    (Source.leftJoined_alike (b := false) hright'.perm ρ).map _

end Lifted

theorem returns_liftLeftConstruction (hpush : push.Sound D .inner)
    (hbindings : bindings.Computes projected child.vars)
    (hcondition : conditionVars condition? ⊆ projected ∪ right.vars) (hchild : child.Core .inner)
    (hright : right.Core .inner) :
    Rewrite.Ends (HasBag D (projected ∪ right.vars)
        ((leftJoin m condition? (construct m' projected bindings child) right).rows D))
      (fun _ => True) (liftLeftConstruction σ push condition? projected bindings child right) := by
  intro supply
  have hchildKnown : child.vars ⊆
      ((supply.register child.knownVars).register right.knownVars).known := fun x hx =>
    SortedSet.mem_union.2 (.inl (SortedSet.mem_union.2 (.inr (vars_subset_knownVars child x hx))))
  have hrightKnown : right.vars ⊆
      ((supply.register child.knownVars).register right.knownVars).known := fun x hx =>
    SortedSet.mem_union.2 (.inr (vars_subset_knownVars right x hx))
  unfold liftLeftConstruction
  refine Rewrite.ends_bind (P := (· = ((), supply.register child.knownVars))) rfl ?_
  rintro _ rfl
  refine Rewrite.ends_bind (P := (· = ((), (supply.register _).register right.knownVars))) rfl ?_
  rintro _ rfl
  generalize (supply.register child.knownVars).register right.knownVars = known
    at hchildKnown hrightKnown
  have hnames := known.renames_freshRenaming
    (hiddenClashes projected bindings child.vars right.vars)
  refine Rewrite.ends_bind (P := (· = known.freshRenaming _)) rfl ?_
  rintro _ rfl
  have hpushed {s : Substitution} {t : Tree} (hs : s.Flat) (ht : t.Core .inner) :
      Ends (HasBag D (s.applyVars t.vars) (Row.renamed D.toInterpretation s t.vars (t.rows D)))
        (fun _ => True) (push.descend s none true t) :=
    (Except.returns_iff_ends.1 (hpush.descend_none ht hs.suits)).imp fun _ hu => hu.hasBag
  refine Rewrite.ends_bind (Rewrite.ends_lift (hpushed hnames.flat hchild) _) ?_
  rintro ⟨left', _⟩ ⟨hleft', rfl⟩
  refine Rewrite.ends_bind (LiftedBindings.adds_bindingsForRight _ _ _) fun r hadds => ?_
  have hrelays := hadds.relays (hnames.computes_mapTerms hbindings)
    (NameSupply.applyVars_freshRenaming hchildKnown)
    (fun x hx => (known.known_freshForEach _).1 x (hrightKnown x hx))
  refine Rewrite.ends_bind (Rewrite.ends_lift (hpushed hrelays.flat hright) _) ?_
  rintro ⟨right', _⟩ ⟨hright', rfl⟩
  refine Rewrite.ends_bind (Rewrite.ends_lift (Except.returns_iff_ends.1
    (hasRows_leftJoin (D := D) (m := false))) _) fun r hjoined => ?_
  refine (Rewrite.ends_lift (Except.returns_iff_ends.1
    (BuildSettings.hasRows_construct hjoined.1)) _).imp fun _ hu => ?_
  exact hu.1.hasBag (map_constructed_leftJoin hbindings hcondition hnames hchildKnown hrightKnown
    hrelays hleft' hright')

-- ---------------------------------------------------------------------------
-- The rule
-- ---------------------------------------------------------------------------

/-- The unit is matched by every row or by none, and has no column to pad. -/
theorem rows_leftJoin_unit (h : right.isUnit = true) :
    right.vars = ∅ ∧ (leftJoin m condition? left right).rows D = left.rows D := by
  obtain ⟨m', rfl⟩ : ∃ m', right = leaf m' .unit := by
    unfold isUnit at h
    split at h
    · exact ⟨_, rfl⟩
    · cases h
  refine ⟨rfl, ?_⟩
  have hone : ∀ ρ ∈ left.rows D, D.leftJoined left.vars ∅ condition? [Row.blank] ρ = [ρ] := by
    intro ρ hρ
    have hblank := Row.joinPairs_blank (List.forall_mem_singleton.2 (rows_supported left ρ hρ))
    rw [Row.joinPairs, List.flatMap_singleton] at hblank
    rw [Source.leftJoined_eq, Source.matched, hblank, List.filter_singleton]
    cases decide (D.HoldsOptional ρ condition?) <;> rfl
  rw [rows]
  exact (List.flatMap_congr hone).trans (List.flatMap_singleton' _)

theorem returns_normalizeLeftJoin (hpush : push.Sound D .inner)
    (hleft : left.Core .inner) (hright : right.Core .inner)
    (hscope : conditionVars condition? ⊆ left.vars ∪ right.vars)
    (hcondition : ∀ c ∈ condition?, c.WellApplied) :
    Rewrite.Ends (HasBag D (left.vars ∪ right.vars) ((leftJoin m condition? left right).rows D))
      (fun _ => True) (normalizeLeftJoin σ push condition? left right) := by
  have hlift {e : Except Error Tree}
      (h : Returns (HasBag D (left.vars ∪ right.vars) ((leftJoin m condition? left right).rows D)) e) :
      Rewrite.Ends (HasBag D (left.vars ∪ right.vars) ((leftJoin m condition? left right).rows D))
        (fun _ => True) (liftM e : Rewrite Tree) := .lift (Except.returns_iff_ends.1 h)
  refine .ite (fun hempty => .pure ⟨rfl, ?_⟩) fun _ => .ite (fun hempty => hlift ?_) fun _ =>
    .ite (fun hunit => .pure ?_) fun _ => ?_
  · rw [rows, rows_of_isEmpty hempty]
    exact .refl _
  · refine hasBag_padRight fun ρ _ => ?_
    rw [rows_of_isEmpty hempty]
    rfl
  · obtain ⟨hvars, hrows⟩ : right.vars = ∅ ∧
      (leftJoin m condition? left right).rows D = left.rows D := rows_leftJoin_unit hunit
    refine ⟨?_, hrows ▸ .refl _⟩
    ext x
    simp [hvars]
  · split
    · next m' projected bindings child =>
      obtain ⟨hroot, hchild⟩ := core_construct.1 hleft
      refine .ite (fun _ => hlift (returns_simplifyLeftJoin hpush hleft hright hcondition)) fun _ => ?_
      exact returns_liftLeftConstruction hpush (computes_of_core hroot) hscope hchild hright
    · exact hlift (returns_simplifyLeftJoin hpush hleft hright hcondition)

/-- The rule for left joins keeps the rows and the variables of a valid left join over trees of the core
algebra, whatever its condition is: each left row comes with the right rows that it matches, or once
with NULL if there are none. The rule fails only where the pushing goes too deep, or in test mode at a
binding whose names clash. -/
theorem normalizeLeftJoin_rows (hvalid : (leftJoin m condition? left right).validate = .ok ())
    (hleft : ∀ u ∈ left.nodes, u.Relational) (hright : ∀ u ∈ right.nodes, u.Relational)
    (hcondition : ∀ c ∈ condition?, c.WellApplied) (supply : NameSupply) :
    Ends (fun r => r.1.vars = left.vars ∪ right.vars ∧
        (r.1.rows D).Perm ((leftJoin m condition? left right).rows D)) σ.Stops
      (normalizeLeftJoin σ (pushdown σ) condition? left right supply) := by
  obtain ⟨hscope, hsides⟩ := valid_iff.1 (validate_eq_ok.1 hvalid)
  have hleftValid : left.Valid := hsides left (.head _)
  have hrightValid : right.Valid := hsides right (.tail _ (.head _))
  have hrows := returns_normalizeLeftJoin (D := D) (σ := σ) (m := m) (sound_pushdown (σ := σ))
    (core_of_valid hleftValid hleft) (core_of_valid hrightValid hright) hscope hcondition supply
  have hbuilds := builds_normalizeLeftJoin (keepsScope_pushdown σ) hscope hleftValid.inScope.over
    hrightValid.inScope.over supply
  exact hbuilds.of_returns ((Except.returns_iff_ends.2 hrows).imp fun _ hu => ⟨hu.vars, hu.perm⟩)

/-- The left side binds `x` to a sum over its hidden `y` and hides an `h` that is not the `h` of the right
side. One of its rows matches a row that satisfies the condition; the other three are padded, one for
want of a match and two because the condition rejects theirs. -/
theorem normalizeLeftJoin_rows_of_shared_sum :
    let r : Relation := ⟨"r", [⟨"a", .integer, false⟩, ⟨"b", .integer, true⟩], []⟩
    let D := Database.ofTable r [[.integer 1, .integer 2], [.integer 2, .null],
      [.integer 2, .integer 3], [.integer 3, .integer 2]] (by decide) (by decide) (by decide)
    let atom (x y : String) : Tree := .leaf false (.extensional ⟨r, [.var ⟨x⟩, .var ⟨y⟩]⟩)
    let sum := Term.app ⟨.add, 2⟩ [.var ⟨"y"⟩, .const (.integer 1)]
    let left := construct false (.ofList [⟨"x"⟩]) (.ofList [(⟨"x"⟩, sum)]) (atom "y" "h")
    let right := atom "h" "x"
    let c : Expression := .or [.eq (.var ⟨"h"⟩) (.const (.integer 1)),
      .eq (.var ⟨"x"⟩) (.const (.integer 5))]
    let t := leftJoin false (some c) left right
    t.validate = .ok () ∧ (∀ u ∈ left.nodes, u.Relational) ∧ (∀ u ∈ right.nodes, u.Relational) ∧
      (∀ e ∈ some c, e.WellApplied) ∧
      ∃ u supply, normalizeLeftJoin ⟨false⟩ (pushdown ⟨false⟩) (some c) left right (.ofKnown ∅) =
          .ok (u, supply) ∧
        u.vars = left.vars ∪ right.vars ∧ (u.rows D).length = 4 ∧
          ((u.rows D).filter fun ρ => ρ ⟨"h"⟩ = .null).length = 3 := by
  intro r D atom sum left right c t
  have hvalid : t.validate = .ok () := by rfl
  have hleft : ∀ u ∈ left.nodes, u.Relational := by
    have hbinding : ∀ x u, (Substitution.ofList [(⟨"x"⟩, sum)]).find? x = some u →
        u.AdmissibleOver u.vars := by
      intro x u hu
      have hmem : (x, u) ∈ [((⟨"x"⟩ : Variable), sum)] := Substitution.mem_bindings.2 hu
      rw [List.mem_singleton] at hmem
      cases hmem
      refine .app ⟨by decide, fun _ => rfl⟩ ?_
      rw [List.forall_mem_cons, List.forall_mem_singleton]
      exact ⟨.var (by decide), .const⟩
    simp only [left, atom, nodes, List.forall_mem_cons]
    simpa [Relational] using hbinding
  have hright : ∀ u ∈ right.nodes, u.Relational := by
    simp [right, atom, nodes, Relational]
  have hc : ∀ e ∈ some c, e.WellApplied := by
    rintro _ ⟨⟩
    refine Expression.all_or introducible_binary ?_
    rw [List.forall_mem_cons, List.forall_mem_singleton]
    exact ⟨Expression.all_eq introducible_binary (.var trivial) .const,
      Expression.all_eq introducible_binary (.var trivial) .const⟩
  have hok : (normalizeLeftJoin ⟨false⟩ (pushdown ⟨false⟩) (some c) left right (.ofKnown ∅)).isOk := by
    decide +kernel
  have hrows : Returns (fun r => r.1.vars = left.vars ∪ right.vars ∧ (r.1.rows D).Perm (t.rows D))
      (normalizeLeftJoin ⟨false⟩ (pushdown ⟨false⟩) (some c) left right (.ofKnown ∅)) := by
    -- Without the values of the trees, elaboration does not run the rule on them.
    clear_value left right c
    exact Ends.returns (normalizeLeftJoin_rows (D := D) (σ := ⟨false⟩) hvalid hleft hright hc _)
  refine ⟨hvalid, hleft, hright, hc, ?_⟩
  cases hu : normalizeLeftJoin ⟨false⟩ (pushdown ⟨false⟩) (some c) left right (.ofKnown ∅) with
  | error e => rw [hu] at hok; cases hok
  | ok result =>
    obtain ⟨hvars, hperm⟩ := hrows result hu
    refine ⟨result.1, result.2, rfl, hvars, ?_, ?_⟩
    · rw [hperm.length_eq]
      decide +kernel
    · rw [(hperm.filter _).length_eq]
      decide +kernel

end Tree

end QueryAlgebra
