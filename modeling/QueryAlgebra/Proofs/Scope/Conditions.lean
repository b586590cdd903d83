import QueryAlgebra.Proofs.Scope.Basic
import QueryAlgebra.Proofs.SplitCondition
import QueryAlgebra.Tree.Aggregation

/-!
# The variables of split conditions

Splitting a condition over `xs` gives equalities that are solved over `xs` and leaves a rest about
the variables that the equalities keep (`SplitCondition.InScope`). Putting equalities back, as a
node above an aggregation does, changes nothing about that.
-/

namespace QueryAlgebra

open QueryAlgebra.Except (Ends)

variable {xs : VarSet} {n : Nullability} {condition? : Option Expression}

/-- The equalities are solved over `xs`, and the rest is about what they keep of `xs`. -/
structure SplitCondition.InScope (xs : VarSet) (own : SplitCondition) : Prop where
  solved : own.equalities.Solved xs
  residual : Tree.conditionVars own.residual? ⊆ own.equalities.applyVars xs

namespace Condition

open QueryAlgebra.Tree (conditionVars)

theorem residualOf_inScope (h : conditionVars condition? ⊆ xs) :
    Ends (fun rest? => conditionVars rest? ⊆ xs) (fun _ => True) (residualOf condition? n) := by
  unfold residualOf
  split
  · exact h
  · split
    · exact fun x hx => absurd hx (SortedSet.not_mem_empty x)
    · trivial
    · trivial
    · next he => exact Expression.vars_residual_subset h he

/-- What a condition is split into. -/
theorem split_inScope (h : conditionVars condition? ⊆ xs) :
    Ends (SplitCondition.InScope xs) (fun _ => True) (split condition? n) := by
  refine (residualOf_inScope h).bind fun rest? hrest => ?_
  have hnone {residual? : Option Expression} (hresidual : conditionVars residual? ⊆ xs) :
      SplitCondition.InScope xs { residual? } := by
    refine ⟨Substitution.solved_empty, ?_⟩
    rwa [Substitution.applyVars_of_isEmpty rfl]
  cases rest? with
  | none => exact hnone hrest
  | some residual =>
    have hall := Expression.vars_subset_iff.1 hrest
    have hanswers := Substitution.answers_unify? (I := Interpretation.coded)
      (plain_equations residual) (vars_equations introducible_true hall)
    dsimp only
    split
    · exact hnone hrest
    · split
      · trivial
      · next equalities hunify =>
        rw [hunify] at hanswers
        have hothers : conditionVars (Expression.conjunction
            ((residual.conjuncts.filter fun e => (equation? e).isNone).map
              equalities.applyExpression)) ⊆ equalities.applyVars xs := by
          refine Tree.conditionVars_conjunction fun e he => ?_
          obtain ⟨c, hc, rfl⟩ := List.mem_map.1 he
          have hcvars := Expression.vars_subset_iff.2
            (Expression.all_conjuncts introducible_true hall (List.mem_of_mem_filter hc))
          exact Expression.vars_applyExpression_subset fun x hx y hy =>
            Substitution.mem_applyVars.2 ⟨x, hcvars x hx, hy⟩
        exact (residualOf_inScope hothers).bind fun left? hleft => ⟨hanswers.1, hleft⟩

/-- The split condition of a node, once it is settled what the node tells its children. -/
theorem inScope_of_split {n' : Nullability} {constraint? told? : Option Expression}
    {f : SplitCondition → SplitCondition} {own : SplitCondition}
    (h : conditionVars condition? ⊆ xs) (hf : ∀ own, own.InScope xs → (f own).InScope xs)
    (hsplit : (do
      let own := f (← split condition? n)
      return (own, ← below constraint? own n')) = .ok (own, told?)) : own.InScope xs := by
  have hends : Ends (fun r : SplitCondition × Option Expression => r.1.InScope xs) (fun _ => True)
      (do
        let own := f (← split condition? n)
        return (own, ← below constraint? own n')) :=
    (split_inScope h).bind fun own hown => (Ends.any _).bind fun _ _ => hf own hown
  rw [hsplit] at hends
  exact hends

end Condition

/-- Equalities that an aggregation cannot take are put back. -/
theorem Tree.keepAggregateEqualities_inScope {own : SplitCondition} (h : own.InScope xs)
    (children : List Tree) : (keepAggregateEqualities own children).InScope xs := by
  unfold keepAggregateEqualities
  dsimp only
  split
  · exact h
  · generalize SortedSet.unions (children.map (constrainedVarsAt own.equalities)) = kept
    have hkeeps := h.solved.applyVars_subset_without kept
    refine ⟨h.solved.without kept,
      conditionVars_andOptional (fun y hy => hkeeps y (h.residual y hy)) ?_⟩
    refine conditionVars_conjunction fun e he => ?_
    obtain ⟨⟨x, t⟩, hb, rfl⟩ := List.mem_map.1 he
    obtain ⟨hfind, hx⟩ := Substitution.find?_restrict_eq_some.1 (Substitution.mem_bindings.1 hb)
    have hxt := Substitution.applyVar_of_find? hfind
    have hxs : x ∈ xs := h.solved.mem_of_moved fun hsame =>
      own.equalities.proper x ((hxt.symm.trans hsame) ▸ hfind)
    refine Expression.vars_eq_subset (fun y hy => ?_) fun y hy => ?_
    · obtain rfl := Term.mem_vars_var.1 hy
      refine (h.solved.without kept).mem_applyVars.2 ⟨hxs, ?_⟩
      rw [Substitution.applyVar_without, if_pos hx]
    · exact hkeeps y (Substitution.mem_applyVars.2 ⟨x, hxs, hxt ▸ hy⟩)

end QueryAlgebra
