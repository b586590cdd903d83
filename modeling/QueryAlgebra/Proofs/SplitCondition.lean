import QueryAlgebra.Condition
import QueryAlgebra.Proofs.EvaluationDepth
import QueryAlgebra.Proofs.FlatUnification
import QueryAlgebra.Proofs.PartialEvaluation
import QueryAlgebra.Proofs.Validity

/-!
# Splitting a condition keeps it

A condition is split into equalities and a rest. On a row that passes the condition the equalities
hold, and the row passes the rest (`SplitCondition.Follows`); a condition that is found unsatisfiable
is passed by no row. The equalities are over the variables of the condition, and the rest does not
mention those that they replace.

Where nothing is negated, the equalities and the rest are as good as the condition
(`SplitCondition.Splits`). Below a negation, an equation `x = x` may stay among the conjuncts, and the
unifier drops it: what is lost is that `x` is not NULL (`Condition.selfCompared`).

Main statements: `Condition.split_exact` — what a split condition says of a row, and what it leaves out;
`Condition.split_spec`; `Condition.below_exact` — what a node tells its child holds of every row that is
wanted from it, and leaves out equalities only.
-/

namespace QueryAlgebra

variable {I : Interpretation} {n : Nullability} {q : Symbol → Nat → Prop} {xs : VarSet}
  {condition? : Option Expression}

/-- The variables that a condition, once evaluated, equates with themselves. -/
def Condition.selfCompared (condition? : Option Expression) (n : Nullability) : List Variable :=
  match residualOf condition? n with
  | .ok (some residual) =>
    (residual.conjuncts.filterMap equation?).filterMap fun eq =>
      if eq.left = eq.right then eq.left.var? else none
  | _ => []

/-- What a split condition is worth: over `xs` and on the rows that `n` admits, the equalities and the
rest follow from the condition, and it from them where the variables that it compares with themselves
are not NULL. -/
structure SplitCondition.Follows (I : Interpretation) (n : Nullability) (q : Symbol → Nat → Prop)
    (xs : VarSet) (condition? : Option Expression) (own : SplitCondition) : Prop where
  solved : own.equalities.Solved xs
  residual : ∀ e ∈ own.residual?, e.All (· ∈ own.equalities.applyVars xs) q
  holds : ∀ ρ, n.Admits ρ → I.HoldsOptional ρ condition? →
    own.equalities.HoldsAt I ρ ∧ I.HoldsOptional ρ own.residual?
  back : ∀ ρ, n.Admits ρ → (∀ x ∈ Condition.selfCompared condition? n, ρ x ≠ .null) →
    own.equalities.HoldsAt I ρ → I.HoldsOptional ρ own.residual? → I.HoldsOptional ρ condition?

/-- What a split condition without negations is worth: over `xs` and on the rows that `n` admits, the
equalities and the rest are as good as the condition. -/
structure SplitCondition.Splits (I : Interpretation) (n : Nullability) (xs : VarSet)
    (condition? : Option Expression) (own : SplitCondition) : Prop where
  solved : own.equalities.Solved xs
  residual : ∀ e ∈ own.residual?, e.AdmissibleOver (own.equalities.applyVars xs)
  holds_iff : ∀ ρ, n.Admits ρ → (I.HoldsOptional ρ condition? ↔
    own.equalities.HoldsAt I ρ ∧ I.HoldsOptional ρ own.residual?)

/-- The row satisfies the equalities and passes the rest. -/
def SplitCondition.Passes (I : Interpretation) (own : SplitCondition) (ρ : Row) : Prop :=
  (∀ x t, own.equalities.find? x = some t → I.Holds ρ (.eq (.var x) t)) ∧
    I.HoldsOptional ρ own.residual?

theorem SplitCondition.passes_iff {own : SplitCondition} {ρ : Row} :
    own.Passes I ρ ↔ own.equalities.HoldsAt I ρ ∧ I.HoldsOptional ρ own.residual? :=
  and_congr_left fun _ => Substitution.holdsAt_iff_find?.symm

/-- What the split of `c` says of the rows that `n` admits, and which variables it is about. -/
structure SplitCondition.Exact (I : Interpretation) (n : Nullability) (c : Expression)
    (own : SplitCondition) : Prop where
  holds_iff : ∀ ρ, n.Admits ρ → (I.Holds ρ c ↔
    (∀ x t, own.equalities.find? x = some t → I.Holds ρ (.eq (.var x) t)) ∧
      I.HoldsOptional ρ own.residual? ∧
      ∀ x ∈ Condition.selfCompared (some c) n, ρ x ≠ .null)
  binding : ∀ x t, own.equalities.find? x = some t → x ∈ c.vars ∧
    ((∃ y ∈ c.vars, t = .var y) ∨ ∃ k : Constant, k ≠ .null ∧ t = .const k)
  disjoint : own.equalities.domain.Disjoint own.equalities.rangeVars
  residual : ∀ e ∈ own.residual?, ∀ x ∈ e.vars, x ∈ c.vars ∧ x ∉ own.equalities.domain

namespace Condition

open QueryAlgebra.Except (Yields)

-- ---------------------------------------------------------------------------
-- Equations among the conjuncts
-- ---------------------------------------------------------------------------

/-- An equation is made of a conjunct that says the same. -/
theorem equation?_eq_some {c : Expression} {e : Equation} (h : equation? c = some e) :
    c.operation = .eq ∧ c.args = [e.left, e.right] ∧ e.left.isFunctional = false ∧
      e.right.isFunctional = false ∧ e.left ≠ .null ∧ e.right ≠ .null := by
  unfold equation? at h
  split at h
  · next s t hop hargs =>
    split at h
    · next hcondition =>
      cases h
      simp only [Bool.and_eq_true, Bool.not_eq_true'] at hcondition
      obtain ⟨⟨⟨⟨hs, ht⟩, hsnull⟩, htnull⟩, -⟩ := hcondition
      refine ⟨hop, hargs, hs, ht, ?_, ?_⟩
      · rintro rfl
        cases hsnull
      · rintro rfl
        cases htnull
    · cases h
  · cases h

theorem holds_of_equation? {c : Expression} {e : Equation} (h : equation? c = some e) (ρ : Row) :
    I.Holds ρ c ↔ I.Holds ρ (.eq e.left e.right) := by
  obtain ⟨hop, hargs, -⟩ := equation?_eq_some h
  have hjudge : I.judge ρ c.toTerm = Interpretation.equalityOf (I.eval ρ e.left) (I.eval ρ e.right) := by
    rw [Expression.toTerm, hargs]
    exact Interpretation.judge_eq hop e.left e.right
  rw [Interpretation.Holds, Interpretation.Holds, hjudge, Interpretation.judge_expression_eq]

theorem plain_equations (e : Expression) : ∀ eq ∈ e.conjuncts.filterMap equation?, eq.Plain := by
  intro eq heq
  obtain ⟨c, hc, hsome⟩ := List.mem_filterMap.1 heq
  obtain ⟨-, -, hl, hr, hlnull, hrnull⟩ := equation?_eq_some hsome
  exact ⟨hl, hr, hlnull, hrnull⟩

/-- A condition that is evaluated to the end does not equate a term with itself. -/
theorem ne_of_resolved {e : Expression} (h : e.Resolved) :
    ∀ eq ∈ e.conjuncts.filterMap equation?, eq.left ≠ eq.right := by
  intro eq heq hsame
  obtain ⟨c, hc, hsome⟩ := List.mem_filterMap.1 heq
  obtain ⟨hop, hargs, -⟩ := equation?_eq_some hsome
  refine (h c hc).1 ⟨hop, eq.left, ?_⟩
  rw [hargs, ← hsame]

/-- An equation of a term with itself is one of a variable. -/
theorem exists_eq_var_of_self {c : Expression} {e : Equation} (h : equation? c = some e)
    (hself : e.left = e.right) : ∃ x, e.left = .var x := by
  unfold equation? at h
  split at h
  · split at h
    · next hcondition =>
      cases h
      dsimp only at hself ⊢
      subst hself
      simp only [Bool.and_eq_true, Bool.or_self] at hcondition
      exact Term.exists_eq_var hcondition.2
    · cases h
  · cases h

theorem selfCompared_of_residualOf {e : Expression} (h : residualOf condition? n = .ok (some e))
    {x : Variable} :
    x ∈ selfCompared condition? n ↔
      ∃ eq ∈ e.conjuncts.filterMap equation?, eq.left = eq.right ∧ eq.left = .var x := by
  rw [selfCompared, h]
  dsimp only
  rw [List.mem_filterMap]
  refine exists_congr fun eq => and_congr_right fun _ => ?_
  split
  · next hself => rw [Term.var?_eq_some, and_iff_right hself]
  · next hself => simp [hself]

theorem vars_equations (hq : Introducible q) {e : Expression} (h : e.All (· ∈ xs) q) :
    ∀ eq ∈ e.conjuncts.filterMap equation?, eq.left.vars ⊆ xs ∧ eq.right.vars ⊆ xs := by
  intro eq heq
  obtain ⟨c, hc, hsome⟩ := List.mem_filterMap.1 heq
  obtain ⟨-, hargs, -⟩ := equation?_eq_some hsome
  have hall := (Expression.all_iff.1 (Expression.all_conjuncts hq h hc)).2
  rw [hargs] at hall
  exact ⟨(hall _ (.head _)).vars_mem, (hall _ (.tail _ (.head _))).vars_mem⟩

section Evaluable

variable (hq : Evaluable q)
include hq

omit hq in
/-- A condition holds where its equations and its other conjuncts hold. -/
theorem holds_iff_equations (e : Expression) (ρ : Row) :
    I.Holds ρ e ↔
      (∀ eq ∈ e.conjuncts.filterMap equation?, I.Holds ρ (.eq eq.left eq.right)) ∧
        ∀ c ∈ e.conjuncts.filter fun c => (equation? c).isNone, I.Holds ρ c := by
  rw [Interpretation.holds_iff_conjuncts]
  constructor
  · intro h
    constructor
    · intro eq heq
      obtain ⟨c, hc, hsome⟩ := List.mem_filterMap.1 heq
      exact (holds_of_equation? hsome ρ).1 (h c hc)
    · exact fun c hc => h c (List.mem_of_mem_filter hc)
  · rintro ⟨hequations, hothers⟩ c hc
    cases hsome : equation? c with
    | none => exact hothers c (List.mem_filter.2 ⟨hc, by simp [hsome]⟩)
    | some eq =>
      rw [holds_of_equation? hsome]
      exact hequations eq (List.mem_filterMap.2 ⟨c, hc, hsome⟩)

-- ---------------------------------------------------------------------------
-- Evaluating
-- ---------------------------------------------------------------------------

/-- What evaluation leaves of a condition is as good as the condition. -/
theorem residualOf_spec (h : ∀ c ∈ condition?, c.All (· ∈ xs) q) :
    Yields
      (fun rest? => (∀ e ∈ rest?, e.All (· ∈ xs) q) ∧
        ((∀ c ∈ condition?, c.NegationFree) → ∀ e ∈ rest?, e.Resolved) ∧
        ∀ ρ, n.Admits ρ → (I.HoldsOptional ρ condition? ↔ I.HoldsOptional ρ rest?))
      (∀ ρ, n.Admits ρ → ¬I.HoldsOptional ρ condition?) (residualOf condition? n) := by
  cases condition? with
  | none => exact ⟨nofun, fun _ => nofun, fun _ _ => Iff.rfl⟩
  | some condition =>
    have hcondition := h condition rfl
    have hwell : condition.WellApplied := Term.All.mono hcondition (fun _ _ => trivial) hq.binary
    have hsound (ρ : Row) (hn : n.Admits ρ) :
        (condition.evaluateTwoValued n).truthIn I ρ = some true ↔
          I.HoldsOptional ρ (some condition) := by
      rw [Interpretation.holdsOptional_some]
      exact Expression.truthIn_evaluateTwoValued hn hwell
    have hall : (condition.evaluateTwoValued n).All (· ∈ xs) q :=
      (Evaluation.all_to hq.toIntroducible _).evaluate .twoValued condition hcondition
    unfold residualOf
    dsimp only
    cases hverdict : condition.evaluateTwoValued n with
    | truth =>
      refine ⟨nofun, fun _ => nofun, fun ρ hn => ?_⟩
      rw [← hsound ρ hn, hverdict]
      exact iff_of_true rfl Interpretation.holdsOptional_none
    | falsity =>
      intro ρ hn
      rw [← hsound ρ hn, hverdict]
      nofun
    | null =>
      intro ρ hn
      rw [← hsound ρ hn, hverdict]
      nofun
    | residual e =>
      refine ⟨?_, fun hfree => ?_, fun ρ hn => ?_⟩
      · rintro _ ⟨⟩
        rw [hverdict] at hall
        exact Verdict.all_residual.1 hall
      · rintro _ ⟨⟩
        have hresolved := Expression.resolved_evaluateTwoValued (hfree condition rfl) n
        rw [hverdict] at hresolved
        exact Verdict.resolved_residual.1 hresolved
      · rw [← hsound ρ hn, hverdict, Interpretation.holdsOptional_some]
        rfl

-- ---------------------------------------------------------------------------
-- Variables compared with themselves
-- ---------------------------------------------------------------------------

omit hq in
/-- The equations of a term with itself hold where their variables are not NULL. -/
theorem holds_of_selfCompared {e : Expression} {ρ : Row}
    (h : residualOf condition? n = .ok (some e))
    (hself : ∀ x ∈ selfCompared condition? n, ρ x ≠ .null) :
    ∀ eq ∈ e.conjuncts.filterMap equation?, eq.left = eq.right →
      I.Holds ρ (.eq eq.left eq.right) := by
  intro eq heq hsame
  obtain ⟨c, -, hsome⟩ := List.mem_filterMap.1 heq
  obtain ⟨x, hx⟩ := exists_eq_var_of_self hsome hsame
  have hnonnull := hself x ((selfCompared_of_residualOf h).2 ⟨eq, heq, hsame, hx⟩)
  rw [Interpretation.holds_eq, ← hsame, hx]
  exact ⟨rfl, hnonnull⟩

/-- A row that passes the condition has no NULL where a variable is compared with itself. -/
theorem ne_null_of_selfCompared (h : ∀ c ∈ condition?, c.All (· ∈ xs) q) {ρ : Row}
    (hn : n.Admits ρ) (hholds : I.HoldsOptional ρ condition?) :
    ∀ x ∈ selfCompared condition? n, ρ x ≠ .null := by
  intro x hx
  have hspec := residualOf_spec (I := I) (n := n) hq h
  cases hres : residualOf condition? n with
  | error _ => simp [selfCompared, hres] at hx
  | ok rest? =>
    cases rest? with
    | none => simp [selfCompared, hres] at hx
    | some e =>
      rw [hres] at hspec
      have hpasses := Interpretation.holdsOptional_some.1 ((hspec.2.2 ρ hn).1 hholds)
      obtain ⟨eq, heq, hsame, hvar⟩ := (selfCompared_of_residualOf hres).1 hx
      have hequation := ((holds_iff_equations e ρ).1 hpasses).1 eq heq
      rw [Interpretation.holds_eq, hvar] at hequation
      exact hequation.2

/-- Where nothing is negated, evaluation leaves no variable compared with itself. -/
theorem selfCompared_eq_nil (h : ∀ c ∈ condition?, c.All (· ∈ xs) q)
    (hfree : ∀ c ∈ condition?, c.NegationFree) : selfCompared condition? n = [] := by
  rw [List.eq_nil_iff_forall_not_mem]
  intro x hx
  have hspec := residualOf_spec (I := Interpretation.coded) (n := n) hq h
  cases hres : residualOf condition? n with
  | error _ => simp [selfCompared, hres] at hx
  | ok rest? =>
    cases rest? with
    | none => simp [selfCompared, hres] at hx
    | some e =>
      rw [hres] at hspec
      obtain ⟨eq, heq, hsame, -⟩ := (selfCompared_of_residualOf hres).1 hx
      exact ne_of_resolved (hspec.2.1 hfree e rfl) eq heq hsame

-- ---------------------------------------------------------------------------
-- Splitting
-- ---------------------------------------------------------------------------

omit hq in
/-- A flat substitution makes no new symbols. -/
theorem all_applyVar {s : Substitution} (hs : s.Flat) {x : Variable} (hx : x ∈ xs) :
    (s.applyVar x).All (· ∈ s.applyVars xs) q := by
  rcases Term.eq_var_or_const (hs x) with ⟨y, hy⟩ | ⟨c, hc⟩
  · rw [hy]
    exact .var (hs.mem_applyVars.2 ⟨x, hx, hy⟩)
  · rw [hc]
    exact .const

omit hq in
theorem admissible_applyVar {s : Substitution} (hs : s.Flat) {x : Variable} (hx : x ∈ xs) :
    (s.applyVar x).AdmissibleOver (s.applyVars xs) := all_applyVar hs hx

omit hq in
theorem admissible_apply {s : Substitution} (hs : s.Flat) {e : Expression}
    (h : e.AdmissibleOver xs) : (s.applyExpression e).AdmissibleOver (s.applyVars xs) :=
  h.apply fun _ hx => admissible_applyVar hs hx

omit hq in
/-- A condition that holds no equation is split into nothing and itself. -/
theorem follows_of_no_equation {e : Expression} (h : e.All (· ∈ xs) q)
    (hiff : ∀ ρ, n.Admits ρ → (I.HoldsOptional ρ condition? ↔ I.HoldsOptional ρ (some e))) :
    SplitCondition.Follows I n q xs condition? { residual? := some e } where
  solved := Substitution.solved_empty
  residual := by
    rintro _ ⟨⟩
    have hsame : (∅ : Substitution).applyVars xs = xs :=
      Substitution.applyVars_of_fixed fun x _ => rfl
    rw [hsame]
    exact h
  holds ρ hn hholds := ⟨Substitution.holdsAt_empty, (hiff ρ hn).1 hholds⟩
  back ρ hn _ _ hholds := (hiff ρ hn).2 hholds

omit hq in
/-- The conjuncts besides the equations, rewritten with what solves the equations. -/
theorem holds_others_iff {s : Substitution} {ρ : Row} (h : s.HoldsAt I ρ) (cs : List Expression) :
    I.HoldsOptional ρ (Expression.conjunction (cs.map s.applyExpression)) ↔
      ∀ c ∈ cs, I.Holds ρ c := by
  rw [Interpretation.holdsOptional_conjunction, List.forall_mem_map]
  exact forall₂_congr fun c _ => h.holds_applyExpression c

/-- Once the equations are solved, only the rest is left to be evaluated. -/
theorem follows_of_solution {e : Substitution} {rest? : Option Expression} (hsolved : e.Solved xs)
    (hrest : ∀ c ∈ rest?, c.All (· ∈ e.applyVars xs) q)
    (hholds : ∀ ρ, n.Admits ρ → I.HoldsOptional ρ condition? →
      e.HoldsAt I ρ ∧ I.HoldsOptional ρ rest?)
    (hback : ∀ ρ, n.Admits ρ → (∀ x ∈ selfCompared condition? n, ρ x ≠ .null) →
      e.HoldsAt I ρ → I.HoldsOptional ρ rest? → I.HoldsOptional ρ condition?) :
    Yields (SplitCondition.Follows I n q xs condition?)
      (∀ ρ, n.Admits ρ → ¬I.HoldsOptional ρ condition?)
      (do
        let left? ← residualOf rest? n
        return { residual? := left?, equalities := e }) := by
  have hnone : (∀ ρ, n.Admits ρ → ¬I.HoldsOptional ρ rest?) →
      ∀ ρ, n.Admits ρ → ¬I.HoldsOptional ρ condition? :=
    fun hnot ρ hn hcondition => hnot ρ hn (hholds ρ hn hcondition).2
  refine ((residualOf_spec (I := I) (n := n) hq hrest).of_imp hnone).bind fun left? hleft => ?_
  obtain ⟨hleft, -, hleftiff⟩ := hleft
  refine ⟨hsolved, hleft, fun ρ hn hcondition => ?_, fun ρ hn hself he hresidual => ?_⟩
  · obtain ⟨he, hrest⟩ := hholds ρ hn hcondition
    exact ⟨he, (hleftiff ρ hn).1 hrest⟩
  · exact hback ρ hn hself he ((hleftiff ρ hn).2 hresidual)

/-- Equalities and a rest follow from a condition, and splitting fails only for one that no row
passes. -/
theorem split_follows (h : ∀ c ∈ condition?, c.All (· ∈ xs) q) :
    Yields (SplitCondition.Follows I n q xs condition?)
      (∀ ρ, n.Admits ρ → ¬I.HoldsOptional ρ condition?) (split condition? n) := by
  have hspec := residualOf_spec (I := I) (n := n) hq h
  unfold split
  cases hres : residualOf condition? n with
  | error _ =>
    rw [hres] at hspec
    exact hspec
  | ok rest? =>
  rw [hres] at hspec
  obtain ⟨hrest, -, hiff⟩ := hspec
  cases rest? with
  | none =>
    refine ⟨Substitution.solved_empty, nofun, fun ρ hn hholds => ?_, fun ρ hn _ _ hholds => ?_⟩
    · exact ⟨Substitution.holdsAt_empty, (hiff ρ hn).1 hholds⟩
    · exact (hiff ρ hn).2 hholds
  | some residual =>
    have hresidual := hrest residual rfl
    have hvars := vars_equations hq.toIntroducible hresidual
    have hparts (ρ : Row) (hn : n.Admits ρ) := (hiff ρ hn).trans
      (Interpretation.holdsOptional_some.trans (holds_iff_equations residual ρ))
    dsimp only [bind, Except.bind]
    split
    · exact follows_of_no_equation hresidual hiff
    · have hanswers := Substitution.answers_unify? (I := I) (plain_equations residual) hvars
      split
      · next hnone =>
        rw [hnone] at hanswers
        intro ρ hn hholds
        exact hanswers ρ ((hparts ρ hn).1 hholds).1
      · next e hsome =>
        rw [hsome] at hanswers
        obtain ⟨hsolved, hequations, hexact⟩ := hanswers
        refine follows_of_solution hq hsolved ?_ (fun ρ hn hholds => ?_)
          fun ρ hn hself he hothers => ?_
        · apply Expression.all_conjunction hq.toIntroducible
          rw [List.forall_mem_map]
          intro c hc
          have hc := Expression.all_conjuncts hq.toIntroducible hresidual (List.mem_of_mem_filter hc)
          exact Term.All.apply hc fun x hx => all_applyVar hsolved.flat hx
        · obtain ⟨hall, hothers⟩ := (hparts ρ hn).1 hholds
          have he := hequations ρ hall
          exact ⟨he, (holds_others_iff he _).2 hothers⟩
        · have htrivial : ∀ eq ∈ residual.conjuncts.filterMap equation?, eq.left = eq.right →
              I.Holds ρ (.eq eq.left eq.right) :=
            holds_of_selfCompared hres hself
          exact (hparts ρ hn).2 ⟨hexact ρ htrivial he, (holds_others_iff he _).1 hothers⟩

omit hq in
/-- Splitting keeps a condition without negations, and fails only for one that no row passes. -/
theorem split_spec (h : ∀ c ∈ condition?, c.AdmissibleOver xs) :
    Yields (SplitCondition.Splits I n xs condition?)
      (∀ ρ, n.Admits ρ → ¬I.HoldsOptional ρ condition?) (split condition? n) := by
  have hfollows := split_follows (I := I) (n := n) evaluable_admissible h
  cases hsplit : split condition? n with
  | error _ =>
    rw [hsplit] at hfollows
    exact hfollows
  | ok own =>
    rw [hsplit] at hfollows
    have hfree : ∀ c ∈ condition?, c.NegationFree := fun c hc => (h c hc).admissible.negationFree
    have hself := selfCompared_eq_nil (n := n) evaluable_admissible h hfree
    refine ⟨hfollows.solved, hfollows.residual, fun ρ hn => ⟨hfollows.holds ρ hn, ?_⟩⟩
    rintro ⟨he, hresidual⟩
    refine hfollows.back ρ hn ?_ he hresidual
    rw [hself]
    exact nofun

end Evaluable

-- ---------------------------------------------------------------------------
-- The split of a condition by itself
-- ---------------------------------------------------------------------------

/-- A condition is as good as the equalities and the rest that it is split into, together with the
variables that it compares with themselves not being NULL. It is found unsatisfiable only if no row
passes it. -/
theorem split_exact (I : Interpretation) (n : Nullability) {c : Expression} (hc : c.WellApplied) :
    Yields (SplitCondition.Exact I n c) (∀ ρ, n.Admits ρ → ¬I.Holds ρ c) (split (some c) n) := by
  have hover : ∀ e ∈ some c, e.All (· ∈ c.vars)
      fun f n => f.operation.isArithmetic = true → n = 2 := by
    rintro _ ⟨⟩
    exact Term.All.over hc fun _ hx => hx
  have hfollows := split_follows (I := I) (n := n) evaluable_binary hover
  cases hsplit : split (some c) n with
  | error _ =>
    rw [hsplit] at hfollows
    exact fun ρ hn hholds => hfollows ρ hn (Interpretation.holdsOptional_some.2 hholds)
  | ok own =>
    rw [hsplit] at hfollows
    obtain ⟨hsolved, hresidual, hholds, hback⟩ := hfollows
    refine ⟨fun ρ hn => ?_, fun x t hx => ?_, hsolved.disjoint, fun e he x hx => ?_⟩
    · rw [← Substitution.holdsAt_iff_find?, ← Interpretation.holdsOptional_some]
      constructor
      · intro h
        exact ⟨(hholds ρ hn h).1, (hholds ρ hn h).2,
          ne_null_of_selfCompared evaluable_binary hover hn h⟩
      · rintro ⟨he, hrest, hself⟩
        exact hback ρ hn hself he hrest
    · have hxt := Substitution.applyVar_of_find? hx
      have hmem : x ∈ c.vars :=
        hsolved.mem_of_moved fun hsame => own.equalities.proper x ((hxt.symm.trans hsame) ▸ hx)
      refine ⟨hmem, ?_⟩
      rcases Term.eq_var_or_const (hsolved.flat x) with ⟨y, hy⟩ | ⟨k, hk⟩
      · exact .inl ⟨y, hsolved.range x hmem y hy, by rw [← hxt, hy]⟩
      · refine .inr ⟨k, ?_, by rw [← hxt, hk]⟩
        rintro rfl
        exact hsolved.ne_null x hk
    · have hkept := (hresidual e he).vars_mem x hx
      rw [hsolved.mem_applyVars] at hkept
      refine ⟨hkept.1, fun hdomain => ?_⟩
      obtain ⟨t, ht⟩ := Substitution.mem_domain.1 hdomain
      rw [Substitution.applyVar_of_find? ht] at hkept
      exact own.equalities.proper x (hkept.2 ▸ ht)

/-- A condition with equations is split into what solves them and what is left of its other conjuncts
then. -/
theorem split_of_equations {c e : Expression} {eq : Equation} {equations : List Equation}
    {equalities : Substitution} {others : List Expression} {rest? : Option Expression}
    (hresidual : residualOf (some c) n = .ok (some e))
    (hequations : e.conjuncts.filterMap equation? = eq :: equations)
    (hunify : Substitution.unify? (eq :: equations) = some equalities)
    (hothers : e.conjuncts.filter (fun e => (equation? e).isNone) = others)
    (hrest : residualOf (Expression.conjunction (others.map equalities.applyExpression)) n = .ok rest?) :
    split (some c) n = .ok { residual? := rest?, equalities } := by
  rw [split, hresidual]
  dsimp only [bind, Except.bind]
  rw [hequations]
  dsimp only
  rw [hunify, hothers]
  dsimp only
  rw [hrest]
  rfl

/-- The double negation goes away, and leaves `x = x` to be dropped; `y = 5` is kept. -/
theorem split_exact_of_double_negation :
    let x : Variable := ⟨"x"⟩
    let y : Variable := ⟨"y"⟩
    let n : Nullability := .allNullable (.ofList [x, y])
    let negated : Expression := .not (.not (.eq (.var x) (.var x)))
    let compared : Expression := .eq (.var y) (.const (.integer 5))
    let c : Expression := ⟨⟨.and, 2⟩, [negated.toTerm, compared.toTerm], rfl⟩
    c.WellApplied ∧ selfCompared (some c) n = [x] ∧
      Yields (SplitCondition.Exact Interpretation.coded n c)
        (∀ ρ, n.Admits ρ → ¬Interpretation.coded.Holds ρ c) (split (some c) n) := by
  intro x y n negated compared c
  have hc : c.WellApplied := by
    simp [c, negated, compared, Expression.WellApplied, Term.WellApplied, Expression.toTerm,
      Expression.not, Expression.eq, Term.all_app, Term.all_var, Term.All.const,
      Operation.isArithmetic]
  exact ⟨hc, by decide +kernel, split_exact Interpretation.coded n hc⟩

/-- Splitting the double negation of `x = x` leaves nothing, also of a row where `x` is NULL. -/
theorem split_drops_self_comparison :
    let x : Variable := ⟨"x"⟩
    let n : Nullability := .allNullable (.singleton x)
    let c : Expression := .not (.not (.eq (.var x) (.var x)))
    let ρ : Row := fun _ => .null
    c.WellApplied ∧ split (some c) n = .ok {} ∧ n.Admits ρ ∧ ¬Interpretation.coded.Holds ρ c := by
  intro x n c ρ
  have hc : c.WellApplied := by
    simp [c, Expression.WellApplied, Term.WellApplied, Expression.toTerm, Expression.not,
      Expression.eq, Term.all_app, Term.all_var, Operation.isArithmetic]
  have hresidual : residualOf (some c) n = .ok (some (.eq (.var x) (.var x))) := by decide +kernel
  have hunify : Substitution.unify? [⟨.var x, .var x⟩] = some ∅ := by
    rw [Substitution.unify?, Substitution.solve_cons_of_eq rfl, Substitution.solve]
  have hsplit : split (some c) n = .ok {} := by
    have hequations :
        (Expression.eq (.var x) (.var x)).conjuncts.filterMap equation? = [⟨.var x, .var x⟩] := by
      decide +kernel
    have hothers : (Expression.eq (.var x) (.var x)).conjuncts.filter
        (fun e => (equation? e).isNone) = [] := by
      decide +kernel
    exact split_of_equations hresidual hequations hunify hothers rfl
  exact ⟨hc, hsplit, Nullability.admits_allNullable _ ρ, by decide +kernel⟩

-- ---------------------------------------------------------------------------
-- What is told to the nodes below
-- ---------------------------------------------------------------------------

section Below

variable {constraint? : Option Expression} {own : SplitCondition}

/-- What is evaluated to be told: the rest of the node's own condition, and the constraint rewritten
with its equalities. -/
def combined (constraint? : Option Expression) (own : SplitCondition) : Option Expression :=
  Expression.andOptional own.residual? (constraint?.map own.equalities.applyExpression)

/-- The equalities that this evaluation extracts, which are not told. -/
def withheld (constraint? : Option Expression) (own : SplitCondition) (n : Nullability) : Substitution :=
  if constraint?.isNone then ∅
  else ((split (combined constraint? own) n).toOption.map (·.equalities)).getD ∅

theorem withheld_of_split {constraint : Expression} {told : SplitCondition}
    (h : split (combined (some constraint) own) n = .ok told) :
    withheld (some constraint) own n = told.equalities := by
  rw [withheld, h]
  rfl

theorem below_some {constraint : Expression} :
    below (some constraint) own n = (split (combined (some constraint) own) n).map (·.residual?) := by
  rw [below, combined]
  rfl

/-- Where the equalities hold, it does not matter that the constraint is rewritten with them. -/
theorem holds_combined {ρ : Row} (h : own.equalities.HoldsAt I ρ) :
    I.HoldsOptional ρ (combined constraint? own) ↔
      I.HoldsOptional ρ own.residual? ∧ I.HoldsOptional ρ constraint? := by
  rw [combined, Interpretation.holdsOptional_andOptional]
  cases constraint? with
  | none => exact Iff.rfl
  | some constraint =>
    rw [Option.map_some, Interpretation.holdsOptional_some, Interpretation.holdsOptional_some,
      h.holds_applyExpression]

theorem wellApplied_combined (hown : ∀ e ∈ own.residual?, e.WellApplied)
    (hequalities : ∀ x, (own.equalities.applyVar x).WellApplied)
    (hconstraint : ∀ c ∈ constraint?, c.WellApplied) :
    ∀ e ∈ combined constraint? own, e.WellApplied := by
  refine Expression.all_andOptional introducible_binary hown fun e he => ?_
  obtain ⟨c, hc, rfl⟩ := Option.mem_map.1 he
  exact Expression.WellApplied.apply (hconstraint c hc) hequalities

/-- Where the equalities of a node hold, what it tells its child is as good as the rest of its
condition and the constraint from above, together with the equalities that it withholds and with the
variables that are compared with themselves not being NULL; nothing is told only if there is no such
row. -/
theorem below_follows (hown : ∀ e ∈ own.residual?, e.WellApplied)
    (hequalities : ∀ x, (own.equalities.applyVar x).WellApplied)
    (hconstraint : ∀ c ∈ constraint?, c.WellApplied) :
    Yields
      (fun told? => (∀ e ∈ told?, e.WellApplied) ∧ (withheld constraint? own n).Flat ∧
        ∀ ρ, n.Admits ρ → own.equalities.HoldsAt I ρ →
          (I.HoldsOptional ρ own.residual? ∧ I.HoldsOptional ρ constraint? ↔
            (withheld constraint? own n).HoldsAt I ρ ∧ I.HoldsOptional ρ told? ∧
              ∀ x ∈ selfCompared (combined constraint? own) n, ρ x ≠ .null))
      (∀ ρ, n.Admits ρ → own.equalities.HoldsAt I ρ →
        ¬(I.HoldsOptional ρ own.residual? ∧ I.HoldsOptional ρ constraint?))
      (below constraint? own n) := by
  have hover : ∀ e ∈ combined constraint? own, e.All (· ∈ Tree.conditionVars (combined constraint? own))
      fun f n => f.operation.isArithmetic = true → n = 2 := by
    intro e he
    have hwell := wellApplied_combined hown hequalities hconstraint e he
    rw [Option.mem_def.1 he]
    exact Term.All.over hwell fun _ hx => hx
  have hself {ρ : Row} (hn : n.Admits ρ) (h : own.equalities.HoldsAt I ρ)
      (hholds : I.HoldsOptional ρ own.residual? ∧ I.HoldsOptional ρ constraint?) :
      ∀ x ∈ selfCompared (combined constraint? own) n, ρ x ≠ .null :=
    ne_null_of_selfCompared evaluable_binary hover hn ((holds_combined h).2 hholds)
  cases constraint? with
  | none =>
    refine ⟨hown, Substitution.flat_empty, fun ρ hn h => ⟨fun hholds => ?_, fun hholds => ?_⟩⟩
    · exact ⟨Substitution.holdsAt_empty, hholds.1, hself hn h hholds⟩
    · exact ⟨hholds.2.1, Interpretation.holdsOptional_none⟩
  | some constraint =>
    have hfollows := split_follows (I := I) (n := n) evaluable_binary hover
    rw [below_some]
    cases hsplit : split (combined (some constraint) own) n with
    | error _ =>
      rw [hsplit] at hfollows
      exact fun ρ hn h hholds => hfollows ρ hn ((holds_combined h).2 hholds)
    | ok told =>
      rw [hsplit] at hfollows
      rw [withheld_of_split hsplit]
      refine ⟨fun e he => ?_, hfollows.solved.flat, fun ρ hn h => ?_⟩
      · exact Term.All.mono (hfollows.residual e he) (fun _ _ => trivial) fun _ _ hf => hf
      · rw [← holds_combined h]
        constructor
        · intro hholds
          obtain ⟨hdropped, hrest⟩ := hfollows.holds ρ hn hholds
          exact ⟨hdropped, hrest, hself hn h ((holds_combined h).1 hholds)⟩
        · rintro ⟨hdropped, hrest, hne⟩
          exact hfollows.back ρ hn hne hdropped hrest

/-- What a node tells its child holds of every row on which the node's own condition and the
constraint from above hold; it fails only if there is none. -/
theorem below_spec (hown : ∀ e ∈ own.residual?, e.WellApplied) (hflat : own.equalities.Flat)
    (hconstraint : ∀ c ∈ constraint?, c.WellApplied) :
    Yields
      (fun told? => (∀ e ∈ told?, e.WellApplied) ∧
        ∀ ρ, n.Admits ρ → own.equalities.HoldsAt I ρ → I.HoldsOptional ρ own.residual? →
          I.HoldsOptional ρ constraint? → I.HoldsOptional ρ told?)
      (∀ ρ, n.Admits ρ → own.equalities.HoldsAt I ρ → I.HoldsOptional ρ own.residual? →
        ¬I.HoldsOptional ρ constraint?)
      (below constraint? own n) := by
  have hfollows := below_follows (I := I) (n := n) hown hflat.wellApplied_applyVar hconstraint
  cases hbelow : below constraint? own n with
  | error _ =>
    rw [hbelow] at hfollows
    exact fun ρ hn h hrest hc => hfollows ρ hn h ⟨hrest, hc⟩
  | ok told? =>
    rw [hbelow] at hfollows
    obtain ⟨htold, -, hiff⟩ := hfollows
    exact ⟨htold, fun ρ hn h hrest hc => ((hiff ρ hn h).1 ⟨hrest, hc⟩).2.1⟩

/-- What is pushed below a node is true of every row on which the constraint from above is true and
that passes the node's own condition as it was split. What it leaves out of the two are the equalities
between variables and constants that it withholds, and that a variable compared with itself is not NULL:
with these, it is true of no other row. The condition is found unsatisfiable only if there is no such
row. -/
theorem below_exact (I : Interpretation) (n : Nullability)
    (hconstraint : ∀ c ∈ constraint?, c.WellApplied)
    (hresidual : ∀ e ∈ own.residual?, e.WellApplied)
    (hequalities : ∀ x t, own.equalities.find? x = some t → t.WellApplied) :
    Yields
      (fun told? =>
        (∀ ρ, n.Admits ρ → I.HoldsOptional ρ constraint? → own.Passes I ρ →
          I.HoldsOptional ρ told?) ∧
        (withheld constraint? own n).isNonFunctional = true ∧
        ∀ ρ, n.Admits ρ →
          (I.HoldsOptional ρ constraint? ∧ own.Passes I ρ ↔
            own.equalities.HoldsAt I ρ ∧ (withheld constraint? own n).HoldsAt I ρ ∧
              (∀ x ∈ selfCompared (combined constraint? own) n, ρ x ≠ .null) ∧
              I.HoldsOptional ρ told?))
      (¬∃ ρ, n.Admits ρ ∧ I.HoldsOptional ρ constraint? ∧ own.Passes I ρ)
      (below constraint? own n) := by
  have hwell (x : Variable) : (own.equalities.applyVar x).WellApplied := by
    cases hx : own.equalities.find? x with
    | none =>
      rw [Substitution.applyVar_of_not_binds hx]
      exact .var trivial
    | some t =>
      rw [Substitution.applyVar_of_find? hx]
      exact hequalities x t hx
  have hfollows := below_follows (I := I) (n := n) hresidual hwell hconstraint
  cases hbelow : below constraint? own n with
  | error _ =>
    rw [hbelow] at hfollows
    rintro ⟨ρ, hn, hc, hpasses⟩
    obtain ⟨h, hrest⟩ := SplitCondition.passes_iff.1 hpasses
    exact hfollows ρ hn h ⟨hrest, hc⟩
  | ok told? =>
    rw [hbelow] at hfollows
    obtain ⟨-, hflat, hiff⟩ := hfollows
    have hback : ∀ ρ, n.Admits ρ →
        (I.HoldsOptional ρ constraint? ∧ own.Passes I ρ ↔
          own.equalities.HoldsAt I ρ ∧ (withheld constraint? own n).HoldsAt I ρ ∧
            (∀ x ∈ selfCompared (combined constraint? own) n, ρ x ≠ .null) ∧
            I.HoldsOptional ρ told?) := by
      intro ρ hn
      rw [SplitCondition.passes_iff]
      constructor
      · rintro ⟨hc, h, hrest⟩
        obtain ⟨hwithheld, htold, hself⟩ := (hiff ρ hn h).1 ⟨hrest, hc⟩
        exact ⟨h, hwithheld, hself, htold⟩
      · rintro ⟨h, hwithheld, hself, htold⟩
        obtain ⟨hrest, hc⟩ := (hiff ρ hn h).2 ⟨hwithheld, htold, hself⟩
        exact ⟨hc, h, hrest⟩
    exact ⟨fun ρ hn hc hpasses => ((hback ρ hn).1 ⟨hc, hpasses⟩).2.2.2,
      Substitution.isNonFunctional_of_flat hflat, hback⟩

/-- The constraint negates a comparison of `x`, which is rewritten to `y`, and is about `w`, of which
nothing is known. -/
theorem below_exact_of_negation :
    let x : Variable := ⟨"x"⟩
    let y : Variable := ⟨"y"⟩
    let w : Variable := ⟨"w"⟩
    let atMost (t : Term) : Expression := .not ⟨⟨.lte, 2⟩, [t, .const (.integer 0)], rfl⟩
    let absent (t : Term) : Expression := .or [.isNull (.var w), .eq (.var w) t]
    let small : Expression := ⟨⟨.lt, 2⟩, [.var y, .const (.integer 10)], rfl⟩
    let own : SplitCondition := { residual? := some small, equalities := .singleton x (.var y) }
    let constraint : Expression :=
      ⟨⟨.and, 2⟩, [(atMost (.var x)).toTerm, (absent (.var x)).toTerm], rfl⟩
    let told : Expression :=
      ⟨⟨.and, 3⟩, [small.toTerm, (atMost (.var y)).toTerm, (absent (.var y)).toTerm], rfl⟩
    let n : Nullability := .nonNullable (.ofList [x, y])
    let ρ : Row := fun v => if v = w then .null else .integer 5
    below (some constraint) own n = .ok (some told) ∧ n.Admits ρ ∧
      Interpretation.coded.Holds ρ constraint ∧ own.Passes Interpretation.coded ρ ∧
      Interpretation.coded.Holds ρ told := by
  intro x y w atMost absent small own constraint told n ρ
  have hbelow : below (some constraint) own n = .ok (some told) := by decide +kernel
  have hn : n.Admits ρ := Nullability.admits_nonNullable (by decide +kernel)
  have hholds : Interpretation.coded.Holds ρ constraint := by decide +kernel
  have hequality {z : Variable} {t : Term} (hz : own.equalities.find? z = some t) :
      z = x ∧ t = .var y := by
    have hbindings : own.equalities.bindings = [(x, .var y)] := by decide +kernel
    have hmem := Substitution.mem_bindings.2 hz
    rw [hbindings, List.mem_singleton] at hmem
    exact ⟨congrArg Prod.fst hmem, congrArg Prod.snd hmem⟩
  have hpasses : own.Passes Interpretation.coded ρ := by
    refine ⟨fun z t hz => ?_, by decide +kernel⟩
    obtain ⟨rfl, rfl⟩ := hequality hz
    decide +kernel
  have hconstraint : ∀ c ∈ some constraint, c.WellApplied := by
    rintro _ ⟨⟩
    simp [constraint, atMost, absent, Expression.WellApplied, Term.WellApplied, Expression.toTerm,
      Expression.not, Expression.or, Expression.isNull, Expression.eq, Term.all_app, Term.all_var,
      Term.All.const, Operation.isArithmetic]
  have hresidual : ∀ e ∈ own.residual?, e.WellApplied := by
    rintro _ ⟨⟩
    simp [small, Expression.WellApplied, Term.WellApplied, Expression.toTerm, Term.all_app,
      Term.all_var, Term.All.const, Operation.isArithmetic]
  have hequalities (z : Variable) (t : Term) (hz : own.equalities.find? z = some t) :
      t.WellApplied := by
    obtain ⟨-, rfl⟩ := hequality hz
    exact .var trivial
  have hexact := below_exact Interpretation.coded n hconstraint hresidual hequalities
  rw [hbelow] at hexact
  exact ⟨hbelow, hn, hholds, hpasses,
    Interpretation.holdsOptional_some.1
      (hexact.1 ρ hn (Interpretation.holdsOptional_some.2 hholds) hpasses)⟩

end Below

-- ---------------------------------------------------------------------------
-- What a constraint says about some variables
-- ---------------------------------------------------------------------------

section RetainOver

variable {constraint : Expression}

theorem wellApplied_retainOver (h : constraint.WellApplied) :
    ∀ e ∈ retainOver constraint xs, e.WellApplied := by
  apply Expression.all_conjunction introducible_binary
  intro c hc
  exact Expression.all_conjuncts introducible_binary h (List.mem_of_mem_filter hc)

theorem vars_retainOver : ∀ e ∈ retainOver constraint xs, e.vars ⊆ xs := by
  have hall : ∀ e ∈ retainOver constraint xs, e.All (· ∈ xs) fun _ _ => True := by
    apply Expression.all_conjunction introducible_true
    intro c hc
    exact Term.all_vars.2 (of_decide_eq_true (List.mem_filter.1 hc).2)
  exact fun e he => Term.all_vars.1 (hall e he)

theorem holds_retainOver {ρ : Row} (h : I.Holds ρ constraint) :
    I.HoldsOptional ρ (retainOver constraint xs) := by
  rw [retainOver, Interpretation.holdsOptional_conjunction]
  intro c hc
  exact Interpretation.holds_iff_conjuncts.1 h c (List.mem_of_mem_filter hc)

end RetainOver

end Condition

end QueryAlgebra
