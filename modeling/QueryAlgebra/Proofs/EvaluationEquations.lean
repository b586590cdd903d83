import QueryAlgebra.Proofs.EvaluationWeight

/-!
# Evaluation without depths

Evaluation is defined to a depth. Once a term is light enough for the depth, more of it changes
nothing, so evaluation satisfies the equations that one would write for it if it could recurse on
what it simplifies: those are stated here, and later files need not speak of depths.

Main statements: `Evaluation.settled` — a deeper evaluation gives the same; `Term.simplify_app`,
`Term.judge_app` and `Expression.evaluate_eq` — the equations.
-/

namespace QueryAlgebra

namespace Evaluation

variable {n : Nullability} {logic : Logic} {depth : Nat}

-- ---------------------------------------------------------------------------
-- One level of evaluation
-- ---------------------------------------------------------------------------

/-- The verdict on an expression, given how terms are simplified and judged below it and what comes
out of a condition that was the argument of a truth test. -/
def verdictWith (n : Nullability) (logic : Logic) (simplify : Term → Term)
    (judge : Logic → Term → Verdict) (evaluate : Expression → Verdict) (e : Expression) : Verdict :=
  match e.operation, e.args with
  | .and, args => .conjoin logic (args.map (judge logic))
  | .or, args => .disjoin logic (args.map (judge logic))
  | .not, t :: _ => (judge .threeValued t).negate
  | .isNull, t :: _ => testNull n true (simplify t)
  | .isNotNull, t :: _ => testNull n false (simplify t)
  | .isTrue, t :: _ => match simplify t with
    | .const c => .ofConstant c
    | s => match Expression.ofTerm? s with
      | some inner => evaluate inner
      | none => .residual (.isTrue s)
  | .eq, [s, t] => equality n logic (judge logic) (simplify s) (simplify t)
  | .neq, [s, t] => inequality n (simplify s) (simplify t)
  | .lt, [s, t] => comparison .lt (simplify s) (simplify t)
  | .lte, [s, t] => comparison .lte (simplify s) (simplify t)
  | .gt, [s, t] => comparison .gt (simplify s) (simplify t)
  | .gte, [s, t] => comparison .gte (simplify s) (simplify t)
  | .booleanDb _, args => opaqueCondition e (args.map simplify)
  | _, _ => .residual e

theorem evaluateTo_succ (e : Expression) :
    evaluateTo n logic (depth + 1) e = verdictWith n logic (simplifyTo n depth)
      (fun logic => judgeTo n logic depth) (evaluateTo n logic depth) e := rfl

/-- An equality asks for verdicts on what an injective symbol is taken apart into, and on nothing
else. -/
theorem equality_congr {judge judge' : Term → Verdict} {s t : Term}
    (h : ∀ equalities ∈ injectiveEqualities? s t, equalities.map judge = equalities.map judge') :
    equality n logic judge s t = equality n logic judge' s t := by
  unfold equality
  split
  · rfl
  · split
    · rfl
    · split
      · rfl
      · split
        · next he => rw [h _ he]
        · rfl

/-- The verdict depends on what becomes of lighter terms only. -/
theorem verdictWith_congr {simplify simplify' : Term → Term} {judge judge' : Logic → Term → Verdict}
    {evaluate evaluate' : Expression → Verdict} {e : Expression}
    (hlight : ∀ t, (simplify' t).weight ≤ t.weight)
    (hsimplify : ∀ t, t.weight < e.weight → simplify t = simplify' t)
    (hjudge : ∀ logic t, t.conditionWeight < e.weight → judge logic t = judge' logic t)
    (hevaluate : ∀ e', e'.weight < e.weight → evaluate e' = evaluate' e') :
    verdictWith n logic simplify judge evaluate e
      = verdictWith n logic simplify' judge' evaluate' e := by
  have hweights := e.weights_lt_weight
  have hargs {t : Term} (ht : t ∈ e.args) : simplify t = simplify' t :=
    hsimplify t (Nat.lt_of_le_of_lt (Term.weight_le_weights ht) hweights)
  have hoperands (logic : Logic) {ts : List Term} (hts : Term.conditionWeights ts < e.weight) :
      ts.map (judge logic) = ts.map (judge' logic) :=
    List.map_congr_left fun t ht =>
      hjudge logic t (Nat.lt_of_le_of_lt (Term.conditionWeight_le_conditionWeights ht) hts)
  unfold verdictWith
  split
  case h_1 hop =>
    rw [hoperands logic
      (by rw [Expression.weight_of_connective (.inl hop)]; exact Nat.lt_succ_self _)]
  case h_2 hop =>
    rw [hoperands logic
      (by rw [Expression.weight_of_connective (.inr (.inl hop))]; exact Nat.lt_succ_self _)]
  case h_3 t _ hop ha =>
    have hoperand := Expression.weight_of_connective (.inr (.inr hop))
    rw [ha, Term.conditionWeights_cons] at hoperand
    rw [hjudge .threeValued t (by omega)]
  case h_6 t _ _ ha =>
    have hle := hlight t
    rw [ha, Term.weights] at hweights
    rw [hargs (ha ▸ .head _)]
    split
    · rfl
    · split
      · next inner he =>
        rw [← Expression.toTerm_of_ofTerm? he] at hle
        change inner.weight ≤ _ at hle
        exact hevaluate inner (by omega)
      · rfl
  case h_7 s t _ ha =>
    have hs := hlight s
    have ht := hlight t
    rw [ha, Term.weights, Term.weights, Term.weights] at hweights
    rw [hargs (ha ▸ .head _), hargs (ha ▸ .tail _ (.head _))]
    refine equality_congr fun equalities he => hoperands logic ?_
    have hless := weights_injectiveEqualities he
    rw [Expression.weight_eq] at hless
    omega
  case h_13 => rw [List.map_congr_left fun t ht => hargs ht]
  case h_14 => rfl
  all_goals
    next ha =>
    simp only [ha, List.forall_mem_cons] at hargs
    simp only [hargs]

-- ---------------------------------------------------------------------------
-- More depth changes nothing
-- ---------------------------------------------------------------------------

/-- What is light enough for the depth is evaluated the same one level deeper. -/
structure Settled (n : Nullability) (depth : Nat) : Prop where
  simplify : ∀ t : Term, 2 * t.weight < depth → simplifyTo n (depth + 1) t = simplifyTo n depth t
  judge : ∀ (logic : Logic) (t : Term), 2 * t.conditionWeight < depth →
    judgeTo n logic (depth + 1) t = judgeTo n logic depth t
  evaluate : ∀ (logic : Logic) (e : Expression), 2 * e.weight ≤ depth →
    evaluateTo n logic (depth + 1) e = evaluateTo n logic depth e

theorem settled_evaluate_succ (ih : Settled n depth) {e : Expression}
    (hweight : 2 * e.weight ≤ depth + 1) :
    evaluateTo n logic (depth + 2) e = evaluateTo n logic (depth + 1) e := by
  rw [evaluateTo_succ, evaluateTo_succ]
  exact verdictWith_congr (lightens depth).simplify (fun t ht => ih.simplify t (by omega))
    (fun logic t ht => ih.judge logic t (by omega)) fun e' he => ih.evaluate logic e' (by omega)

/-- Enough depth for the weight is as good as more. -/
theorem settled (depth : Nat) : Settled n depth := by
  induction depth with
  | zero =>
    refine ⟨nofun, nofun, fun _ e h => ?_⟩
    have hpos : 0 < e.weight := e.toTerm.weight_pos
    omega
  | succ depth ih =>
    refine ⟨fun t h => ?_, fun logic t h => ?_, fun _ _ h => settled_evaluate_succ ih h⟩
    · cases t with
      | app f args =>
        rw [simplifyTo, simplifyTo]
        split
        · next hf => rw [ih.evaluate .threeValued ⟨f, args, hf⟩ (Nat.le_of_lt_succ h)]
        · rw [Term.weight] at h
          rw [List.map_congr_left fun t ht => ih.simplify t ?_]
          have hle := Term.weight_le_weights ht
          omega
      | _ => rfl
    · cases t with
      | app f args =>
        rw [judgeTo, judgeTo]
        split
        · next hf =>
          have he := Expression.conditionWeight_toTerm ⟨f, args, hf⟩
          exact ih.evaluate logic ⟨f, args, hf⟩ (by rw [← he]; exact Nat.le_of_lt_succ h)
        · next hf =>
          have hcondition : (Term.app f args).conditionWeight = (Term.app f args).weight + 1 :=
            congrArg (_ + ·) (if_neg hf)
          rw [ih.simplify _ (by omega)]
      | _ => rfl

/-- What is the same one level deeper is the same at any greater depth. -/
theorem eq_of_le {α : Type} {f : Nat → α} {depth depth' : Nat} (hle : depth ≤ depth')
    (h : ∀ k, depth ≤ k → f (k + 1) = f k) : f depth' = f depth := by
  induction depth', hle using Nat.le_induction with
  | base => rfl
  | succ k hk ih => rw [h k hk, ih]

end Evaluation

open Evaluation

-- ---------------------------------------------------------------------------
-- The equations
-- ---------------------------------------------------------------------------

/-- The verdict on the term in the place of a condition. -/
def Term.judge (t : Term) (logic : Logic) (n : Nullability) : Verdict :=
  judgeTo n logic (depthFor t.size) t

variable {n : Nullability} {logic : Logic} {depth : Nat}

theorem Term.simplifyTo_eq {t : Term} (h : 2 * t.weight < depth) :
    simplifyTo n depth t = t.simplify n := by
  have hdeep := t.weight_lt
  rcases Nat.le_total depth (depthFor t.size) with hle | hle
  · exact (eq_of_le (f := fun k => simplifyTo n k t) hle fun k hk =>
      (settled k).simplify t (by omega)).symm
  · refine eq_of_le (f := fun k => simplifyTo n k t) hle fun k hk => (settled k).simplify t ?_
    rw [depthFor] at hk
    omega

theorem Term.judgeTo_eq {t : Term} (h : 2 * t.conditionWeight < depth) :
    judgeTo n logic depth t = t.judge logic n := by
  have hdeep := t.weight_lt
  have hwrapped : t.conditionWeight ≤ t.weight + 1 := by
    rw [conditionWeight]
    split <;> omega
  rcases Nat.le_total depth (depthFor t.size) with hle | hle
  · exact (eq_of_le (f := fun k => judgeTo n logic k t) hle fun k hk =>
      (settled k).judge logic t (by omega)).symm
  · refine eq_of_le (f := fun k => judgeTo n logic k t) hle fun k hk =>
      (settled k).judge logic t ?_
    rw [depthFor] at hk
    omega

theorem Expression.evaluateTo_eq {e : Expression} (h : 2 * e.weight ≤ depth) :
    evaluateTo n logic depth e = e.evaluate logic n := by
  have hdeep : e.weight < 2 * e.toTerm.size := e.toTerm.weight_lt
  rcases Nat.le_total depth (depthFor e.toTerm.size) with hle | hle
  · exact (eq_of_le (f := fun k => evaluateTo n logic k e) hle fun k hk =>
      (settled k).evaluate logic e (by omega)).symm
  · refine eq_of_le (f := fun k => evaluateTo n logic k e) hle fun k hk =>
      (settled k).evaluate logic e ?_
    rw [depthFor] at hk
    omega

namespace Term

theorem map_simplifyTo_eq {ts : List Term} (h : 2 * weights ts < depth) :
    ts.map (simplifyTo n depth) = ts.map (·.simplify n) := by
  refine List.map_congr_left fun t ht => simplifyTo_eq ?_
  have hle := weight_le_weights ht
  omega

/-- A condition in the place of a value is evaluated under three-valued logic. -/
@[simp] theorem simplify_toTerm (e : Expression) :
    e.toTerm.simplify n = (e.evaluate .threeValued n).toTerm := by
  have hweight : 2 * e.toTerm.weight < 2 * e.weight + 1 := Nat.lt_succ_self _
  rw [← simplifyTo_eq hweight, Expression.toTerm, simplifyTo, dif_pos e.boolean,
    Expression.evaluateTo_eq (Nat.le_refl _)]

theorem simplify_app {f : Symbol} (hf : f.isBoolean = false) (args : List Term) :
    (app f args).simplify n = simplifyValue n f (args.map (·.simplify n)) := by
  have hweight := weight_function hf args
  have hargs : 2 * weights args < 2 * (app f args).weight := by omega
  rw [← simplifyTo_eq (Nat.lt_succ_self _), simplifyTo,
    dif_neg (Bool.eq_false_iff.1 hf), map_simplifyTo_eq hargs]

@[simp] theorem judge_toTerm (e : Expression) : e.toTerm.judge logic n = e.evaluate logic n := by
  have hweight : 2 * e.toTerm.conditionWeight < 2 * e.weight + 1 := by
    rw [Expression.conditionWeight_toTerm]
    exact Nat.lt_succ_self _
  rw [← judgeTo_eq hweight, Expression.toTerm, judgeTo, dif_pos e.boolean,
    Expression.evaluateTo_eq (Nat.le_refl _)]

/-- A value in the place of a condition: a constant decides it, of anything else it is asked whether
it is true. -/
theorem judge_app {f : Symbol} (hf : f.isBoolean = false) (args : List Term) :
    (app f args).judge logic n = match (app f args).simplify n with
      | .const c => .ofConstant c
      | s => .residual (.isTrue s) := by
  have hcondition : (app f args).conditionWeight = (app f args).weight + 1 :=
    congrArg (_ + ·) (if_neg (by rw [isBoolean, hf]; nofun))
  have hvalue : simplifyTo n (2 * (app f args).conditionWeight) (app f args)
      = (app f args).simplify n := simplifyTo_eq (by omega)
  rw [← judgeTo_eq (Nat.lt_succ_self _), ← hvalue, judgeTo]
  exact dif_neg (by rw [hf]; nofun)

end Term

/-- The verdict on an expression is put together from the verdicts and values below it. -/
theorem Expression.evaluate_eq (e : Expression) :
    e.evaluate logic n
      = verdictWith n logic (·.simplify n) (fun logic t => t.judge logic n)
          (evaluate · logic n) e := by
  have hlight (t : Term) : (t.simplify n).weight ≤ t.weight := (lightens _).simplify t
  rw [← evaluateTo_eq (Nat.le_succ _), evaluateTo_succ]
  exact verdictWith_congr hlight (fun t ht => Term.simplifyTo_eq (by omega))
    (fun _ t ht => Term.judgeTo_eq (by omega)) fun e' he => evaluateTo_eq (by omega)

end QueryAlgebra
