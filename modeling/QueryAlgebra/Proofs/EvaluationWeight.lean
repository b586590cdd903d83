import Mathlib.Algebra.GroupWithZero.Nat
import QueryAlgebra.Proofs.Occurrence

/-!
# A weight that evaluation does not add to

Evaluation looks at simplified terms again, so the size of a term does not tell how deep it goes: a
value in the place of a condition gets a test around it, and an equality between applications of an
injective symbol becomes one for each argument. The weight of a term counts all of this in advance.

Main statements: `Evaluation.lightens` — nothing that comes out of evaluation weighs more than what
goes in; `Term.weight_lt` — a term weighs less than twice its size.
-/

namespace QueryAlgebra

-- ---------------------------------------------------------------------------
-- Weights
-- ---------------------------------------------------------------------------

/-- What is counted for the arguments of a symbol besides their weights: the tests around those that
stand for conditions, and one for each argument of a function. -/
def Symbol.wrappers (f : Symbol) (args : List Term) : Nat :=
  if f.isBoolean then
    if f.operation = .and ∨ f.operation = .or ∨ f.operation = .not then
      args.countP (!Term.isBoolean ·)
    else 0
  else args.length

mutual

/-- The weight of a term in the place of a value. -/
def Term.weight : Term → Nat
  | .var _ => 1
  | .const _ => 1
  | .app f args => Term.weights args + f.wrappers args + 1

/-- The sum of the weights. -/
def Term.weights : List Term → Nat
  | [] => 0
  | t :: ts => t.weight + Term.weights ts

end

/-- The weight of a term in the place of a condition, where a value gets a test around it. -/
def Term.conditionWeight (t : Term) : Nat := t.weight + if t.isBoolean then 0 else 1

/-- The sum of the weights in the place of conditions. -/
def Term.conditionWeights (ts : List Term) : Nat := (ts.map conditionWeight).sum

def Expression.weight (e : Expression) : Nat := e.toTerm.weight

/-- The weight of what a verdict leaves; NULL may come back as an operand. -/
def Verdict.weight : Verdict → Nat
  | truth | falsity => 1
  | null => 2
  | residual e => e.weight

namespace Term

theorem weight_pos (t : Term) : 0 < t.weight := by
  cases t <;> simp [weight]

theorem weight_le_weights {t : Term} {ts : List Term} (h : t ∈ ts) : t.weight ≤ weights ts := by
  induction ts with
  | nil => exact absurd h List.not_mem_nil
  | cons u us ih =>
    rw [weights]
    rcases List.mem_cons.1 h with rfl | h
    · omega
    · have := ih h
      omega

theorem conditionWeights_cons (t : Term) (ts : List Term) :
    conditionWeights (t :: ts) = t.conditionWeight + conditionWeights ts := by
  rw [conditionWeights, List.map_cons, List.sum_cons, conditionWeights]

theorem conditionWeights_eq (ts : List Term) :
    conditionWeights ts = weights ts + ts.countP (!isBoolean ·) := by
  induction ts with
  | nil => rfl
  | cons t ts ih =>
    rw [conditionWeights_cons, weights, ih, List.countP_cons, conditionWeight]
    cases t.isBoolean <;> simp <;> omega

theorem conditionWeight_le_conditionWeights {t : Term} {ts : List Term} (h : t ∈ ts) :
    t.conditionWeight ≤ conditionWeights ts := by
  induction ts with
  | nil => exact absurd h List.not_mem_nil
  | cons u us ih =>
    rw [conditionWeights_cons]
    rcases List.mem_cons.1 h with rfl | h
    · omega
    · have := ih h
      omega

/-- A term weighs less than twice its size. -/
theorem weight_lt (t : Term) : t.weight < 2 * t.size := by
  have hall (ts : List Term) (ih : ∀ t ∈ ts, t.weight < 2 * t.size) :
      weights ts + ts.length ≤ 2 * sizeOfArgs ts := by
    induction ts with
    | nil => simp [weights]
    | cons t ts ihs =>
      rw [List.forall_mem_cons] at ih
      have hhead := ih.1
      have htail := ihs ih.2
      rw [weights, sizeOfArgs, List.length_cons]
      omega
  induction t using inductionOn with
  | var x => simp [weight, size]
  | const c => simp [weight, size]
  | app f args ih =>
    have hargs := hall args ih
    have hwrappers : f.wrappers args ≤ args.length := by
      unfold Symbol.wrappers
      split
      · split
        · exact List.countP_le_length
        · omega
      · omega
    rw [weight, size]
    omega

end Term

-- ---------------------------------------------------------------------------
-- Weights of conditions
-- ---------------------------------------------------------------------------

namespace Expression

open Term (conditionWeights)

variable {e : Expression} {t : Term}

theorem isBoolean_toTerm (e : Expression) : e.toTerm.isBoolean = true := e.boolean

theorem conditionWeight_toTerm (e : Expression) : e.toTerm.conditionWeight = e.weight := by
  rw [Term.conditionWeight, if_pos e.isBoolean_toTerm, Nat.add_zero]
  rfl

/-- Connectives weigh what their operands do, and one more. -/
theorem weight_of_connective (h : e.operation = .and ∨ e.operation = .or ∨ e.operation = .not) :
    e.weight = conditionWeights e.args + 1 := by
  have hwrappers : e.symbol.wrappers e.args = e.args.countP (!Term.isBoolean ·) := by
    rw [Symbol.wrappers, if_pos e.boolean]
    exact if_pos h
  rw [weight, toTerm, Term.weight, hwrappers, Term.conditionWeights_eq]

/-- Tests and comparisons weigh what their arguments do, and one more. -/
theorem weight_of_test (h : ¬(e.operation = .and ∨ e.operation = .or ∨ e.operation = .not)) :
    e.weight = Term.weights e.args + 1 := by
  have hwrappers : e.symbol.wrappers e.args = 0 := by
    rw [Symbol.wrappers, if_pos e.boolean]
    exact if_neg h
  rw [weight, toTerm, Term.weight, hwrappers, Nat.add_zero]

theorem weights_lt_weight (e : Expression) : Term.weights e.args < e.weight := by
  rw [weight, toTerm, Term.weight]
  omega

theorem weight_isTrue (t : Term) : (isTrue t).weight = t.weight + 1 := by
  rw [weight_of_test (by simp [operation, isTrue]), isTrue, Term.weights, Term.weights]

theorem weight_isNull (t : Term) : (isNull t).weight = t.weight + 1 := by
  rw [weight_of_test (by simp [operation, isNull]), isNull, Term.weights, Term.weights]

theorem weight_isNotNull (t : Term) : (isNotNull t).weight = t.weight + 1 := by
  rw [weight_of_test (by simp [operation, isNotNull]), isNotNull, Term.weights, Term.weights]

theorem weight_eq (s t : Term) : (eq s t).weight = s.weight + t.weight + 1 := by
  rw [weight_of_test (by simp [operation, eq]), eq, Term.weights, Term.weights, Term.weights]
  omega

theorem weight_ofTerm (t : Term) : (ofTerm t).weight = t.conditionWeight := by
  cases he : ofTerm? t with
  | some e =>
    rw [ofTerm, he, Option.getD_some, ← toTerm_of_ofTerm? he, conditionWeight_toTerm]
  | none =>
    have hboolean : t.isBoolean = false := by
      cases t with
      | app f args =>
        cases hf : f.isBoolean with
        | false => exact hf
        | true => simp [ofTerm?, hf] at he
      | _ => rfl
    rw [ofTerm, he, Option.getD_none, weight_isTrue, Term.conditionWeight, hboolean]
    rfl

/-- The sum of the weights of expressions. -/
def weights (es : List Expression) : Nat := (es.map weight).sum

theorem weights_cons (e : Expression) (es : List Expression) :
    weights (e :: es) = e.weight + weights es := by
  rw [weights, List.map_cons, List.sum_cons, weights]

theorem weights_append (es es' : List Expression) : weights (es ++ es') = weights es + weights es' := by
  rw [weights, List.map_append, List.sum_append]
  rfl

theorem conditionWeights_toTerm (es : List Expression) :
    conditionWeights (es.map toTerm) = weights es := by
  rw [Term.conditionWeights, weights, List.map_map]
  exact congrArg List.sum (List.map_congr_left fun e _ => conditionWeight_toTerm e)

theorem weights_ofTerm (ts : List Term) : weights (ts.map ofTerm) = conditionWeights ts := by
  rw [Term.conditionWeights, weights, List.map_map]
  exact congrArg List.sum (List.map_congr_left fun t _ => weight_ofTerm t)

theorem eraseDups_sublist {α : Type} [DecidableEq α] (l : List α) : l.eraseDups.Sublist l := by
  match l with
  | [] => exact .slnil
  | a :: l =>
    rw [List.eraseDups_cons]
    exact ((eraseDups_sublist _).trans List.filter_sublist).cons_cons a
termination_by l.length
decreasing_by exact Nat.lt_succ_of_le (List.length_filter_le _ _)

theorem weights_le_of_sublist {es es' : List Expression} (h : es.Sublist es') :
    weights es ≤ weights es' := by
  induction h with
  | slnil => exact Nat.le_refl _
  | cons e _ ih => rw [weights_cons]; omega
  | cons_cons e _ ih => rw [weights_cons, weights_cons]; omega

/-- The conjuncts weigh no more than what they are taken from. -/
theorem weights_conjunctsOf (t : Term) : weights (conjunctsOf t) ≤ t.conditionWeight := by
  have hall (ts : List Term) (ih : ∀ t ∈ ts, weights (conjunctsOf t) ≤ t.conditionWeight) :
      weights (conjunctsOfAll ts) ≤ conditionWeights ts := by
    induction ts with
    | nil => exact Nat.le_refl _
    | cons t ts ihs =>
      rw [List.forall_mem_cons] at ih
      have htail := ihs ih.2
      rw [conjunctsOfAll, weights_append, Term.conditionWeights_cons]
      omega
  have htest (t : Term) (ht : t.isBoolean = false) : weights [isTrue t] = t.conditionWeight := by
    rw [weights_cons, weight_isTrue, Term.conditionWeight, ht]
    rfl
  induction t using Term.inductionOn with
  | var x => exact Nat.le_of_eq (htest (.var x) rfl)
  | const c => exact Nat.le_of_eq (htest (.const c) rfl)
  | app f args ih =>
    unfold conjunctsOf
    split
    · next hf =>
      have he : (Term.app f args).conditionWeight = weight ⟨f, args, hf⟩ :=
        conditionWeight_toTerm ⟨f, args, hf⟩
      rw [he]
      split
      · next hand =>
        have hargs := hall args ih
        have hweight : weight ⟨f, args, hf⟩ = conditionWeights args + 1 :=
          weight_of_connective (.inl hand)
        omega
      · exact Nat.le_refl _
    · next hf => exact Nat.le_of_eq (htest (.app f args) (Bool.eq_false_iff.2 hf))

theorem weights_flatMap_conjuncts (es : List Expression) :
    weights (es.flatMap conjuncts) ≤ weights es := by
  induction es with
  | nil => exact Nat.le_refl _
  | cons e es ih =>
    have hhead := weights_conjunctsOf e.toTerm
    rw [conditionWeight_toTerm] at hhead
    rw [List.flatMap_cons, weights_append, weights_cons, conjuncts]
    omega

/-- A conjunction weighs at most one more than its operands. -/
theorem weight_conjunction {es : List Expression} (h : conjunction es = some e) :
    e.weight ≤ weights es + 1 := by
  have hparts : weights (es.flatMap conjuncts).eraseDups ≤ weights es :=
    (weights_le_of_sublist (eraseDups_sublist _)).trans (weights_flatMap_conjuncts es)
  unfold conjunction at h
  split at h
  · cases h
  · next he =>
    cases h
    rw [he, weights_cons] at hparts
    omega
  · cases h
    rw [weight_of_connective (.inl rfl), conditionWeights_toTerm]
    omega

end Expression

-- ---------------------------------------------------------------------------
-- Weights of verdicts
-- ---------------------------------------------------------------------------

namespace Verdict

open Term (conditionWeights)

/-- The sum of the weights of verdicts. -/
def weights (vs : List Verdict) : Nat := (vs.map weight).sum

theorem weights_cons (v : Verdict) (vs : List Verdict) :
    weights (v :: vs) = v.weight + weights vs := by
  rw [weights, List.map_cons, List.sum_cons, weights]

theorem weight_toTerm_le (v : Verdict) : v.toTerm.weight ≤ v.weight := by
  cases v with
  | residual e => exact Nat.le_refl _
  | null => exact Nat.le_succ 1
  | _ => exact Nat.le_refl 1

theorem weight_ofBool (b : Bool) : (ofBool b).weight = 1 := by
  cases b <;> rfl

theorem weight_nullOperand : nullOperand.weight = 2 := Expression.weight_isTrue .null

theorem weight_ofConstant_le (c : Constant) : (ofConstant c).weight ≤ 2 := by
  cases c with
  | boolean b => rw [ofConstant, weight_ofBool]; exact Nat.le_succ 1
  | null => exact Nat.le_refl 2
  | _ => exact Nat.le_of_eq (Expression.weight_isTrue _)

/-- What is undecided, with the operand that stands for NULL, weighs no more than the verdicts. -/
theorem weights_undecided (vs : List Verdict) :
    Expression.weights (vs.filterMap residual?) + (if .null ∈ vs then 2 else 0) ≤ weights vs := by
  induction vs with
  | nil => exact Nat.le_refl 0
  | cons v vs ih =>
    rw [weights_cons]
    cases v with
    | residual e =>
      have hmem : (.null ∈ Verdict.residual e :: vs) ↔ .null ∈ vs := by simp
      simp only [hmem, List.filterMap_cons, residual?, Expression.weights_cons, weight]
      omega
    | null =>
      simp only [List.mem_cons_self, if_true, List.filterMap_cons, residual?, weight]
      omega
    | _ =>
      simp only [List.mem_cons, reduceCtorEq, false_or, List.filterMap_cons, residual?, weight]
      omega

theorem weight_conjoin (logic : Logic) (vs : List Verdict) :
    (conjoin logic vs).weight ≤ weights vs + 1 := by
  unfold conjoin
  split
  · exact Nat.le_add_left 1 _
  · have hparts : Expression.weights ((vs.filterMap residual?).flatMap Expression.conjuncts ++
        if .null ∈ vs then [nullOperand] else []) ≤ weights vs := by
      have hconjuncts := Expression.weights_flatMap_conjuncts (vs.filterMap residual?)
      have hundecided := weights_undecided vs
      rw [Expression.weights_append]
      split
      · next hnull =>
        rw [if_pos hnull] at hundecided
        rw [Expression.weights_cons, weight_nullOperand]
        exact (Nat.add_le_add_right hconjuncts 2).trans hundecided
      · next hnull =>
        rw [if_neg hnull] at hundecided
        exact hconjuncts.trans hundecided
    dsimp only
    split
    · exact Nat.le_add_left 1 _
    · next e he =>
      have hweight := (Expression.weight_conjunction he).trans (Nat.add_le_add_right hparts 1)
      split
      · next hnull =>
        rw [hnull, weight_nullOperand] at hweight
        exact hweight
      · exact hweight

theorem weights_disjunctsWith (operands : List Expression) (e : Expression) :
    Expression.weights (disjunctsWith operands e) ≤ Expression.weights operands + e.weight := by
  have hsingle : Expression.weights [e] = e.weight := by
    rw [Expression.weights_cons]
    rfl
  unfold disjunctsWith
  split
  · next hor =>
    rw [Expression.weights_append, Expression.weights_ofTerm,
      Expression.weight_of_connective (.inr (.inl hor))]
    omega
  · split
    · exact Nat.le_add_right _ _
    · rw [Expression.weights_append, hsingle]

theorem weights_disjuncts (es operands : List Expression) :
    Expression.weights (es.foldl disjunctsWith operands)
      ≤ Expression.weights operands + Expression.weights es := by
  induction es generalizing operands with
  | nil => exact Nat.le_refl _
  | cons e es ih =>
    have hhead := weights_disjunctsWith operands e
    have htail := ih (disjunctsWith operands e)
    rw [List.foldl_cons, Expression.weights_cons]
    omega

theorem weight_or (es : List Expression) :
    (Expression.or es).weight = Expression.weights es + 1 := by
  rw [Expression.weight_of_connective (.inr (.inl rfl))]
  exact congrArg (· + 1) (Expression.conditionWeights_toTerm es)

theorem weight_disjoin (logic : Logic) (vs : List Verdict) :
    (disjoin logic vs).weight ≤ weights vs + 1 := by
  have hundecided := weights_undecided vs
  have hdisjuncts := weights_disjuncts (vs.filterMap residual?) []
  have hnil : Expression.weights [] = 0 := rfl
  unfold disjoin
  split
  · exact Nat.le_add_left 1 _
  · dsimp only
    split
    · next hnull =>
      rw [if_pos hnull.2] at hundecided
      split
      · change 2 ≤ _
        omega
      · rw [weight, weight_or, Expression.weights_append, Expression.weights_cons,
          weight_nullOperand]
        omega
    · split
      · exact Nat.le_add_left 1 _
      · next e he =>
        rw [he, Expression.weights_cons] at hdisjuncts
        rw [weight]
        omega
      · rw [weight, weight_or]
        omega

theorem weight_negate (v : Verdict) : v.negate.weight ≤ v.weight + 1 := by
  cases v with
  | residual e =>
    have hargs := e.weights_lt_weight
    rw [negate, weight, weight]
    unfold negateResidual
    split
    · next t hop ha =>
      have hweight := Expression.weight_of_connective (.inr (.inr hop))
      rw [ha, Term.conditionWeights_cons] at hweight
      rw [Expression.weight_ofTerm]
      omega
    · next t hop ha =>
      rw [ha, Term.weights] at hargs
      rw [Expression.weight_isNotNull]
      omega
    · next t hop ha =>
      rw [ha, Term.weights] at hargs
      rw [Expression.weight_isNull]
      omega
    · rw [Expression.weight_of_connective (.inr (.inr rfl))]
      exact Nat.le_of_eq (congrArg (· + 1) (Expression.conditionWeights_toTerm [e]))
  | _ => exact Nat.le_succ _

end Verdict

-- ---------------------------------------------------------------------------
-- Evaluation does not add weight
-- ---------------------------------------------------------------------------

namespace Evaluation

open Term (conditionWeights weights)

variable {n : Nullability}

theorem weights_choices (ts : List Term) :
    weights (choices n ts) + (choices n ts).length ≤ weights ts + ts.length := by
  induction ts with
  | nil => exact Nat.le_refl _
  | cons t ts ih =>
    unfold choices
    split
    · rw [weights, List.length_cons]
      omega
    · split
      · rw [weights, weights, List.length_cons, List.length_cons]
        omega
      · rw [weights, weights, weights, List.length_cons, List.length_cons, List.length_nil]
        omega

theorem weight_function {f : Symbol} (hf : f.isBoolean = false) (args : List Term) :
    (Term.app f args).weight = weights args + args.length + 1 := by
  rw [Term.weight, Symbol.wrappers, hf]
  rfl

theorem weight_simplifyValue {f : Symbol} (hf : f.isBoolean = false) (args : List Term) :
    (simplifyValue n f args).weight ≤ weights args + args.length + 1 := by
  have hchoices := weights_choices (n := n) args
  unfold simplifyValue
  split
  · split
    · exact Nat.le_add_left 1 _
    · next t ht =>
      rw [ht, weights, weights, List.length_singleton] at hchoices
      omega
    · rw [Term.coalesce, weight_function rfl]
      omega
  · split
    · exact Nat.le_add_left 1 _
    · split
      · exact Nat.le_add_left 1 _
      · exact Nat.le_of_eq (weight_function hf args)

/-- An equality weighs more than those that an injective symbol is taken apart into. -/
theorem weights_injectiveEqualities {s t : Term} {equalities : List Term}
    (h : injectiveEqualities? s t = some equalities) :
    conditionWeights equalities + 1 ≤ (Expression.eq s t).weight := by
  unfold injectiveEqualities? at h
  split at h
  · next f ss g ts =>
    split at h
    · next hsame =>
      obtain ⟨rfl, hinjective, hlength⟩ := hsame
      cases h
      have hf : f.isBoolean = false := by
        obtain ⟨op, k⟩ := f
        cases op <;> first | rfl | cases hinjective
      have hsum (us vs : List Term) (hlength : us.length = vs.length) :
          conditionWeights (List.zipWith (fun s t => (Expression.eq s t).toTerm) us vs)
            = weights us + weights vs + us.length := by
        induction us generalizing vs with
        | nil =>
          cases vs with
          | nil => rfl
          | cons _ _ => cases hlength
        | cons u us ih =>
          cases vs with
          | nil => cases hlength
          | cons v vs =>
            rw [List.zipWith_cons_cons, Term.conditionWeights_cons, ih vs (Nat.succ.inj hlength),
              Expression.conditionWeight_toTerm, Expression.weight_eq, weights, weights,
              List.length_cons]
            omega
      rw [hsum ss ts hlength, Expression.weight_eq, weight_function hf, weight_function hf]
      omega
    · cases h
  · cases h

/-- To this depth, nothing that comes out of evaluation weighs more than what goes in. -/
structure Lightens (n : Nullability) (depth : Nat) : Prop where
  simplify : ∀ t : Term, (simplifyTo n depth t).weight ≤ t.weight
  judge : ∀ (logic : Logic) (t : Term), (judgeTo n logic depth t).weight ≤ t.conditionWeight
  evaluate : ∀ (logic : Logic) (e : Expression), (evaluateTo n logic depth e).weight ≤ e.weight

theorem Lightens.map_simplify {depth : Nat} (h : Lightens n depth) (ts : List Term) :
    weights (ts.map (simplifyTo n depth)) ≤ weights ts := by
  induction ts with
  | nil => exact Nat.le_refl _
  | cons t ts ih =>
    have hhead := h.simplify t
    rw [List.map_cons, weights, weights]
    omega

theorem Lightens.map_judge {depth : Nat} (h : Lightens n depth) (logic : Logic) (ts : List Term) :
    Verdict.weights (ts.map (judgeTo n logic depth)) ≤ conditionWeights ts := by
  induction ts with
  | nil => exact Nat.le_refl _
  | cons t ts ih =>
    have hhead := h.judge logic t
    rw [List.map_cons, Verdict.weights_cons, Term.conditionWeights_cons]
    omega

theorem weight_equality {depth : Nat} (h : Lightens n depth) (logic : Logic) (s t : Term) :
    (equality n logic (judgeTo n logic depth) s t).weight ≤ (Expression.eq s t).weight := by
  have hs := s.weight_pos
  have hweight := Expression.weight_eq s t
  unfold equality
  split
  · change 2 ≤ _
    omega
  · split
    · rw [Verdict.weight_ofBool]
      omega
    · split
      · split
        · change 1 ≤ _
          omega
        · split
          · rw [Verdict.weight, Expression.weight_isNotNull]
            omega
          · exact Nat.le_refl _
      · split
        · next equalities he =>
          have hconjoin := Verdict.weight_conjoin .twoValued
            (equalities.map (judgeTo n .twoValued depth))
          have hjudge := h.map_judge .twoValued equalities
          have hless := weights_injectiveEqualities he
          omega
        · exact Nat.le_refl _

theorem weight_inequality (s t : Term) :
    (inequality n s t).weight ≤ s.weight + t.weight + 1 := by
  have hs := s.weight_pos
  have hweight : (Expression.neq s t).weight = s.weight + t.weight + 1 := by
    rw [Expression.weight_of_test (by simp [Expression.operation, Expression.neq]),
      Expression.neq, weights, weights, weights]
    omega
  unfold inequality
  split
  · change 2 ≤ _
    omega
  · split
    · rw [Verdict.weight_ofBool]
      omega
    · split
      · change 1 ≤ _
        omega
      · exact Nat.le_of_eq hweight

theorem weight_comparison (c : Comparison) (s t : Term) :
    (comparison c s t).weight ≤ s.weight + t.weight + 1 := by
  have hs := s.weight_pos
  have hweight : (c.expression s t).weight = s.weight + t.weight + 1 := by
    have htest : (c.expression s t).operation = c.operation := rfl
    rw [Expression.weight_of_test (by rw [htest]; cases c <;> simp [Comparison.operation]),
      Comparison.expression, weights, weights, weights]
    omega
  unfold comparison
  split
  · change 2 ≤ _
    omega
  · split
    · rw [Verdict.weight_ofBool]
      omega
    · exact Nat.le_of_eq hweight

theorem weight_testNull (expectNull : Bool) (t : Term) :
    (testNull n expectNull t).weight ≤ t.weight + 1 := by
  unfold testNull
  split
  · rw [Verdict.weight_ofBool]
    omega
  · split
    · rw [Verdict.weight_ofBool]
      omega
    · split
      · exact Nat.le_of_eq (Expression.weight_isNull t)
      · exact Nat.le_of_eq (Expression.weight_isNotNull t)

theorem weight_opaqueCondition {e : Expression} {name : String}
    (hop : e.operation = .booleanDb name) (args : List Term) :
    (opaqueCondition e args).weight ≤ weights args + 1 := by
  unfold opaqueCondition
  split
  · next h =>
    obtain ⟨t, ht, -⟩ := List.any_eq_true.1 (Bool.and_eq_true_iff.1 h).2
    have hmem := Term.weight_le_weights ht
    have hpos := t.weight_pos
    change 2 ≤ _
    omega
  · apply Nat.le_of_eq
    have hop' : e.symbol.operation = .booleanDb name := hop
    exact Expression.weight_of_test (by simp [Expression.operation, hop'])

theorem lightens_evaluate_succ {depth : Nat} (ih : Lightens n depth) (logic : Logic)
    (e : Expression) : (evaluateTo n logic (depth + 1) e).weight ≤ e.weight := by
  have hweights := e.weights_lt_weight
  rw [evaluateTo]
  split
  case h_1 hop =>
    rw [Expression.weight_of_connective (.inl hop)]
    exact (Verdict.weight_conjoin logic _).trans (Nat.add_le_add_right (ih.map_judge logic _) 1)
  case h_2 hop =>
    rw [Expression.weight_of_connective (.inr (.inl hop))]
    exact (Verdict.weight_disjoin logic _).trans (Nat.add_le_add_right (ih.map_judge logic _) 1)
  case h_3 t _ hop ha =>
    have hjudge := ih.judge .threeValued t
    have hnegate := (judgeTo n .threeValued depth t).weight_negate
    rw [Expression.weight_of_connective (.inr (.inr hop)), ha, Term.conditionWeights_cons]
    omega
  case h_6 t _ _ ha =>
    have hs := ih.simplify t
    rw [ha, weights] at hweights
    split
    · next c _ =>
      have hconst := Verdict.weight_ofConstant_le c
      have hpos := t.weight_pos
      omega
    · split
      · next inner he =>
        have hinner := ih.evaluate logic inner
        rw [← Expression.toTerm_of_ofTerm? he] at hs
        change inner.weight ≤ _ at hs
        omega
      · rw [Verdict.weight, Expression.weight_isTrue]
        omega
  case h_13 hop =>
    have hargs := ih.map_simplify e.args
    have hopaque := weight_opaqueCondition hop (e.args.map (simplifyTo n depth))
    omega
  case h_14 => exact Nat.le_refl _
  case h_4 t _ _ ha =>
    have hs := ih.simplify t
    have htest := weight_testNull (n := n) true (simplifyTo n depth t)
    rw [ha, weights] at hweights
    omega
  case h_5 t _ _ ha =>
    have hs := ih.simplify t
    have htest := weight_testNull (n := n) false (simplifyTo n depth t)
    rw [ha, weights] at hweights
    omega
  all_goals
    next s t _ ha =>
    have hs := ih.simplify s
    have ht := ih.simplify t
    rw [ha, weights, weights, weights] at hweights
    first
      | have hnew := weight_equality ih logic (simplifyTo n depth s) (simplifyTo n depth t)
        rw [Expression.weight_eq] at hnew
        omega
      | have hnew := weight_inequality (n := n) (simplifyTo n depth s) (simplifyTo n depth t)
        omega
      | refine (weight_comparison _ _ _).trans ?_
        omega

/-- Nothing that comes out of evaluation weighs more than what goes in. -/
theorem lightens (depth : Nat) : Lightens n depth := by
  induction depth with
  | zero =>
    exact ⟨fun _ => Nat.le_refl _, fun _ t => Nat.le_of_eq (Expression.weight_ofTerm t),
      fun _ _ => Nat.le_refl _⟩
  | succ depth ih =>
    have hsimplify (t : Term) : (simplifyTo n (depth + 1) t).weight ≤ t.weight := by
      cases t with
      | app f args =>
        rw [simplifyTo]
        split
        · next hf =>
          exact (Verdict.weight_toTerm_le _).trans (ih.evaluate .threeValued ⟨f, args, hf⟩)
        · next hf =>
          have hargs := ih.map_simplify args
          have hvalue := weight_simplifyValue (n := n) (Bool.eq_false_iff.2 hf)
            (args.map (simplifyTo n depth))
          rw [List.length_map] at hvalue
          rw [weight_function (Bool.eq_false_iff.2 hf)]
          omega
      | _ => exact Nat.le_refl _
    have hjudge (logic : Logic) (t : Term) :
        (judgeTo n logic (depth + 1) t).weight ≤ t.conditionWeight := by
      cases t with
      | var x => exact Nat.le_of_eq (Expression.weight_isTrue _)
      | const c => exact Verdict.weight_ofConstant_le c
      | app f args =>
        rw [judgeTo]
        split
        · next hf =>
          have he := Expression.conditionWeight_toTerm ⟨f, args, hf⟩
          exact (ih.evaluate logic ⟨f, args, hf⟩).trans (Nat.le_of_eq he.symm)
        · next hf =>
          have hs := ih.simplify (.app f args)
          have hpos := (Term.app f args).weight_pos
          have hcondition : (Term.app f args).conditionWeight = (Term.app f args).weight + 1 :=
            congrArg (_ + ·) (if_neg hf)
          rw [hcondition]
          split
          · next c _ => exact (Verdict.weight_ofConstant_le c).trans (by omega)
          · rw [Verdict.weight, Expression.weight_isTrue]
            omega
    exact ⟨hsimplify, hjudge, fun logic e => lightens_evaluate_succ ih logic e⟩

end Evaluation

end QueryAlgebra
