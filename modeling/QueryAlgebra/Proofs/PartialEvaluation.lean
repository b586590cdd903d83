import QueryAlgebra.Proofs.Coding
import QueryAlgebra.Proofs.Consistency
import QueryAlgebra.Proofs.Occurrence
import QueryAlgebra.Proofs.Substitution

/-!
# Partial evaluation keeps the meaning

A verdict has a truth value on a row: that of the expression it leaves, if it leaves one. Under
three-valued logic the verdict on a condition is worth what the condition is; under two-valued logic
the two need only agree on being true (`Logic.Agrees`).

Evaluation is sound because its rules are, and the rules are stated on simplified operands: each has
a lemma here that needs no recursion. Main statements:

* `Evaluation.sound_to` — evaluation to any depth keeps the meaning of terms and conditions;
* `Expression.not_holds_of_rejectsNullsOf` — a condition that rejects the NULLs of some variables
  does not hold where all of them are NULL;
* `partial_evaluation_sound` — all of it for the evaluation that is run.

The row has to agree with the nullability that evaluation is told, and arithmetic has to be between
two arguments.
-/

namespace QueryAlgebra

open Interpretation

variable {I : Interpretation} {ρ : Row} {n : Nullability}

-- ---------------------------------------------------------------------------
-- Truth values of verdicts
-- ---------------------------------------------------------------------------

/-- The truth value that a verdict stands for. -/
def Verdict.truthIn (I : Interpretation) (ρ : Row) : Verdict → Truth
  | truth => some true
  | falsity => some false
  | null => none
  | residual e => I.judge ρ e.toTerm

/-- The truth values that the logic does not tell apart: under two-valued logic, NULL and false. -/
def Logic.Agrees : Logic → Truth → Truth → Prop
  | .threeValued, a, b => a = b
  | .twoValued, a, b => a = some true ↔ b = some true

namespace Logic.Agrees

theorem refl (logic : Logic) (a : Truth) : logic.Agrees a a := by
  cases logic
  · exact Iff.rfl
  · exact rfl

theorem of_eq {logic : Logic} {a b : Truth} (h : a = b) : logic.Agrees a b := h ▸ refl logic a

theorem trans {logic : Logic} {a b c : Truth} (hab : logic.Agrees a b) (hbc : logic.Agrees b c) :
    logic.Agrees a c := by
  cases logic
  · exact Iff.trans hab hbc
  · exact Eq.trans hab hbc

theorem conj {α : Type} {logic : Logic} {f g : α → Truth} {xs : List α}
    (h : ∀ x ∈ xs, logic.Agrees (f x) (g x)) :
    logic.Agrees (Truth.conj (xs.map f)) (Truth.conj (xs.map g)) := by
  cases logic
  · change _ ↔ _
    rw [Truth.conj_eq_true, Truth.conj_eq_true, List.forall_mem_map, List.forall_mem_map]
    exact forall₂_congr h
  · exact congrArg Truth.conj (List.map_congr_left h)

theorem disj {α : Type} {logic : Logic} {f g : α → Truth} {xs : List α}
    (h : ∀ x ∈ xs, logic.Agrees (f x) (g x)) :
    logic.Agrees (Truth.disj (xs.map f)) (Truth.disj (xs.map g)) := by
  cases logic
  · change _ ↔ _
    rw [Truth.disj_eq_true, Truth.disj_eq_true, List.mem_map, List.mem_map]
    exact exists_congr fun x => and_congr_right (h x)
  · exact congrArg Truth.disj (List.map_congr_left h)

end Logic.Agrees

-- ---------------------------------------------------------------------------
-- Connectives
-- ---------------------------------------------------------------------------

namespace Verdict

@[simp] theorem truthIn_ofBool (b : Bool) : (ofBool b).truthIn I ρ = some b := by
  cases b <;> rfl

@[simp] theorem truthIn_ofConstant (c : Constant) : (ofConstant c).truthIn I ρ = I.truthOf c := by
  cases c with
  | boolean b => exact truthIn_ofBool b
  | null => rfl
  | _ => exact judge_expression_isTrue _

@[simp] theorem judge_nullOperand : I.judge ρ nullOperand.toTerm = none :=
  judge_expression_isTrue .null

theorem eval_toTerm (v : Verdict) : I.eval ρ v.toTerm = (v.truthIn I ρ).toConstant := by
  cases v with
  | residual e => exact Interpretation.eval_toTerm e
  | _ => rfl

theorem truthIn_negateResidual (e : Expression) :
    I.judge ρ (negateResidual e).toTerm = (I.judge ρ e.toTerm).neg := by
  unfold negateResidual
  split
  · next t hop ha =>
    have he : I.judge ρ e.toTerm = (I.judge ρ t).neg := by
      rw [Expression.toTerm, ha]
      exact judge_not hop t []
    rw [judge_ofTerm, he, Truth.neg_neg]
  · next t hop ha =>
    have he : I.judge ρ e.toTerm = some (I.eval ρ t).isNull := by
      rw [Expression.toTerm, ha]
      exact judge_isNull hop t []
    rw [judge_expression_isNotNull, he]
    rfl
  · next t hop ha =>
    have he : I.judge ρ e.toTerm = some !(I.eval ρ t).isNull := by
      rw [Expression.toTerm, ha]
      exact judge_isNotNull hop t []
    rw [judge_expression_isNull, he]
    simp [Truth.neg]
  · exact judge_expression_not e

theorem truthIn_negate (v : Verdict) : v.negate.truthIn I ρ = (v.truthIn I ρ).neg := by
  cases v with
  | residual e => exact truthIn_negateResidual e
  | _ => rfl

/-- What stays undecided, with the operand that stands for NULL if an operand is NULL, is worth what
those operands are that are neither true nor false. -/
theorem mem_truthIn {vs : List Verdict} {t : Truth} :
    t ∈ (vs.filterMap residual? ++ if .null ∈ vs then [nullOperand] else []).map
        (fun e => I.judge ρ e.toTerm)
      ↔ ∃ v ∈ vs, v ≠ .truth ∧ v ≠ .falsity ∧ v.truthIn I ρ = t := by
  rw [List.mem_map]
  constructor
  · rintro ⟨e, he, rfl⟩
    rcases List.mem_append.1 he with he | he
    · obtain ⟨v, hv, hr⟩ := List.mem_filterMap.1 he
      cases v with
      | residual e' =>
        cases hr
        exact ⟨_, hv, by simp, by simp, rfl⟩
      | _ => cases hr
    · split at he
      · next hnull =>
        rw [List.mem_singleton] at he
        exact ⟨_, hnull, by simp, by simp, by rw [he, judge_nullOperand]; rfl⟩
      · exact absurd he List.not_mem_nil
  · rintro ⟨v, hv, htruth, hfalsity, rfl⟩
    cases v with
    | truth => exact absurd rfl htruth
    | falsity => exact absurd rfl hfalsity
    | null => exact ⟨nullOperand, by simp [hv], judge_nullOperand⟩
    | residual e =>
      have he : e ∈ vs.filterMap residual? := List.mem_filterMap.2 ⟨_, hv, rfl⟩
      exact ⟨e, List.mem_append_left _ he, rfl⟩

/-- Where no operand is false, the conjunction is worth what is left of its operands. -/
theorem conj_truthIn {vs : List Verdict} (hfalsity : .falsity ∉ vs) :
    Truth.conj ((vs.filterMap residual? ++ if .null ∈ vs then [nullOperand] else []).map
        fun e => I.judge ρ e.toTerm)
      = Truth.conj (vs.map (truthIn I ρ)) := by
  apply Truth.conj_congr
  intro t ht
  rw [mem_truthIn, List.mem_map]
  constructor
  · rintro ⟨v, hv, -, -, he⟩
    exact ⟨v, hv, he⟩
  · rintro ⟨v, hv, rfl⟩
    exact ⟨v, hv, fun h => ht (by rw [h]; rfl), fun h => hfalsity (h ▸ hv), rfl⟩

/-- Where no operand is true, the disjunction is worth what is left of its operands. -/
theorem disj_truthIn {vs : List Verdict} (htruth : .truth ∉ vs) :
    Truth.disj ((vs.filterMap residual? ++ if .null ∈ vs then [nullOperand] else []).map
        fun e => I.judge ρ e.toTerm)
      = Truth.disj (vs.map (truthIn I ρ)) := by
  apply Truth.disj_congr
  intro t ht
  rw [mem_truthIn, List.mem_map]
  constructor
  · rintro ⟨v, hv, -, -, he⟩
    exact ⟨v, hv, he⟩
  · rintro ⟨v, hv, rfl⟩
    exact ⟨v, hv, fun h => htruth (h ▸ hv), fun h => ht (by rw [h]; rfl), rfl⟩

theorem conjoin_agrees (logic : Logic) (vs : List Verdict) :
    logic.Agrees ((conjoin logic vs).truthIn I ρ) (Truth.conj (vs.map (truthIn I ρ))) := by
  unfold conjoin
  split
  · next h =>
    rcases h with h | ⟨rfl, h⟩
    · apply Logic.Agrees.of_eq
      rw [Truth.conj_eq_false.2 (List.mem_map.2 ⟨_, h, rfl⟩)]
      rfl
    · constructor
      · exact fun he => by simp [truthIn] at he
      · intro hall
        have := Truth.conj_eq_true.1 hall _ (List.mem_map.2 ⟨_, h, rfl⟩)
        simp [truthIn] at this
  · next h =>
    apply Logic.Agrees.of_eq
    rw [← conj_truthIn fun hmem => h (.inl hmem), List.map_append, Truth.conj_append,
      ← conj_judge_flatMap_conjuncts, ← Truth.conj_append, ← List.map_append, ← judge_conjunction]
    dsimp only
    split
    · next he => rw [he]; rfl
    · next e he =>
      rw [he, Option.elim_some]
      split
      · next hnull => rw [hnull, judge_nullOperand]; rfl
      · rfl

theorem disj_judge_disjunctsWith (operands : List Expression) (e : Expression) :
    Truth.disj ((disjunctsWith operands e).map fun e => I.judge ρ e.toTerm)
      = Truth.disj ((operands ++ [e]).map fun e => I.judge ρ e.toTerm) := by
  unfold disjunctsWith
  split
  · next hor =>
    have he : I.judge ρ e.toTerm = Truth.disj (e.args.map (I.judge ρ)) := judge_or hor e.args
    have hargs : (e.args.map Expression.ofTerm).map (fun e => I.judge ρ e.toTerm)
        = e.args.map (I.judge ρ) := by
      rw [List.map_map]
      exact List.map_congr_left fun t _ => judge_ofTerm t
    rw [List.map_append, List.map_append, Truth.disj_append, Truth.disj_append, hargs, ← he,
      List.map_singleton, Truth.disj_singleton]
  · split
    · next hmem =>
      apply Truth.disj_congr
      intro t _
      simp only [List.mem_map, List.mem_append, List.mem_singleton]
      constructor
      · rintro ⟨c, hc, he⟩
        exact ⟨c, .inl hc, he⟩
      · rintro ⟨c, hc | rfl, he⟩
        · exact ⟨c, hc, he⟩
        · exact ⟨c, hmem, he⟩
    · rfl

theorem disj_judge_disjuncts (es operands : List Expression) :
    Truth.disj ((es.foldl disjunctsWith operands).map fun e => I.judge ρ e.toTerm)
      = Truth.disj ((operands ++ es).map fun e => I.judge ρ e.toTerm) := by
  induction es generalizing operands with
  | nil => rw [List.foldl_nil, List.append_nil]
  | cons e es ih =>
    rw [List.foldl_cons, ih, List.map_append, Truth.disj_append, disj_judge_disjunctsWith,
      ← Truth.disj_append, ← List.map_append, List.append_assoc, List.singleton_append]

theorem disjoin_agrees (logic : Logic) (vs : List Verdict) :
    logic.Agrees ((disjoin logic vs).truthIn I ρ) (Truth.disj (vs.map (truthIn I ρ))) := by
  have hdisjuncts (marker : List Expression) :
      Truth.disj (((vs.filterMap residual?).foldl disjunctsWith [] ++ marker).map
          fun e => I.judge ρ e.toTerm)
        = Truth.disj ((vs.filterMap residual? ++ marker).map fun e => I.judge ρ e.toTerm) := by
    rw [List.map_append, Truth.disj_append, disj_judge_disjuncts, List.nil_append,
      ← Truth.disj_append, ← List.map_append]
  unfold disjoin
  split
  · next h =>
    apply Logic.Agrees.of_eq
    rw [Truth.disj_eq_true.2 (List.mem_map.2 ⟨_, h, rfl⟩)]
    rfl
  · next htruth =>
    dsimp only
    split
    · next h =>
      have hall := disj_truthIn (I := I) (ρ := ρ) htruth
      rw [if_pos h.2, ← hdisjuncts] at hall
      apply Logic.Agrees.of_eq
      rw [← hall]
      split
      · next hempty =>
        rw [List.isEmpty_iff.1 hempty, List.nil_append, List.map_singleton, Truth.disj_singleton,
          judge_nullOperand]
        rfl
      · exact judge_expression_or _
    · next h =>
      have hundecided : logic.Agrees
          (Truth.disj (((vs.filterMap residual?).foldl disjunctsWith []).map
            fun e => I.judge ρ e.toTerm))
          (Truth.disj (vs.map (truthIn I ρ))) := by
        rw [← disj_truthIn htruth, disj_judge_disjuncts, List.nil_append]
        split
        · next hnull =>
          cases logic with
          | threeValued => exact absurd ⟨rfl, hnull⟩ h
          | twoValued =>
            change _ ↔ _
            rw [List.map_append, Truth.disj_eq_true, Truth.disj_eq_true, List.mem_append,
              List.map_singleton, judge_nullOperand, List.mem_singleton]
            simp
        · rw [List.append_nil]
          exact Logic.Agrees.refl _ _
      split
      · next he => rwa [he] at hundecided
      · next e he => rwa [he, List.map_singleton, Truth.disj_singleton] at hundecided
      · rw [← judge_expression_or] at hundecided
        exact hundecided

end Verdict

-- ---------------------------------------------------------------------------
-- Value functions
-- ---------------------------------------------------------------------------

namespace Interpretation

/-- A strict function computes its value from arguments that are not NULL. -/
theorem apply_of_isStrict {f : Symbol} (hboolean : f.isBoolean = false) (hstrict : f.isStrict = true)
    (vs : List Constant) : I.apply f vs = strictly vs (I.value f vs) := by
  obtain ⟨op, m⟩ := f
  cases op
  case template | add | subtract | multiply | concat | db => rfl
  case count | sum | min | max | avg | coalesce | and | or | isNull | isNotNull =>
    exact absurd hstrict Bool.false_ne_true
  all_goals exact absurd hboolean (Ne.symm Bool.false_ne_true)

theorem judge_booleanDb {f : Symbol} {name : String} (hf : f.operation = .booleanDb name)
    (args : List Term) :
    I.judge ρ (.app f args)
      = I.truthOf (strictly (args.map (I.eval ρ)) (.boolean (I.condition f (args.map (I.eval ρ))))) := by
  obtain ⟨_, m⟩ := f
  cases hf
  rw [judge, eval_app]
  rfl

end Interpretation

namespace Evaluation

theorem eval_of_isNull {t : Term} (h : t.isNull = true) : I.eval ρ t = .null := by
  cases t with
  | const c => cases c <;> simp_all [Term.isNull, Constant.isNull]
  | _ => cases h

/-- The first value that is not NULL is among the choices. -/
theorem find?_choices (hn : n.Admits ρ) (ts : List Term) :
    ((choices n ts).map (I.eval ρ)).find? (!·.isNull)
      = (ts.map (I.eval ρ)).find? (!·.isNull) := by
  induction ts with
  | nil => rfl
  | cons t ts ih =>
    unfold choices
    split
    · next hnull => rw [ih, List.map_cons, eval_of_isNull hnull, List.find?_cons_of_neg (by decide)]
    · split
      · rw [List.map_cons, List.map_cons, List.find?_cons, List.find?_cons, ih]
      · next hnullable =>
        have hne := hn.eval_ne_null (I := I) (by simpa using hnullable)
        have hfound : (!(I.eval ρ t).isNull) = true := by
          cases h : I.eval ρ t <;> simp_all [Constant.isNull]
        simp only [List.map_cons, List.map_nil, List.find?_cons, hfound]

theorem apply_of_fold? {op : Operation} {i j k : Int} (m : Nat) (h : fold? op i j = some k) :
    I.apply ⟨op, m⟩ [.integer i, .integer j] = .integer k := by
  obtain ⟨hvalue, hfits⟩ := Option.filter_eq_some_iff.1 h
  cases op
  case add =>
    cases hvalue
    exact I.add_exact m i j hfits
  case subtract =>
    cases hvalue
    exact I.subtract_exact m i j hfits
  case multiply =>
    cases hvalue
    exact I.multiply_exact m i j hfits
  all_goals cases hvalue

theorem isArithmetic_of_foldArgs? {op : Operation} {args : List Term} {k : Int}
    (h : foldArgs? op args = some k) : op.isArithmetic = true := by
  unfold foldArgs? at h
  split at h
  · obtain ⟨i, -, h⟩ := Option.bind_eq_some_iff.1 h
    obtain ⟨j, -, h⟩ := Option.bind_eq_some_iff.1 h
    obtain ⟨hvalue, -⟩ := Option.filter_eq_some_iff.1 h
    cases op <;> first | rfl | cases hvalue
  · cases h

theorem eval_of_integer? {t : Term} {i : Int} (h : t.integer? = some i) :
    I.eval ρ t = .integer i := by
  cases t with
  | const c => cases c <;> simp_all [Term.integer?, Term.constant?, Constant.integer?]
  | _ => cases h

theorem apply_of_foldArgs? {f : Symbol} {args : List Term} {k : Int} (hargs : args.length = 2)
    (h : foldArgs? f.operation args = some k) : I.apply f (args.map (I.eval ρ)) = .integer k := by
  obtain ⟨s, t, rfl⟩ := List.length_eq_two.1 hargs
  obtain ⟨i, hi, h⟩ := Option.bind_eq_some_iff.1 h
  obtain ⟨j, hj, h⟩ := Option.bind_eq_some_iff.1 h
  rw [List.map_cons, List.map_singleton, eval_of_integer? hi, eval_of_integer? hj]
  exact apply_of_fold? f.arity h

theorem eval_simplifyValue (hn : n.Admits ρ) {f : Symbol} {args : List Term}
    (hboolean : f.isBoolean = false) (hargs : f.operation.isArithmetic = true → args.length = 2) :
    I.eval ρ (simplifyValue n f args) = I.apply f (args.map (I.eval ρ)) := by
  unfold simplifyValue
  split
  · next hop =>
    rw [apply_coalesce hop, ← find?_choices hn]
    split
    · next he => rw [he]; rfl
    · next t he =>
      rw [he, List.map_singleton]
      cases h : I.eval ρ t <;> simp [Constant.isNull]
    · rw [Term.coalesce, eval_app, apply_coalesce rfl]
  · split
    · next h =>
      rw [Bool.and_eq_true, List.any_eq_true] at h
      obtain ⟨hstrict, t, ht, hnull⟩ := h
      have hmem : .null ∈ args.map (I.eval ρ) :=
        List.mem_map.2 ⟨t, ht, eval_of_isNull hnull⟩
      rw [apply_of_isStrict hboolean hstrict, strictly, if_pos hmem]
      rfl
    · split
      · next h =>
        rw [apply_of_foldArgs? (hargs (isArithmetic_of_foldArgs? h)) h]
        rfl
      · rw [eval_app]

-- ---------------------------------------------------------------------------
-- Conditions on simplified operands
-- ---------------------------------------------------------------------------

theorem truthIn_testNull (hn : n.Admits ρ) (expectNull : Bool) (t : Term) :
    (testNull n expectNull t).truthIn I ρ = some ((I.eval ρ t).isNull == expectNull) := by
  unfold testNull
  split
  · next h =>
    rw [Verdict.truthIn_ofBool, eval_of_isNull h]
    cases expectNull <;> rfl
  · split
    · next h =>
      have hne := hn.eval_ne_null (I := I) (t := t) (by simpa using h)
      have hnull : (I.eval ρ t).isNull = false := by
        cases h : I.eval ρ t <;> simp_all [Constant.isNull]
      rw [Verdict.truthIn_ofBool, hnull]
      cases expectNull <;> rfl
    · cases expectNull
      · simp [Verdict.truthIn]
      · simp [Verdict.truthIn]

theorem equalityOf_of_isNull {s t : Term} (h : (s.isNull || t.isNull) = true) :
    equalityOf (I.eval ρ s) (I.eval ρ t) = none := by
  rw [Bool.or_eq_true] at h
  rw [equalityOf, if_pos]
  exact h.imp eval_of_isNull eval_of_isNull

theorem equalityOf_const {c d : Constant}
    (h : ¬((Term.const c).isNull || (Term.const d).isNull) = true) :
    equalityOf c d = some (decide (c = d)) := by
  rw [Bool.or_eq_true, not_or] at h
  rw [equalityOf, if_neg]
  rintro (rfl | rfl)
  · exact h.1 rfl
  · exact h.2 rfl

theorem equalityOf_self {v : Constant} (h : v ≠ .null) : equalityOf v v = some true := by
  rw [equalityOf_eq_true]
  exact ⟨rfl, h⟩

theorem judge_zipWith_eq {ss ts : List Term} (hlength : ss.length = ts.length) :
    (∀ u ∈ List.zipWith (fun s t => (Expression.eq s t).toTerm) ss ts, I.judge ρ u = some true)
      ↔ ss.map (I.eval ρ) = ts.map (I.eval ρ) ∧ .null ∉ ss.map (I.eval ρ) := by
  induction ss generalizing ts with
  | nil =>
    cases ts with
    | nil => simp
    | cons t ts => cases hlength
  | cons s ss ih =>
    cases ts with
    | nil => cases hlength
    | cons t ts =>
      rw [List.zipWith_cons_cons, List.forall_mem_cons, ih (by simpa using hlength),
        judge_expression_eq, equalityOf_eq_true, List.map_cons, List.map_cons, List.cons.injEq,
        List.mem_cons, not_or]
      constructor
      · rintro ⟨⟨he, hne⟩, hes, hnes⟩
        exact ⟨⟨he, hes⟩, Ne.symm hne, hnes⟩
      · rintro ⟨⟨he, hes⟩, hne, hnes⟩
        exact ⟨⟨he, Ne.symm hne⟩, hes, hnes⟩

/-- Terms of one template are equal exactly when their arguments are, one by one. -/
theorem equalityOf_injective {s t : Term} {equalities : List Term}
    (h : injectiveEqualities? s t = some equalities) :
    Truth.conj (equalities.map (I.judge ρ)) = some true
      ↔ equalityOf (I.eval ρ s) (I.eval ρ t) = some true := by
  unfold injectiveEqualities? at h
  split at h
  · next f ss g ts =>
    split at h
    · next hf =>
      obtain ⟨rfl, hinjective, hlength⟩ := hf
      cases h
      obtain ⟨op, m⟩ := f
      cases op
      case template pattern =>
        have happly (vs : List Constant) :
            I.apply ⟨.template pattern, m⟩ vs = strictly vs (I.value ⟨.template pattern, m⟩ vs) :=
          apply_of_isStrict rfl rfl vs
        rw [Truth.conj_eq_true, List.forall_mem_map, judge_zipWith_eq hlength, eval_app, eval_app,
          happly, happly, equalityOf_eq_true]
        constructor
        · rintro ⟨he, hne⟩
          rw [← he]
          refine ⟨rfl, ?_⟩
          rw [strictly, if_neg hne]
          exact I.value_ne_null _ _
        · rintro ⟨he, hne⟩
          have hss : .null ∉ ss.map (I.eval ρ) := by
            intro hmem
            rw [strictly, if_pos hmem] at hne
            exact hne rfl
          have hts : .null ∉ ts.map (I.eval ρ) := by
            intro hmem
            rw [he, strictly, if_pos hmem] at hne
            exact hne rfl
          rw [strictly, if_neg hss, strictly, if_neg hts] at he
          exact ⟨I.template_injective pattern m _ _ (by simpa using hlength) hss hts he, hss⟩
      all_goals exact absurd hinjective Bool.false_ne_true
    · cases h
  · cases h

theorem equality_agrees (hn : n.Admits ρ) {logic : Logic} {judge : Term → Verdict} {s t : Term}
    (hjudge : ∀ us, injectiveEqualities? s t = some us →
      ∀ u ∈ us, logic.Agrees ((judge u).truthIn I ρ) (I.judge ρ u)) :
    logic.Agrees ((equality n logic judge s t).truthIn I ρ)
      (equalityOf (I.eval ρ s) (I.eval ρ t)) := by
  have hresidual : logic.Agrees ((Verdict.residual (.eq s t)).truthIn I ρ)
      (equalityOf (I.eval ρ s) (I.eval ρ t)) := Logic.Agrees.of_eq (judge_expression_eq s t)
  unfold equality
  split
  · next h => exact Logic.Agrees.of_eq (equalityOf_of_isNull h).symm
  · next hnull =>
    split
    · next c d =>
      apply Logic.Agrees.of_eq
      rw [Verdict.truthIn_ofBool, eval_const, eval_const, equalityOf_const hnull]
    · split
      · next h =>
        subst h
        split
        · next hnullable =>
          have hne := hn.eval_ne_null (I := I) (t := s) (by simpa using hnullable)
          exact Logic.Agrees.of_eq (equalityOf_self hne).symm
        · split
          · change _ ↔ _
            rw [equalityOf_eq_true, Verdict.truthIn, judge_expression_isNotNull]
            cases h : I.eval ρ s <;> simp [Constant.isNull]
          · exact hresidual
      · split
        · next us hus =>
          have hverdicts : Logic.twoValued.Agrees
              (Truth.conj ((us.map judge).map (Verdict.truthIn I ρ)))
              (Truth.conj (us.map (I.judge ρ))) := by
            rw [List.map_map]
            exact Logic.Agrees.conj (hjudge us hus)
          exact ((Verdict.conjoin_agrees .twoValued (us.map judge)).trans hverdicts).trans
            (equalityOf_injective hus)
        · exact hresidual

theorem truthIn_inequality (hn : n.Admits ρ) (s t : Term) :
    (inequality n s t).truthIn I ρ = (equalityOf (I.eval ρ s) (I.eval ρ t)).neg := by
  unfold inequality
  split
  · next h =>
    rw [equalityOf_of_isNull h]
    rfl
  · next hnull =>
    split
    · next c d =>
      rw [Verdict.truthIn_ofBool, eval_const, eval_const, equalityOf_const hnull]
      simp [Truth.neg]
    · split
      · next h =>
        obtain ⟨rfl, hnullable⟩ := h
        have hne := hn.eval_ne_null (I := I) (t := s) (by simpa using hnullable)
        rw [equalityOf_self hne]
        rfl
      · exact judge_neq rfl s t

theorem truthIn_comparison (c : Comparison) (s t : Term) :
    (comparison c s t).truthIn I ρ = comparisonOf I c (I.eval ρ s) (I.eval ρ t) := by
  unfold comparison
  split
  · next h =>
    rw [Bool.or_eq_true] at h
    rw [comparisonOf, if_pos (h.imp eval_of_isNull eval_of_isNull)]
    rfl
  · split
    · next o ho =>
      rw [Verdict.truthIn_ofBool, comparisonOf]
      unfold compare? at ho
      split at ho
      · next i j =>
        cases ho
        rw [eval_const, eval_const, if_neg (by simp), I.compares_integers]
      · next a b =>
        cases ho
        rw [eval_const, eval_const, if_neg (by simp), I.compares_strings]
      · cases ho
    · exact judge_comparison (f := ⟨c.operation, 2⟩) rfl s t

theorem truthIn_opaqueCondition {e : Expression} {name : String} {args args' : List Term}
    (hop : e.operation = .booleanDb name) (hargs : args.map (I.eval ρ) = args'.map (I.eval ρ)) :
    (opaqueCondition e args).truthIn I ρ = I.judge ρ (.app e.symbol args') := by
  rw [judge_booleanDb hop, ← hargs]
  unfold opaqueCondition
  split
  · next h =>
    rw [Bool.and_eq_true, List.any_eq_true] at h
    obtain ⟨-, t, ht, hnull⟩ := h
    have hmem : .null ∈ args.map (I.eval ρ) := List.mem_map.2 ⟨t, ht, eval_of_isNull hnull⟩
    rw [strictly, if_pos hmem]
    rfl
  · exact judge_booleanDb hop args

-- ---------------------------------------------------------------------------
-- Evaluation
-- ---------------------------------------------------------------------------

/-- Evaluation to the depth keeps the meaning of terms and conditions on the row. -/
structure SoundTo (I : Interpretation) (ρ : Row) (n : Nullability) (depth : Nat) : Prop where
  simplify : ∀ t : Term, t.WellApplied → I.eval ρ (simplifyTo n depth t) = I.eval ρ t
  judge : ∀ (logic : Logic) (t : Term), t.WellApplied →
    logic.Agrees ((judgeTo n logic depth t).truthIn I ρ) (I.judge ρ t)
  evaluate : ∀ (logic : Logic) (e : Expression), e.WellApplied →
    logic.Agrees ((evaluateTo n logic depth e).truthIn I ρ) (I.judge ρ e.toTerm)

theorem wellApplied_simplifyTo {depth : Nat} {t : Term} (h : t.WellApplied) :
    (simplifyTo n depth t).WellApplied :=
  (all_to introducible_binary depth).simplify t h

theorem SoundTo.map_simplify {depth : Nat} (h : SoundTo I ρ n depth) {ts : List Term}
    (hts : ∀ t ∈ ts, t.WellApplied) :
    (ts.map (simplifyTo n depth)).map (I.eval ρ) = ts.map (I.eval ρ) := by
  rw [List.map_map]
  exact List.map_congr_left fun t ht => h.simplify t (hts t ht)

theorem evaluate_succ {depth : Nat} (hn : n.Admits ρ) (ih : SoundTo I ρ n depth) {logic : Logic}
    {e : Expression} (h : e.WellApplied) :
    logic.Agrees ((evaluateTo n logic (depth + 1) e).truthIn I ρ) (I.judge ρ e.toTerm) := by
  have hargs : ∀ t ∈ e.args, t.WellApplied := (Expression.all_iff.1 h).2
  have hjudge : ∀ t ∈ e.args, logic.Agrees ((judgeTo n logic depth t).truthIn I ρ) (I.judge ρ t) :=
    fun t ht => ih.judge logic t (hargs t ht)
  have hterm {args : List Term} (ha : e.args = args) : e.toTerm = .app e.symbol args := by
    rw [Expression.toTerm, ha]
  rw [evaluateTo]
  split
  case h_1 hop =>
    refine (Verdict.conjoin_agrees _ _).trans ?_
    rw [hterm rfl, judge_and hop, List.map_map]
    exact Logic.Agrees.conj hjudge
  case h_2 hop =>
    refine (Verdict.disjoin_agrees _ _).trans ?_
    rw [hterm rfl, judge_or hop, List.map_map]
    exact Logic.Agrees.disj hjudge
  case h_3 t ts hop ha =>
    apply Logic.Agrees.of_eq
    have ht : (judgeTo n .threeValued depth t).truthIn I ρ = I.judge ρ t :=
      ih.judge .threeValued t (hargs t (ha ▸ .head _))
    rw [Verdict.truthIn_negate, ht, hterm ha, judge_not hop]
  case h_4 t ts hop ha =>
    apply Logic.Agrees.of_eq
    rw [truthIn_testNull hn, ih.simplify t (hargs t (ha ▸ .head _)), hterm ha, judge_isNull hop]
    simp
  case h_5 t ts hop ha =>
    apply Logic.Agrees.of_eq
    rw [truthIn_testNull hn, ih.simplify t (hargs t (ha ▸ .head _)), hterm ha, judge_isNotNull hop]
    simp
  case h_6 t ts hop ha =>
    have ht := hargs t (ha ▸ .head _)
    have heval := ih.simplify t ht
    rw [hterm ha, judge_isTrue hop, judge, ← heval]
    split
    · next c hc => exact Logic.Agrees.of_eq (by rw [hc, Verdict.truthIn_ofConstant, eval_const])
    · split
      · next inner hinner =>
        have hs : (simplifyTo n depth t).WellApplied := wellApplied_simplifyTo ht
        rw [← Expression.toTerm_of_ofTerm? hinner] at hs ⊢
        exact ih.evaluate logic inner hs
      · exact Logic.Agrees.of_eq (judge_expression_isTrue _)
  case h_7 s t hop ha =>
    have hs := hargs s (ha ▸ .head _)
    have ht := hargs t (ha ▸ .tail _ (.head _))
    rw [hterm ha, judge_eq hop, ← ih.simplify s hs, ← ih.simplify t ht]
    apply equality_agrees hn
    intro us hus u hu
    apply ih.judge
    exact all_injectiveEqualities introducible_binary
      (wellApplied_simplifyTo hs) (wellApplied_simplifyTo ht) hus u hu
  case h_8 s t hop ha =>
    apply Logic.Agrees.of_eq
    rw [truthIn_inequality hn, ih.simplify s (hargs s (ha ▸ .head _)),
      ih.simplify t (hargs t (ha ▸ .tail _ (.head _))), hterm ha, judge_neq hop]
  case h_13 name hop =>
    exact Logic.Agrees.of_eq (truthIn_opaqueCondition hop (ih.map_simplify hargs))
  case h_14 => exact Logic.Agrees.refl _ _
  all_goals
    next s t hop ha =>
    apply Logic.Agrees.of_eq
    rw [truthIn_comparison, ih.simplify s (hargs s (ha ▸ .head _)),
      ih.simplify t (hargs t (ha ▸ .tail _ (.head _))), hterm ha]
    exact (judge_comparison hop s t).symm

/-- Evaluation keeps the meaning of terms and conditions, to whatever depth it goes. -/
theorem sound_to (hn : n.Admits ρ) (depth : Nat) : SoundTo I ρ n depth := by
  induction depth with
  | zero =>
    exact ⟨fun _ _ => rfl, fun _ t _ => Logic.Agrees.of_eq (judge_ofTerm t),
      fun _ _ _ => Logic.Agrees.refl _ _⟩
  | succ depth ih =>
    have hsimplify (t : Term) (h : t.WellApplied) :
        I.eval ρ (simplifyTo n (depth + 1) t) = I.eval ρ t := by
      cases t with
      | app f args =>
        rw [simplifyTo]
        split
        · next hf =>
          have he : _ = I.judge ρ (.app f args) := ih.evaluate .threeValued ⟨f, args, hf⟩ h
          rw [Verdict.eval_toTerm, he]
          exact (Interpretation.eval_toTerm ⟨f, args, hf⟩).symm
        · next hf =>
          have hargs := Term.all_app.1 h
          rw [eval_simplifyValue hn (by simpa using hf) (by simpa using hargs.1),
            ih.map_simplify hargs.2, eval_app]
      | _ => rfl
    have hjudge (logic : Logic) (t : Term) (h : t.WellApplied) :
        logic.Agrees ((judgeTo n logic (depth + 1) t).truthIn I ρ) (I.judge ρ t) := by
      cases t with
      | var x => exact Logic.Agrees.of_eq (judge_expression_isTrue _)
      | const c => exact Logic.Agrees.of_eq (Verdict.truthIn_ofConstant c)
      | app f args =>
        rw [judgeTo]
        split
        · next hf => exact ih.evaluate logic ⟨f, args, hf⟩ h
        · have heval := ih.simplify _ h
          apply Logic.Agrees.of_eq
          rw [judge, ← heval]
          split
          · next c hc => rw [hc, Verdict.truthIn_ofConstant, eval_const]
          · exact judge_expression_isTrue _
    exact ⟨hsimplify, hjudge, fun _ _ h => evaluate_succ hn ih h⟩

end Evaluation

-- ---------------------------------------------------------------------------
-- What is run
-- ---------------------------------------------------------------------------

theorem Term.eval_simplify (hn : n.Admits ρ) {t : Term} (h : t.WellApplied) :
    I.eval ρ (t.simplify n) = I.eval ρ t :=
  (Evaluation.sound_to hn _).simplify t h

namespace Expression

theorem evaluate_agrees (hn : n.Admits ρ) {e : Expression} (h : e.WellApplied) (logic : Logic) :
    logic.Agrees ((e.evaluate logic n).truthIn I ρ) (I.judge ρ e.toTerm) :=
  (Evaluation.sound_to hn _).evaluate logic e h

/-- A row passes what is left of a condition exactly when it passes the condition. -/
theorem truthIn_evaluateTwoValued (hn : n.Admits ρ) {e : Expression} (h : e.WellApplied) :
    (e.evaluateTwoValued n).truthIn I ρ = some true ↔ I.Holds ρ e :=
  evaluate_agrees hn h .twoValued

theorem truthIn_evaluateThreeValued (hn : n.Admits ρ) {e : Expression} (h : e.WellApplied) :
    (e.evaluateThreeValued n).truthIn I ρ = I.judge ρ e.toTerm :=
  evaluate_agrees hn h .threeValued

theorem wellApplied_nullifying {e : Expression} (h : e.WellApplied) (xs : VarSet) :
    ((Substitution.nullifying xs).applyExpression e).WellApplied := by
  refine Term.All.apply (p := fun _ => True) h fun x _ => ?_
  rw [Substitution.applyVar_nullifying]
  split
  · exact .const
  · exact .var trivial

/-- A condition that rejects the NULLs of some variables does not hold where all of them are NULL. -/
theorem not_holds_of_rejectsNullsOf {e : Expression} {xs : VarSet} (h : e.WellApplied)
    (hrejects : e.rejectsNullsOf xs = true) (hnull : ∀ x ∈ xs, ρ x = .null) : ¬I.Holds ρ e := by
  have hsame : (fun x => I.eval ρ ((Substitution.nullifying xs).applyVar x)) = ρ := by
    funext x
    rw [Substitution.applyVar_nullifying]
    split
    · next hx => exact (hnull x hx).symm
    · rfl
  unfold rejectsNullsOf at hrejects
  split at hrejects
  · cases hrejects
  · intro hholds
    rw [← hsame, ← holds_applyExpression] at hholds
    rw [← truthIn_evaluateTwoValued (Nullability.admits_allNullable _ _)
      (wellApplied_nullifying h xs)] at hholds
    dsimp only at hrejects
    cases hv : evaluateTwoValued ((Substitution.nullifying xs).applyExpression e)
        (.allNullable ((Substitution.nullifying xs).applyExpression e).vars) with
    | truth => rw [hv] at hrejects; cases hrejects
    | residual r => rw [hv] at hrejects; cases hrejects
    | falsity => rw [hv] at hholds; simp [Verdict.truthIn] at hholds
    | null => rw [hv] at hholds; simp [Verdict.truthIn] at hholds

end Expression

/-- On a row that agrees with the nullability, evaluation under three-valued logic keeps the truth
value of a condition, evaluation under two-valued logic keeps whether it is true, and simplification
keeps the value of a term. A condition that rejects the NULLs of some variables is true of no row
where all of them are NULL. -/
theorem partial_evaluation_sound (hn : n.Admits ρ) :
    (∀ e : Expression, e.WellApplied →
      (e.evaluateThreeValued n).truthIn I ρ = I.judge ρ e.toTerm ∧
      ((e.evaluateTwoValued n).truthIn I ρ = some true ↔ I.judge ρ e.toTerm = some true)) ∧
    (∀ t : Term, t.WellApplied → I.eval ρ (t.simplify n) = I.eval ρ t) ∧
    ∀ (e : Expression) (xs : VarSet), e.WellApplied → e.rejectsNullsOf xs = true →
      ∀ σ : Row, (∀ x ∈ xs, σ x = .null) → I.judge σ e.toTerm ≠ some true := by
  refine ⟨?_, fun t ht => Term.eval_simplify hn ht, ?_⟩
  · intro e he
    exact ⟨Expression.truthIn_evaluateThreeValued hn he, Expression.truthIn_evaluateTwoValued hn he⟩
  · intro e xs he hrejects σ hnull
    exact Expression.not_holds_of_rejectsNullsOf he hrejects hnull

/-- Here `x` and `y` are NULL together and `z` never is: `x = y` is undecided and not true, while
`x + z = z` rejects the NULLs of `x`. -/
theorem partial_evaluation_sound_of_group :
    let x : Variable := ⟨"x"⟩
    let y : Variable := ⟨"y"⟩
    let z : Variable := ⟨"z"⟩
    let n : Nullability := ⟨.singleton (.ofList [x, y]), .ofList [x, y, z]⟩
    let ρ : Row := fun v => if v = z then .integer 1 else .null
    let e : Expression := .or [.eq (.var x) (.var y), .eq (.app ⟨.add, 2⟩ [.var x, .var z]) (.var z)]
    n.Admits ρ ∧ e.WellApplied ∧ e.rejectsNullsOf (.singleton x) = true ∧
      (e.evaluateThreeValued n).truthIn coded ρ = coded.judge ρ e.toTerm ∧
      coded.eval ρ (e.toTerm.simplify n) = coded.eval ρ e.toTerm ∧
      coded.judge ρ e.toTerm ≠ some true := by
  intro x y z n ρ e
  have hadmits : n.Admits ρ := by
    constructor
    · intro v hv hgroups
      have hpair : v ∉ SortedSet.ofList [x, y] := hgroups _ (SortedSet.mem_singleton.2 rfl)
      simp only [n, SortedSet.mem_ofList, List.mem_cons, List.not_mem_nil, or_false] at hv hpair
      have hz : v = z := by tauto
      simp [ρ, hz]
    · intro g hg
      left
      intro v hv
      rw [SortedSet.mem_singleton.1 hg, SortedSet.mem_ofList] at hv
      have hz : v ≠ z := by
        rintro rfl
        revert hv
        decide
      simp [ρ, hz]
  have happlied : e.WellApplied := by
    simp [e, Expression.WellApplied, Term.WellApplied, Expression.toTerm, Expression.or,
      Expression.eq, Term.all_app, Term.all_var, Operation.isArithmetic]
  have hrejects : e.rejectsNullsOf (.singleton x) = true := by decide +kernel
  have hsound := partial_evaluation_sound (I := coded) hadmits
  refine ⟨hadmits, happlied, hrejects, (hsound.1 e happlied).1, hsound.2.1 e.toTerm happlied, ?_⟩
  apply hsound.2.2 e _ happlied hrejects ρ
  intro v hv
  rw [SortedSet.mem_singleton.1 hv]
  decide

end QueryAlgebra
