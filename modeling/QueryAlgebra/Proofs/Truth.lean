import QueryAlgebra.Proofs.Interpretation

/-!
# Truth values of conditions

What the connectives and the tests of `Expression` say on a row, and what becomes of a condition
that is taken apart into conjuncts and put together again.

Two truth values are equal when they agree on being true and on being false (`Truth.eq_of_iff`), and
a conjunction or disjunction is known by when it is true and when it is false. Repetition and order
of the operands therefore never matter (`Truth.conj_congr`), and nested connectives can be flattened
(`Truth.conj_flatten`).

Main statements:

* `Interpretation.conj_judge_conjuncts` — a condition is worth as much as its conjuncts together;
* `Interpretation.holdsOptional_conjunction` — a row passes a conjunction exactly when it passes
  every condition that went into it.
-/

namespace QueryAlgebra

-- ---------------------------------------------------------------------------
-- Connectives on truth values
-- ---------------------------------------------------------------------------

namespace Truth

theorem eq_of_iff {a b : Truth} (htrue : a = some true ↔ b = some true)
    (hfalse : a = some false ↔ b = some false) : a = b := by
  rcases a with _ | _ | _ <;> rcases b with _ | _ | _ <;> simp_all

theorem conj_eq_true {ts : List Truth} : conj ts = some true ↔ ∀ t ∈ ts, t = some true := by
  unfold conj
  split
  · next h => exact ⟨fun he => by simp at he, fun hall => by simpa using hall _ h⟩
  · next hfalse =>
    split
    · next h => exact ⟨fun he => by simp at he, fun hall => by simpa using hall _ h⟩
    · next hnone =>
      refine ⟨fun _ t ht => ?_, fun _ => rfl⟩
      rcases t with _ | _ | _
      · exact absurd ht hnone
      · exact absurd ht hfalse
      · rfl

theorem conj_eq_false {ts : List Truth} : conj ts = some false ↔ some false ∈ ts := by
  unfold conj
  split
  · next h => exact ⟨fun _ => h, fun _ => rfl⟩
  · next h =>
    refine ⟨fun he => ?_, fun hmem => absurd hmem h⟩
    split at he <;> simp at he

theorem disj_eq_true {ts : List Truth} : disj ts = some true ↔ some true ∈ ts := by
  unfold disj
  split
  · next h => exact ⟨fun _ => h, fun _ => rfl⟩
  · next h =>
    refine ⟨fun he => ?_, fun hmem => absurd hmem h⟩
    split at he <;> simp at he

theorem disj_eq_false {ts : List Truth} : disj ts = some false ↔ ∀ t ∈ ts, t = some false := by
  unfold disj
  split
  · next h => exact ⟨fun he => by simp at he, fun hall => by simpa using hall _ h⟩
  · next htrue =>
    split
    · next h => exact ⟨fun he => by simp at he, fun hall => by simpa using hall _ h⟩
    · next hnone =>
      refine ⟨fun _ t ht => ?_, fun _ => rfl⟩
      rcases t with _ | _ | _
      · exact absurd ht hnone
      · rfl
      · exact absurd ht htrue

/-- Only the operands count, not their order or number, and those that are true not at all. -/
theorem conj_congr {ts us : List Truth} (h : ∀ t, t ≠ some true → (t ∈ ts ↔ t ∈ us)) :
    conj ts = conj us := by
  apply eq_of_iff
  · rw [conj_eq_true, conj_eq_true]
    refine forall_congr' fun t => ?_
    by_cases ht : t = some true
    · simp only [ht, implies_true]
    · rw [h t ht]
  · rw [conj_eq_false, conj_eq_false]
    exact h _ (by simp)

theorem disj_congr {ts us : List Truth} (h : ∀ t, t ≠ some false → (t ∈ ts ↔ t ∈ us)) :
    disj ts = disj us := by
  apply eq_of_iff
  · rw [disj_eq_true, disj_eq_true]
    exact h _ (by simp)
  · rw [disj_eq_false, disj_eq_false]
    refine forall_congr' fun t => ?_
    by_cases ht : t = some false
    · simp only [ht, implies_true]
    · rw [h t ht]

/-- A conjunction of conjunctions is the conjunction of all their operands. -/
theorem conj_flatten (tss : List (List Truth)) : conj tss.flatten = conj (tss.map conj) := by
  apply eq_of_iff
  · rw [conj_eq_true, conj_eq_true]
    constructor
    · intro h t ht
      obtain ⟨ts, hts, rfl⟩ := List.mem_map.1 ht
      exact conj_eq_true.2 fun u hu => h u (List.mem_flatten.2 ⟨ts, hts, hu⟩)
    · intro h t ht
      obtain ⟨ts, hts, ht⟩ := List.mem_flatten.1 ht
      exact conj_eq_true.1 (h _ (List.mem_map.2 ⟨ts, hts, rfl⟩)) t ht
  · rw [conj_eq_false, conj_eq_false, List.mem_map, List.mem_flatten]
    exact exists_congr fun ts => and_congr_right fun _ => conj_eq_false.symm

theorem disj_flatten (tss : List (List Truth)) : disj tss.flatten = disj (tss.map disj) := by
  apply eq_of_iff
  · rw [disj_eq_true, disj_eq_true, List.mem_map, List.mem_flatten]
    exact exists_congr fun ts => and_congr_right fun _ => disj_eq_true.symm
  · rw [disj_eq_false, disj_eq_false]
    constructor
    · intro h t ht
      obtain ⟨ts, hts, rfl⟩ := List.mem_map.1 ht
      exact disj_eq_false.2 fun u hu => h u (List.mem_flatten.2 ⟨ts, hts, hu⟩)
    · intro h t ht
      obtain ⟨ts, hts, ht⟩ := List.mem_flatten.1 ht
      exact disj_eq_false.1 (h _ (List.mem_map.2 ⟨ts, hts, rfl⟩)) t ht

theorem conj_append (ts us : List Truth) : conj (ts ++ us) = conj [conj ts, conj us] := by
  have hflat := conj_flatten [ts, us]
  rwa [List.flatten_cons, List.flatten_singleton] at hflat

theorem disj_append (ts us : List Truth) : disj (ts ++ us) = disj [disj ts, disj us] := by
  have hflat := disj_flatten [ts, us]
  rwa [List.flatten_cons, List.flatten_singleton] at hflat

@[simp] theorem conj_singleton (t : Truth) : conj [t] = t := by
  rcases t with _ | _ | _ <;> rfl

@[simp] theorem disj_singleton (t : Truth) : disj [t] = t := by
  rcases t with _ | _ | _ <;> rfl

@[simp] theorem conj_nil : conj [] = some true := rfl

@[simp] theorem disj_nil : disj [] = some false := rfl

@[simp] theorem neg_neg (t : Truth) : neg (neg t) = t := by
  rcases t with _ | _ | _ <;> rfl

end Truth

-- ---------------------------------------------------------------------------
-- Tests and connectives on terms
-- ---------------------------------------------------------------------------

namespace Interpretation

variable {I : Interpretation} {ρ : Row}

@[simp] theorem truthOf_toConstant (t : Truth) : I.truthOf t.toConstant = t := by
  rcases t with _ | b <;> rfl

@[simp] theorem truthOf_boolean (b : Bool) : I.truthOf (.boolean b) = some b := rfl

@[simp] theorem truthOf_null : I.truthOf .null = none := rfl

theorem truthOf_eq_none {v : Constant} : I.truthOf v = none ↔ v = .null := by
  cases v <;> simp [truthOf]

theorem isAggregate_of_isBoolean {f : Symbol} (hf : f.isBoolean = true) : f.isAggregate = false := by
  obtain ⟨op, n⟩ := f
  cases op <;> first | rfl | exact absurd hf Bool.false_ne_true

/-- The value of a condition is a truth value. -/
theorem exists_apply_eq_toConstant {f : Symbol} (hf : f.isBoolean = true) (vs : List Constant) :
    ∃ t : Truth, I.apply f vs = t.toConstant := by
  have hstrictly (ws : List Constant) (b : Bool) :
      ∃ t : Truth, strictly ws (.boolean b) = t.toConstant := by
    unfold strictly
    split
    · exact ⟨none, rfl⟩
    · exact ⟨some b, rfl⟩
  unfold apply
  rw [if_neg (by rw [isAggregate_of_isBoolean hf]; decide)]
  split
  case h_13 hop => exact absurd hf (by simp [Symbol.isBoolean, hop, Operation.isBoolean])
  case h_4 v _ _ => exact ⟨some v.isNull, rfl⟩
  case h_5 v _ _ => exact ⟨some !v.isNull, rfl⟩
  case h_14 => rw [if_pos hf]; exact hstrictly _ _
  all_goals first | exact ⟨_, rfl⟩ | exact hstrictly _ _

/-- A condition is the truth value that it has. -/
theorem eval_toTerm (e : Expression) : I.eval ρ e.toTerm = (I.judge ρ e.toTerm).toConstant := by
  obtain ⟨t, ht⟩ := exists_apply_eq_toConstant (I := I) e.boolean (e.args.map (I.eval ρ))
  have heval : I.eval ρ e.toTerm = t.toConstant := by rw [← ht]; exact eval_app
  rw [judge, heval, truthOf_toConstant]

theorem judge_and {f : Symbol} (hf : f.operation = .and) (args : List Term) :
    I.judge ρ (.app f args) = Truth.conj (args.map (I.judge ρ)) := by
  obtain ⟨_, n⟩ := f
  cases hf
  simp only [judge, eval_app, apply, Symbol.isAggregate, Operation.isAggregate, Bool.false_eq_true,
    if_false, truthOf_toConstant, List.map_map]
  rfl

theorem judge_or {f : Symbol} (hf : f.operation = .or) (args : List Term) :
    I.judge ρ (.app f args) = Truth.disj (args.map (I.judge ρ)) := by
  obtain ⟨_, n⟩ := f
  cases hf
  simp only [judge, eval_app, apply, Symbol.isAggregate, Operation.isAggregate, Bool.false_eq_true,
    if_false, truthOf_toConstant, List.map_map]
  rfl

theorem judge_not {f : Symbol} (hf : f.operation = .not) (t : Term) (args : List Term) :
    I.judge ρ (.app f (t :: args)) = (I.judge ρ t).neg := by
  obtain ⟨_, n⟩ := f
  cases hf
  simp [judge, apply, Symbol.isAggregate, Operation.isAggregate]

theorem judge_isNull {f : Symbol} (hf : f.operation = .isNull) (t : Term) (args : List Term) :
    I.judge ρ (.app f (t :: args)) = some (I.eval ρ t).isNull := by
  obtain ⟨_, n⟩ := f
  cases hf
  simp [judge, apply, Symbol.isAggregate, Operation.isAggregate]

theorem judge_isNotNull {f : Symbol} (hf : f.operation = .isNotNull) (t : Term) (args : List Term) :
    I.judge ρ (.app f (t :: args)) = some !(I.eval ρ t).isNull := by
  obtain ⟨_, n⟩ := f
  cases hf
  simp [judge, apply, Symbol.isAggregate, Operation.isAggregate]

theorem judge_isTrue {f : Symbol} (hf : f.operation = .isTrue) (t : Term) (args : List Term) :
    I.judge ρ (.app f (t :: args)) = I.judge ρ t := by
  obtain ⟨_, n⟩ := f
  cases hf
  simp [judge, apply, Symbol.isAggregate, Operation.isAggregate]

/-- Equality is NULL where a side is. -/
def equalityOf (v w : Constant) : Truth :=
  if v = .null ∨ w = .null then none else some (decide (v = w))

theorem truthOf_strictly_pair (v w : Constant) (b : Bool) :
    I.truthOf (strictly [v, w] (.boolean b)) = if v = .null ∨ w = .null then none else some b := by
  have hmem : .null ∈ [v, w] ↔ v = .null ∨ w = .null := by
    simp [eq_comm]
  unfold strictly
  by_cases h : v = .null ∨ w = .null
  · rw [if_pos (hmem.2 h), if_pos h, truthOf_null]
  · rw [if_neg (hmem.not.2 h), if_neg h, truthOf_boolean]

theorem judge_eq {f : Symbol} (hf : f.operation = .eq) (s t : Term) :
    I.judge ρ (.app f [s, t]) = equalityOf (I.eval ρ s) (I.eval ρ t) := by
  obtain ⟨_, n⟩ := f
  cases hf
  rw [judge, eval_app, List.map_cons, List.map_singleton]
  show I.truthOf (strictly _ _) = _
  rw [truthOf_strictly_pair]
  rfl

theorem judge_neq {f : Symbol} (hf : f.operation = .neq) (s t : Term) :
    I.judge ρ (.app f [s, t]) = (equalityOf (I.eval ρ s) (I.eval ρ t)).neg := by
  obtain ⟨_, n⟩ := f
  cases hf
  rw [judge, eval_app, List.map_cons, List.map_singleton]
  show I.truthOf (strictly _ _) = _
  rw [truthOf_strictly_pair, equalityOf]
  split
  · rfl
  · simp [Truth.neg]

/-- A comparison is NULL where a side is. -/
def comparisonOf (I : Interpretation) (c : Evaluation.Comparison) (v w : Constant) : Truth :=
  if v = .null ∨ w = .null then none else some (I.compares c v w)

theorem judge_comparison {f : Symbol} {c : Evaluation.Comparison} (hf : f.operation = c.operation)
    (s t : Term) : I.judge ρ (.app f [s, t]) = comparisonOf I c (I.eval ρ s) (I.eval ρ t) := by
  obtain ⟨_, n⟩ := f
  cases hf
  rw [judge, eval_app, List.map_cons, List.map_singleton, comparisonOf, ← truthOf_strictly_pair]
  cases c <;> rfl

theorem equalityOf_eq_true {v w : Constant} : equalityOf v w = some true ↔ v = w ∧ v ≠ .null := by
  unfold equalityOf
  split
  · next h =>
    refine ⟨fun he => by simp at he, fun ⟨he, hne⟩ => absurd h ?_⟩
    rw [← he]
    simp [hne]
  · next h => simp_all

-- ---------------------------------------------------------------------------
-- Conditions
-- ---------------------------------------------------------------------------

@[simp] theorem judge_expression_eq (s t : Term) :
    I.judge ρ (Expression.eq s t).toTerm = equalityOf (I.eval ρ s) (I.eval ρ t) :=
  judge_eq rfl s t

@[simp] theorem judge_expression_isTrue (t : Term) :
    I.judge ρ (Expression.isTrue t).toTerm = I.judge ρ t :=
  judge_isTrue rfl t []

@[simp] theorem judge_expression_isNull (t : Term) :
    I.judge ρ (Expression.isNull t).toTerm = some (I.eval ρ t).isNull :=
  judge_isNull rfl t []

@[simp] theorem judge_expression_isNotNull (t : Term) :
    I.judge ρ (Expression.isNotNull t).toTerm = some !(I.eval ρ t).isNull :=
  judge_isNotNull rfl t []

@[simp] theorem judge_expression_not (e : Expression) :
    I.judge ρ e.not.toTerm = (I.judge ρ e.toTerm).neg :=
  judge_not rfl e.toTerm []

@[simp] theorem judge_expression_or (es : List Expression) :
    I.judge ρ (Expression.or es).toTerm = Truth.disj (es.map fun e => I.judge ρ e.toTerm) := by
  rw [Expression.or, Expression.toTerm, judge_or rfl, List.map_map]
  rfl

/-- A term in the place of a condition and the expression made of it are worth the same. -/
@[simp] theorem judge_ofTerm (t : Term) : I.judge ρ (Expression.ofTerm t).toTerm = I.judge ρ t := by
  unfold Expression.ofTerm
  cases h : Expression.ofTerm? t with
  | none => exact judge_expression_isTrue t
  | some e => rw [Option.getD_some, Expression.toTerm_of_ofTerm? h]

theorem conj_judge_conjunctsOf (t : Term) :
    Truth.conj ((Expression.conjunctsOf t).map fun e => I.judge ρ e.toTerm) = I.judge ρ t := by
  have hall (ts : List Term) (ih : ∀ t ∈ ts,
      Truth.conj ((Expression.conjunctsOf t).map fun e => I.judge ρ e.toTerm) = I.judge ρ t) :
      Truth.conj ((Expression.conjunctsOfAll ts).map fun e => I.judge ρ e.toTerm)
        = Truth.conj (ts.map (I.judge ρ)) := by
    have hflat : Expression.conjunctsOfAll ts = ts.flatMap Expression.conjunctsOf := by
      clear ih
      induction ts with
      | nil => rfl
      | cons t ts ih => rw [Expression.conjunctsOfAll, ih, List.flatMap_cons]
    rw [hflat, List.map_flatMap, List.flatMap_def, Truth.conj_flatten, List.map_map]
    exact congrArg Truth.conj (List.map_congr_left ih)
  induction t using Term.inductionOn with
  | var x => simp [Expression.conjunctsOf]
  | const c => simp [Expression.conjunctsOf]
  | app f args ih =>
    unfold Expression.conjunctsOf
    split
    · next hf =>
      split
      · next hand => rw [hall args ih, judge_and hand]
      · rw [List.map_singleton, Truth.conj_singleton]
        rfl
    · simp

/-- A condition is worth as much as its conjuncts together. -/
theorem conj_judge_conjuncts (e : Expression) :
    Truth.conj (e.conjuncts.map fun e => I.judge ρ e.toTerm) = I.judge ρ e.toTerm :=
  conj_judge_conjunctsOf e.toTerm

theorem conj_judge_flatMap_conjuncts (es : List Expression) :
    Truth.conj ((es.flatMap Expression.conjuncts).map fun e => I.judge ρ e.toTerm)
      = Truth.conj (es.map fun e => I.judge ρ e.toTerm) := by
  rw [List.map_flatMap, List.flatMap_def, Truth.conj_flatten, List.map_map]
  exact congrArg Truth.conj (List.map_congr_left fun e _ => conj_judge_conjuncts e)

/-- The conjunction of conditions is worth as much as all of them together; where there is none,
they are true. -/
theorem judge_conjunction (es : List Expression) :
    (Expression.conjunction es).elim (some true) (fun e => I.judge ρ e.toTerm)
      = Truth.conj (es.map fun e => I.judge ρ e.toTerm) := by
  have hparts : Truth.conj (((es.flatMap Expression.conjuncts).eraseDups).map
        fun e => I.judge ρ e.toTerm) = Truth.conj (es.map fun e => I.judge ρ e.toTerm) := by
    rw [← conj_judge_flatMap_conjuncts es]
    apply Truth.conj_congr
    intro t _
    simp only [List.mem_map, List.mem_eraseDups]
  rw [← hparts]
  unfold Expression.conjunction
  split
  · next h => rw [h]; rfl
  · next e h => rw [h, List.map_singleton, Truth.conj_singleton]; rfl
  · next h =>
    rw [Option.elim_some, Expression.toTerm, judge_and rfl, List.map_map]
    rfl

theorem holdsOptional_iff {e? : Option Expression} :
    I.HoldsOptional ρ e? ↔ e?.elim (some true) (fun e => I.judge ρ e.toTerm) = some true := by
  cases e? with
  | none => simp [HoldsOptional]
  | some e => simp [HoldsOptional, Holds]

@[simp] theorem holdsOptional_none : I.HoldsOptional ρ none := fun _ h => nomatch h

@[simp] theorem holdsOptional_some {e : Expression} :
    I.HoldsOptional ρ (some e) ↔ I.Holds ρ e := by
  simp [HoldsOptional]

/-- A row passes a conjunction exactly when it passes every condition that went into it. -/
theorem holdsOptional_conjunction {es : List Expression} :
    I.HoldsOptional ρ (Expression.conjunction es) ↔ ∀ e ∈ es, I.Holds ρ e := by
  rw [holdsOptional_iff, judge_conjunction, Truth.conj_eq_true, List.forall_mem_map]
  rfl

/-- A row passes a condition exactly when it passes its conjuncts. -/
theorem holds_iff_conjuncts {e : Expression} :
    I.Holds ρ e ↔ ∀ c ∈ e.conjuncts, I.Holds ρ c := by
  rw [Holds, ← conj_judge_conjuncts e, Truth.conj_eq_true, List.forall_mem_map]
  rfl

theorem holdsOptional_andOptional {e? e'? : Option Expression} :
    I.HoldsOptional ρ (Expression.andOptional e? e'?)
      ↔ I.HoldsOptional ρ e? ∧ I.HoldsOptional ρ e'? := by
  rw [Expression.andOptional, holdsOptional_conjunction]
  cases e? <;> cases e'? <;> simp

theorem holds_and {e e' : Expression} : I.Holds ρ (e.and e') ↔ I.Holds ρ e ∧ I.Holds ρ e' := by
  have hboth : I.HoldsOptional ρ (Expression.conjunction [e, e']) ↔ I.Holds ρ e ∧ I.Holds ρ e' := by
    rw [holdsOptional_conjunction, List.forall_mem_cons, List.forall_mem_singleton]
  unfold Expression.and
  cases hc : Expression.conjunction [e, e'] with
  | none =>
    rw [hc] at hboth
    have hholds := hboth.1 holdsOptional_none
    exact ⟨fun _ => hholds, fun h => h.1⟩
  | some c =>
    rw [hc, holdsOptional_some] at hboth
    exact hboth

@[simp] theorem holds_eq {s t : Term} :
    I.Holds ρ (.eq s t) ↔ I.eval ρ s = I.eval ρ t ∧ I.eval ρ s ≠ .null := by
  rw [Holds, judge_expression_eq, equalityOf_eq_true]

/-- Substituting in a condition is judging it on the row of the substituted values. -/
theorem judge_applyExpression {s : Substitution} {e : Expression} :
    I.judge ρ (s.applyExpression e).toTerm
      = I.judge (fun x => I.eval ρ (s.applyVar x)) e.toTerm := by
  have happly : (s.applyExpression e).toTerm = s.apply e.toTerm := rfl
  rw [judge, happly, eval_apply]
  rfl

theorem holds_applyExpression {s : Substitution} {e : Expression} :
    I.Holds ρ (s.applyExpression e) ↔ I.Holds (fun x => I.eval ρ (s.applyVar x)) e := by
  rw [Holds, judge_applyExpression]
  rfl

/-- A condition only looks at its own variables. -/
theorem holds_congr {σ : Row} {e : Expression} (h : ∀ x ∈ e.vars.toList, ρ x = σ x) :
    I.Holds ρ e ↔ I.Holds σ e := by
  have heval : I.eval ρ e.toTerm = I.eval σ e.toTerm := eval_congr h
  rw [Holds, Holds, judge, judge, heval]

end Interpretation

end QueryAlgebra
