import QueryAlgebra.Proofs.AggregateEqualities
import QueryAlgebra.Proofs.Composition
import QueryAlgebra.Proofs.SplitCondition
import QueryAlgebra.Proofs.Stability.Connectives
import QueryAlgebra.Tree.Normal.Modifiers

/-!
# Chains of equalities above aggregations

A condition gives one variable a number and says of each further variable that it is one more than the
variable before it (`EqualityChain`). Above an aggregation that computes these variables, its equalities
cannot be pushed down: they are taken out of the condition and put back into it, after all that is left
of it was rewritten with them. So each time that the filter is rewritten one more variable gets its
number (`EqualityChain.advance`), and not before the last one has it does the filter stay as it is.

Main statement: `Tree.normalizeFilter_chain`.
-/

namespace QueryAlgebra

-- ---------------------------------------------------------------------------
-- Conjunctions that are evaluated operand by operand
-- ---------------------------------------------------------------------------

namespace Expression

variable {n : Nullability} {es es' : List Expression}

theorem allOf_injective : Function.Injective allOf := by
  intro es es' h
  have hargs : es.map toTerm = es'.map toTerm := congrArg args h
  refine List.map_injective_iff.2 (fun e e' he => ?_) hargs
  exact Option.some.inj ((ofTerm?_toTerm e).symm.trans (he ▸ ofTerm?_toTerm e'))

/-- All of the operands are left, each as it is evaluated. -/
theorem evaluate_allOf (h : es.map (·.evaluate .twoValued n) = es'.map Verdict.residual)
    (hself : ∀ e ∈ es', e.conjuncts = [e]) (hnodup : es'.Nodup) (hlength : 2 ≤ es'.length) :
    (allOf es).evaluate .twoValued n = .residual (allOf es') := by
  have hjudge : (es.map toTerm).map (·.judge .twoValued n) = es'.map .residual := by
    rw [← h, List.map_map]
    exact List.map_congr_left fun e _ => Term.judge_toTerm e
  have hmarker : es' ++ Verdict.marker false = es' := List.append_nil es'
  have hnulls : es'.map Verdict.residual ++ Verdict.nulls false = es'.map Verdict.residual :=
    List.append_nil _
  have hall : Verdict.conjoin .twoValued (es'.map .residual ++ Verdict.nulls false)
      = .residual (allOf (es' ++ Verdict.marker false)) :=
    Verdict.conjoin_residuals hself (hmarker.symm ▸ hnodup) (hmarker.symm ▸ hlength) nofun
  rw [hmarker, hnulls] at hall
  rw [evaluate_eq]
  exact (congrArg (Verdict.conjoin .twoValued) hjudge).trans hall

theorem conjunction_congr (h : es.flatMap conjuncts = es'.flatMap conjuncts) :
    conjunction es = conjunction es' := by
  unfold conjunction
  rw [h]

/-- What is conjoined is what the conjunction is taken apart into. -/
theorem conjuncts_conjunction (hself : ∀ e ∈ es, e.conjuncts = [e]) (hnodup : es.Nodup) :
    (conjunction es).toList.flatMap conjuncts = es := by
  match es with
  | [] => rfl
  | [e] =>
    rw [conjunction, flatMap_conjuncts hself]
    exact flatMap_conjuncts hself
  | e :: e' :: es =>
    rw [conjunction_of_flat hself hnodup (Nat.le_add_left 2 _), Option.toList_some,
      List.flatMap_singleton, conjuncts_of_and rfl]
    exact conjunctsOfAll_toTerm hself

theorem andOptional_conjunction (hself : ∀ e ∈ es ++ es', e.conjuncts = [e]) (hnodup : es.Nodup)
    (hnodup' : es'.Nodup) :
    andOptional (conjunction es) (conjunction es') = conjunction (es ++ es') := by
  have hleft := conjuncts_conjunction (fun e he => hself e (List.mem_append_left _ he)) hnodup
  have hright := conjuncts_conjunction (fun e he => hself e (List.mem_append_right _ he)) hnodup'
  refine conjunction_congr ?_
  rw [List.flatMap_append, hleft, hright, flatMap_conjuncts hself]

theorem residualOf_conjunction (h : es.map (·.evaluate .twoValued n) = es'.map Verdict.residual)
    (hself : ∀ e ∈ es, e.conjuncts = [e]) (hself' : ∀ e ∈ es', e.conjuncts = [e])
    (hnodup : es'.Nodup) : Condition.residualOf (conjunction es) n = .ok (conjunction es') := by
  have hlength : es.length = es'.length := by simpa using congrArg List.length h
  have hnodup' : es.Nodup := by
    refine List.Nodup.of_map (·.evaluate .twoValued n) ?_
    rw [h]
    exact hnodup.map fun _ _ he => Verdict.residual.inj he
  match es, es', hlength with
  | [], [], _ => rfl
  | [e], [e'], _ =>
    have he : e.evaluateTwoValued n = .residual e' := (List.cons.inj h).1
    rw [conjunction, conjunction, flatMap_conjuncts hself, flatMap_conjuncts hself']
    show Condition.residualOf (some e) n = .ok (some e')
    rw [Condition.residualOf, he]
  | a :: b :: es, a' :: b' :: es', _ =>
    have htwo {a b : Expression} {es : List Expression} : 2 ≤ (a :: b :: es).length :=
      Nat.le_add_left 2 _
    rw [conjunction_of_flat hself hnodup' htwo, conjunction_of_flat hself' hnodup htwo,
      Condition.residualOf, evaluateTwoValued, evaluate_allOf h hself' hnodup htwo]

end Expression

-- ---------------------------------------------------------------------------
-- Numbers of variables
-- ---------------------------------------------------------------------------

/-- The variables bound to numbers. -/
def Substitution.numbering (ps : List (Variable × Int)) : Substitution :=
  .ofList (ps.map fun p => (p.1, .integer p.2))

/-- The variable has the number. -/
def Expression.hasNumber (p : Variable × Int) : Expression := .eq (.var p.1) (.integer p.2)

theorem Variable.nodup_of_increasing {xs : List Variable}
    (h : xs.Pairwise fun x y => compare x y = .lt) : xs.Nodup :=
  h.imp fun hlt he => by
    rw [he, Std.compare_self] at hlt
    cases hlt

namespace Substitution

variable {ps qs : List (Variable × Int)} {x : Variable} {i : Int}

theorem applyVar_numbering (hnodup : (ps.map Prod.fst).Nodup) (h : (x, i) ∈ ps) :
    (numbering ps).applyVar x = .integer i := by
  refine applyVar_ofList (List.mem_map.2 ⟨_, h, rfl⟩) fun u hu => ?_
  obtain ⟨⟨y, j⟩, hj, he⟩ := List.mem_map.1 hu
  cases he
  exact congrArg (Term.integer ·.2) (List.inj_on_of_nodup_map hnodup hj h rfl)

theorem applyVar_numbering_of_not_mem (h : x ∉ ps.map Prod.fst) :
    (numbering ps).applyVar x = .var x := by
  refine applyVar_ofList_of_not_mem fun t ht => ?_
  obtain ⟨p, hp, he⟩ := List.mem_map.1 ht
  exact h (List.mem_map.2 ⟨p, hp, congrArg Prod.fst he⟩)

theorem numbering_congr (hps : (ps.map Prod.fst).Nodup) (h : ps.Perm qs) :
    numbering ps = numbering qs := by
  have hqs : (qs.map Prod.fst).Nodup := (h.map Prod.fst).nodup hps
  refine ext_applyVar fun x => ?_
  by_cases hx : x ∈ ps.map Prod.fst
  · obtain ⟨⟨_, i⟩, hi, rfl⟩ := List.mem_map.1 hx
    rw [applyVar_numbering hps hi, applyVar_numbering hqs (h.mem_iff.1 hi)]
  · have hx' : x ∉ qs.map Prod.fst := fun h' => hx ((h.map Prod.fst).mem_iff.2 h')
    rw [applyVar_numbering_of_not_mem hx, applyVar_numbering_of_not_mem hx']

/-- What is listed in the order of the variables is bound in this order. -/
theorem bindings_numbering (h : (ps.map Prod.fst).Pairwise fun x y => compare x y = .lt) :
    (numbering ps).bindings = ps.map fun p => (p.1, .integer p.2) := by
  have hnodup := Variable.nodup_of_increasing h
  have hfst : (ps.map fun p => (p.1, Term.integer p.2)).map Prod.fst = ps.map Prod.fst := by
    rw [List.map_map]
    rfl
  have hincreasing : (ps.map fun p => (p.1, Term.integer p.2)).Pairwise
      fun b c => compare b.1 c.1 = .lt := by
    rw [← hfst] at h
    exact List.pairwise_map.1 h
  refine eq_of_pairwise_of_mem_iff (fun _ _ => asymm_of_compare) (numbering ps).map.increasing
    hincreasing fun ⟨x, t⟩ => ⟨fun hb => ?_, fun hb => ?_⟩
  · exact mem_of_find?_ofList (mem_bindings.1 hb)
  · refine mem_bindings.2 (find?_ofList_of_nodup (hfst ▸ hnodup) hb ?_)
    obtain ⟨p, -, he⟩ := List.mem_map.1 hb
    cases he
    nofun

theorem mem_domain_numbering (h : (ps.map Prod.fst).Pairwise fun x y => compare x y = .lt) :
    x ∈ (numbering ps).domain ↔ x ∈ ps.map Prod.fst := by
  have hkeys : (numbering ps).domain.toList = ps.map Prod.fst :=
    (congrArg (List.map Prod.fst) (bindings_numbering h)).trans (List.map_map ..)
  rw [← SortedSet.mem_toList, hkeys]

/-- Equations that give numbers to different variables are solved by these numbers. -/
theorem solve_numbers (hnodup : (ps.map Prod.fst).Nodup) (u : Substitution) :
    solve u (ps.map fun p => ⟨.var p.1, .integer p.2⟩) = some ((numbering ps).compose u) := by
  induction ps generalizing u with
  | nil =>
    rw [List.map_nil, solve]
    exact congrArg some (empty_compose u).symm
  | cons p ps ih =>
    obtain ⟨x, i⟩ := p
    obtain ⟨hx, hps⟩ := List.nodup_cons.1 hnodup
    have hrest : Equations.substitute (singleton x (.integer i)) (ps.map fun p => ⟨.var p.1, .integer p.2⟩)
        = ps.map fun p => ⟨.var p.1, .integer p.2⟩ := by
      rw [Equations.substitute, List.map_map]
      refine List.map_congr_left fun q hq => ?_
      have hne : x ≠ q.1 := fun h => hx (List.mem_map.2 ⟨q, hq, h.symm⟩)
      rw [Function.comp_apply, Equation.substitute, apply_var, applyVar_singleton, if_neg hne]
      rfl
    have hcompose : (numbering ps).compose (singleton x (.integer i)) = numbering ((x, i) :: ps) := by
      refine ext_applyVar fun z => ?_
      rw [applyVar_compose, applyVar_singleton]
      split
      · next hz =>
        subst hz
        exact (applyVar_numbering hnodup (.head _)).symm
      · next hz =>
        by_cases hmem : z ∈ ps.map Prod.fst
        · obtain ⟨⟨_, j⟩, hj, rfl⟩ := List.mem_map.1 hmem
          rw [apply_var, applyVar_numbering hps hj, applyVar_numbering hnodup (.tail _ hj)]
        · have hmem' : z ∉ ((x, i) :: ps).map Prod.fst := by
            rw [List.map_cons, List.mem_cons, not_or]
            exact ⟨Ne.symm hz, hmem⟩
          rw [apply_var, applyVar_numbering_of_not_mem hmem, applyVar_numbering_of_not_mem hmem']
    have hne : Term.var x ≠ .integer i := fun h => by cases h
    have horient : Equation.orient? ⟨.var x, .integer i⟩ = some (x, .integer i) := rfl
    rw [List.map_cons, solve_cons_of_orient? hne horient Term.not_mem_vars_const, hrest, ih hps,
      ← compose_assoc, hcompose]

end Substitution

-- ---------------------------------------------------------------------------
-- Chains
-- ---------------------------------------------------------------------------

/-- The second variable is one more than the first. -/
def Expression.isNext (x y : Variable) : Expression :=
  .eq (.var y) (.app ⟨.add, 2⟩ [.var x, .integer 1])

/-- Each variable is one more than the one before it. -/
def Expression.links : List Variable → List Expression
  | x :: y :: ys => .isNext x y :: links (y :: ys)
  | _ => []

/-- Variables with the numbers that they were found to have, and others that follow each other, of which
the first has a number as well. No number is too great for a word. -/
structure EqualityChain where
  found : List (Variable × Int)
  number : Int
  waiting : List Variable
  increasing : (found.map Prod.fst ++ waiting).Pairwise fun x y => compare x y = .lt
  several : 2 ≤ (found.map Prod.fst ++ waiting).length
  fits : ∀ i, number ≤ i → i < number + waiting.length → Constant.fitsWord i = true

namespace EqualityChain

/-- The first of the variables that wait, with its number. -/
def first (c : EqualityChain) : List (Variable × Int) := c.waiting.head?.toList.map (·, c.number)

def vars (c : EqualityChain) : List Variable := c.found.map Prod.fst ++ c.waiting

/-- The condition, conjunct by conjunct. -/
def conditions (c : EqualityChain) : List Expression :=
  c.first.map .hasNumber ++ Expression.links c.waiting ++ c.found.map .hasNumber

theorem map_fst_first (c : EqualityChain) : c.first.map Prod.fst ++ c.waiting.tail = c.waiting := by
  rw [first]
  cases c.waiting <;> rfl

/-- The first of the variables that wait is found, and the next one gets its number. -/
def advance (c : EqualityChain) : EqualityChain where
  found := c.found ++ c.first
  number := c.number + 1
  waiting := c.waiting.tail
  increasing := by
    rw [List.map_append, List.append_assoc, c.map_fst_first]
    exact c.increasing
  several := by
    rw [List.map_append, List.append_assoc, c.map_fst_first]
    exact c.several
  fits i hle hlt := by
    rw [List.length_tail] at hlt
    exact c.fits i (by omega) (by omega)

theorem vars_advance (c : EqualityChain) : c.advance.vars = c.vars := by
  rw [vars, vars, ← c.map_fst_first, ← List.append_assoc, ← List.map_append]
  rfl

theorem vars_iterate_advance (c : EqualityChain) (k : Nat) : (advance^[k] c).vars = c.vars := by
  induction k generalizing c with
  | zero => rfl
  | succ k ih => rw [Function.iterate_succ_apply, ih, c.vars_advance]

/-- The chain of variables of which none is found yet, and the first one is 1. -/
def ofList (xs : List Variable) (hincreasing : xs.Pairwise fun x y => compare x y = .lt)
    (hseveral : 2 ≤ xs.length) (hfits : xs.length ≤ Int64.maxValue.toInt) : EqualityChain where
  found := []
  number := 1
  waiting := xs
  increasing := hincreasing
  several := hseveral
  fits i hle hlt := by
    have hmin : Int64.minValue.toInt ≤ i := Int.le_trans (by decide) hle
    have hmax : i ≤ Int64.maxValue.toInt := by omega
    rw [Constant.fitsWord, decide_eq_true hmin, decide_eq_true hmax]
    rfl

variable {n : Nullability} {x y : Variable} {i : Int} {l : List Variable} {e : Expression}

-- ---------------------------------------------------------------------------
-- The conjuncts
-- ---------------------------------------------------------------------------

theorem args_links : (Expression.links l).map (·.args.head?) = l.tail.map fun x => some (.var x) := by
  induction l with
  | nil => rfl
  | cons x l ih =>
    cases l with
    | nil => rfl
    | cons y ys => exact congrArg (some (.var y) :: ·) ih

/-- Each conjunct is about a variable of its own. -/
theorem args_conditions (c : EqualityChain) : c.conditions.map (·.args.head?)
    = (c.waiting ++ c.found.map Prod.fst).map fun x => some (.var x) := by
  have hnumbers (ps : List (Variable × Int)) : (ps.map Expression.hasNumber).map (·.args.head?)
      = (ps.map Prod.fst).map fun x => some (.var x) := by
    rw [List.map_map, List.map_map]
    rfl
  rw [conditions, List.map_append, List.map_append, hnumbers, hnumbers, args_links, ← List.map_append,
    c.map_fst_first, ← List.map_append]

theorem nodup_waiting_found (c : EqualityChain) : (c.waiting ++ c.found.map Prod.fst).Nodup :=
  List.perm_append_comm.nodup (Variable.nodup_of_increasing c.increasing)

theorem nodup_conditions (c : EqualityChain) : c.conditions.Nodup := by
  refine List.Nodup.of_map (·.args.head?) ?_
  rw [c.args_conditions]
  exact c.nodup_waiting_found.map fun x y h => by cases h; rfl

theorem two_le_length_conditions (c : EqualityChain) : 2 ≤ c.conditions.length := by
  have hlength := congrArg List.length c.args_conditions
  have hseveral := c.several
  simp only [List.length_map, List.length_append] at hlength hseveral
  omega

theorem conjuncts_of_eq (s t : Term) : (Expression.eq s t).conjuncts = [.eq s t] :=
  Expression.conjuncts_of_ne_and nofun

theorem exists_eq_of_mem_links (h : e ∈ Expression.links l) :
    ∃ x ∈ l, ∃ y ∈ l.tail, e = .isNext x y := by
  induction l with
  | nil => cases h
  | cons x l ih =>
    cases l with
    | nil => cases h
    | cons y ys =>
      rcases List.mem_cons.1 h with rfl | h
      · exact ⟨x, .head _, y, .head _, rfl⟩
      · obtain ⟨z, hz, w, hw, rfl⟩ := ih h
        exact ⟨z, .tail _ hz, w, .tail _ hw, rfl⟩

theorem conjuncts_of_mem_links (h : e ∈ Expression.links l) : e.conjuncts = [e] := by
  obtain ⟨x, -, y, -, rfl⟩ := exists_eq_of_mem_links h
  exact conjuncts_of_eq _ _

theorem conjuncts_of_mem_numbers {ps : List (Variable × Int)} (h : e ∈ ps.map Expression.hasNumber) :
    e.conjuncts = [e] := by
  obtain ⟨p, -, rfl⟩ := List.mem_map.1 h
  exact conjuncts_of_eq _ _

theorem conjuncts_of_mem_conditions (c : EqualityChain) : ∀ e ∈ c.conditions, e.conjuncts = [e] := by
  intro e he
  rw [conditions, List.mem_append, List.mem_append] at he
  rcases he with (he | he) | he
  · exact conjuncts_of_mem_numbers he
  · exact conjuncts_of_mem_links he
  · exact conjuncts_of_mem_numbers he

theorem conjuncts_allOf (c : EqualityChain) : (Expression.allOf c.conditions).conjuncts = c.conditions :=
  (Expression.conjuncts_of_and rfl).trans
    (Expression.conjunctsOfAll_toTerm c.conjuncts_of_mem_conditions)

-- ---------------------------------------------------------------------------
-- Evaluation
-- ---------------------------------------------------------------------------

theorem evaluate_hasNumber (p : Variable × Int) :
    (Expression.hasNumber p).evaluate .twoValued n = .residual (.hasNumber p) := by
  rw [Expression.evaluate_eq]
  rfl

theorem evaluate_isNext (x y : Variable) :
    (Expression.isNext x y).evaluate .twoValued n = .residual (.isNext x y) := by
  rw [Expression.evaluate_eq]
  rfl

theorem simplify_sum (hi : Constant.fitsWord (i + 1) = true) :
    (Term.app ⟨.add, 2⟩ [.integer i, .integer 1]).simplify n = .integer (i + 1) := by
  have hfold : Evaluation.foldArgs? .add [.integer i, .integer 1] = some (i + 1) :=
    Option.filter_some_pos hi
  have hargs : [Term.integer i, .integer 1].map (·.simplify n) = [.integer i, .integer 1] := rfl
  have hstrict : ¬((⟨.add, 2⟩ : Symbol).isStrict && [Term.integer i, .integer 1].any Term.isNull) = true :=
    Bool.false_ne_true
  rw [Term.simplify_app rfl, hargs, Evaluation.simplifyValue, if_neg (by decide), if_neg hstrict, hfold]

/-- Once the first number is known, so is the second. -/
theorem evaluate_sum (y : Variable) (hi : Constant.fitsWord (i + 1) = true) :
    (Expression.eq (.var y) (.app ⟨.add, 2⟩ [.integer i, .integer 1])).evaluate .twoValued n
      = .residual (.hasNumber (y, i + 1)) := by
  rw [Expression.evaluate_eq]
  exact congrArg (Evaluation.equality n .twoValued (·.judge .twoValued n) (.var y)) (simplify_sum hi)

theorem evaluate_links (l : List Variable) :
    (Expression.links l).map (·.evaluate .twoValued n) = (Expression.links l).map .residual := by
  refine List.map_congr_left fun e he => ?_
  obtain ⟨x, -, y, -, rfl⟩ := exists_eq_of_mem_links he
  exact evaluate_isNext x y

theorem evaluate_numbers (ps : List (Variable × Int)) :
    (ps.map Expression.hasNumber).map (·.evaluate .twoValued n)
      = (ps.map Expression.hasNumber).map .residual := by
  rw [List.map_map, List.map_map]
  exact List.map_congr_left fun p _ => evaluate_hasNumber p

/-- As it stands, the condition is not decided any further. -/
theorem evaluate_conditions (c : EqualityChain) :
    (Expression.allOf c.conditions).evaluate .twoValued n = .residual (.allOf c.conditions) := by
  refine Expression.evaluate_allOf ?_ c.conjuncts_of_mem_conditions c.nodup_conditions
    c.two_le_length_conditions
  rw [conditions, List.map_append, List.map_append, evaluate_numbers, evaluate_links,
    evaluate_numbers, List.map_append, List.map_append]

-- ---------------------------------------------------------------------------
-- What is found
-- ---------------------------------------------------------------------------

theorem filterMap_equation?_numbers (ps : List (Variable × Int)) :
    (ps.map Expression.hasNumber).filterMap Condition.equation?
      = ps.map fun p => ⟨.var p.1, .integer p.2⟩ := by
  rw [List.filterMap_map]
  exact congrFun List.filterMap_eq_map ps

theorem equation?_of_mem_links (h : e ∈ Expression.links l) : Condition.equation? e = none := by
  obtain ⟨x, -, y, -, rfl⟩ := exists_eq_of_mem_links h
  rfl

/-- Its equations give numbers to variables. -/
theorem equations_conditions (c : EqualityChain) : c.conditions.filterMap Condition.equation?
    = (c.first ++ c.found).map fun p => ⟨.var p.1, .integer p.2⟩ := by
  have hlinks : (Expression.links c.waiting).filterMap Condition.equation? = [] :=
    List.filterMap_eq_nil_iff.2 fun e he => equation?_of_mem_links he
  rw [conditions, List.filterMap_append, List.filterMap_append, filterMap_equation?_numbers,
    filterMap_equation?_numbers, hlinks, List.append_nil, List.map_append]

/-- All of the rest links variables. -/
theorem others_conditions (c : EqualityChain) :
    c.conditions.filter (fun e => (Condition.equation? e).isNone) = Expression.links c.waiting := by
  have hnumbers (ps : List (Variable × Int)) :
      (ps.map Expression.hasNumber).filter (fun e => (Condition.equation? e).isNone) = [] := by
    refine List.filter_eq_nil_iff.2 fun e he => ?_
    obtain ⟨p, -, rfl⟩ := List.mem_map.1 he
    nofun
  have hlinks : (Expression.links c.waiting).filter (fun e => (Condition.equation? e).isNone)
      = Expression.links c.waiting :=
    List.filter_eq_self.2 fun e he => Option.isNone_iff_eq_none.2 (equation?_of_mem_links he)
  rw [conditions, List.filter_append, List.filter_append, hnumbers, hnumbers, hlinks, List.nil_append,
    List.append_nil]

theorem increasing_found (c : EqualityChain) :
    (c.found.map Prod.fst).Pairwise fun x y => compare x y = .lt :=
  (List.pairwise_append.1 c.increasing).1

theorem nodup_found (c : EqualityChain) : (c.found.map Prod.fst).Nodup :=
  Variable.nodup_of_increasing c.increasing_found

theorem unify?_conditions (c : EqualityChain) :
    Substitution.unify? (c.conditions.filterMap Condition.equation?)
      = some (.numbering c.advance.found) := by
  have hperm : (c.first ++ c.found).Perm c.advance.found := List.perm_append_comm
  have hnodup : ((c.first ++ c.found).map Prod.fst).Nodup :=
    (hperm.map Prod.fst).nodup_iff.2 c.advance.nodup_found
  rw [c.equations_conditions, Substitution.unify?, Substitution.solve_numbers hnodup,
    Substitution.compose_empty, Substitution.numbering_congr hnodup hperm]

theorem applyExpression_links {s : Substitution} (h : ∀ x ∈ l, s.applyVar x = .var x) :
    (Expression.links l).map s.applyExpression = Expression.links l := by
  refine (List.map_congr_left fun e he => ?_).trans (List.map_id' _)
  obtain ⟨x, hx, y, hy, rfl⟩ := exists_eq_of_mem_links he
  have hx := h x hx
  have hy := h y (List.mem_of_mem_tail hy)
  simp [Expression.isNext, Expression.eq, Substitution.applyExpression, Term.integer, hx, hy]

/-- What becomes of the links once the numbers are put in: the next variable has its number. -/
theorem evaluate_others (c : EqualityChain) :
    ((Expression.links c.waiting).map (Substitution.numbering c.advance.found).applyExpression).map
        (·.evaluate .twoValued n)
      = (c.advance.first.map Expression.hasNumber ++ Expression.links c.advance.waiting).map
          .residual := by
  have hfree : ∀ x ∈ c.advance.waiting,
      (Substitution.numbering c.advance.found).applyVar x = .var x := fun x hx =>
    Substitution.applyVar_numbering_of_not_mem fun hmem =>
      (List.nodup_append.1 c.advance.nodup_waiting_found).2.2 x hx x hmem rfl
  have hnumber : ∀ x ∈ c.waiting.head?, (Substitution.numbering c.advance.found).applyVar x
      = .integer c.number := fun x hx =>
    Substitution.applyVar_numbering c.advance.nodup_found
      (List.mem_append_right _ (List.mem_map.2 ⟨x, Option.mem_toList.2 hx, rfl⟩))
  match hwaiting : c.waiting with
  | [] | [_] => simp [first, advance, hwaiting, Expression.links]
  | x :: y :: ys =>
    have hadvance : c.advance.waiting = y :: ys := congrArg List.tail hwaiting
    have hfirst : c.advance.first = [(y, c.number + 1)] := by
      rw [first, hadvance]
      rfl
    rw [hadvance] at hfree
    have hx := hnumber x (by rw [hwaiting]; rfl)
    have hsum : (Substitution.numbering c.advance.found).applyExpression (.isNext x y)
        = .eq (.var y) (.app ⟨.add, 2⟩ [.integer c.number, .integer 1]) := by
      simp [Expression.isNext, Expression.eq, Substitution.applyExpression, Term.integer, hx,
        hfree y (.head _)]
    have hfits : Constant.fitsWord (c.number + 1) = true := by
      have hlength := congrArg List.length hwaiting
      rw [List.length_cons, List.length_cons] at hlength
      exact c.fits _ (by omega) (by omega)
    rw [hadvance, hfirst, Expression.links, List.map_cons, hsum, applyExpression_links hfree,
      List.map_cons, evaluate_sum y hfits, evaluate_links]
    rfl

theorem first_append_found_ne_nil (c : EqualityChain) : c.first ++ c.found ≠ [] := by
  intro h
  obtain ⟨hfirst, hfound⟩ := List.append_eq_nil_iff.1 h
  have hseveral := c.several
  have hwaiting := c.map_fst_first
  rw [hfirst, List.map_nil, List.nil_append] at hwaiting
  have hlength := congrArg List.length hwaiting
  rw [List.length_tail] at hlength
  rw [hfound, List.map_nil, List.nil_append] at hseveral
  omega

/-- The condition is split into the numbers that are found, and what is left gives the next variable its
number. -/
theorem split_conditions (c : EqualityChain) :
    Condition.split (some (.allOf c.conditions)) n = .ok
      { residual? := Expression.conjunction
          (c.advance.first.map .hasNumber ++ Expression.links c.advance.waiting)
        equalities := .numbering c.advance.found } := by
  have hresidual : Condition.residualOf (some (.allOf c.conditions)) n
      = .ok (some (.allOf c.conditions)) := by
    rw [Condition.residualOf, Expression.evaluateTwoValued, c.evaluate_conditions]
  have hnonempty : c.conditions.filterMap Condition.equation? ≠ [] := by
    rw [c.equations_conditions]
    exact fun h => c.first_append_found_ne_nil (List.map_eq_nil_iff.1 h)
  obtain ⟨eq, equations, hequations⟩ := List.exists_cons_of_ne_nil hnonempty
  have hunify := c.unify?_conditions
  rw [hequations] at hunify
  have hflat := c.advance.conjuncts_of_mem_conditions
  have hnodup := c.advance.nodup_conditions
  rw [conditions, List.forall_mem_append] at hflat
  rw [← c.conjuncts_allOf] at hequations
  refine Condition.split_of_equations hresidual hequations hunify
    (c.conjuncts_allOf.symm ▸ c.others_conditions) ?_
  refine Expression.residualOf_conjunction c.evaluate_others ?_ hflat.1 hnodup.of_append_left
  intro e he
  obtain ⟨e', he', rfl⟩ := List.mem_map.1 he
  obtain ⟨x, -, y, -, rfl⟩ := exists_eq_of_mem_links he'
  exact Expression.conjuncts_of_ne_and nofun

-- ---------------------------------------------------------------------------
-- The end of the chain
-- ---------------------------------------------------------------------------

/-- Once a variable is found it is no longer in front, unless it is there all by itself. -/
theorem conditions_ne_of_found {c d : EqualityChain} (hx : c.waiting.head? = some x)
    (hfound : x ∈ d.found.map Prod.fst)
    (hfront : d.waiting ≠ [] ∨ ∃ p ∈ d.found.head?, p.1 ≠ x) : d.conditions ≠ c.conditions := by
  intro h
  have hargs := congrArg (List.map (·.args.head?)) h
  rw [args_conditions, args_conditions] at hargs
  have hvars := (List.map_injective_iff.2 fun x y h => by cases h; rfl) hargs
  have hhead : (d.waiting ++ d.found.map Prod.fst).head? = some x := by
    rw [hvars, List.head?_append, hx]
    rfl
  match hwaiting : d.waiting with
  | [] =>
    obtain hwaits | ⟨p, hp, hne⟩ := hfront
    · exact hwaits hwaiting
    · rw [hwaiting, List.nil_append, List.head?_map, Option.mem_def.1 hp] at hhead
      exact hne (Option.some.inj hhead)
  | y :: ys =>
    have hyx : y = x := by
      rw [hwaiting] at hhead
      exact Option.some.inj hhead
    have hnodup := d.nodup_waiting_found
    rw [hwaiting, hyx] at hnodup
    exact (List.nodup_append.1 hnodup).2.2 x (.head _) x hfound rfl

/-- A variable that was found before is not the one that is found next. -/
theorem fst_ne_of_mem_found (c : EqualityChain) {p : Variable × Int} (hp : p ∈ c.found)
    (hx : c.waiting.head? = some x) : p.1 ≠ x := fun he =>
  (List.nodup_append.1 c.nodup_waiting_found).2.2 x (List.mem_of_head? hx) p.1
    (List.mem_map_of_mem hp) he.symm

/-- What is found stays found. -/
theorem found_prefix_iterate_advance (c : EqualityChain) (k : Nat) :
    c.found <+: (advance^[k] c).found := by
  induction k generalizing c with
  | zero => exact List.prefix_refl _
  | succ k ih => exact (List.prefix_append _ _).trans (ih c.advance)

theorem mem_found_iterate_advance (c : EqualityChain) (hx : c.waiting.head? = some x) (k : Nat) :
    x ∈ (advance^[k + 1] c).found.map Prod.fst := by
  have hmem : (x, c.number) ∈ c.first := by
    rw [first, hx]
    exact .head _
  refine ((c.advance.found_prefix_iterate_advance k).map Prod.fst).mem ?_
  exact List.mem_map_of_mem (List.mem_append_right _ hmem)

/-- As long as a variable waits behind others, the condition changes for good. -/
theorem conditions_iterate_advance_ne {c : EqualityChain} (hwaiting : c.waiting ≠ [])
    (hfound : c.found ≠ []) (k : Nat) : (advance^[k + 1] c).conditions ≠ c.conditions := by
  obtain ⟨x, l, hl⟩ := List.exists_cons_of_ne_nil hwaiting
  obtain ⟨p, ps, hp⟩ := List.exists_cons_of_ne_nil hfound
  have hx : c.waiting.head? = some x := congrArg List.head? hl
  obtain ⟨rest, hrest⟩ := c.found_prefix_iterate_advance (k + 1)
  refine conditions_ne_of_found hx (c.mem_found_iterate_advance hx k)
    (.inr ⟨p, ?_, c.fst_ne_of_mem_found (hp ▸ .head _) hx⟩)
  rw [← hrest, hp]
  rfl

/-- Only once no variable waits does the condition stay as it is. -/
theorem waiting_eq_nil_of_conditions_advance {c : EqualityChain}
    (h : c.advance.conditions = c.conditions) : c.waiting = [] := by
  match hwaiting : c.waiting with
  | [] => rfl
  | [x] =>
    have hseveral := c.several
    rw [hwaiting, List.length_append, List.length_map] at hseveral
    have hfound : c.found ≠ [] := List.ne_nil_of_length_pos (Nat.pos_of_lt_add_left hseveral)
    exact absurd h (conditions_iterate_advance_ne (by rw [hwaiting]; nofun) hfound 0)
  | x :: y :: ys =>
    have hx : c.waiting.head? = some x := congrArg List.head? hwaiting
    have hadvance : c.advance.waiting = y :: ys := congrArg List.tail hwaiting
    refine absurd h (conditions_ne_of_found hx (c.mem_found_iterate_advance hx 0) (.inl ?_))
    rw [hadvance]
    nofun

theorem waiting_iterate_advance (c : EqualityChain) (k : Nat) :
    (advance^[k] c).waiting = c.waiting.drop k := by
  induction k generalizing c with
  | zero => rfl
  | succ k ih =>
    rw [Function.iterate_succ_apply, ih, ← List.drop_tail]
    rfl

theorem conditions_iterate_advance {c : EqualityChain} (h : c.waiting = []) (k : Nat) :
    (advance^[k] c).conditions = c.conditions := by
  induction k generalizing c with
  | zero => rfl
  | succ k ih =>
    have hadvance : c.advance.waiting = [] := congrArg List.tail h
    rw [Function.iterate_succ_apply, ih hadvance]
    simp [conditions, advance, first, h]

end EqualityChain

-- ---------------------------------------------------------------------------
-- Filters above aggregations
-- ---------------------------------------------------------------------------

namespace Tree

variable {σ : BuildSettings} {m : Bool} {grouping : VarSet} {bindings : Substitution} {child : Tree}

/-- What is found is put back behind what is left. -/
theorem keepAggregateEqualities_chain (c : EqualityChain)
    (hvars : ∀ x ∈ c.vars, x ∈ bindings.domain) :
    keepAggregateEqualities
        { residual? := Expression.conjunction
            (c.advance.first.map .hasNumber ++ Expression.links c.advance.waiting)
          equalities := .numbering c.advance.found }
        [aggregate m grouping bindings child]
      = { residual? := some (.allOf c.advance.conditions) } := by
  have hincreasing := c.advance.increasing_found
  have hflat := c.advance.conjuncts_of_mem_conditions
  have hnodup := c.advance.nodup_conditions
  have hfound : c.advance.found ≠ [] := fun h =>
    c.first_append_found_ne_nil (List.perm_nil.1 (h ▸ List.perm_append_comm))
  obtain ⟨p, hp⟩ := List.exists_mem_of_ne_nil _ hfound
  have hp := (Substitution.mem_domain_numbering hincreasing).2 (List.mem_map_of_mem hp)
  rw [keepAggregateEqualities_of_ne_var hp]
  · dsimp only
    rw [Substitution.bindings_numbering hincreasing, List.map_map]
    have hback := Expression.andOptional_conjunction hflat hnodup.of_append_left hnodup.of_append_right
    exact congrArg (SplitCondition.mk · ∅) (hback.trans
      (Expression.conjunction_of_flat hflat hnodup c.advance.two_le_length_conditions))
  · intro x hx
    have hx := (Substitution.mem_domain_numbering hincreasing).1 hx
    refine ⟨hvars x (c.vars_advance ▸ List.mem_append_left _ hx), fun y => ?_⟩
    obtain ⟨⟨x, i⟩, hi, rfl⟩ := List.mem_map.1 hx
    rw [Substitution.applyVar_numbering c.advance.nodup_found hi]
    nofun

/-- A filter whose condition is a chain above an aggregation is rewritten to one in which one more
variable has its number. -/
theorem normalizeFilter_chain (c : EqualityChain) (hσ : σ.testMode = false)
    (hvars : ∀ x ∈ c.vars, x ∈ bindings.domain) :
    normalizeFilter σ (pushdown σ) (.allOf c.conditions) (aggregate m grouping bindings child)
      = .ok (filter false (.allOf c.advance.conditions) (aggregate m grouping bindings child)) := by
  have hbelow (constraint : Expression) : (pushdown σ).propagate constraint
      (aggregate m grouping bindings child) = .ok (aggregate m grouping bindings child) := by
    obtain ⟨depth, hdepth⟩ : ∃ depth, (aggregate m grouping bindings child).pushdownDepth = depth + 1 :=
      Nat.exists_eq_add_one.2 (Nat.zero_lt_of_lt (size_add_lt_pushdownDepth _))
    show propagateTo σ (aggregate m grouping bindings child).pushdownDepth constraint _ = _
    rw [hdepth]
    rfl
  show propagateFilter σ (pushdown σ) none (.allOf c.conditions) _ = _
  rw [propagateFilter, c.split_conditions]
  dsimp only [bind, Except.bind]
  rw [keepAggregateEqualities_chain c hvars]
  dsimp only [Condition.below, pure, Except.pure]
  rw [Pushdown.pushSplit, hbelow]
  dsimp only [BuildSettings.filterOptional, BuildSettings.filter, BuildSettings.build]
  rw [hσ]
  rfl

end Tree

end QueryAlgebra
