import Mathlib.Logic.Encodable.Basic
import Mathlib.Logic.Equiv.List
import QueryAlgebra.Evaluation

/-!
# The meaning of terms

A term has a value on a row. Variables take theirs from the row, constants denote themselves, and
a symbol is applied to the values of its arguments. What a symbol computes is fixed where the
algebra gives it a meaning of its own: tests, connectives, equality, `COALESCE`. The rest is an
`Interpretation`: the functions and conditions of the database, the order of values that are
neither integers nor strings, arithmetic where the result does not fit a word.

The laws that an interpretation obeys are those that rewriting relies on:

* a strict symbol gives NULL exactly when an argument is NULL;
* a template gives distinct values for distinct arguments;
* integer arithmetic is exact where the result fits the word, and integers and strings compare as
  usual;
* an aggregate does not depend on the order of its rows, and is NULL over none of them.

A condition has three truth values; `none` is the one of NULL.

Main statements: `Interpretation.eval_apply` (substituting and evaluating commute) and
`Interpretation.eval_congr` (a term only looks at its own variables).
-/

namespace QueryAlgebra

/-- A row gives each variable a value. What it gives variables that it does not have is of no
interest. -/
abbrev Row := Variable → Constant

-- ---------------------------------------------------------------------------
-- Truth values
-- ---------------------------------------------------------------------------

/-- A truth value of three-valued logic; there is none for NULL. -/
abbrev Truth := Option Bool

namespace Truth

/-- All of them together: false if one is false, and otherwise NULL if one is NULL. -/
def conj (ts : List Truth) : Truth :=
  if some false ∈ ts then some false else if none ∈ ts then none else some true

/-- At least one of them: true if one is true, and otherwise NULL if one is NULL. -/
def disj (ts : List Truth) : Truth :=
  if some true ∈ ts then some true else if none ∈ ts then none else some false

def neg (t : Truth) : Truth := t.map (!·)

/-- The truth value as a value of terms. -/
def toConstant : Truth → Constant
  | none => .null
  | some b => .boolean b

end Truth

-- ---------------------------------------------------------------------------
-- Interpretations
-- ---------------------------------------------------------------------------

/-- What the algebra leaves to the database. -/
structure Interpretation where
  /-- The value of a function whose arguments are not NULL. -/
  value : Symbol → List Constant → Constant
  /-- Whether a condition of the database holds of arguments that are not NULL. -/
  condition : Symbol → List Constant → Bool
  /-- How two values that are not NULL compare. -/
  compares : Evaluation.Comparison → Constant → Constant → Bool
  /-- Whether a value that is neither NULL nor a truth value counts as true. -/
  truth : Constant → Bool
  /-- The value of an aggregate other than a count, over argument lists without NULL. -/
  aggregate : Symbol → List (List Constant) → Constant
  /-- The order in which rows are sorted. -/
  collation : Constant → Constant → Ordering
  value_ne_null : ∀ f vs, value f vs ≠ .null
  add_exact : ∀ n i j, Constant.fitsWord (i + j) = true →
    value ⟨.add, n⟩ [.integer i, .integer j] = .integer (i + j)
  subtract_exact : ∀ n i j, Constant.fitsWord (i - j) = true →
    value ⟨.subtract, n⟩ [.integer i, .integer j] = .integer (i - j)
  multiply_exact : ∀ n i j, Constant.fitsWord (i * j) = true →
    value ⟨.multiply, n⟩ [.integer i, .integer j] = .integer (i * j)
  template_injective : ∀ p n vs ws, vs.length = ws.length → .null ∉ vs → .null ∉ ws →
    value ⟨.template p, n⟩ vs = value ⟨.template p, n⟩ ws → vs = ws
  compares_integers : ∀ c i j, compares c (.integer i) (.integer j) = c.holds (compare i j)
  compares_strings : ∀ c a b, compares c (.string a) (.string b) = c.holds (compare a b)
  aggregate_perm : ∀ f rows rows', rows.Perm rows' → aggregate f rows = aggregate f rows'
  aggregate_nil : ∀ f, aggregate f [] = .null

namespace Interpretation

variable (I : Interpretation)

/-- The truth value of a value in the place of a condition. -/
def truthOf : Constant → Truth
  | .null => none
  | .boolean b => some b
  | c => some (I.truth c)

/-- NULL if an argument is NULL. -/
def strictly (vs : List Constant) (v : Constant) : Constant := if .null ∈ vs then .null else v

/-- An aggregate over the argument lists of the rows of a group: it ignores those with a NULL. -/
def aggregateOver (f : Symbol) (rows : List (List Constant)) : Constant :=
  let counted := rows.filter fun vs => .null ∉ vs
  if f.operation = .count then .integer counted.length else I.aggregate f counted

/-- The value of a symbol on the values of its arguments. Outside an aggregation, an aggregate
symbol takes the row as the only one of its group. -/
def apply (f : Symbol) (vs : List Constant) : Constant :=
  if f.isAggregate then I.aggregateOver f [vs]
  else match f.operation, vs with
    | .and, vs => (Truth.conj (vs.map I.truthOf)).toConstant
    | .or, vs => (Truth.disj (vs.map I.truthOf)).toConstant
    | .not, v :: _ => (Truth.neg (I.truthOf v)).toConstant
    | .isNull, v :: _ => .boolean v.isNull
    | .isNotNull, v :: _ => .boolean !v.isNull
    | .isTrue, v :: _ => (I.truthOf v).toConstant
    | .eq, [v, w] => strictly [v, w] (.boolean (v = w))
    | .neq, [v, w] => strictly [v, w] (.boolean (v ≠ w))
    | .lt, [v, w] => strictly [v, w] (.boolean (I.compares .lt v w))
    | .lte, [v, w] => strictly [v, w] (.boolean (I.compares .lte v w))
    | .gt, [v, w] => strictly [v, w] (.boolean (I.compares .gt v w))
    | .gte, [v, w] => strictly [v, w] (.boolean (I.compares .gte v w))
    | .coalesce, vs => (vs.find? (!·.isNull)).getD .null
    | _, vs => strictly vs (if f.isBoolean then .boolean (I.condition f vs) else I.value f vs)

mutual

/-- The value of a term on a row. -/
def eval (ρ : Row) : Term → Constant
  | .var x => ρ x
  | .const c => c
  | .app f args => I.apply f (evalAll ρ args)

/-- The values of the terms on a row. -/
def evalAll (ρ : Row) : List Term → List Constant
  | [] => []
  | t :: ts => eval ρ t :: evalAll ρ ts

end

/-- The truth value of a term in the place of a condition. -/
def judge (ρ : Row) (t : Term) : Truth := I.truthOf (I.eval ρ t)

/-- Whether the row passes the condition. -/
def Holds (ρ : Row) (e : Expression) : Prop := I.judge ρ e.toTerm = some true

instance (ρ : Row) (e : Expression) : Decidable (I.Holds ρ e) :=
  inferInstanceAs (Decidable (_ = _))

/-- Whether the row passes the condition, if there is one. -/
def HoldsOptional (ρ : Row) (e? : Option Expression) : Prop := ∀ e ∈ e?, I.Holds ρ e

instance (ρ : Row) (e? : Option Expression) : Decidable (I.HoldsOptional ρ e?) :=
  inferInstanceAs (Decidable (∀ e ∈ e?, I.Holds ρ e))

-- ---------------------------------------------------------------------------
-- Values of terms
-- ---------------------------------------------------------------------------

variable {I}

@[simp] theorem evalAll_eq_map {ρ : Row} {ts : List Term} : I.evalAll ρ ts = ts.map (I.eval ρ) := by
  induction ts with
  | nil => rfl
  | cons t ts ih => simp [evalAll, ih]

@[simp] theorem eval_var {ρ : Row} {x : Variable} : I.eval ρ (.var x) = ρ x := rfl

@[simp] theorem eval_const {ρ : Row} {c : Constant} : I.eval ρ (.const c) = c := rfl

@[simp] theorem eval_app {ρ : Row} {f : Symbol} {args : List Term} :
    I.eval ρ (.app f args) = I.apply f (args.map (I.eval ρ)) := by
  simp [eval]

/-- The value of a substituted term is that of the term on the row of the substituted values. -/
theorem eval_apply {ρ : Row} {s : Substitution} {t : Term} :
    I.eval ρ (s.apply t) = I.eval (fun x => I.eval ρ (s.applyVar x)) t := by
  induction t using Term.inductionOn with
  | var x => rfl
  | const c => rfl
  | app f args ih =>
    rw [Substitution.apply_app, eval_app, eval_app, List.map_map]
    congr 1
    exact List.map_congr_left ih

/-- A term only looks at its own variables. -/
theorem eval_congr {ρ σ : Row} {t : Term} (h : ∀ x ∈ t.vars.toList, ρ x = σ x) :
    I.eval ρ t = I.eval σ t := by
  induction t using Term.inductionOn with
  | var x => exact h x (Term.mem_vars_var.2 rfl)
  | const c => rfl
  | app f args ih =>
    have hargs : ∀ t ∈ args, I.eval ρ t = I.eval σ t := by
      intro t ht
      apply ih t ht
      intro x hx
      exact h x (Term.mem_vars_app.2 ⟨t, ht, hx⟩)
    rw [eval_app, eval_app, List.map_congr_left hargs]

end Interpretation

end QueryAlgebra
