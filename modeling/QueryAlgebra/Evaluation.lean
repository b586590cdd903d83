import QueryAlgebra.Nullability

/-!
# Partial evaluation

An expression is evaluated as far as constants and nullability decide it; what stays undecided is
handed back as a simplified expression. Under three-valued logic NULL is a truth value of its own.
Under two-valued logic, that of filters and join conditions, NULL counts as false at the top and
through conjunctions and disjunctions; below a negation and within terms the logic is three-valued
again.

Some rules look at a term again once it is simplified, so the recursion is not on the term. It has
a depth instead: an expression met at depth 0 is handed back undecided, which is always right, and
`Expression.evaluate` starts deep enough for every expression to be taken to its end.
-/

namespace QueryAlgebra

/-- Whether NULL is a truth value of its own or counts as false. -/
inductive Logic where
  | twoValued
  | threeValued
deriving DecidableEq

/-- What is known of the truth of an expression. -/
inductive Verdict where
  | truth
  | falsity
  | null
  /-- Undecided; the expression that is left. -/
  | residual (e : Expression)
deriving DecidableEq

namespace Verdict

def ofBool : Bool → Verdict
  | true => truth
  | false => falsity

/-- False or NULL: no row passes. -/
def isEffectivelyFalse : Verdict → Bool
  | falsity | null => true
  | _ => false

def isTrue : Verdict → Bool
  | truth => true
  | _ => false

/-- The expression that is left. -/
def residual? : Verdict → Option Expression
  | residual e => some e
  | _ => none

/-- The verdict as a term. -/
def toTerm : Verdict → Term
  | truth => .boolean true
  | falsity => .boolean false
  | null => .null
  | residual e => e.toTerm

-- ---------------------------------------------------------------------------
-- Connectives
-- ---------------------------------------------------------------------------

/-- The operand that stands for NULL among undecided ones. -/
def nullOperand : Expression := .isTrue .null

/-- All of the operands together. -/
def conjoin (logic : Logic) (verdicts : List Verdict) : Verdict :=
  if .falsity ∈ verdicts ∨ (logic = .twoValued ∧ .null ∈ verdicts) then .falsity
  else
    let undecided := (verdicts.filterMap residual?).flatMap Expression.conjuncts
    let marker := if .null ∈ verdicts then [nullOperand] else []
    match Expression.conjunction (undecided ++ marker) with
    | none => .truth
    | some e => if e = nullOperand then .null else .residual e

/-- The operands of a disjunction so far with one more: those of a disjunction are taken over as
they are, any other is added once. -/
def disjunctsWith (operands : List Expression) (e : Expression) : List Expression :=
  if e.operation = .or then operands ++ e.args.map Expression.ofTerm
  else if e ∈ operands then operands
  else operands ++ [e]

/-- At least one of the operands. Under two-valued logic a NULL operand adds nothing. -/
def disjoin (logic : Logic) (verdicts : List Verdict) : Verdict :=
  if .truth ∈ verdicts then .truth
  else
    let undecided := (verdicts.filterMap residual?).foldl disjunctsWith []
    if logic = .threeValued ∧ .null ∈ verdicts then
      if undecided.isEmpty then .null else .residual (.or (undecided ++ [nullOperand]))
    else match undecided with
      | [] => .falsity
      | [e] => .residual e
      | es => .residual (.or es)

/-- An undecided expression negated: a double negation goes away, and the two tests for NULL are
each other's negation. -/
def negateResidual (e : Expression) : Expression :=
  match e.operation, e.args with
  | .not, [t] => .ofTerm t
  | .isNull, [t] => .isNotNull t
  | .isNotNull, [t] => .isNull t
  | _, _ => e.not

/-- The opposite of a three-valued verdict. -/
def negate : Verdict → Verdict
  | truth => falsity
  | falsity => truth
  | null => null
  | residual e => residual (negateResidual e)

/-- A boolean constant used as a condition. -/
def ofConstant : Constant → Verdict
  | .boolean b => ofBool b
  | .null => null
  | c => residual (.isTrue (.const c))

end Verdict

-- ---------------------------------------------------------------------------
-- Rules for simplified operands
-- ---------------------------------------------------------------------------

namespace Evaluation

/-- The arguments of a COALESCE that can still be chosen: NULL never is, and nothing is after an
argument that cannot be NULL. -/
def choices (n : Nullability) : List Term → List Term
  | [] => []
  | t :: ts =>
    if t.isNull then choices n ts
    else if n.isTermNullable t then t :: choices n ts
    else [t]

/-- The integer that an arithmetic operation gives, if it fits the word. -/
def fold? (op : Operation) (i j : Int) : Option Int :=
  let value? := match op with
    | .add => some (i + j)
    | .subtract => some (i - j)
    | .multiply => some (i * j)
    | _ => none
  value?.filter Constant.fitsWord

/-- The integer that the first two arguments give. -/
def foldArgs? (op : Operation) (args : List Term) : Option Int :=
  match args with
  | s :: t :: _ => s.integer?.bind fun i => t.integer?.bind (fold? op i)
  | _ => none

/-- A value function on simplified arguments: NULL goes through a strict function, and arithmetic
on constants is carried out. -/
def simplifyValue (n : Nullability) (f : Symbol) (args : List Term) : Term :=
  if f.operation = .coalesce then
    match choices n args with
    | [] => .null
    | [t] => t
    | ts => .coalesce ts
  else if f.isStrict && args.any Term.isNull then .null
  else match foldArgs? f.operation args with
    | some i => .integer i
    | none => .app f args

/-- The test for NULL, or against it. -/
def testNull (n : Nullability) (expectNull : Bool) (t : Term) : Verdict :=
  if t.isNull then .ofBool expectNull
  else if !n.isTermNullable t then .ofBool !expectNull
  else .residual (if expectNull then .isNull t else .isNotNull t)

/-- The equalities between the arguments of one injective symbol. Taking an equality apart blurs
NULL and false, which two-valued logic does not tell apart. -/
def injectiveEqualities? (s t : Term) : Option (List Term) :=
  match s, t with
  | .app f ss, .app g ts =>
    if f = g ∧ f.isInjective ∧ ss.length = ts.length then
      some (List.zipWith (fun s t => (Expression.eq s t).toTerm) ss ts)
    else none
  | _, _ => none

/-- Equality of two simplified terms; `judge` gives the verdicts on the equalities that an injective
symbol is taken apart into. -/
def equality (n : Nullability) (logic : Logic) (judge : Term → Verdict) (s t : Term) : Verdict :=
  if s.isNull || t.isNull then .null
  else match s, t with
    | .const c, .const d => .ofBool (c = d)
    | s, t =>
      if s = t then
        if !n.isTermNullable s then .truth
        else match logic with
          | .twoValued => .residual (.isNotNull s)
          | .threeValued => .residual (.eq s t)
      else match logic, injectiveEqualities? s t with
        | .twoValued, some equalities => .conjoin logic (equalities.map judge)
        | _, _ => .residual (.eq s t)

/-- Inequality of two simplified terms. -/
def inequality (n : Nullability) (s t : Term) : Verdict :=
  if s.isNull || t.isNull then .null
  else match s, t with
    | .const c, .const d => .ofBool (c ≠ d)
    | s, t => if s = t ∧ !n.isTermNullable s then .falsity else .residual (.neq s t)

/-- How two constants compare: integers with integers, strings with strings. -/
def compare? : Term → Term → Option Ordering
  | .const (.integer i), .const (.integer j) => some (compare i j)
  | .const (.string a), .const (.string b) => some (compare a b)
  | _, _ => none

/-- The order relations, with what each asks of a comparison. -/
inductive Comparison where
  | lt
  | lte
  | gt
  | gte
deriving DecidableEq

/-- The operation that an order relation belongs to. -/
def Comparison.operation : Comparison → Operation
  | lt => .lt
  | lte => .lte
  | gt => .gt
  | gte => .gte

/-- Whether a comparison with this outcome holds. -/
def Comparison.holds : Comparison → Ordering → Bool
  | lt, o => o.isLT
  | lte, o => o.isLE
  | gt, o => o.isGT
  | gte, o => o.isGE

/-- An order relation between two terms. -/
def Comparison.expression (c : Comparison) (s t : Term) : Expression :=
  ⟨⟨c.operation, 2⟩, [s, t], by cases c <;> rfl⟩

/-- Comparison of two simplified terms. -/
def comparison (c : Comparison) (s t : Term) : Verdict :=
  if s.isNull || t.isNull then .null
  else match compare? s t with
    | some o => .ofBool (c.holds o)
    | none => .residual (c.expression s t)

/-- A condition of the database on simplified arguments. -/
def opaqueCondition (e : Expression) (args : List Term) : Verdict :=
  if e.symbol.isStrict && args.any Term.isNull then .null
  else .residual ⟨e.symbol, args, e.boolean⟩

-- ---------------------------------------------------------------------------
-- Evaluation to a depth
-- ---------------------------------------------------------------------------

mutual

/-- The term simplified: conditions within it are evaluated under three-valued logic. -/
def simplifyTo (n : Nullability) : Nat → Term → Term
  | 0, t => t
  | depth + 1, t => match t with
    | .app f args =>
      if h : f.isBoolean = true then (evaluateTo n .threeValued depth ⟨f, args, h⟩).toTerm
      else simplifyValue n f (args.map (simplifyTo n depth))
    | t => t
termination_by structural depth => depth

/-- The verdict on a term in the place of a condition. -/
def judgeTo (n : Nullability) (logic : Logic) : Nat → Term → Verdict
  | 0, t => .residual (.ofTerm t)
  | depth + 1, t => match t with
    | .const c => .ofConstant c
    | .var x => .residual (.isTrue (.var x))
    | .app f args =>
      if h : f.isBoolean = true then evaluateTo n logic depth ⟨f, args, h⟩
      else match simplifyTo n depth (.app f args) with
        | .const c => .ofConstant c
        | s => .residual (.isTrue s)
termination_by structural depth => depth

/-- The verdict on an expression. -/
def evaluateTo (n : Nullability) (logic : Logic) : Nat → Expression → Verdict
  | 0, e => .residual e
  | depth + 1, e =>
    let simplify := simplifyTo n depth
    match e.operation, e.args with
    | .and, args => .conjoin logic (args.map (judgeTo n logic depth))
    | .or, args => .disjoin logic (args.map (judgeTo n logic depth))
    | .not, t :: _ => (judgeTo n .threeValued depth t).negate
    | .isNull, t :: _ => testNull n true (simplify t)
    | .isNotNull, t :: _ => testNull n false (simplify t)
    | .isTrue, t :: _ => match simplify t with
      | .const c => .ofConstant c
      | s => match Expression.ofTerm? s with
        | some inner => evaluateTo n logic depth inner
        | none => .residual (.isTrue s)
    | .eq, [s, t] => equality n logic (judgeTo n logic depth) (simplify s) (simplify t)
    | .neq, [s, t] => inequality n (simplify s) (simplify t)
    | .lt, [s, t] => comparison .lt (simplify s) (simplify t)
    | .lte, [s, t] => comparison .lte (simplify s) (simplify t)
    | .gt, [s, t] => comparison .gt (simplify s) (simplify t)
    | .gte, [s, t] => comparison .gte (simplify s) (simplify t)
    | .booleanDb _, args => opaqueCondition e (args.map simplify)
    | _, _ => .residual e
termination_by structural depth => depth

end

/-- A depth at which every term of this size is taken to its end. -/
def depthFor (size : Nat) : Nat := 8 * size + 16

end Evaluation

-- ---------------------------------------------------------------------------
-- Evaluation
-- ---------------------------------------------------------------------------

/-- The term simplified, given which variables may be NULL. -/
def Term.simplify (t : Term) (n : Nullability) : Term :=
  Evaluation.simplifyTo n (Evaluation.depthFor t.size) t

namespace Expression

/-- The verdict on the expression, given which variables may be NULL. -/
def evaluate (e : Expression) (logic : Logic) (n : Nullability) : Verdict :=
  Evaluation.evaluateTo n logic (Evaluation.depthFor e.toTerm.size) e

/-- The verdict where rows are filtered, so that NULL counts as false. -/
def evaluateTwoValued (e : Expression) (n : Nullability) : Verdict := e.evaluate .twoValued n

/-- The verdict under three-valued logic. -/
def evaluateThreeValued (e : Expression) (n : Nullability) : Verdict := e.evaluate .threeValued n

/-- Whether the condition can never hold once all of `xs` are NULL. -/
def rejectsNullsOf (e : Expression) (xs : VarSet) : Bool :=
  if e.vars.Disjoint xs then false
  else
    let nullified := (Substitution.nullifying xs).applyExpression e
    (nullified.evaluateTwoValued (.allNullable nullified.vars)).isEffectivelyFalse

end Expression

/-- What is known about the rows that pass `condition`: a group whose NULLs the condition rejects
is never NULL. -/
def Nullability.filter (n : Nullability) (condition : Expression) : Nullability :=
  .ofGroups (n.groups.toList.filter fun g => !condition.rejectsNullsOf g) n.scope

end QueryAlgebra
