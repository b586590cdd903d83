import QueryAlgebra.Variable
import QueryAlgebra.Constant
import QueryAlgebra.Symbol

/-!
# Terms

A term is a variable, a constant, or a symbol applied to terms. The number of arguments need not be
the arity of the symbol.

Every function on terms comes with one on argument lists; the lemmas tagged `simp` say what the
second is in terms of the first, so that later files speak of arguments through `List` alone.
`Term.inductionOn` is the induction that goes with it.
-/

namespace QueryAlgebra

/-- A term of the query language. -/
inductive Term where
  | var (name : Variable)
  | const (value : Constant)
  | app (symbol : Symbol) (args : List Term)
deriving Inhabited

namespace Term

-- ---------------------------------------------------------------------------
-- Equality and induction
-- ---------------------------------------------------------------------------

mutual

/-- Decides whether two terms are the same. -/
def decEq : (s t : Term) → Decidable (s = t)
  | var x, var y => decidable_of_iff (x = y) (by simp)
  | const c, const d => decidable_of_iff (c = d) (by simp)
  | app f ss, app g ts =>
    match decEqArgs ss ts with
    | isTrue h => decidable_of_iff (f = g) (by simp [h])
    | isFalse h => isFalse (by simp [h])
  | var _, const _ | var _, app _ _ | const _, var _ => isFalse (by simp)
  | const _, app _ _ | app _ _, var _ | app _ _, const _ => isFalse (by simp)

/-- Decides whether two argument lists are the same. -/
def decEqArgs : (ss ts : List Term) → Decidable (ss = ts)
  | [], [] => isTrue rfl
  | [], _ :: _ | _ :: _, [] => isFalse (by simp)
  | s :: ss, t :: ts =>
    match decEq s t with
    | isFalse h => isFalse (by simp [h])
    | isTrue h => match decEqArgs ss ts with
      | isTrue hs => isTrue (by simp [h, hs])
      | isFalse hs => isFalse (by simp [hs])

end

instance : DecidableEq Term := decEq

/-- What holds of variables and constants, and of an application once it holds of the arguments,
holds of every term. -/
theorem inductionOn {motive : Term → Prop} (var : ∀ x, motive (.var x))
    (const : ∀ c, motive (.const c))
    (app : ∀ f args, (∀ t ∈ args, motive t) → motive (.app f args)) (t : Term) : motive t :=
  @Term.rec motive (fun args => ∀ t ∈ args, motive t) var const (fun f args h => app f args h)
    (fun _ h => absurd h List.not_mem_nil)
    (fun _ _ ht hts _ h => (List.mem_cons.1 h).elim (fun e => e ▸ ht) (hts _)) t

-- ---------------------------------------------------------------------------
-- Accessors
-- ---------------------------------------------------------------------------

/-- The NULL constant. -/
def null : Term := const .null

def boolean (b : Bool) : Term := const (.boolean b)

def integer (i : Int) : Term := const (.integer i)

/-- The first of `args` that is not NULL. -/
def coalesce (args : List Term) : Term := app ⟨.coalesce, args.length⟩ args

def var? : Term → Option Variable
  | var x => some x
  | _ => none

def constant? : Term → Option Constant
  | const c => some c
  | _ => none

def symbol? : Term → Option Symbol
  | app f _ => some f
  | _ => none

/-- The integer that the term stands for, if it is one. -/
def integer? (t : Term) : Option Int := t.constant?.bind Constant.integer?

def isNull : Term → Bool
  | const c => c.isNull
  | _ => false

/-- Whether the term is a variable. -/
def isVariable : Term → Bool
  | var _ => true
  | _ => false

/-- Whether the term is an application. -/
def isFunctional : Term → Bool
  | app _ _ => true
  | _ => false

/-- Whether the term is a condition. -/
def isBoolean : Term → Bool
  | app f _ => f.isBoolean
  | _ => false

-- ---------------------------------------------------------------------------
-- Variables of a term
-- ---------------------------------------------------------------------------

mutual

/-- The variables that occur in the term. -/
def vars : Term → VarSet
  | var x => .singleton x
  | const _ => ∅
  | app _ args => varsOf args

/-- The variables that occur in one of the terms. -/
def varsOf : List Term → VarSet
  | [] => ∅
  | t :: ts => t.vars ∪ varsOf ts

end

theorem mem_varsOf {x : Variable} {ts : List Term} : x ∈ varsOf ts ↔ ∃ t ∈ ts, x ∈ t.vars := by
  induction ts with
  | nil => simp [varsOf]
  | cons t ts ih => simp [varsOf, ih]

@[simp] theorem mem_vars_var {x y : Variable} : x ∈ (var y).vars ↔ x = y := by simp [vars]

@[simp] theorem not_mem_vars_const {x : Variable} {c : Constant} : x ∉ (const c).vars := by
  simp [vars]

@[simp] theorem mem_vars_app {x : Variable} {f : Symbol} {args : List Term} :
    x ∈ (app f args).vars ↔ ∃ t ∈ args, x ∈ t.vars := by
  simp only [vars, mem_varsOf]

mutual

/-- Whether `x` occurs in the term. -/
def mentions (x : Variable) : Term → Bool
  | var y => y == x
  | const _ => false
  | app _ args => mentionedBy x args

/-- Whether `x` occurs in one of the terms. -/
def mentionedBy (x : Variable) : List Term → Bool
  | [] => false
  | t :: ts => mentions x t || mentionedBy x ts

end

theorem mentionedBy_iff {x : Variable} {ts : List Term} :
    mentionedBy x ts = true ↔ ∃ t ∈ ts, mentions x t = true := by
  induction ts with
  | nil => simp [mentionedBy]
  | cons t ts ih => simp [mentionedBy, ih]

theorem mentions_iff {x : Variable} {t : Term} : mentions x t = true ↔ x ∈ t.vars := by
  induction t using inductionOn with
  | var y => simpa [mentions] using eq_comm
  | const c => simp [mentions]
  | app f args ih =>
    simp only [mentions, mentionedBy_iff, mem_vars_app]
    exact exists_congr fun t => and_congr_right fun ht => ih t ht

mutual

/-- Whether no variable occurs in the term. -/
def isGround : Term → Bool
  | var _ => false
  | const _ => true
  | app _ args => areGround args

/-- Whether no variable occurs in any of the terms. -/
def areGround : List Term → Bool
  | [] => true
  | t :: ts => t.isGround && areGround ts

end

-- ---------------------------------------------------------------------------
-- What the symbols of a term guarantee
-- ---------------------------------------------------------------------------

mutual

/-- Whether the term is an injective function of its variables, built from injective symbols. -/
def isInjective : Term → Bool
  | var _ => true
  | const _ => true
  | app f args => f.isInjective && areInjective args

/-- Whether each of the terms is injective. -/
def areInjective : List Term → Bool
  | [] => true
  | t :: ts => t.isInjective && areInjective ts

end

@[simp] theorem areInjective_eq_all {ts : List Term} : areInjective ts = ts.all isInjective := by
  induction ts with
  | nil => rfl
  | cons t ts ih => simp [areInjective, ih]

mutual

/-- Whether the term may be NULL where `nullable` tells which variables may be. Tests for NULL and
counts never are; an aggregate over an empty group always may be. -/
def isNullable (nullable : Variable → Bool) : Term → Bool
  | var x => nullable x
  | const c => c.isNull
  | app f args => match f.operation with
    | .isNull | .isNotNull | .count => false
    | .coalesce => allNullable nullable args
    | _ => f.isAggregate || someNullable nullable args

/-- Whether each of the terms may be NULL. -/
def allNullable (nullable : Variable → Bool) : List Term → Bool
  | [] => true
  | t :: ts => t.isNullable nullable && allNullable nullable ts

/-- Whether one of the terms may be NULL. -/
def someNullable (nullable : Variable → Bool) : List Term → Bool
  | [] => false
  | t :: ts => t.isNullable nullable || someNullable nullable ts

end

@[simp] theorem allNullable_eq_all {nullable : Variable → Bool} {ts : List Term} :
    allNullable nullable ts = ts.all (isNullable nullable) := by
  induction ts with
  | nil => rfl
  | cons t ts ih => simp [allNullable, ih]

@[simp] theorem someNullable_eq_any {nullable : Variable → Bool} {ts : List Term} :
    someNullable nullable ts = ts.any (isNullable nullable) := by
  induction ts with
  | nil => rfl
  | cons t ts ih => simp [someNullable, ih]

-- ---------------------------------------------------------------------------
-- Text, order, size
-- ---------------------------------------------------------------------------

mutual

/-- The rendered term. -/
def text : Term → String
  | var x => x.name
  | const c => c.text
  | app f args => f.name ++ "(" ++ ",".intercalate (texts args) ++ ")"

/-- The rendered terms. -/
def texts : List Term → List String
  | [] => []
  | t :: ts => t.text :: texts ts

end

@[simp] theorem texts_eq_map {ts : List Term} : texts ts = ts.map text := by
  induction ts with
  | nil => rfl
  | cons t ts ih => simp [texts, ih]

mutual

/-- Variables come before constants, constants before applications; applications compare by symbol
and then by their arguments, from left to right. -/
def order : Term → Term → Ordering
  | var x, var y => compare x y
  | const c, const d => compare c d
  | app f ss, app g ts => (compare f g).then (orderArgs ss ts)
  | s, t => compare s.ctorIdx t.ctorIdx

/-- Argument lists compare from left to right; one that ends comes first. -/
def orderArgs : List Term → List Term → Ordering
  | [], [] => .eq
  | [], _ :: _ => .lt
  | _ :: _, [] => .gt
  | s :: ss, t :: ts => (order s t).then (orderArgs ss ts)

end

instance : Ord Term := ⟨order⟩

mutual

/-- The number of variables, constants and symbols in the term. -/
def size : Term → Nat
  | var _ => 1
  | const _ => 1
  | app _ args => sizeOfArgs args + 1

/-- The sum of the sizes. -/
def sizeOfArgs : List Term → Nat
  | [] => 0
  | t :: ts => t.size + sizeOfArgs ts

end

theorem size_pos (t : Term) : 0 < t.size := by
  cases t <;> simp [size]

end Term

end QueryAlgebra
