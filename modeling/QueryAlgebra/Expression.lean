import QueryAlgebra.Term

/-!
# Expressions

An expression is a term whose symbol is a condition; its type says so. A conjunction is always held
flat and without repetition (`Expression.conjunction`), so that conditions can be taken apart into
their conjuncts and put together again.
-/

namespace QueryAlgebra

/-- A symbol that denotes a condition, applied to terms. -/
structure Expression where
  symbol : Symbol
  args : List Term
  boolean : symbol.isBoolean = true
deriving DecidableEq

namespace Expression

/-- The expression as a term. -/
def toTerm (e : Expression) : Term := .app e.symbol e.args

instance : Coe Expression Term := ⟨toTerm⟩

/-- The term as an expression, if its symbol is a condition. -/
def ofTerm? : Term → Option Expression
  | .app f args => if h : f.isBoolean = true then some ⟨f, args, h⟩ else none
  | _ => none

@[simp] theorem ofTerm?_toTerm (e : Expression) : ofTerm? e.toTerm = some e := by
  simp [ofTerm?, toTerm, e.boolean]

theorem toTerm_of_ofTerm? {t : Term} {e : Expression} (h : ofTerm? t = some e) : e.toTerm = t := by
  cases t with
  | app f args =>
    by_cases hf : f.isBoolean = true
    · simp only [ofTerm?, hf, dite_true, Option.some.injEq] at h
      exact h ▸ rfl
    · simp [ofTerm?, hf] at h
  | _ => exact absurd h (by simp [ofTerm?])

def operation (e : Expression) : Operation := e.symbol.operation

/-- The variables that occur in the expression. -/
def vars (e : Expression) : VarSet := Term.varsOf e.args

def text (e : Expression) : String := e.toTerm.text

-- ---------------------------------------------------------------------------
-- Conditions from terms
-- ---------------------------------------------------------------------------

/-- The terms are equal. -/
def eq (s t : Term) : Expression := ⟨⟨.eq, 2⟩, [s, t], rfl⟩

/-- The terms differ. -/
def neq (s t : Term) : Expression := ⟨⟨.neq, 2⟩, [s, t], rfl⟩

/-- The term is NULL. -/
def isNull (t : Term) : Expression := ⟨⟨.isNull, 1⟩, [t], rfl⟩

/-- The term is not NULL. -/
def isNotNull (t : Term) : Expression := ⟨⟨.isNotNull, 1⟩, [t], rfl⟩

/-- The boolean value `t` holds. -/
def isTrue (t : Term) : Expression := ⟨⟨.isTrue, 1⟩, [t], rfl⟩

/-- The condition does not hold. -/
def not (e : Expression) : Expression := ⟨⟨.not, 1⟩, [e.toTerm], rfl⟩

/-- One of the conditions holds. -/
def or (es : List Expression) : Expression := ⟨⟨.or, es.length⟩, es.map toTerm, rfl⟩

/-- A term read as a condition: itself, or the test that its boolean value holds. -/
def ofTerm (t : Term) : Expression := (ofTerm? t).getD (isTrue t)

-- ---------------------------------------------------------------------------
-- Conjunctions
-- ---------------------------------------------------------------------------

mutual

/-- The operands of a conjunction within conjunctions; any other term is its own operand. -/
def conjunctsOf : Term → List Expression
  | .app f args =>
    if h : f.isBoolean = true then
      if f.operation = .and then conjunctsOfAll args else [⟨f, args, h⟩]
    else [isTrue (.app f args)]
  | t => [isTrue t]

/-- The operands of each of the terms. -/
def conjunctsOfAll : List Term → List Expression
  | [] => []
  | t :: ts => conjunctsOf t ++ conjunctsOfAll ts

end

/-- The conditions that hold together exactly when `e` holds. -/
def conjuncts (e : Expression) : List Expression := conjunctsOf e.toTerm

/-- The conjunction of the expressions, flat and with each operand once, at its first place. There
is none for no operand, and a single operand stands for itself. -/
def conjunction (es : List Expression) : Option Expression :=
  match (es.flatMap conjuncts).eraseDups with
  | [] => none
  | [e] => some e
  | es => some ⟨⟨.and, es.length⟩, es.map toTerm, rfl⟩

/-- Both conditions hold. -/
def and (e e' : Expression) : Expression := (conjunction [e, e']).getD e

/-- Those of the two conditions that are there hold. -/
def andOptional (e? e'? : Option Expression) : Option Expression :=
  conjunction (e?.toList ++ e'?.toList)

end Expression

end QueryAlgebra
