import QueryAlgebra.Sorted.Map
import QueryAlgebra.Expression

/-!
# Substitutions

A substitution binds finitely many variables to terms and never binds a variable to itself. That
last condition is part of the type, so two substitutions that act alike are equal
(`Substitution.ext_apply`). Application is simultaneous: all bound variables are replaced at once,
and what is put in is not looked at again.

`s.compose t` applies `t` first and then `s` (`apply_compose`).
-/

namespace QueryAlgebra

/-- A finite map from variables to terms without identity entries. -/
structure Substitution where
  map : SortedMap Variable Term
  proper : ∀ x, map.find? x ≠ some (.var x)

namespace Substitution

instance : DecidableEq Substitution := fun s t =>
  decidable_of_iff (s.map = t.map) <| by
    cases s; cases t; simp

-- ---------------------------------------------------------------------------
-- Building
-- ---------------------------------------------------------------------------

/-- A map without its identity entries. -/
def ofMap (map : SortedMap Variable Term) : Substitution where
  map := map.filter fun x t => t ≠ .var x
  proper x := by simp [Option.filter_eq_some_iff]

/-- The substitution of a list of bindings. Identity bindings are dropped first; after that a later
binding replaces an earlier one of its variable. -/
def ofList (bindings : List (Variable × Term)) : Substitution :=
  ofMap (.ofList (bindings.filter fun b => b.2 ≠ .var b.1))

/-- The substitution that binds nothing. -/
def empty : Substitution := ⟨∅, fun _ h => nomatch h⟩

instance : EmptyCollection Substitution := ⟨empty⟩

instance : Inhabited Substitution := ⟨empty⟩

/-- One binding, or none if it binds a variable to itself. -/
def singleton (x : Variable) (t : Term) : Substitution := ofList [(x, t)]

/-- Each of the variables bound to NULL. -/
def nullifying (xs : VarSet) : Substitution :=
  ofList (xs.toList.map fun x => (x, .null))

-- ---------------------------------------------------------------------------
-- Look-ups
-- ---------------------------------------------------------------------------

/-- The bindings, in the order of their variables. -/
def bindings (s : Substitution) : List (Variable × Term) := s.map.entries

/-- The term bound to `x`. -/
def find? (s : Substitution) (x : Variable) : Option Term := s.map.find? x

def isEmpty (s : Substitution) : Bool := s.map.isEmpty

def size (s : Substitution) : Nat := s.map.size

/-- The bound variables. -/
def domain (s : Substitution) : VarSet := s.map.keys

/-- Whether `x` is bound. -/
def binds (s : Substitution) (x : Variable) : Bool := s.map.contains x

/-- The variables that occur in the bound terms. -/
def rangeVars (s : Substitution) : VarSet := Term.varsOf s.map.values

/-- Whether every variable is bound to a variable or a constant. -/
def isNonFunctional (s : Substitution) : Bool := s.map.values.all fun t => !t.isFunctional

/-- Whether distinct variables are bound to distinct variables. -/
def isInjectiveRenaming (s : Substitution) : Bool :=
  s.map.values.all Term.isVariable && decide s.map.values.Nodup

-- ---------------------------------------------------------------------------
-- Application
-- ---------------------------------------------------------------------------

/-- The term that replaces `x`. -/
def applyVar (s : Substitution) (x : Variable) : Term := (s.find? x).getD (.var x)

mutual

/-- The term with each bound variable replaced. -/
def apply (s : Substitution) : Term → Term
  | .var x => s.applyVar x
  | .const c => .const c
  | .app f args => .app f (applyAll s args)

/-- The terms with each bound variable replaced. -/
def applyAll (s : Substitution) : List Term → List Term
  | [] => []
  | t :: ts => s.apply t :: applyAll s ts

end

@[simp] theorem applyAll_eq_map {s : Substitution} {ts : List Term} :
    s.applyAll ts = ts.map s.apply := by
  induction ts with
  | nil => rfl
  | cons t ts ih => simp [applyAll, ih]

@[simp] theorem apply_var {s : Substitution} {x : Variable} : s.apply (.var x) = s.applyVar x := rfl

@[simp] theorem apply_const {s : Substitution} {c : Constant} : s.apply (.const c) = .const c := rfl

@[simp] theorem apply_app {s : Substitution} {f : Symbol} {args : List Term} :
    s.apply (.app f args) = .app f (args.map s.apply) := by
  simp [apply]

/-- The expression with each bound variable replaced. -/
def applyExpression (s : Substitution) (e : Expression) : Expression :=
  ⟨e.symbol, s.applyAll e.args, e.boolean⟩

/-- The variables that a node projects once `s` is applied to one that projects `xs`: those
of the images, so that a variable bound to a constant goes away. -/
def applyVars (s : Substitution) (xs : VarSet) : VarSet :=
  .unions (xs.toList.map fun x => (s.applyVar x).vars)

-- ---------------------------------------------------------------------------
-- Combination
-- ---------------------------------------------------------------------------

/-- Applies `t` first and then `s`. -/
def compose (s t : Substitution) : Substitution :=
  ofMap (s.map.overlay (t.map.mapValues s.apply))

/-- The bindings of both, those of `t` first. -/
def overlay (s t : Substitution) : Substitution where
  map := s.map.overlay t.map
  proper x := by simp [Option.or_eq_some_iff, s.proper, t.proper]

/-- The bindings of both, unless they bind a variable differently. -/
def union? (s t : Substitution) : Option Substitution :=
  if t.bindings.all fun b => (s.find? b.1).all (· = b.2) then some (s.overlay t) else none

/-- The bindings that satisfy `p`. -/
def filter (p : Variable → Term → Bool) (s : Substitution) : Substitution where
  map := s.map.filter p
  proper x := by simp [Option.filter_eq_some_iff, s.proper]

/-- The bindings of `xs`. -/
def restrict (s : Substitution) (xs : VarSet) : Substitution :=
  s.filter fun x _ => x ∈ xs

/-- The bindings of all but `xs`. -/
def without (s : Substitution) (xs : VarSet) : Substitution :=
  s.filter fun x _ => x ∉ xs

/-- The bindings to variables. -/
def variableFragment (s : Substitution) : Substitution := s.filter fun _ t => t.isVariable

/-- The bindings to constants and applications. -/
def nonVariableFragment (s : Substitution) : Substitution := s.filter fun _ t => !t.isVariable

/-- The bindings to variables and constants. -/
def nonFunctionalFragment (s : Substitution) : Substitution := s.filter fun _ t => !t.isFunctional

/-- The bindings to applications. -/
def functionalFragment (s : Substitution) : Substitution := s.filter fun _ t => t.isFunctional

/-- Every bound term replaced by its image. -/
def mapTerms (f : Term → Term) (s : Substitution) : Substitution := ofMap (s.map.mapValues f)

-- ---------------------------------------------------------------------------
-- Text and order
-- ---------------------------------------------------------------------------

/-- The rendered substitution. -/
def text (s : Substitution) : String :=
  "\x7b" ++ ", ".intercalate (s.bindings.map fun b => b.1.name ++ "/" ++ b.2.text) ++ "\x7d"

/-- Substitutions compare as the lists of their bindings. -/
instance : Ord Substitution :=
  ⟨fun s t =>
    List.compareLex (compareLex (compareOn Prod.fst) (compareOn Prod.snd)) s.bindings t.bindings⟩

-- ---------------------------------------------------------------------------
-- Laws
-- ---------------------------------------------------------------------------

theorem find?_ofMap {m : SortedMap Variable Term} {x : Variable} :
    (ofMap m).find? x = (m.find? x).filter (· ≠ .var x) :=
  SortedMap.find?_filter

theorem find?_filter {p : Variable → Term → Bool} {s : Substitution} {x : Variable} :
    (s.filter p).find? x = (s.find? x).filter (p x) :=
  SortedMap.find?_filter

theorem applyVar_of_not_binds {s : Substitution} {x : Variable} (h : s.find? x = none) :
    s.applyVar x = .var x := by
  simp [applyVar, h]

theorem applyVar_ofMap {m : SortedMap Variable Term} {x : Variable} :
    (ofMap m).applyVar x = (m.find? x).getD (.var x) := by
  rw [applyVar, find?_ofMap]
  cases m.find? x with
  | none => rfl
  | some t => by_cases h : t = .var x <;> simp [h, Option.filter]

/-- A substitution is determined by what it does to variables. -/
theorem ext_applyVar {s t : Substitution} (h : ∀ x, s.applyVar x = t.applyVar x) : s = t := by
  have find (x : Variable) : s.find? x = t.find? x := by
    have hx := h x
    have hs := s.proper x
    have ht := t.proper x
    simp only [applyVar, find?] at *
    cases hsx : s.map.find? x <;> cases htx : t.map.find? x <;> simp_all
  have : s.map = t.map := SortedMap.ext find
  cases s; cases t; simp_all

/-- A substitution is determined by what it does to terms. -/
theorem ext_apply {s t : Substitution} (h : ∀ u, s.apply u = t.apply u) : s = t :=
  ext_applyVar fun x => h (.var x)

@[simp] theorem applyVar_empty (x : Variable) : (∅ : Substitution).applyVar x = .var x := rfl

@[simp] theorem apply_empty (t : Term) : (∅ : Substitution).apply t = t := by
  induction t using Term.inductionOn with
  | var x => rfl
  | const c => rfl
  | app f args ih => rw [apply_app, List.map_congr_left ih, List.map_id']

theorem applyVar_compose {s t : Substitution} {x : Variable} :
    (s.compose t).applyVar x = s.apply (t.applyVar x) := by
  rw [compose, applyVar_ofMap, SortedMap.find?_overlay, SortedMap.find?_mapValues]
  cases h : t.map.find? x with
  | none => simp [applyVar, find?, h]
  | some u => simp [applyVar, find?, h]

/-- A composition acts as its parts one after the other. -/
theorem apply_compose {s t : Substitution} {u : Term} :
    (s.compose t).apply u = s.apply (t.apply u) := by
  induction u using Term.inductionOn with
  | var x => exact applyVar_compose
  | const c => rfl
  | app f args ih =>
    simp only [apply_app, List.map_map]
    rw [List.map_congr_left ih]
    rfl

end Substitution

end QueryAlgebra
