import QueryAlgebra.Optimizer.Rule

/-!
# The optimizer

An optimizer applies its rules in order, pass after pass, until a pass changes nothing or the limit
of its settings is reached. It counts the passes and the changes, and records the changes where its
settings ask for that.
-/

namespace QueryAlgebra

/-- A change that a rule has made, with the query as it was before and after. -/
structure RecordedChange where
  rule : String
  before : String
  after : String
deriving DecidableEq

/-- An optimized query and how it came about. -/
structure Optimized where
  query : Query
  /-- The number of passes. -/
  iterations : Nat := 0
  /-- The number of rule applications that changed the query. -/
  rulesApplied : Nat := 0
  /-- The changes, where they are recorded. -/
  trace : List RecordedChange := []

/-- Rules and how far to go with them. -/
structure Optimizer where
  rules : List Rule
  settings : OptimizationSettings := {}

namespace Optimizer

/-- The standard rules over trees that are built under the given settings. -/
def standard (σ : BuildSettings) (settings : OptimizationSettings) : Optimizer :=
  ⟨[.normalization σ, .selfJoin σ], settings⟩

instance : Inhabited Optimizer := ⟨standard {} {}⟩

/-- The optimizer with one more rule, at the end. -/
def addRule (o : Optimizer) (rule : Rule) : Optimizer := { o with rules := o.rules ++ [rule] }

/-- Applies one rule, and counts and records its change. -/
def applyRule (o : Optimizer) (done : Optimized) (rule : Rule) : Except Error Optimized := do
  let rewriting ← rule.apply done.query
  if rewriting.changed then
    return { done with
      query := rewriting.query
      rulesApplied := done.rulesApplied + 1
      trace :=
        if o.settings.enableTrace then
          done.trace ++ [⟨rule.name, done.query.text, rewriting.query.text⟩]
        else done.trace }
  else return { done with query := rewriting.query }

/-- One pass over the rules. -/
def pass (o : Optimizer) (done : Optimized) : Except Error Optimized := do
  let next ← o.rules.foldlM o.applyRule done
  return { next with iterations := done.iterations + 1 }

/-- Passes until one changes nothing, at most `limit` of them. -/
def passes (o : Optimizer) : (limit : Nat) → Optimized → Except Error Optimized
  | 0, done => .ok done
  | limit + 1, done => do
    let next ← o.pass done
    if next.rulesApplied = done.rulesApplied then return next else passes o limit next

/-- The query, optimized as far as the settings allow. -/
def optimize (o : Optimizer) (q : Query) : Except Error Optimized :=
  o.passes o.settings.maxIterations ⟨q, 0, 0, []⟩

/-- The query after a single pass. -/
def optimizeOnce (o : Optimizer) (q : Query) : Except Error Optimized := o.pass ⟨q, 0, 0, []⟩

end Optimizer

/-- The query, optimized with the standard rules. -/
def Query.optimize (settings : Settings) (q : Query) : Except Error Query := do
  return (← (Optimizer.standard settings.build settings.optimization).optimize q).query

-- ---------------------------------------------------------------------------
-- The report
-- ---------------------------------------------------------------------------

/-- The report on the change with a given number. -/
def RecordedChange.report (number : Nat) (change : RecordedChange) : String :=
  "\n--- Rule " ++ toString number ++ " applied: " ++ change.rule ++ " ---\n" ++
    "Before:\n" ++ change.before ++ "\nAfter:\n" ++ change.after

/-- The counts, and the recorded changes below them. -/
def Optimized.report (o : Optimized) : String :=
  "Optimization completed in " ++ toString o.iterations ++ " iterations, " ++
    toString o.rulesApplied ++ " rules applied\n" ++
    match o.trace with
    | [] => "  (no trace available)\n"
    | changes => String.join (changes.mapIdx fun i change => change.report (i + 1))

end QueryAlgebra
