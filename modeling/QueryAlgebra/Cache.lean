import QueryAlgebra.Optimizer

/-!
# A cache of optimized queries

Results are kept by the query that they were found for, whatever the marks of its tree are. The
first result that is put in for a query stays.
-/

namespace QueryAlgebra

/-- Queries and what they were optimized to, the latest first. -/
structure QueryCache where
  entries : List (Query × Query) := []

namespace QueryCache

/-- A cache without results. -/
def empty : QueryCache := ⟨[]⟩

instance : Inhabited QueryCache := ⟨empty⟩

def size (cache : QueryCache) : Nat := cache.entries.length

def isEmpty (cache : QueryCache) : Bool := cache.entries.isEmpty

/-- The result for a query. -/
def find? (cache : QueryCache) (q : Query) : Option Query :=
  (cache.entries.find? fun e => e.1.same q).map (·.2)

/-- The cache with a result for a query, unless it has one already. -/
def put (cache : QueryCache) (q optimized : Query) : QueryCache :=
  if (cache.find? q).isSome then cache else ⟨(q, optimized) :: cache.entries⟩

/-- The result for a query; one that is missing is found by the optimizer and put in. -/
def getOrOptimize (cache : QueryCache) (o : Optimizer) (q : Query) :
    Except Error (Query × QueryCache) :=
  match cache.find? q with
  | some optimized => .ok (optimized, cache)
  | none => do
    let optimized := (← o.optimize q).query
    return (optimized, cache.put q optimized)

end QueryCache

end QueryAlgebra
