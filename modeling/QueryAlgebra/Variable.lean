import QueryAlgebra.Sorted.Set

/-!
# Variables

A variable is known by its name alone; names compare by code points. Sets of variables are
`SortedSet`s, so they are written in the order of the names.
-/

namespace QueryAlgebra

/-- A query variable. -/
structure Variable where
  name : String
deriving DecidableEq, Inhabited

namespace Variable

/-- Variables compare by name. -/
instance : Ord Variable := ⟨compareOn name⟩

instance : Std.TransOrd Variable := inferInstanceAs (Std.TransCmp (compareOn name))

instance : Std.LawfulEqOrd Variable where
  compare_self {v} := Std.compare_self (a := v.name)
  eq_of_compare {v w} h := by
    have : v.name = w.name := Std.compare_eq_iff_eq.1 h
    cases v; cases w; simp_all

/-- The names, separated by commas. -/
def listing (xs : List Variable) : String := ", ".intercalate (xs.map name)

/-- The names within square brackets. -/
def bracketed (xs : List Variable) : String := "[" ++ listing xs ++ "]"

end Variable

/-- A finite set of variables. -/
abbrev VarSet := SortedSet Variable

namespace VarSet

/-- The set as a list of columns, within square brackets. -/
def bracketed (s : VarSet) : String := Variable.bracketed s.toList

/-- The set within braces. -/
def braced (s : VarSet) : String := "\x7b" ++ Variable.listing s.toList ++ "\x7d"

end VarSet

end QueryAlgebra
