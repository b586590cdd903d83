import QueryAlgebra.Variable

/-!
# Fresh variables

A name supply hands out variables that differ from all that it knows and gets to know each one it
hands out. A fresh name is a stem, `_f` and a running number; the number never goes back, also
where a candidate was taken.

`fresh_not_known` is the point of the module: what is handed out was not known before. The search
looks at one candidate more than there are known variables, and candidates differ by their number.
-/

namespace QueryAlgebra

/-- The variables in use and the number of the next candidate. -/
structure NameSupply where
  known : VarSet
  next : Nat
deriving Inhabited

namespace NameSupply

/-- A supply that knows `known`. -/
def ofKnown (known : VarSet) : NameSupply := ⟨known, 0⟩

/-- Makes more variables known. -/
def register (supply : NameSupply) (xs : VarSet) : NameSupply :=
  { supply with known := supply.known ∪ xs }

/-- The candidate with a given number. -/
def candidate (stem : String) (i : Nat) : Variable := ⟨stem ++ "_f" ++ toString i⟩

/-- The number of the first candidate that is not known, looking `tries` candidates ahead. -/
def firstFree (known : VarSet) (stem : String) : (tries i : Nat) → Nat
  | 0, i => i
  | tries + 1, i => if candidate stem i ∈ known then firstFree known stem tries (i + 1) else i

/-- A fresh variable with the given stem. -/
def fresh (supply : NameSupply) (stem : String) : Variable × NameSupply :=
  let i := firstFree supply.known stem supply.known.size supply.next
  (candidate stem i, ⟨supply.known.insert (candidate stem i), i + 1⟩)

/-- What stands before the first `_f`. -/
def stemOf : List Char → List Char
  | '_' :: 'f' :: _ => []
  | c :: rest => c :: stemOf rest
  | [] => []

/-- A fresh variable that shares its stem with `base`. -/
def freshFrom (supply : NameSupply) (base : Variable) : Variable × NameSupply :=
  supply.fresh (String.ofList (stemOf base.name.toList))

/-- A fresh variable for each of `bases`, in order, and the supply after them. -/
def freshForEach (supply : NameSupply) (bases : List Variable) :
    List (Variable × Variable) × NameSupply :=
  match bases with
  | [] => ([], supply)
  | base :: bases =>
    let (x, supply) := supply.freshFrom base
    let (pairs, supply) := supply.freshForEach bases
    ((base, x) :: pairs, supply)

-- ---------------------------------------------------------------------------
-- Freshness
-- ---------------------------------------------------------------------------

theorem candidate_injective {stem : String} {i j : Nat} (h : candidate stem i = candidate stem j) :
    i = j := by
  have h : String.ofList (Nat.toDigits 10 i) = String.ofList (Nat.toDigits 10 j) := by
    simpa [candidate, String.append_right_inj, ToString.toString, Nat.repr] using h
  have h := congrArg (fun s => Nat.ofDigitChars 10 s.toList 0) h
  simpa using h

/-- Either the search ends at a free candidate, or all that it looked at are known. -/
theorem firstFree_not_known_or {known : VarSet} {stem : String} (tries i : Nat) :
    candidate stem (firstFree known stem tries i) ∉ known ∨
      (∀ j < tries + 1, candidate stem (i + j) ∈ known) := by
  induction tries generalizing i with
  | zero =>
    by_cases h : candidate stem i ∈ known
    · exact .inr fun j hj => by simpa [show j = 0 by omega] using h
    · exact .inl h
  | succ tries ih =>
    unfold firstFree
    split
    · next h =>
      refine (ih (i + 1)).imp_right fun hall j hj => ?_
      cases j with
      | zero => exact h
      | succ j =>
        have := hall j (by omega)
        rwa [show i + 1 + j = i + (j + 1) by omega] at this
    · next h => exact .inl h

/-- The variable handed out was not known. -/
theorem fresh_not_known (supply : NameSupply) (stem : String) :
    (supply.fresh stem).1 ∉ supply.known := by
  rcases firstFree_not_known_or supply.known.size supply.next with h | h
  · exact h
  · have distinct : ((List.range (supply.known.size + 1)).map fun j =>
        candidate stem (supply.next + j)).Nodup := by
      refine List.pairwise_map.2 (List.nodup_range.imp fun hne e => hne ?_)
      have := candidate_injective e
      omega
    have := SortedSet.length_le_of_forall_mem (m := supply.known.toList) distinct fun x hx => by
      obtain ⟨j, hj, rfl⟩ := List.mem_map.1 hx
      exact h j (List.mem_range.1 hj)
    rw [List.length_map, List.length_range] at this
    exact absurd this (by simp only [SortedSet.size]; omega)

/-- The variable handed out is known from then on. -/
theorem fresh_known (supply : NameSupply) (stem : String) :
    (supply.fresh stem).1 ∈ (supply.fresh stem).2.known := by
  simp [fresh]

/-- What was known stays known. -/
theorem known_subset_fresh (supply : NameSupply) (stem : String) :
    supply.known ⊆ (supply.fresh stem).2.known :=
  fun x hx => by simp only [fresh, SortedSet.mem_insert]; exact .inr hx

end NameSupply

end QueryAlgebra
