import Mathlib.Tactic.DeriveEncodable
import QueryAlgebra.Proofs.Database

/-!
# An interpretation and databases over it

The laws of `Interpretation` can be met: `Interpretation.coded` is a database that knows nothing but
arithmetic, comparison and codes. A template gives the code of its arguments, which is injective
whatever the pattern; every other function gives the code of its arguments too, every condition of
the database holds, and an aggregate tells how many rows there are.

`Database.ofTable` is the database with a single table.
-/

namespace QueryAlgebra

-- ---------------------------------------------------------------------------
-- Codes
-- ---------------------------------------------------------------------------

instance charEncodable : Encodable Char :=
  Encodable.ofLeftInverse Char.toNat Char.ofNat fun _ => Char.ofNat_toNat _

instance stringEncodable : Encodable String :=
  Encodable.ofLeftInverse String.toList String.ofList fun _ => String.ofList_toList

deriving instance Encodable for DbType

deriving instance Encodable for Constant

/-- A value that tells the arguments. -/
def Constant.code (vs : List Constant) : Constant := .integer (Encodable.encode vs)

theorem Constant.code_injective {vs ws : List Constant} (h : code vs = code ws) : vs = ws := by
  have hcode : (Encodable.encode vs : Int) = Encodable.encode ws := Constant.integer.inj h
  exact Encodable.encode_injective (Int.ofNat.inj hcode)

-- ---------------------------------------------------------------------------
-- The interpretation
-- ---------------------------------------------------------------------------

namespace Interpretation

/-- The value of a function: arithmetic where the result fits the word, and a code otherwise. -/
def codedValue (f : Symbol) (vs : List Constant) : Constant :=
  match f.operation, vs with
  | .add, [.integer i, .integer j] => .integer (i + j)
  | .subtract, [.integer i, .integer j] => .integer (i - j)
  | .multiply, [.integer i, .integer j] => .integer (i * j)
  | _, vs => .code vs

/-- Functions are codes, and every condition of the database holds. -/
def coded : Interpretation where
  value := codedValue
  condition _ _ := true
  compares c v w := c.holds (compare v w)
  truth _ := false
  aggregate _ rows := if rows.isEmpty then .null else .integer rows.length
  collation := compare
  value_ne_null f vs := by
    unfold codedValue
    split <;> simp [Constant.code]
  add_exact _ _ _ _ := rfl
  subtract_exact _ _ _ _ := rfl
  multiply_exact _ _ _ _ := rfl
  template_injective _ _ _ _ _ _ _ h := Constant.code_injective h
  compares_integers _ _ _ := rfl
  compares_strings _ _ _ := rfl
  aggregate_perm _ rows rows' h := by
    have hempty : rows.isEmpty = rows'.isEmpty := by
      rw [Bool.eq_iff_iff, List.isEmpty_iff_length_eq_zero, List.isEmpty_iff_length_eq_zero,
        h.length_eq]
    rw [hempty, h.length_eq]
  aggregate_nil _ := rfl

end Interpretation

/-- The database that computes codes and holds one table. -/
def Database.ofTable (r : Relation) (tuples : List (List Constant))
    (arity : ∀ tuple ∈ tuples, tuple.length = r.arity)
    (ne_null : ∀ tuple ∈ tuples, ∀ p < r.arity, r.isNullableAt p = false → tuple[p]? ≠ some .null)
    (unique : ∀ positions ∈ r.constraintPositions, tuples.Pairwise fun tuple tuple' =>
      ∃ p ∈ positions, tuple[p]? = some .null ∨ tuple[p]? ≠ tuple'[p]?) : Database where
  toInterpretation := .coded
  table r' := if r' = r then tuples else []
  virtual _ := []
  native _ := []
  table_arity r' tuple htuple := by
    split at htuple
    · next h =>
      subst h
      exact arity tuple htuple
    · exact absurd htuple List.not_mem_nil
  table_ne_null r' tuple htuple p hp := by
    split at htuple
    · next h =>
      subst h
      have hlt : p < r'.arity := by
        by_contra hge
        have hnone : r'.columns[p]? = none := List.getElem?_eq_none (not_lt.1 hge)
        rw [Relation.isNullableAt, hnone] at hp
        cases hp
      exact ne_null tuple htuple p hlt hp
    · exact absurd htuple List.not_mem_nil
  table_unique r' positions hpositions := by
    split
    · next h => exact unique positions (h ▸ hpositions)
    · exact List.Pairwise.nil
  virtual_ne_null _ _ h := absurd h List.not_mem_nil
  native_supported _ _ h := absurd h List.not_mem_nil
  native_admitted _ _ h := absurd h List.not_mem_nil

end QueryAlgebra
