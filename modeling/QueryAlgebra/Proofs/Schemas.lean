import QueryAlgebra.Schema
import QueryAlgebra.Proofs.Outcome
import Mathlib.Data.List.Nodup

/-!
# Consistent schemas

`Relation.check` accepts exactly the consistent relations (`Relation.check_eq_ok`): column names are
distinct, constraints name columns, and those of a primary key do not take NULL. For a consistent
relation `constraintPositions` is complete (`Relation.Consistent.locates`): it has one entry for
each constraint, with the position of each of its columns.

A schema is consistent if it holds consistent relations, each under its own name. Insertion and
loading keep to it, and a consistent schema is rebuilt from the list of its relations
(`Schema.ofList_toList`).
-/

namespace QueryAlgebra

open QueryAlgebra.Except (Returns)

namespace Relation

variable {r : Relation} {column : String} {position : Nat}

/-- Column names are distinct, and constraints name columns, which do not take NULL for a primary
key. -/
structure Consistent (r : Relation) : Prop where
  distinct : (r.columns.map Column.name).Nodup
  constrained : ∀ k ∈ r.constraints, ∀ column ∈ k.columns,
    ∃ c ∈ r.columns, c.name = column ∧ (k.primaryKey = true → c.nullable = false)

-- ---------------------------------------------------------------------------
-- Columns by name
-- ---------------------------------------------------------------------------

theorem of_columnPosition? (h : r.columnPosition? column = some position) :
    ∃ c, r.columns[position]? = some c ∧ c.name = column := by
  obtain ⟨hlt, hname, -⟩ := List.findIdx?_eq_some_iff_getElem.1 h
  exact ⟨r.columns[position], List.getElem?_eq_getElem hlt, of_decide_eq_true hname⟩

theorem exists_columnPosition? {c : Column} (hc : c ∈ r.columns) :
    ∃ position, r.columnPosition? c.name = some position := by
  rw [← Option.isSome_iff_exists, columnPosition?, List.findIdx?_isSome, List.any_eq_true]
  exact ⟨c, hc, decide_eq_true rfl⟩

-- ---------------------------------------------------------------------------
-- What is checked
-- ---------------------------------------------------------------------------

theorem firstRepeated?_eq_none {seen names : List String} :
    firstRepeated? seen names = none ↔ names.Nodup ∧ ∀ name ∈ names, name ∉ seen := by
  induction names generalizing seen with
  | nil => simp [firstRepeated?]
  | cons name names ih =>
    unfold firstRepeated?
    split
    · next hseen => exact iff_of_false nofun fun h => h.2 name (.head _) hseen
    · next hseen =>
      rw [ih, List.nodup_cons, List.forall_mem_cons]
      simp only [List.mem_cons, not_or]
      constructor
      · rintro ⟨hnames, hfree⟩
        exact ⟨⟨fun hmem => (hfree name hmem).1 rfl, hnames⟩, hseen, fun n hn => (hfree n hn).2⟩
      · rintro ⟨⟨hname, hnames⟩, -, hfree⟩
        exact ⟨hnames, fun n hn => ⟨fun heq => hname (heq ▸ hn), hfree n hn⟩⟩

theorem checkKeyColumn_eq_ok (hdistinct : (r.columns.map Column.name).Nodup)
    {k : UniqueConstraint} :
    r.checkKeyColumn k column = .ok () ↔
      ∃ c ∈ r.columns, c.name = column ∧ (k.primaryKey = true → c.nullable = false) := by
  unfold checkKeyColumn
  cases hposition : r.columnPosition? column with
  | none =>
    refine iff_of_false nofun ?_
    rintro ⟨c, hc, rfl, -⟩
    obtain ⟨position, h⟩ := exists_columnPosition? hc
    rw [hposition] at h
    cases h
  | some position =>
    obtain ⟨c, hget, hname⟩ := of_columnPosition? hposition
    have hnullable : r.isNullableAt position = c.nullable := by rw [isNullableAt, hget]; rfl
    have hc := List.mem_of_getElem? hget
    have hunique : (∃ c' ∈ r.columns, c'.name = column ∧
        (k.primaryKey = true → c'.nullable = false)) ↔
          (k.primaryKey = true → c.nullable = false) := by
      constructor
      · rintro ⟨c', hc', hname', h⟩
        rwa [List.inj_on_of_nodup_map hdistinct hc' hc (hname'.trans hname.symm)] at h
      · exact fun h => ⟨c, hc, hname, h⟩
    dsimp only
    rw [hunique, hnullable]
    cases k.primaryKey <;> cases c.nullable <;> simp

/-- The check accepts exactly what is consistent. -/
theorem check_eq_ok : r.check = .ok () ↔ r.Consistent := by
  have hiff : r.Consistent ↔ (r.columns.map Column.name).Nodup ∧
      ∀ k ∈ r.constraints, ∀ column ∈ k.columns,
        ∃ c ∈ r.columns, c.name = column ∧ (k.primaryKey = true → c.nullable = false) :=
    ⟨fun h => ⟨h.distinct, h.constrained⟩, fun h => ⟨h.1, h.2⟩⟩
  rw [hiff]
  unfold check
  cases hrepeated : firstRepeated? [] (r.columns.map Column.name) with
  | some column =>
    refine iff_of_false nofun fun h => ?_
    have hnone := firstRepeated?_eq_none.2 ⟨h.1, fun _ _ => List.not_mem_nil⟩
    rw [hrepeated] at hnone
    cases hnone
  | none =>
    have hdistinct := (firstRepeated?_eq_none.1 hrepeated).1
    rw [and_iff_right hdistinct]
    exact Except.forM_eq_ok.trans (forall₂_congr fun k _ =>
      Except.forM_eq_ok.trans (forall₂_congr fun column _ => checkKeyColumn_eq_ok hdistinct))

theorem checked_eq_ok {r' : Relation} : r.checked = .ok r' ↔ r.Consistent ∧ r' = r := by
  rw [checked, Except.bind_unit_eq_ok, check_eq_ok]
  exact and_congr_right fun _ => ⟨fun h => by cases h; rfl, fun h => h ▸ rfl⟩

theorem returns_checked (r : Relation) : Returns Consistent r.checked := by
  intro r' h
  obtain ⟨hr, rfl⟩ := checked_eq_ok.1 h
  exact hr

-- ---------------------------------------------------------------------------
-- Constraints by position
-- ---------------------------------------------------------------------------

/-- The positions of the columns of a constraint: at each stands the column that it names. -/
def Locates (r : Relation) (k : UniqueConstraint) (positions : List Nat) : Prop :=
  List.Forall₂ (fun column position => ∃ c, r.columns[position]? = some c ∧ c.name = column)
    k.columns positions

theorem Locates.lt_arity {k : UniqueConstraint} {positions : List Nat} (h : r.Locates k positions)
    (hposition : position ∈ positions) : position < r.arity := by
  obtain ⟨_, -, c, hc, -⟩ := exists_of_mem_right h hposition
  exact (List.getElem?_eq_some_iff.1 hc).1

/-- Names of columns all have a position. -/
theorem exists_mapM_columnPosition? {columns : List String}
    (h : ∀ column ∈ columns, ∃ c ∈ r.columns, c.name = column) :
    ∃ positions, columns.mapM r.columnPosition? = some positions ∧
      List.Forall₂ (fun column position => ∃ c, r.columns[position]? = some c ∧ c.name = column)
        columns positions := by
  induction columns with
  | nil => exact ⟨[], List.mapM_nil, .nil⟩
  | cons column columns ih =>
    rw [List.forall_mem_cons] at h
    obtain ⟨⟨c, hc, rfl⟩, hrest⟩ := h
    obtain ⟨position, hposition⟩ := exists_columnPosition? hc
    obtain ⟨positions, hpositions, hlocated⟩ := ih hrest
    refine ⟨position :: positions, ?_, .cons (of_columnPosition? hposition) hlocated⟩
    rw [List.mapM_cons, hposition, hpositions]
    rfl

/-- No constraint is lost: there is an entry for each one, with the positions of its columns. -/
theorem Consistent.locates (h : r.Consistent) :
    List.Forall₂ r.Locates r.constraints r.constraintPositions := by
  have hlocated : ∀ k ∈ r.constraints, ∃ positions,
      k.columns.mapM r.columnPosition? = some positions ∧ r.Locates k positions := fun k hk =>
    exists_mapM_columnPosition? fun column hcolumn =>
      (h.constrained k hk column hcolumn).imp fun _ hc => ⟨hc.1, hc.2.1⟩
  unfold constraintPositions
  generalize r.constraints = constraints at hlocated
  induction constraints with
  | nil => exact .nil
  | cons k constraints ih =>
    rw [List.forall_mem_cons] at hlocated
    obtain ⟨⟨positions, hpositions, hk⟩, hrest⟩ := hlocated
    simp only [List.filterMap_cons, hpositions]
    exact .cons hk (ih hrest)

end Relation

namespace Schema

variable {s : Schema} {r : Relation}

/-- Relations are consistent and stand under their own names. -/
structure Consistent (s : Schema) : Prop where
  named : ∀ name r, s.relations.find? name = some r → r.name = name
  relations : ∀ r ∈ s.toList, r.Consistent

theorem mem_toList : r ∈ s.toList ↔ ∃ name, s.relations.find? name = some r := by
  simp only [toList, SortedMap.values, List.mem_map, Prod.exists, exists_eq_right,
    SortedMap.find?_eq_some_iff]

theorem consistent_empty : empty.Consistent := ⟨nofun, nofun⟩

/-- A schema that takes in a consistent relation under a new name stays consistent. -/
theorem Consistent.insert (hs : s.Consistent) (hr : r.Consistent) :
    Returns Consistent (s.insert r) := by
  unfold Schema.insert
  refine .ite (fun _ => .error) fun _ => .ok ⟨fun name r' h => ?_, fun r' h => ?_⟩
  · rw [SortedMap.find?_insert] at h
    split at h
    · next hname => rwa [Option.some.inj h] at hname
    · exact hs.named name r' h
  · obtain ⟨name, h⟩ := mem_toList.1 h
    rw [SortedMap.find?_insert] at h
    split at h
    · rwa [← Option.some.inj h]
    · exact hs.relations r' (mem_toList.2 ⟨name, h⟩)

theorem Consistent.get (hs : s.Consistent) (name : String) :
    Returns Relation.Consistent (s.get name) := by
  unfold Schema.get
  split
  · next r h => exact .ok (hs.relations r (mem_toList.2 ⟨name, h⟩))
  · exact .error

/-- What is built of definitions is consistent. -/
theorem returns_ofList {definitions : List Relation} : Returns Consistent (ofList definitions) := by
  suffices hfold : ∀ s : Schema, s.Consistent →
      Returns Consistent (definitions.foldlM (fun s r => do s.insert (← r.checked)) s) from
    hfold empty consistent_empty
  induction definitions with
  | nil => exact fun s hs => .ok hs
  | cons r definitions ih =>
    intro s hs
    rw [List.foldlM_cons]
    have hstep : Returns Consistent (do s.insert (← r.checked)) :=
      (Relation.returns_checked r).bind fun r' hr' => hs.insert hr'
    exact hstep.bind fun s' hs' => ih s' hs'

/-- The relations are listed by their names, so no two have the same one. -/
theorem Consistent.entries_eq (hs : s.Consistent) :
    s.relations.entries = s.toList.map fun r => (r.name, r) := by
  unfold toList SortedMap.values
  rw [List.map_map]
  refine (List.map_id _).symm.trans (List.map_congr_left fun e he => ?_)
  obtain ⟨name, r⟩ := e
  rw [Function.comp_apply, hs.named name r (SortedMap.find?_eq_some_iff.2 he)]
  rfl

theorem Consistent.nodup_names (hs : s.Consistent) : (s.toList.map Relation.name).Nodup := by
  have hdistinct := s.relations.distinct
  rw [hs.entries_eq, List.pairwise_map] at hdistinct
  exact List.pairwise_map.2 hdistinct

/-- Consistent definitions under new names are all taken in. -/
theorem foldlM_insert_eq_ok {definitions : List Relation}
    (hconsistent : ∀ r ∈ definitions, r.Consistent)
    (hnames : (definitions.map Relation.name).Nodup)
    (hnew : ∀ r ∈ definitions, s.relations.contains r.name = false) :
    definitions.foldlM (fun s r => do s.insert (← r.checked)) s =
      .ok ⟨(definitions.map fun r => (r.name, r)).foldl (fun m e => m.insert e.1 e.2)
        s.relations⟩ := by
  induction definitions generalizing s with
  | nil => rfl
  | cons r definitions ih =>
    rw [List.forall_mem_cons] at hconsistent hnew
    rw [List.map_cons, List.nodup_cons] at hnames
    have hinsert : s.insert r = .ok ⟨s.relations.insert r.name r⟩ := by
      rw [Schema.insert, if_neg (by rw [hnew.1]; exact Bool.false_ne_true)]
    have hrest : ∀ r' ∈ definitions,
        (s.relations.insert r.name r).contains r'.name = false := by
      intro r' hr'
      have hne : r.name ≠ r'.name := fun h => hnames.1 (h ▸ List.mem_map_of_mem hr')
      rw [SortedMap.contains, SortedMap.find?_insert, if_neg hne]
      exact hnew.2 r' hr'
    rw [List.foldlM_cons, Relation.checked_eq_ok.2 ⟨hconsistent.1, rfl⟩]
    change (s.insert r >>= _) = _
    rw [hinsert]
    exact ih hconsistent.2 hnames.2 hrest

/-- A consistent schema is built of the list of its relations. -/
theorem ofList_toList (hs : s.Consistent) : ofList s.toList = .ok s := by
  have hentries : (s.toList.map fun r => (r.name, r)).foldl (fun m e => m.insert e.1 e.2)
      empty.relations = s.relations := by
    rw [← hs.entries_eq]
    refine SortedMap.ext fun name => ?_
    change (empty.relations.overlay s.relations).find? name = _
    rw [SortedMap.find?_overlay]
    exact Option.or_none
  rw [ofList, foldlM_insert_eq_ok hs.relations hs.nodup_names fun _ _ => rfl, hentries]

end Schema

end QueryAlgebra
