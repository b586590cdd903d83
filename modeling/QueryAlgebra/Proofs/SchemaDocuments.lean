import QueryAlgebra.Schema.Json
import QueryAlgebra.Proofs.JsonText
import QueryAlgebra.Proofs.Schemas

/-!
# Schemas that callers come to hold

Types, columns, constraints and relations are written in full, and what is written of them is read
as the same again (`Relation.ofJson?_toJson`). A consistent schema passes all checks when it is
loaded, so it is loaded again from what is written of it (`Schema.Consistent.ofDocument`).

A caller starts with an empty schema, loads documents, builds and looks up relations and inserts
them; a call that fails leaves everything as it was. Each call keeps the schema and the relations at
hand consistent (`Schema.Client.Consistent.after`), so they are after any calls.

Main statement: `Schema.consistent_after_calls`.
-/

namespace QueryAlgebra

open QueryAlgebra.Except (Returns)

-- ---------------------------------------------------------------------------
-- Written and read
-- ---------------------------------------------------------------------------

namespace Json

/-- Each name has the value that stands beside it. -/
theorem map_member?_zip {names : List String} {values : List Json} (hnames : names.Nodup)
    (hlength : names.length = values.length) :
    names.map (member? · (named (names.zip values))) = values.map some := by
  induction names generalizing values with
  | nil =>
    obtain rfl := List.length_eq_zero_iff.1 hlength.symm
    rfl
  | cons name names ih =>
    cases values with
    | nil => cases hlength
    | cons value values =>
      obtain ⟨hname, hnames⟩ := List.nodup_cons.1 hnames
      have hothers : ∀ n ∈ names, member? n (named ((name, value) :: names.zip values)) =
          member? n (named (names.zip values)) := by
        intro n hn
        have hne : name ≠ n := fun h => hname (h ▸ hn)
        simp [member?, hne]
      rw [List.zip_cons_cons, List.map_cons, List.map_cons, List.map_congr_left hothers,
        ih hnames (Nat.succ.inj hlength)]
      simp [member?]

/-- A record that is written in full is read with all its fields. -/
theorem fields?_ofMembers {names : List String} (values : List Json) (hnames : names.Nodup)
    (hlength : names.length = values.length) :
    (ofMembers (names.zip values)).fields? names = some (values.map some) := by
  have hkeys : (named (names.zip values)).map Prod.fst = names.map some := by
    rw [named, List.map_map]
    change (names.zip values).map (some ∘ Prod.fst) = _
    rw [← List.map_map, List.map_fst_zip hlength.le]
  have hcount : ∀ n ∈ names, (names.map some).count (some n) ≤ 1 := fun n _ =>
    List.nodup_iff_count_le_one.1 (hnames.map fun _ _ => Option.some.inj) _
  change (if _ then some (names.map (member? · (named (names.zip values)))) else none) = _
  rw [if_pos, map_member?_zip hnames hlength]
  rw [hkeys, Bool.and_eq_true, List.all_eq_true, List.all_eq_true]
  refine ⟨fun m hm => ?_, fun n hn => decide_eq_true (hcount n hn)⟩
  obtain ⟨_, -, rfl⟩ := List.mem_map.1 hm
  rfl

/-- A list is read as what its items were written of. -/
theorem listOf?_map {α : Type} {read : Json → Option α} {write : α → Json} {xs : List α}
    (h : ∀ x ∈ xs, read (write x) = some x) : listOf? read (array (xs.map write)) = some xs := by
  change (xs.map write).mapM read = some xs
  induction xs with
  | nil => rfl
  | cons x xs ih =>
    rw [List.forall_mem_cons] at h
    rw [List.map_cons, List.mapM_cons, h.1, ih h.2]
    rfl

theorem listOf?_ofString {names : List String} :
    listOf? string? (array (names.map ofString)) = some names :=
  listOf?_map fun _ _ => rfl

theorem readsBack_map {α : Type} {write : α → Json} {xs : List α}
    (h : ∀ x ∈ xs, ReadsBack (write x)) : ReadsBack (array (xs.map write)) :=
  readsBack_array (List.forall_mem_map.2 h)

end Json

open Json (ReadsBack readsBack_bool readsBack_map readsBack_ofMembers readsBack_ofString)

theorem DbType.ofJson?_toJson (type : DbType) : ofJson? type.toJson = some type := by
  cases type <;> rfl

theorem DbType.readsBack (type : DbType) : ReadsBack type.toJson := by
  cases type with
  | other name => exact readsBack_ofMembers (List.forall_mem_singleton.2 (readsBack_ofString name))
  | _ => exact readsBack_ofString _

theorem Column.ofJson?_toJson (c : Column) : ofJson? c.toJson = some c := by
  have hfields : c.toJson.fields? ["name", "db_type", "nullable"] =
      some [some (.ofString c.name), some c.type.toJson, some (.bool c.nullable)] :=
    Json.fields?_ofMembers [_, _, _] (by decide) rfl
  unfold ofJson?
  rw [hfields]
  change (DbType.ofJson? c.type.toJson).bind _ = _
  rw [DbType.ofJson?_toJson]
  rfl

theorem Column.readsBack (c : Column) : ReadsBack c.toJson := by
  refine readsBack_ofMembers ?_
  simp only [List.forall_mem_cons]
  exact ⟨readsBack_ofString _, c.type.readsBack, readsBack_bool _, nofun⟩

theorem UniqueConstraint.ofJson?_toJson (k : UniqueConstraint) : ofJson? k.toJson = some k := by
  have hfields : k.toJson.fields? ["name", "attributes", "primary_key"] =
      some [some (.ofString k.name), some (.array (k.columns.map .ofString)),
        some (.bool k.primaryKey)] :=
    Json.fields?_ofMembers [_, _, _] (by decide) rfl
  unfold ofJson?
  rw [hfields]
  change (Json.listOf? Json.string? (.array (k.columns.map .ofString))).bind _ = _
  rw [Json.listOf?_ofString]
  rfl

theorem UniqueConstraint.readsBack (k : UniqueConstraint) : ReadsBack k.toJson := by
  refine readsBack_ofMembers ?_
  simp only [List.forall_mem_cons]
  exact ⟨readsBack_ofString _, readsBack_map fun _ _ => readsBack_ofString _, readsBack_bool _,
    nofun⟩

theorem Relation.ofJson?_toJson (r : Relation) : ofJson? r.toJson = some r := by
  have hfields : r.toJson.fields? ["name", "attributes", "unique_constraints"] =
      some [some (.ofString r.name), some (.array (r.columns.map Column.toJson)),
        some (.array (r.constraints.map UniqueConstraint.toJson))] :=
    Json.fields?_ofMembers [_, _, _] (by decide) rfl
  unfold ofJson?
  rw [hfields]
  change (Json.listOf? Column.ofJson? (.array (r.columns.map Column.toJson))).bind (fun _ =>
    (Json.listOf? UniqueConstraint.ofJson?
      (.array (r.constraints.map UniqueConstraint.toJson))).bind _) = _
  rw [Json.listOf?_map fun c _ => c.ofJson?_toJson, Json.listOf?_map fun k _ => k.ofJson?_toJson]
  rfl

theorem Relation.readsBack (r : Relation) : ReadsBack r.toJson := by
  refine readsBack_ofMembers ?_
  simp only [List.forall_mem_cons]
  exact ⟨readsBack_ofString _, readsBack_map fun c _ => c.readsBack,
    readsBack_map fun k _ => k.readsBack, nofun⟩

namespace Schema

variable {s : Schema}

theorem readsBack (s : Schema) : ReadsBack s.toJson := readsBack_map fun r _ => r.readsBack

/-- What is written of a consistent schema describes the schema. -/
theorem Consistent.ofJson_toJson (hs : s.Consistent) : ofJson s.toJson = .ok s := by
  unfold ofJson toJson
  rw [Json.listOf?_map fun r _ => r.ofJson?_toJson]
  exact ofList_toList hs

theorem Consistent.ofDocument (hs : s.Consistent) {document : String}
    (h : Json.parse? document = some s.toJson) : ofDocument document = .ok s := by
  unfold Schema.ofDocument
  rw [h]
  exact hs.ofJson_toJson

/-- Whatever a document says, only a consistent schema is loaded from it. -/
theorem returns_ofDocument (document : String) :
    Returns Consistent (Schema.ofDocument document) := by
  unfold Schema.ofDocument
  split
  · exact .error
  · unfold ofJson
    split
    · exact .error
    · exact returns_ofList

end Schema

-- ---------------------------------------------------------------------------
-- Calls
-- ---------------------------------------------------------------------------

namespace Relation

/-- What a relation is built of. -/
inductive Part where
  | column (name : String) (type : DbType) (nullable : Bool)
  | primaryKey (columns : List String)
  | unique (columns : List String)

/-- The relation with one more part. -/
def withPart (r : Relation) : Part → Relation
  | .column name type nullable => r.withColumn name type nullable
  | .primaryKey columns => r.withPrimaryKey columns
  | .unique columns => r.withUnique columns

/-- The relation of some parts, once it is checked. -/
def built (name : String) (parts : List Part) : Except Error Relation :=
  (parts.foldl withPart (named name)).checked

end Relation

namespace Schema

/-- What a caller holds: a schema, and relations to insert into it. -/
structure Client where
  schema : Schema := empty
  relations : List Relation := []

/-- A call of a caller. -/
inductive Call where
  /-- Goes on with the schema of a document. -/
  | load (document : String)
  /-- Builds a relation. -/
  | build (name : String) (parts : List Relation.Part)
  /-- Looks a relation up. -/
  | get (name : String)
  /-- Inserts one of the relations at hand. -/
  | insert (position : Nat)

namespace Client

/-- What a caller holds after a call that succeeds. -/
def call (c : Client) : Call → Except Error Client
  | .load document => return { c with schema := ← ofDocument document }
  | .build name parts =>
    return { c with relations := c.relations ++ [← Relation.built name parts] }
  | .get name => return { c with relations := c.relations ++ [← c.schema.get name] }
  | .insert position => match c.relations[position]? with
    | none => return c
    | some r => return { c with schema := ← c.schema.insert r }

/-- A call that fails changes nothing. -/
def after (c : Client) (call : Call) : Client :=
  match c.call call with
  | .ok c' => c'
  | .error _ => c

/-- What a caller holds after some calls. -/
def run (calls : List Call) : Client := calls.foldl after {}

/-- All that a caller holds is consistent. -/
structure Consistent (c : Client) : Prop where
  schema : c.schema.Consistent
  relations : ∀ r ∈ c.relations, r.Consistent

variable {c : Client}

theorem Consistent.withRelation (hc : c.Consistent) {r : Relation} (hr : r.Consistent) :
    Consistent { c with relations := c.relations ++ [r] } where
  schema := hc.schema
  relations := List.forall_mem_append.2 ⟨hc.relations, List.forall_mem_singleton.2 hr⟩

theorem returns_call (hc : c.Consistent) (call : Call) : Returns Consistent (c.call call) := by
  cases call with
  | load document =>
    exact (returns_ofDocument document).bind fun s hs => .ok ⟨hs, hc.relations⟩
  | build name parts =>
    exact (Relation.returns_checked _).bind fun r hr => .ok (hc.withRelation hr)
  | get name =>
    exact (hc.schema.get name).bind fun r hr => .ok (hc.withRelation hr)
  | insert position =>
    unfold Client.call
    dsimp only
    split
    · exact .ok hc
    · next r h =>
      exact (hc.schema.insert (hc.relations r (List.mem_of_getElem? h))).bind fun s hs =>
        .ok ⟨hs, hc.relations⟩

theorem Consistent.after (hc : c.Consistent) (call : Call) : (c.after call).Consistent := by
  unfold Client.after
  split
  · next c' h => exact returns_call hc call c' h
  · exact hc

theorem consistent_run (calls : List Call) : (run calls).Consistent := by
  suffices hfold : ∀ c : Client, c.Consistent → (calls.foldl Client.after c).Consistent from
    hfold {} ⟨consistent_empty, nofun⟩
  induction calls with
  | nil => exact fun _ hc => hc
  | cons call calls ih => exact fun c hc => ih _ (hc.after call)

end Client

/-- Whatever calls were made, no two relations have the same name, each is consistent, and each of
its constraints has its positions, all within the relation. The schema is loaded again from its text,
and from every other document that is read as what is written of it. -/
theorem consistent_after_calls (calls : List Call) :
    let s := (Client.run calls).schema
    (s.toList.map Relation.name).Nodup ∧
      (∀ r ∈ s.toList, r.Consistent ∧
        List.Forall₂ r.Locates r.constraints r.constraintPositions ∧
        r.constraintPositions.length = r.constraints.length ∧
        ∀ positions ∈ r.constraintPositions, ∀ position ∈ positions, position < r.arity) ∧
      ofDocument s.toJson.pretty = .ok s ∧
      ∀ document, Json.parse? document = some s.toJson → ofDocument document = .ok s := by
  intro s
  have hs : s.Consistent := (Client.consistent_run calls).schema
  refine ⟨hs.nodup_names, fun r hr => ?_, hs.ofDocument s.readsBack.parse?_pretty,
    fun document h => hs.ofDocument h⟩
  have hlocates := (hs.relations r hr).locates
  refine ⟨hs.relations r hr, hlocates, hlocates.length_eq.symm, fun positions hpositions => ?_⟩
  obtain ⟨k, -, hk⟩ := exists_of_mem_right hlocates hpositions
  exact fun position hposition => hk.lt_arity hposition

/-- A relation with a column of a vendor's type is not inserted twice, and another one, whose
primary key would take NULL, is not built. The schema is loaded from its text. -/
theorem consistent_after_calls_of_vendor_type :
    let calls : List Call := [
      .build "t" [.column "a" .integer false, .column "b" (.other "X") true, .primaryKey ["a"]],
      .insert 0, .insert 0, .build "u" [.column "a" .integer true, .primaryKey ["a"]], .insert 1,
      .load "["]
    let s := (Client.run calls).schema
    let t : Relation :=
      ⟨"t", [⟨"a", .integer, false⟩, ⟨"b", .other "X", true⟩], [⟨"pk_t", ["a"], true⟩]⟩
    let document := "[\n  \x7b\n    \"name\": \"t\",\n    \"attributes\": [\n" ++
      "      \x7b\n        \"name\": \"a\",\n        \"db_type\": \"Integer\",\n" ++
      "        \"nullable\": false\n      \x7d,\n" ++
      "      \x7b\n        \"name\": \"b\",\n        \"db_type\": \x7b\n" ++
      "          \"Other\": \"X\"\n        \x7d,\n        \"nullable\": true\n      \x7d\n    ],\n" ++
      "    \"unique_constraints\": [\n      \x7b\n        \"name\": \"pk_t\",\n" ++
      "        \"attributes\": [\n          \"a\"\n        ],\n        \"primary_key\": true\n" ++
      "      \x7d\n    ]\n  \x7d\n]"
    s.toList = [t] ∧ t.constraintPositions = [[0]] ∧ Json.parse? document = some s.toJson ∧
      ofDocument document = .ok s := by
  intro calls s t document
  have hdocument : document = s.toJson.pretty := by decide +kernel
  have hparse : Json.parse? document = some s.toJson := by
    rw [hdocument]
    exact s.readsBack.parse?_pretty
  obtain ⟨-, -, -, hread⟩ := consistent_after_calls calls
  exact ⟨by decide +kernel, by decide +kernel, hparse, hread document hparse⟩

end Schema

end QueryAlgebra
