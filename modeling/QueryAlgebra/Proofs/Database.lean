import Mathlib.Data.List.Pairwise
import QueryAlgebra.Proofs.Consistency
import QueryAlgebra.Proofs.Nodes
import QueryAlgebra.Proofs.Occurrence
import QueryAlgebra.Proofs.Substitution
import QueryAlgebra.Tree.Properties

/-!
# The rows of a tree

A database gives every relation its tuples, and a tree its rows. The tree operators have their
meaning in SQL: joins compare the variables that the operands share, and NULL compares with nothing;
conditions keep the rows of which they are true; a left join pads; an aggregation without grouping
variables has one group, even over no rows.

Rows are listed, so that order and repetition are there to be talked about. As bags, two lists are
the same when each is a permutation of the other. A row gives NULL to all variables outside those
that its tree projects (`Tree.rows_supported`); rows that agree on the projected variables are
therefore equal.

Main statement: `Tree.exists_of_mem_joinRows` — a row of a join agrees with a row of each operand,
and is not NULL where two operands have a variable in common.
-/

namespace QueryAlgebra

-- ---------------------------------------------------------------------------
-- Rows
-- ---------------------------------------------------------------------------

namespace Row

/-- The row without columns. -/
def blank : Row := fun _ => .null

/-- The row over some of its variables only. -/
def cut (xs : VarSet) (ρ : Row) : Row := fun x => if x ∈ xs then ρ x else .null

/-- The first row on `xs`, and the second elsewhere. -/
def merge (xs : VarSet) (ρ σ : Row) : Row := fun x => if x ∈ xs then ρ x else σ x

/-- The rows agree on `xs`. -/
def AgreeOn (xs : VarSet) (ρ σ : Row) : Prop := ∀ x ∈ xs.toList, ρ x = σ x

instance (xs : VarSet) (ρ σ : Row) : Decidable (AgreeOn xs ρ σ) :=
  inferInstanceAs (Decidable (∀ x ∈ xs.toList, ρ x = σ x))

/-- A row over `xs` joins one over `ys`: where they share a variable they have the same value, which
is not NULL. -/
def Joins (xs ys : VarSet) (ρ σ : Row) : Prop := ∀ x ∈ xs.toList, x ∈ ys → ρ x = σ x ∧ ρ x ≠ .null

instance (xs ys : VarSet) (ρ σ : Row) : Decidable (Joins xs ys ρ σ) :=
  inferInstanceAs (Decidable (∀ x ∈ xs.toList, x ∈ ys → ρ x = σ x ∧ ρ x ≠ .null))

/-- The row is NULL outside `xs`. -/
def Supported (xs : VarSet) (ρ : Row) : Prop := ∀ x, x ∉ xs → ρ x = .null

/-- A row over `xs` with each of the rows over `ys` that it joins. -/
def joinedWith (xs ys : VarSet) (rows : List Row) (ρ : Row) : List Row :=
  (rows.filter fun σ => Joins xs ys ρ σ).map (merge xs ρ)

/-- Each row over `xs` with each of the rows over `ys` that it joins. -/
def joinPairs (xs ys : VarSet) (rows rows' : List Row) : List Row :=
  rows.flatMap (joinedWith xs ys rows')

/-- Each row over `xs` once. -/
def distinct (xs : VarSet) (rows : List Row) : List Row :=
  rows.pwFilter fun ρ σ => ¬AgreeOn xs ρ σ

end Row

-- ---------------------------------------------------------------------------
-- Sources and databases
-- ---------------------------------------------------------------------------

/-- What trees read, and what is computed. Nothing is assumed of the rows that tables, virtual
relations and native queries return; those of a query are over its variables. -/
structure Source extends Interpretation where
  table : Relation → List (List Constant)
  virtual : VirtualRelation → List (List Constant)
  native : NativeQuery → List Row
  native_supported : ∀ q, ∀ ρ ∈ native q, ρ.Supported q.vars

/-- What a database holds, and what it computes. Tables keep to what their relations declare, virtual
relations have no NULL, and native queries keep to the nullability that they declare. -/
structure Database extends Source where
  table_arity : ∀ r, ∀ tuple ∈ table r, tuple.length = r.arity
  table_ne_null : ∀ r, ∀ tuple ∈ table r, ∀ p, r.isNullableAt p = false → tuple[p]? ≠ some .null
  table_unique : ∀ r, ∀ positions ∈ r.constraintPositions, (table r).Pairwise fun tuple tuple' =>
    ∃ p ∈ positions, tuple[p]? = some .null ∨ tuple[p]? ≠ tuple'[p]?
  virtual_ne_null : ∀ v, ∀ tuple ∈ virtual v, .null ∉ tuple
  native_admitted : ∀ q, ∀ ρ ∈ native q, q.nullability.Admits ρ

instance : Coe Database Source := ⟨Database.toSource⟩

/-- The tables keep their constraints over columns without NULL: no two tuples agree on all columns
of one. -/
def Source.KeepsKeys (S : Source) : Prop :=
  ∀ r : Relation, ∀ positions ∈ r.constraintPositions,
    (∀ p ∈ positions, r.isNullableAt p = false) →
      (S.table r).Pairwise fun tuple tuple' => ∃ p ∈ positions, tuple[p]? ≠ tuple'[p]?

theorem Database.keepsKeys (D : Database) : D.KeepsKeys := by
  intro r positions hpositions hne
  refine (D.table_unique r positions hpositions).imp_of_mem ?_
  rintro tuple tuple' htuple - ⟨p, hp, hnull | hdiffer⟩
  · exact absurd hnull (D.table_ne_null r tuple htuple p (hne p hp))
  · exact ⟨p, hp, hdiffer⟩

namespace Source

variable (D : Source)

/-- The row that a tuple gives the variables among the arguments; the first place of each counts. -/
def assign (args : List Term) (tuple : List Constant) : Row := fun x =>
  (SortedMap.lookIn (.var x) (args.zip tuple)).getD .null

/-- The tuple has the values of the arguments. A NULL only fits a variable that stands at no other
place. -/
def Fits (args : List Term) (tuple : List Constant) : Prop :=
  args.length = tuple.length ∧ ∀ p ∈ args.zip tuple,
    D.eval (assign args tuple) p.1 = p.2 ∧
      (p.2 = .null → p.1.isVariable = true ∧ args.count p.1 = 1)

instance (args : List Term) (tuple : List Constant) : Decidable (D.Fits args tuple) :=
  inferInstanceAs (Decidable (_ ∧ _))

/-- The rows that the tuples give the arguments. -/
def matching (args : List Term) (tuples : List (List Constant)) : List Row :=
  (tuples.filter fun tuple => D.Fits args tuple).map (assign args)

/-- The row of a construction: variables pass through or are computed. -/
def constructed (projected : VarSet) (bindings : Substitution) (ρ : Row) : Row := fun x =>
  if x ∈ projected then D.eval ρ (bindings.applyVar x) else .null

/-- The left row with each right row that it joins under the condition, or by itself if there is
none. -/
def leftJoined (xs ys : VarSet) (condition? : Option Expression) (rows : List Row) (ρ : Row) :
    List Row :=
  let joined := (Row.joinedWith xs ys rows ρ).filter fun σ => D.HoldsOptional σ condition?
  if joined.isEmpty then [ρ] else joined

/-- The row of a group: the grouping variables as they are, and aggregates over the members. -/
def groupRow (grouping : VarSet) (bindings : Substitution) (ρ : Row) (members : List Row) : Row :=
  fun x =>
    if x ∈ grouping then ρ x
    else match bindings.find? x with
      | some (.app f args) => D.aggregateOver f (members.map fun σ => args.map (D.eval σ))
      | _ => .null

/-- One row for each group. -/
def aggregated (grouping : VarSet) (bindings : Substitution) (rows : List Row) : List Row :=
  if grouping.isEmpty then [D.groupRow grouping bindings .blank rows]
  else (Row.distinct grouping rows).map fun ρ =>
    D.groupRow grouping bindings ρ (rows.filter fun σ => Row.AgreeOn grouping ρ σ)

/-- How two rows compare under the sort keys, the first of which counts most. -/
def compareBy (keys : List SortKey) (ρ σ : Row) : Ordering :=
  keys.foldr (fun k rest =>
    let o := D.collation (D.eval ρ k.term) (D.eval σ k.term)
    (if k.ascending then o else o.swap).then rest) .eq

/-- The rows of a leaf. -/
def leafRows : Leaf → List Row
  | .extensional atom => D.matching atom.args (D.table atom.predicate)
  | .intensional atom => D.matching atom.args (D.virtual atom.predicate)
  | .native query => D.native query
  | .empty _ => []
  | .unit => [.blank]

end Source

/-- The rows within a window. -/
def Window.clip {α : Type} (window : Window) (rows : List α) : List α :=
  match window.limit? with
  | none => rows.drop window.offset
  | some limit => (rows.drop window.offset).take limit

namespace Tree

variable (D : Source)

mutual

/-- The rows of the tree. -/
def rows : Tree → List Row
  | construct _ projected bindings child => (rows child).map (D.constructed projected bindings)
  | filter _ condition child => (rows child).filter fun ρ => D.Holds ρ condition
  | join _ condition? children => (joinRows children).filter fun ρ => D.HoldsOptional ρ condition?
  | leftJoin _ condition? left right =>
    (rows left).flatMap (D.leftJoined left.vars right.vars condition? (rows right))
  | union _ projected children => (unionRows children).map (Row.cut projected)
  | distinct _ child => Row.distinct child.vars (rows child)
  | slice _ window child => window.clip (rows child)
  | orderBy _ keys child => (rows child).mergeSort fun ρ σ => (D.compareBy keys ρ σ).isLE
  | aggregate _ grouping bindings child => D.aggregated grouping bindings (rows child)
  | leaf _ l => D.leafRows l

/-- The joined rows of the trees. -/
def joinRows : List Tree → List Row
  | [] => [.blank]
  | t :: ts => Row.joinPairs t.vars (varsOf ts) (rows t) (joinRows ts)

/-- The rows of all the trees. -/
def unionRows : List Tree → List Row
  | [] => []
  | t :: ts => rows t ++ unionRows ts

end

end Tree

-- ---------------------------------------------------------------------------
-- Variables of rows
-- ---------------------------------------------------------------------------

namespace Row

variable {xs ys : VarSet} {ρ σ : Row}

theorem Supported.ext (hρ : ρ.Supported xs) (hσ : σ.Supported xs) (h : AgreeOn xs ρ σ) :
    ρ = σ := by
  funext x
  by_cases hx : x ∈ xs
  · exact h x hx
  · rw [hρ x hx, hσ x hx]

theorem Supported.mono (h : ρ.Supported xs) (hxs : xs ⊆ ys) : ρ.Supported ys :=
  fun x hx => h x fun hmem => hx (hxs x hmem)

theorem supported_cut : (cut xs ρ).Supported xs := fun _ hx => if_neg hx

theorem supported_merge (hσ : σ.Supported ys) : (merge xs ρ σ).Supported (xs ∪ ys) := by
  intro x hx
  rw [SortedSet.mem_union, not_or] at hx
  rw [merge, if_neg hx.1, hσ x hx.2]

theorem mem_joinedWith {rows : List Row} {τ : Row} :
    τ ∈ joinedWith xs ys rows ρ ↔ ∃ σ ∈ rows, Joins xs ys ρ σ ∧ merge xs ρ σ = τ := by
  simp [joinedWith, and_assoc]

theorem mem_joinPairs {rows rows' : List Row} {τ : Row} :
    τ ∈ joinPairs xs ys rows rows' ↔
      ∃ ρ ∈ rows, ∃ σ ∈ rows', Joins xs ys ρ σ ∧ merge xs ρ σ = τ := by
  simp only [joinPairs, List.mem_flatMap, mem_joinedWith]

/-- A joined row agrees with both. -/
theorem Joins.merge_right (h : Joins xs ys ρ σ) {x : Variable} (hx : x ∈ ys) :
    merge xs ρ σ x = σ x := by
  unfold merge
  split
  · next hmem => exact (h x hmem hx).1
  · rfl

theorem merge_left {x : Variable} (hx : x ∈ xs) : merge xs ρ σ x = ρ x := if_pos hx

theorem mem_of_mem_distinct {rows : List Row} (h : ρ ∈ distinct xs rows) : ρ ∈ rows :=
  List.pwFilter_subset _ h

end Row

namespace Atom

variable {π : Type} {atom : Atom π} {x : Variable}

/-- In a well-formed atom every argument is a variable or ground. -/
theorem arg_of_isWellFormed [AtomPredicate π] (h : atom.isWellFormed = true) :
    ∀ t ∈ atom.args, t.isVariable = true ∨ t.isGround = true := by
  rw [isWellFormed, Bool.and_eq_true, List.all_eq_true] at h
  exact fun t ht => Bool.or_eq_true_iff.1 (h.2 t ht)

/-- In a well-formed atom every variable is an argument. -/
theorem mem_args_of_isWellFormed [AtomPredicate π] (h : atom.isWellFormed = true)
    (hx : x ∈ atom.vars) : .var x ∈ atom.args :=
  Term.var_mem_of_mem_varsOf (arg_of_isWellFormed h) hx

theorem length_positions (args : List Term) (t : Term) :
    ((List.range args.length).filter fun p => args[p]? = some t).length = args.count t := by
  induction args with
  | nil => rfl
  | cons u us ih =>
    rw [List.length_cons, List.range_succ_eq_map, List.filter_cons, List.filter_map,
      List.count_cons, ← ih]
    by_cases hu : u = t
    · simp [hu, Function.comp_def]
    · simp [hu, Function.comp_def]

theorem positionsOf_eq_singleton {p : Nat} (hp : atom.args[p]? = some (.var x))
    (hcount : atom.args.count (.var x) = 1) : atom.positionsOf x = [p] := by
  have hlength : (atom.positionsOf x).length = 1 := by
    rw [← hcount]
    exact length_positions atom.args (.var x)
  obtain ⟨q, hq⟩ := List.length_eq_one_iff.1 hlength
  have hmem : p ∈ atom.positionsOf x := by
    refine List.mem_filter.2 ⟨?_, by simpa using hp⟩
    exact List.mem_range.2 (List.getElem?_eq_some_iff.1 hp).1
  rw [hq, List.mem_singleton] at hmem
  rw [hq, hmem]

end Atom

namespace Source

variable {D : Source}

theorem assign_of_not_mem {args : List Term} {tuple : List Constant} {x : Variable}
    (h : .var x ∉ args) : assign args tuple x = .null := by
  have hnone : SortedMap.lookIn (.var x) (args.zip tuple) = none :=
    SortedMap.lookIn_eq_none fun v hv => h (List.of_mem_zip hv).1
  rw [assign, hnone]
  rfl

theorem assign_supported (args : List Term) (tuple : List Constant) :
    (assign args tuple).Supported (Term.varsOf args) := by
  intro x hx
  apply assign_of_not_mem
  intro hmem
  exact hx (Term.mem_varsOf.2 ⟨_, hmem, Term.mem_vars_var.2 rfl⟩)

theorem mem_matching {args : List Term} {tuples : List (List Constant)} {ρ : Row} :
    ρ ∈ D.matching args tuples ↔ ∃ tuple ∈ tuples, D.Fits args tuple ∧ assign args tuple = ρ := by
  simp [matching, and_assoc]

/-- A variable has the value that stands at each of its places. -/
theorem Fits.getElem?_eq {args : List Term} {tuple : List Constant} (h : D.Fits args tuple)
    {x : Variable} {p : Nat} (hp : args[p]? = some (.var x)) :
    tuple[p]? = some (assign args tuple x) := by
  obtain ⟨hlength, hfits⟩ := h
  obtain ⟨hlt, he⟩ := List.getElem?_eq_some_iff.1 hp
  have hmem : (Term.var x, tuple[p]) ∈ args.zip tuple :=
    List.mem_iff_getElem.2 ⟨p, by rw [List.length_zip]; omega, by simp [he]⟩
  have hvalue : assign args tuple x = tuple[p] := (hfits _ hmem).1
  rw [List.getElem?_eq_getElem (by omega), hvalue]

/-- A variable that is NULL has one place only. -/
theorem Fits.count_of_null {args : List Term} {tuple : List Constant} (h : D.Fits args tuple)
    {x : Variable} {p : Nat} (hp : args[p]? = some (.var x)) (hnull : assign args tuple x = .null) :
    args.count (.var x) = 1 := by
  have hvalue := h.getElem?_eq hp
  have hmem : (Term.var x, Constant.null) ∈ args.zip tuple := by
    rw [List.mem_iff_getElem?]
    exact ⟨p, by rw [List.getElem?_zip_eq_some]; exact ⟨hp, hnull ▸ hvalue⟩⟩
  exact ((h.2 _ hmem).2 rfl).2

theorem mem_leftJoined {xs ys : VarSet} {condition? : Option Expression} {rows : List Row}
    {ρ τ : Row} (h : τ ∈ D.leftJoined xs ys condition? rows ρ) :
    τ = ρ ∨ τ ∈ Row.joinedWith xs ys rows ρ ∧ D.HoldsOptional τ condition? := by
  unfold leftJoined at h
  dsimp only at h
  split at h
  · exact .inl (List.mem_singleton.1 h)
  · exact .inr (by simpa using h)

theorem mem_aggregated {grouping : VarSet} {bindings : Substitution} {rows : List Row} {τ : Row}
    (h : τ ∈ D.aggregated grouping bindings rows) :
    ∃ ρ members, (ρ ∈ rows ∨ grouping = ∅) ∧ τ = D.groupRow grouping bindings ρ members := by
  unfold aggregated at h
  split at h
  · next hempty => exact ⟨_, _, .inr (SortedSet.isEmpty_iff.1 hempty), List.mem_singleton.1 h⟩
  · obtain ⟨ρ, hρ, rfl⟩ := List.mem_map.1 h
    exact ⟨ρ, _, .inl (Row.mem_of_mem_distinct hρ), rfl⟩

theorem groupRow_supported {grouping : VarSet} {bindings : Substitution} {ρ : Row}
    {members : List Row} :
    (D.groupRow grouping bindings ρ members).Supported (grouping ∪ bindings.domain) := by
  intro x hx
  rw [SortedSet.mem_union, not_or] at hx
  have hnone : bindings.find? x = none := by
    cases h : bindings.find? x with
    | none => rfl
    | some t => exact absurd (SortedMap.mem_keys.2 ⟨t, h⟩) hx.2
  rw [groupRow, if_neg hx.1, hnone]

theorem leafRows_supported (l : Leaf) : ∀ ρ ∈ D.leafRows l, ρ.Supported l.vars := by
  cases l with
  | extensional atom =>
    intro ρ hρ
    obtain ⟨tuple, -, -, rfl⟩ := mem_matching.1 hρ
    exact assign_supported atom.args tuple
  | intensional atom =>
    intro ρ hρ
    obtain ⟨tuple, -, -, rfl⟩ := mem_matching.1 hρ
    exact assign_supported atom.args tuple
  | native query => exact D.native_supported query
  | empty projected => exact fun ρ hρ => absurd hρ List.not_mem_nil
  | unit =>
    intro ρ hρ
    rw [List.mem_singleton.1 hρ]
    exact fun _ _ => rfl

end Source

namespace Window

theorem clip_sublist {α : Type} (window : Window) (rows : List α) :
    (window.clip rows).Sublist rows := by
  unfold clip
  split
  · exact List.drop_sublist _ _
  · exact (List.take_sublist _ _).trans (List.drop_sublist _ _)

theorem mem_of_mem_clip {α : Type} {window : Window} {rows : List α} {a : α}
    (h : a ∈ window.clip rows) : a ∈ rows :=
  (window.clip_sublist rows).subset h

end Window

namespace Tree

variable {D : Source}

theorem mem_unionRows {ts : List Tree} {ρ : Row} :
    ρ ∈ unionRows D ts ↔ ∃ t ∈ ts, ρ ∈ t.rows D := by
  induction ts with
  | nil => simp [unionRows]
  | cons t ts ih => simp [unionRows, ih]

theorem joinRows_supported {ts : List Tree}
    (h : ∀ t ∈ ts, ∀ ρ ∈ t.rows D, ρ.Supported t.vars) :
    ∀ ρ ∈ joinRows D ts, ρ.Supported (varsOf ts) := by
  induction ts with
  | nil =>
    intro ρ hρ
    rw [joinRows, List.mem_singleton] at hρ
    rw [hρ]
    exact fun _ _ => rfl
  | cons t ts ih =>
    rw [List.forall_mem_cons] at h
    intro τ hτ
    obtain ⟨ρ, -, σ, hσ, -, rfl⟩ := Row.mem_joinPairs.1 hτ
    exact Row.supported_merge (ih h.2 σ hσ)

/-- A row gives nothing but NULL to what its tree does not project. -/
theorem rows_supported (t : Tree) : ∀ ρ ∈ t.rows D, ρ.Supported t.vars := by
  induction t using inductionOn with
  | step t ih =>
    cases t with
    | construct _ projected bindings child =>
      intro ρ hρ
      obtain ⟨σ, -, rfl⟩ := List.mem_map.1 hρ
      exact fun x hx => if_neg hx
    | filter _ condition child =>
      intro ρ hρ
      exact ih child (by simp [children]) ρ (List.mem_of_mem_filter hρ)
    | join _ condition? ts =>
      intro ρ hρ
      exact joinRows_supported ih ρ (List.mem_of_mem_filter hρ)
    | leftJoin _ condition? left right =>
      intro τ hτ
      obtain ⟨ρ, hρ, hτ⟩ := List.mem_flatMap.1 hτ
      have hleft := ih left (by simp [children]) ρ hρ
      rcases Source.mem_leftJoined hτ with rfl | ⟨hτ, -⟩
      · exact hleft.mono SortedSet.subset_union_left
      · obtain ⟨σ, hσ, -, rfl⟩ := Row.mem_joinedWith.1 hτ
        exact Row.supported_merge (ih right (by simp [children]) σ hσ)
    | union _ projected ts =>
      intro ρ hρ
      obtain ⟨σ, -, rfl⟩ := List.mem_map.1 hρ
      exact Row.supported_cut
    | distinct _ child =>
      intro ρ hρ
      exact ih child (by simp [children]) ρ (Row.mem_of_mem_distinct hρ)
    | slice _ window child =>
      intro ρ hρ
      exact ih child (by simp [children]) ρ (Window.mem_of_mem_clip hρ)
    | orderBy _ keys child =>
      intro ρ hρ
      exact ih child (by simp [children]) ρ (List.mem_mergeSort.1 hρ)
    | aggregate _ grouping bindings child =>
      intro τ hτ
      obtain ⟨ρ, members, -, rfl⟩ := Source.mem_aggregated hτ
      exact Source.groupRow_supported
    | leaf _ l => exact Source.leafRows_supported l

/-- A row of a join agrees with a row of each operand. -/
theorem exists_of_mem_joinRows {ts : List Tree} {τ : Row} (h : τ ∈ joinRows D ts) :
    ∀ t ∈ ts, ∃ ρ ∈ t.rows D, Row.AgreeOn t.vars τ ρ := by
  induction ts generalizing τ with
  | nil => exact fun _ ht => absurd ht List.not_mem_nil
  | cons t ts ih =>
    obtain ⟨ρ, hρ, σ, hσ, hjoins, rfl⟩ := Row.mem_joinPairs.1 h
    rw [List.forall_mem_cons]
    refine ⟨⟨ρ, hρ, fun x hx => Row.merge_left hx⟩, ?_⟩
    intro u hu
    obtain ⟨ν, hν, hagree⟩ := ih hσ u hu
    refine ⟨ν, hν, ?_⟩
    intro x hx
    rw [hjoins.merge_right (mem_varsOf.2 ⟨u, hu, hx⟩)]
    exact hagree x hx

theorem mem_sharedVars {sets : List VarSet} {x : Variable} :
    x ∈ sharedVars sets ↔ 1 < sets.countP (x ∈ ·) := by
  rw [sharedVars, SortedSet.mem_filter, SortedSet.mem_unions, decide_eq_true_iff]
  refine and_iff_right_of_imp fun hx => ?_
  obtain ⟨xs, hxs, hmem⟩ := List.countP_pos_iff.1 (Nat.zero_lt_of_lt hx)
  exact ⟨xs, hxs, by simpa using hmem⟩

/-- A variable that two operands of a join have in common is not NULL. -/
theorem ne_null_of_mem_joinRows {ts : List Tree} {τ : Row} (h : τ ∈ joinRows D ts) {x : Variable}
    (hx : 1 < (ts.map vars).countP (x ∈ ·)) : τ x ≠ .null := by
  induction ts generalizing τ with
  | nil => simp at hx
  | cons t ts ih =>
    obtain ⟨ρ, hρ, σ, hσ, hjoins, rfl⟩ := Row.mem_joinPairs.1 h
    rw [List.map_cons, List.countP_cons] at hx
    by_cases hmem : x ∈ t.vars
    · have hothers : 0 < (ts.map vars).countP (x ∈ ·) := by
        rw [if_pos (by simpa using hmem)] at hx
        omega
      obtain ⟨xs, hxs, hxx⟩ := List.countP_pos_iff.1 hothers
      obtain ⟨u, hu, rfl⟩ := List.mem_map.1 hxs
      rw [Row.merge_left hmem]
      exact (hjoins x hmem (mem_varsOf.2 ⟨u, hu, by simpa using hxx⟩)).2
    · rw [if_neg (by simpa using hmem), Nat.add_zero] at hx
      rw [Row.merge, if_neg hmem]
      exact ih hσ hx

/-- Marks are no part of the query. -/
theorem rows_unmarked (t : Tree) : t.unmarked.rows D = t.rows D := by
  have hjoin (ts : List Tree) (ih : ∀ t ∈ ts, t.unmarked.rows D = t.rows D) :
      joinRows D (ts.map unmarked) = joinRows D ts := by
    induction ts with
    | nil => rfl
    | cons t ts ihs =>
      rw [List.forall_mem_cons] at ih
      have hvars : varsOf (ts.map unmarked) = varsOf ts := varsOf_map_unmarked ts
      rw [List.map_cons, joinRows, joinRows, vars_unmarked, hvars, ih.1, ihs ih.2]
  have hunion (ts : List Tree) (ih : ∀ t ∈ ts, t.unmarked.rows D = t.rows D) :
      unionRows D (ts.map unmarked) = unionRows D ts := by
    induction ts with
    | nil => rfl
    | cons t ts ihs =>
      rw [List.forall_mem_cons] at ih
      rw [List.map_cons, unionRows, unionRows, ih.1, ihs ih.2]
  induction t using inductionOn with
  | step t ih =>
    cases t with
    | join _ condition? ts => simp only [unmarked, unmarkedAll_eq_map, rows, hjoin ts ih]
    | union _ projected ts => simp only [unmarked, unmarkedAll_eq_map, rows, hunion ts ih]
    | _ => simp_all [unmarked, rows, children, vars_unmarked]

theorem rows_of_unmarked_eq {t u : Tree} (h : t.unmarked = u.unmarked) : t.rows D = u.rows D := by
  rw [← rows_unmarked t, ← rows_unmarked u, h]

end Tree

end QueryAlgebra
