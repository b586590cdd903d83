import QueryAlgebra.Proofs.NullabilityUpdates
import QueryAlgebra.Proofs.Validity

/-!
# Inferred nullability is right

What `Tree.nullability` says of a tree is admitted by every row of the tree, and is about exactly the
variables that the tree projects. For each kind of node there is a lemma that takes the rows of the
children to be admitted; the induction over the tree only puts them together.

The hard cases are the joins. A variable that two operands share is not NULL, and keeps its whole
group from being NULL with it (`Tree.admits_joined`). A left join pads, so the right variables that
are not NULL otherwise become a group; and a right group whose NULLs the condition rejects is not
NULL unless the row is padded (`Tree.admits_leftJoined`).

Main statement: `Tree.nullability_sound`.
-/

namespace QueryAlgebra

-- ---------------------------------------------------------------------------
-- Conditions and projections
-- ---------------------------------------------------------------------------

namespace Nullability

variable {D : Database} {n : Nullability} {ρ : Row}

theorem admits_filterNullability {condition? : Option Expression} (hn : n.Admits ρ)
    (hrejects : ∀ e ∈ condition?, ∀ g ∈ n.groups, e.rejectsNullsOf g = true →
      ¬∀ x ∈ g, ρ x = .null) :
    (Tree.filterNullability condition? n).Admits ρ := by
  cases condition? with
  | none => exact hn
  | some e => exact admits_filter hn (hrejects e rfl)

theorem scope_filterNullability {condition? : Option Expression} :
    (Tree.filterNullability condition? n).scope = n.scope := by
  cases condition? <;> rfl

theorem scoped_filterNullability {condition? : Option Expression} (hn : n.Scoped) :
    (Tree.filterNullability condition? n).Scoped := by
  cases condition? with
  | none => exact hn
  | some e => exact scoped_ofGroups _ _

/-- Where the scope has all that the bindings need, all that is projected is covered. -/
theorem admits_project {s : Substitution} {projected : VarSet} (hn : n.Admits ρ)
    (hscope : Tree.requiredVars projected s ⊆ n.scope) :
    (n.project s projected).Admits (D.constructed projected s ρ) := by
  apply (admitsOn_project hn).admits
  intro x hx
  refine mem_coveredVars.2 ⟨hx, fun y hxy => hscope y (Tree.mem_requiredVars.2 ?_)⟩
  by_cases hdomain : x ∈ s.domain
  · obtain ⟨t, ht⟩ := Substitution.mem_domain.1 hdomain
    rw [Substitution.applyVar_of_find? ht] at hxy
    exact .inr (Substitution.mem_rangeVars.2 ⟨x, t, ht, hxy ▸ Term.mem_vars_var.2 rfl⟩)
  · rw [Substitution.applyVar_of_not_mem_domain hdomain] at hxy
    exact .inl (Term.var.inj hxy ▸ ⟨hx, hdomain⟩)

end Nullability

namespace Tree

variable {D : Database}

/-- What is inferred for the tree is about its variables, and every row is admitted. -/
structure NullabilityHolds (D : Database) (t : Tree) : Prop where
  scope : t.nullability.scope = t.vars
  groups : t.nullability.Scoped
  admits : ∀ ρ ∈ t.rows D, t.nullability.Admits ρ

-- ---------------------------------------------------------------------------
-- Joins
-- ---------------------------------------------------------------------------

theorem unions_map_vars {ts : List Tree} : SortedSet.unions (ts.map vars) = varsOf ts := by
  ext x
  simp

/-- A shared variable is not NULL, and neither is its group. -/
theorem admits_joined {ts : List Tree} (h : ∀ t ∈ ts, t.NullabilityHolds D) {τ : Row}
    (hτ : τ ∈ joinRows D ts) : (joinedNullability ts).Admits τ := by
  have hparts : ∀ t ∈ ts, ∃ ρ, t.nullability.Admits ρ ∧ Row.AgreeOn t.vars τ ρ := by
    intro t ht
    obtain ⟨ρ, hρ, hagree⟩ := exists_of_mem_joinRows hτ t ht
    exact ⟨ρ, (h t ht).admits ρ hρ, hagree⟩
  have hgroup : ∀ t ∈ ts, ∀ g ∈ t.nullability.groups, τ.NullTogether g := by
    intro t ht g hg
    obtain ⟨ρ, hρ, hagree⟩ := hparts t ht
    apply (hρ.together g hg).of_agree
    intro x hx
    exact hagree x ((h t ht).scope ▸ (h t ht).groups g hg x hx)
  apply Nullability.admits_ofGroups
  · intro g hg
    obtain ⟨n, hn, hg⟩ := List.mem_flatMap.1 (List.mem_filter.1 hg).1
    obtain ⟨t, ht, rfl⟩ := List.mem_map.1 hn
    exact (hgroup t ht g hg).mono fun x hx => (SortedSet.mem_inter.1 hx).1
  · intro x hx hout
    rw [unions_map_vars] at hx
    obtain ⟨t, ht, hxt⟩ := mem_varsOf.1 hx
    obtain ⟨ρ, hρ, hagree⟩ := hparts t ht
    by_cases hmem : ∃ g ∈ t.nullability.groups, x ∈ g
    · obtain ⟨g, hg, hxg⟩ := hmem
      have hshared : ¬g.Disjoint (sharedVars (ts.map vars)) := by
        intro hdisjoint
        refine hout g (List.mem_filter.2 ⟨?_, by simpa using hdisjoint⟩) hxg
        exact List.mem_flatMap.2 ⟨_, List.mem_map.2 ⟨t, ht, rfl⟩, hg⟩
      rw [SortedSet.disjoint_iff] at hshared
      push Not at hshared
      obtain ⟨y, hyg, hy⟩ := hshared
      have hne := ne_null_of_mem_joinRows hτ (mem_sharedVars.1 hy)
      exact (hgroup t ht g hg).ne_null hyg hne x hxg
    · push Not at hmem
      rw [hagree x hxt]
      exact hρ.ne_null x ((h t ht).scope ▸ hxt) hmem

theorem nullabilityHolds_construct {m : Bool} {projected : VarSet} {bindings : Substitution}
    {child : Tree} (hchild : child.NullabilityHolds D)
    (hrequired : requiredVars projected bindings ⊆ child.vars) :
    (construct m projected bindings child).NullabilityHolds D := by
  refine ⟨rfl, Nullability.scoped_ofGroups _ _, fun τ hτ => ?_⟩
  obtain ⟨ρ, hρ, rfl⟩ := List.mem_map.1 hτ
  exact Nullability.admits_project (hchild.admits ρ hρ) (hchild.scope ▸ hrequired)

theorem nullabilityHolds_filter {m : Bool} {condition : Expression} {child : Tree}
    (hchild : child.NullabilityHolds D) (hcondition : condition.WellApplied) :
    (filter m condition child).NullabilityHolds D := by
  refine ⟨hchild.scope, Nullability.scoped_ofGroups _ _, fun ρ hρ => ?_⟩
  obtain ⟨hρ, hholds⟩ := List.mem_filter.1 hρ
  apply Nullability.admits_filter (hchild.admits ρ hρ)
  intro g _ hrejects hnull
  exact Expression.not_holds_of_rejectsNullsOf hcondition hrejects hnull (of_decide_eq_true hholds)

theorem nullabilityHolds_join {m : Bool} {condition? : Option Expression} {ts : List Tree}
    (h : ∀ t ∈ ts, t.NullabilityHolds D) (hcondition : ∀ e ∈ condition?, e.WellApplied) :
    (join m condition? ts).NullabilityHolds D := by
  have hjoined : (join m condition? ts).nullability
      = filterNullability condition? (joinedNullability ts) := by
    rw [nullability, nullabilities_eq_map]
    rfl
  constructor
  · rw [hjoined, Nullability.scope_filterNullability]
    exact unions_map_vars
  · rw [hjoined]
    exact Nullability.scoped_filterNullability (Nullability.scoped_ofGroups _ _)
  · intro τ hτ
    obtain ⟨hτ, hholds⟩ := List.mem_filter.1 hτ
    rw [hjoined]
    apply Nullability.admits_filterNullability (admits_joined h hτ)
    intro e he g _ hrejects hnull
    exact Expression.not_holds_of_rejectsNullsOf (hcondition e he) hrejects hnull
      (of_decide_eq_true hholds e he)

-- ---------------------------------------------------------------------------
-- Left joins
-- ---------------------------------------------------------------------------

/-- A padded row is NULL on the right; on any other row, the right groups whose NULLs the condition
rejects are not NULL. -/
theorem admits_leftJoined {condition? : Option Expression} {left right : Tree} {n : Nullability}
    (hn : n = leftJoinNullability condition? left.vars right.vars left.nullability right.nullability)
    (hleft : left.NullabilityHolds D) (hright : right.NullabilityHolds D)
    (hcondition : ∀ e ∈ condition?, e.WellApplied) {ρ τ : Row} (hρ : ρ ∈ left.rows D)
    (hτ : τ ∈ D.leftJoined left.vars right.vars condition? (right.rows D) ρ) : n.Admits τ := by
  subst hn
  let specific := right.vars \ left.vars
  let matching := filterNullability condition? right.nullability
  -- on the left the row is the left row; on the right it is NULL, or admitted once filtered
  have hagree : ∀ x ∈ left.vars, τ x = ρ x := by
    intro x hx
    rcases Source.mem_leftJoined hτ with rfl | ⟨hτ, -⟩
    · rfl
    · obtain ⟨σ, -, -, rfl⟩ := Row.mem_joinedWith.1 hτ
      exact Row.merge_left hx
  have hspecific : (∀ x ∈ specific, τ x = .null) ∨
      ∃ σ, matching.Admits σ ∧ ∀ x ∈ specific, τ x = σ x := by
    rcases Source.mem_leftJoined hτ with rfl | ⟨hτ, hholds⟩
    · left
      intro x hx
      exact rows_supported left τ hρ x (SortedSet.mem_diff.1 hx).2
    · right
      obtain ⟨σ, hσ, hjoins, rfl⟩ := Row.mem_joinedWith.1 hτ
      refine ⟨σ, ?_, fun x hx => if_neg (SortedSet.mem_diff.1 hx).2⟩
      apply Nullability.admits_filterNullability (hright.admits σ hσ)
      intro e he g hg hrejects hnull
      refine Expression.not_holds_of_rejectsNullsOf (hcondition e he) hrejects ?_ (hholds e he)
      intro x hx
      have hxright : x ∈ right.vars := hright.scope ▸ hright.groups g hg x hx
      rw [hjoins.merge_right hxright]
      exact hnull x hx
  have hmatching : matching.scope = right.vars := by
    rw [← hright.scope]
    exact Nullability.scope_filterNullability
  apply Nullability.admits_ofGroups
  · intro g hg
    apply Row.NullTogether.mono _ fun x hx => (SortedSet.mem_inter.1 hx).1
    rcases List.mem_append.1 hg with hg | hg
    · rcases List.mem_append.1 hg with hg | hg
      · apply ((hleft.admits ρ hρ).together g hg).of_agree
        intro x hx
        exact hagree x (hleft.scope ▸ hleft.groups g hg x hx)
      · obtain ⟨g', hg', rfl⟩ := List.mem_map.1 hg
        rcases hspecific with hnull | ⟨σ, hσ, he⟩
        · exact .inl fun x hx => hnull x (SortedSet.mem_inter.1 hx).2
        · refine (hσ.together g' hg').of_values fun x hx => ?_
          obtain ⟨hxg, hx⟩ := SortedSet.mem_inter.1 hx
          exact ⟨x, hxg, he x hx⟩
    · rw [List.mem_singleton.1 hg]
      rcases hspecific with hnull | ⟨σ, hσ, he⟩
      · exact .inl fun x hx => hnull x (SortedSet.mem_filter.1 hx).1
      · right
        intro x hx
        obtain ⟨hx, hnullable⟩ := SortedSet.mem_filter.1 hx
        rw [he x hx]
        exact hσ.var_ne_null (by simpa using hnullable)
  · intro x hx hout
    by_cases hxleft : x ∈ left.vars
    · rw [hagree x hxleft]
      apply (hleft.admits ρ hρ).ne_null x (hleft.scope ▸ hxleft)
      intro g hg
      exact hout g (List.mem_append_left _ (List.mem_append_left _ hg))
    · -- every variable of the right side alone is in a group
      exfalso
      have hxright : x ∈ right.vars := (SortedSet.mem_union.1 hx).resolve_left hxleft
      have hx : x ∈ specific := SortedSet.mem_diff.2 ⟨hxright, hxleft⟩
      cases hnullable : matching.isNullable x with
      | false =>
        refine hout (specific.filter fun x => !matching.isNullable x)
          (List.mem_append_right _ (.head _)) ?_
        exact SortedSet.mem_filter.2 ⟨hx, by simp [hnullable]⟩
      | true =>
        have hgroup : ∃ g ∈ matching.groups, x ∈ g := by
          by_contra hnone
          push Not at hnone
          rw [Nullability.isNullable_eq_false.2 ⟨hmatching ▸ hxright, hnone⟩] at hnullable
          cases hnullable
        obtain ⟨g, hg, hxg⟩ := hgroup
        refine hout (g ∩ specific) ?_ (SortedSet.mem_inter.2 ⟨hxg, hx⟩)
        exact List.mem_append_left _ (List.mem_append_right _ (List.mem_map.2 ⟨g, hg, rfl⟩))

-- ---------------------------------------------------------------------------
-- Unions, aggregations and leaves
-- ---------------------------------------------------------------------------

theorem nullabilityHolds_union {m : Bool} {projected : VarSet} {ts : List Tree}
    (h : ∀ t ∈ ts, t.NullabilityHolds D) (hvars : ∀ t ∈ ts, t.vars = projected) :
    (union m projected ts).NullabilityHolds D := by
  have hnullability : (union m projected ts).nullability
      = unionNullability projected (ts.map nullability) := by
    rw [nullability, nullabilities_eq_map]
  have hrow : ∀ τ ∈ (union m projected ts).rows D, ∃ t ∈ ts, t.nullability.Admits τ := by
    intro τ hτ
    obtain ⟨ρ, hρ, rfl⟩ := List.mem_map.1 hτ
    obtain ⟨t, ht, hρ⟩ := mem_unionRows.1 hρ
    have hcut : Row.cut projected ρ = ρ := by
      apply Row.Supported.ext Row.supported_cut (hvars t ht ▸ rows_supported t ρ hρ)
      exact fun x hx => if_pos hx
    exact ⟨t, ht, hcut.symm ▸ (h t ht).admits ρ hρ⟩
  have hscope : ∀ t ∈ ts, t.nullability.scope = projected := by
    intro t ht
    rw [(h t ht).scope, hvars t ht]
  cases ts with
  | nil =>
    refine ⟨by rw [hnullability]; rfl, by rw [hnullability]; exact Nullability.scoped_nonNullable _,
      fun τ hτ => ?_⟩
    obtain ⟨t, ht, -⟩ := hrow τ hτ
    exact absurd ht List.not_mem_nil
  | cons first others =>
    rw [List.map_cons, unionNullability] at hnullability
    split at hnullability
    · next hsame =>
      refine ⟨by rw [hnullability]; rfl, by rw [hnullability]; exact Nullability.scoped_ofGroups _ _,
        fun τ hτ => ?_⟩
      obtain ⟨t, ht, hadmits⟩ := hrow τ hτ
      have hgroups : t.nullability.groups = first.nullability.groups := by
        rcases List.mem_cons.1 ht with rfl | ht
        · rfl
        · have hall := List.all_eq_true.1 hsame _ (List.mem_map.2 ⟨t, ht, rfl⟩)
          simpa using hall
      rw [hnullability, ← hgroups]
      apply Nullability.admits_ofGroups
      · intro g hg
        exact (hadmits.together g hg).mono fun x hx => (SortedSet.mem_inter.1 hx).1
      · intro x hx hout
        exact hadmits.ne_null x (hscope t ht ▸ hx) hout
    · refine ⟨by rw [hnullability]; rfl, by rw [hnullability]; exact Nullability.scoped_ofGroups _ _,
        fun τ hτ => ?_⟩
      obtain ⟨t, ht, hadmits⟩ := hrow τ hτ
      rw [hnullability]
      apply Nullability.admits_ofGroups
      · intro g hg
        obtain ⟨n, -, hg⟩ := List.mem_flatMap.1 hg
        obtain ⟨x, -, rfl⟩ := List.mem_map.1 hg
        exact (Row.nullTogether_singleton τ x).mono fun y hy => (SortedSet.mem_inter.1 hy).1
      · intro x hx hout
        apply hadmits.ne_null x (hscope t ht ▸ hx)
        intro g hg hxg
        refine hout (.singleton x) ?_ (SortedSet.mem_singleton.2 rfl)
        refine List.mem_flatMap.2 ⟨t.nullability, List.mem_map.2 ⟨t, ht, rfl⟩, ?_⟩
        exact List.mem_map.2 ⟨x, SortedSet.mem_unions.2 ⟨g, hg, hxg⟩, rfl⟩

/-- The only aggregate that is not nullable is a count. -/
theorem count_of_not_nullable {f : Symbol} {args : List Term} {nullable : Variable → Bool}
    (hf : f.isAggregate = true) (h : (Term.app f args).isNullable nullable = false) :
    f.operation = .count := by
  unfold Term.isNullable at h
  rw [Symbol.isAggregate] at hf
  split at h
  · next hop => rw [hop] at hf; cases hf
  · next hop => rw [hop] at hf; cases hf
  · next hop => exact hop
  · next hop => rw [hop] at hf; cases hf
  · rw [Symbol.isAggregate, hf] at h
    cases h

theorem admits_grouped {grouping : VarSet} {bindings : Substitution} {n : Nullability} {ρ : Row}
    {members : List Row} (hscope : grouping ⊆ n.scope)
    (hbindings : ∀ x t, bindings.find? x = some t →
      x ∉ grouping ∧ t.symbol?.any Symbol.isAggregate = true)
    (hρ : n.Admits ρ ∨ grouping = ∅) :
    (aggregateNullability grouping bindings n).Admits (D.groupRow grouping bindings ρ members) := by
  have hkept : ∀ x ∈ grouping, D.groupRow grouping bindings ρ members x = ρ x :=
    fun x hx => if_pos hx
  have hrestricted : ∀ g ∈ (n.restrict grouping).groups, g ⊆ grouping := by
    intro g hg x hx
    exact (SortedSet.mem_inter.1 (Nullability.scoped_ofGroups _ _ g hg x hx)).2
  apply Nullability.admits_ofGroups
  · intro g hg
    apply Row.NullTogether.mono _ fun x hx => (SortedSet.mem_inter.1 hx).1
    rcases List.mem_append.1 hg with hg | hg
    · rcases hρ with hρ | rfl
      · apply ((Nullability.admits_restrict hρ grouping).together g hg).of_agree
        exact fun x hx => hkept x (hrestricted g hg x hx)
      · exact .inl fun x hx => absurd (hrestricted g hg x hx) (SortedSet.not_mem_empty x)
    · obtain ⟨b, -, rfl⟩ := List.mem_map.1 hg
      exact Row.nullTogether_singleton _ b.1
  · intro x hx hout
    by_cases hgrouping : x ∈ grouping
    · rw [hkept x hgrouping]
      rcases hρ with hρ | rfl
      · apply (Nullability.admits_restrict hρ grouping).ne_null x
        · exact SortedSet.mem_inter.2 ⟨hscope x hgrouping, hgrouping⟩
        · exact fun g hg => hout g (List.mem_append_left _ hg)
      · exact absurd hgrouping (SortedSet.not_mem_empty x)
    · obtain ⟨t, ht⟩ := Substitution.mem_domain.1 ((SortedSet.mem_union.1 hx).resolve_left hgrouping)
      have hnullable : n.isTermNullable t = false := by
        by_contra hne
        refine hout (.singleton x) (List.mem_append_right _ ?_) (SortedSet.mem_singleton.2 rfl)
        refine List.mem_map.2 ⟨(x, t), List.mem_filter.2 ⟨?_, by simpa using hne⟩, rfl⟩
        exact Substitution.mem_bindings.2 ht
      have haggregate := (hbindings x t ht).2
      cases t with
      | var | const => exact absurd haggregate (by simp [Term.symbol?])
      | app f args =>
        have hcount : f.operation = .count :=
          count_of_not_nullable (by simpa [Term.symbol?] using haggregate) hnullable
        rw [Source.groupRow, if_neg hgrouping, ht]
        simp [Interpretation.aggregateOver, hcount]

theorem admits_extensional {atom : Atom Relation} (h : atom.isWellFormed = true) {ρ : Row}
    (hρ : ρ ∈ D.leafRows (.extensional atom)) : atom.nullability.Admits ρ := by
  obtain ⟨tuple, htuple, hfits, rfl⟩ := Source.mem_matching.1 hρ
  apply Nullability.admits_ofGroups
  · intro g hg
    obtain ⟨x, -, rfl⟩ := List.mem_map.1 hg
    exact (Row.nullTogether_singleton _ x).mono fun y hy => (SortedSet.mem_inter.1 hy).1
  · intro x hx hout hnull
    obtain ⟨p, hp⟩ := List.mem_iff_getElem?.1 (Atom.mem_args_of_isWellFormed h hx)
    have hpositions : atom.positionsOf x = [p] :=
      Atom.positionsOf_eq_singleton hp (hfits.count_of_null hp hnull)
    have hnotNull : atom.predicate.isNullableAt p = false := by
      by_contra hnullable
      refine hout (.singleton x) (List.mem_map.2 ⟨x, ?_, rfl⟩) (SortedSet.mem_singleton.2 rfl)
      refine SortedSet.mem_filter.2 ⟨hx, ?_⟩
      rw [hpositions]
      simpa using hnullable
    apply D.table_ne_null _ tuple htuple p hnotNull
    rw [hfits.getElem?_eq hp, hnull]

theorem admits_intensional {atom : Atom VirtualRelation} (h : atom.isWellFormed = true) {ρ : Row}
    (hρ : ρ ∈ D.leafRows (.intensional atom)) :
    (Nullability.nonNullable atom.vars).Admits ρ := by
  obtain ⟨tuple, htuple, hfits, rfl⟩ := Source.mem_matching.1 hρ
  apply Nullability.admits_nonNullable
  intro x hx hnull
  obtain ⟨p, hp⟩ := List.mem_iff_getElem?.1 (Atom.mem_args_of_isWellFormed h hx)
  apply D.virtual_ne_null _ tuple htuple
  rw [← hnull]
  exact List.mem_iff_getElem?.2 ⟨p, hfits.getElem?_eq hp⟩

theorem nullabilityHolds_leaf {m : Bool} {l : Leaf}
    (hnative : ∀ q, l = .native q → q.nullability.scope = q.vars ∧ q.nullability.Scoped)
    (hvalid : (∀ q, l ≠ .native q) → (leaf m l).RootValid) : (leaf m l).NullabilityHolds D := by
  cases l with
  | extensional atom =>
    have h : atom.isWellFormed = true := hvalid (by simp)
    exact ⟨rfl, Nullability.scoped_ofGroups _ _, fun ρ hρ => admits_extensional h hρ⟩
  | intensional atom =>
    have h : atom.isWellFormed = true := hvalid (by simp)
    exact ⟨rfl, Nullability.scoped_nonNullable _, fun ρ hρ => admits_intensional h hρ⟩
  | native query =>
    obtain ⟨hscope, hgroups⟩ := hnative query rfl
    exact ⟨hscope, hgroups, D.native_admitted query⟩
  | empty projected =>
    exact ⟨rfl, Nullability.scoped_allNullable _, fun ρ hρ => absurd hρ List.not_mem_nil⟩
  | unit =>
    refine ⟨rfl, Nullability.scoped_nonNullable _, fun ρ _ => ?_⟩
    exact Nullability.admits_nonNullable fun x hx => absurd hx (SortedSet.not_mem_empty x)

-- ---------------------------------------------------------------------------
-- The whole tree
-- ---------------------------------------------------------------------------

/-- The conditions of the root. -/
def conditions : Tree → List Expression
  | filter _ condition _ => [condition]
  | join _ condition? _ | leftJoin _ condition? _ _ => condition?.toList
  | _ => []

/-- What inference relies on at the root: a native query declares its nullability for its own
variables, any other node passes its check, and arithmetic in a condition is between two
arguments. -/
structure Inferable (t : Tree) : Prop where
  native : ∀ m q, t = leaf m (.native q) → q.nullability.scope = q.vars ∧ q.nullability.Scoped
  checked : (∀ m q, t ≠ leaf m (.native q)) → t.checkNode = .ok ()
  conditions : ∀ e ∈ t.conditions, e.WellApplied

theorem nullabilityHolds {t : Tree} (h : ∀ u ∈ t.nodes, u.Inferable) : t.NullabilityHolds D := by
  induction t using inductionOn with
  | step t ih =>
    obtain ⟨hroot, hchildren⟩ := forall_mem_nodes.1 h
    have hvalid : (∀ m q, t ≠ leaf m (.native q)) → t.RootValid :=
      fun hne => checkNode_eq_ok.1 (hroot.checked hne)
    have ih : ∀ u ∈ t.children, u.NullabilityHolds D := fun u hu => ih u hu (hchildren u hu)
    cases t with
    | construct _ projected bindings child =>
      obtain ⟨-, -, -, hrequired⟩ := hvalid (by simp)
      exact nullabilityHolds_construct (ih child (.head _)) hrequired
    | filter _ condition child =>
      exact nullabilityHolds_filter (ih child (.head _)) (hroot.conditions condition (.head _))
    | join _ condition? ts =>
      exact nullabilityHolds_join ih fun e he => hroot.conditions e (Option.mem_toList.2 he)
    | leftJoin _ condition? left right =>
      refine ⟨rfl, Nullability.scoped_ofGroups _ _, fun τ hτ => ?_⟩
      obtain ⟨ρ, hρ, hτ⟩ := List.mem_flatMap.1 hτ
      exact admits_leftJoined rfl (ih left (.head _)) (ih right (.tail _ (.head _)))
        (fun e he => hroot.conditions e (Option.mem_toList.2 he)) hρ hτ
    | union _ projected ts => exact nullabilityHolds_union ih (hvalid (by simp)).2
    | distinct _ child =>
      have hchild := ih child (.head _)
      exact ⟨hchild.scope, hchild.groups, fun ρ hρ => hchild.admits ρ (Row.mem_of_mem_distinct hρ)⟩
    | slice _ window child =>
      have hchild := ih child (.head _)
      exact ⟨hchild.scope, hchild.groups, fun ρ hρ => hchild.admits ρ (Window.mem_of_mem_clip hρ)⟩
    | orderBy _ keys child =>
      have hchild := ih child (.head _)
      exact ⟨hchild.scope, hchild.groups, fun ρ hρ => hchild.admits ρ (List.mem_mergeSort.1 hρ)⟩
    | aggregate _ grouping bindings child =>
      obtain ⟨hgrouping, hbindings⟩ := hvalid (by simp)
      have hchild := ih child (.head _)
      refine ⟨rfl, Nullability.scoped_ofGroups _ _, fun τ hτ => ?_⟩
      obtain ⟨ρ, members, hρ, rfl⟩ := Source.mem_aggregated hτ
      apply admits_grouped (hchild.scope ▸ hgrouping)
      · intro x t ht
        exact ⟨(hbindings x t ht).1, (hbindings x t ht).2.1⟩
      · exact hρ.imp_left (hchild.admits ρ)
    | leaf _ l =>
      refine nullabilityHolds_leaf ?_ ?_
      · rintro q rfl
        exact hroot.native _ q rfl
      · intro hne
        exact hvalid fun m q he => hne q (Tree.leaf.inj he).2

/-- What is inferred about NULL holds of every row: a variable that is not nullable is not NULL, and
the variables of a group are NULL together or not at all. It is about exactly the projected
variables. -/
theorem nullability_sound {t : Tree} (h : ∀ u ∈ t.nodes, u.Inferable) :
    t.nullability.scope = t.vars ∧
      ∀ ρ ∈ t.rows D, (∀ x, t.nullability.isNullable x = false → ρ x ≠ .null) ∧
        ∀ g ∈ t.nullability.groups, (∀ x ∈ g, ρ x = .null) ∨ (∀ x ∈ g, ρ x ≠ .null) := by
  have hholds := nullabilityHolds (D := D) h
  refine ⟨hholds.scope, fun ρ hρ => ?_⟩
  have hadmits := hholds.admits ρ hρ
  exact ⟨fun x hx => hadmits.var_ne_null hx, hadmits.together⟩

/-- A left join of a table with itself, where only the second column takes NULL. -/
theorem nullability_sound_of_leftJoin :
    let r : Relation := ⟨"r", [⟨"a", .integer, false⟩, ⟨"b", .integer, true⟩], []⟩
    let D := Database.ofTable r [[.integer 1, .null], [.integer 2, .integer 1]] (by decide)
      (by decide) (by decide)
    let atom (x y : String) : Tree := .leaf false (.extensional ⟨r, [.var ⟨x⟩, .var ⟨y⟩]⟩)
    let t : Tree := .leftJoin false none (atom "x" "y") (atom "y" "z")
    (∀ u ∈ t.nodes, u.Inferable) ∧ (t.rows D).length = 2 ∧ t.nullability.scope = t.vars ∧
      ∀ ρ ∈ t.rows D, ρ ⟨"x"⟩ ≠ .null := by
  intro r D atom t
  have hinferable : ∀ u ∈ t.nodes, u.Inferable := by
    intro u hu
    have hu : u = t ∨ u = atom "x" "y" ∨ u = atom "y" "z" := by simpa [t, atom, nodes] using hu
    rcases hu with rfl | rfl | rfl
    · exact ⟨by simp [t], fun _ => checkNode_eq_ok.2 (by decide +kernel), by simp [t, conditions]⟩
    all_goals
      exact ⟨by simp [atom], fun _ => checkNode_eq_ok.2 (by decide +kernel),
        by simp [atom, conditions]⟩
  have hsound := nullability_sound (D := D) hinferable
  refine ⟨hinferable, by decide +kernel, hsound.1, fun ρ hρ => ?_⟩
  exact (hsound.2 ρ hρ).1 _ (by decide +kernel)

end Tree

end QueryAlgebra
