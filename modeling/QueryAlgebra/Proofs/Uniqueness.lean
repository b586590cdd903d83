import Mathlib.Data.List.Nodup
import QueryAlgebra.Proofs.Coding
import QueryAlgebra.Proofs.RedundantAtoms
import QueryAlgebra.Proofs.Validity

/-!
# Keys and distinct rows

What `Tree.uniqueness` infers holds of the rows, whatever the virtual relations and the native
queries return: no two occurrences of rows agree on a key, NULL being equal to NULL, and a tree that
is said to be distinct returns no row twice. Tables are only asked to keep the constraints over
columns without NULL (`Source.KeepsKeys`), as those of a database do (`Database.keepsKeys`).

Occurrences are told apart by their places in the list of rows. As rows that agree on a key of their
own are the same occurrence, a key makes a list of rows duplicate-free, and from there on it is
enough to speak about the members (`Row.uniqueOn_iff`). A join follows the chain by which its parts
determine each other (`Tree.eq_of_agreeOn_key`).

Main statement: `Tree.uniqueness_sound`.
-/

namespace QueryAlgebra

-- ---------------------------------------------------------------------------
-- Rows told apart by some of their variables
-- ---------------------------------------------------------------------------

namespace Row

variable {xs ys K : VarSet} {rows rows' : List Row} {ρ σ : Row}

/-- No two of the rows agree on all of `xs`. -/
def UniqueOn (xs : VarSet) (rows : List Row) : Prop :=
  rows.Pairwise fun ρ σ => ¬AgreeOn xs ρ σ

theorem AgreeOn.mono (h : AgreeOn ys ρ σ) (hxs : xs ⊆ ys) : AgreeOn xs ρ σ :=
  fun x hx => h x (hxs x hx)

theorem uniqueOn_iff :
    UniqueOn xs rows ↔ rows.Nodup ∧ ∀ ρ ∈ rows, ∀ σ ∈ rows, AgreeOn xs ρ σ → ρ = σ := by
  constructor
  · intro h
    refine ⟨h.imp ?_, ?_⟩
    · rintro ρ _ hne rfl
      exact hne fun _ _ => rfl
    · intro ρ hρ σ hσ hagree
      by_contra hne
      have hsymm : Std.Symm fun ρ σ : Row => ¬AgreeOn xs ρ σ :=
        ⟨fun _ _ hdiffer hagree => hdiffer hagree.symm⟩
      exact h.forall hρ hσ hne hagree
  · rintro ⟨hnodup, hsame⟩
    refine hnodup.imp_of_mem ?_
    intro ρ σ hρ hσ hne hagree
    exact hne (hsame ρ hρ σ hσ hagree)

theorem UniqueOn.sublist (h : UniqueOn xs rows) (hsublist : rows'.Sublist rows) :
    UniqueOn xs rows' :=
  List.Pairwise.sublist hsublist h

theorem UniqueOn.nodup (h : UniqueOn xs rows) : rows.Nodup := (uniqueOn_iff.1 h).1

theorem UniqueOn.eq (h : UniqueOn xs rows) (hρ : ρ ∈ rows) (hσ : σ ∈ rows)
    (hagree : AgreeOn xs ρ σ) : ρ = σ :=
  (uniqueOn_iff.1 h).2 ρ hρ σ hσ hagree

/-- Different rows differ on the variables that they are about. -/
theorem uniqueOn_of_nodup (h : rows.Nodup) (hrows : ∀ ρ ∈ rows, ρ.Supported xs) :
    UniqueOn xs rows :=
  uniqueOn_iff.2 ⟨h, fun ρ hρ σ hσ hagree => (hrows ρ hρ).ext (hrows σ hσ) hagree⟩

theorem uniqueOn_distinct : UniqueOn xs (distinct xs rows) := List.pairwise_pwFilter _

theorem UniqueOn.map {f : Row → Row} (hf : ∀ ρ ∈ rows, AgreeOn xs (f ρ) ρ)
    (h : UniqueOn xs rows) : UniqueOn xs (rows.map f) := by
  refine List.pairwise_map.2 (h.imp_of_mem ?_)
  intro ρ σ hρ hσ hne hagree
  exact hne (((hf ρ hρ).symm.trans hagree).trans (hf σ hσ))

/-- What each row is spread out to keeps the row, and so it can be told which row it came from. -/
theorem nodup_flatMap_of_agree {f : Row → List Row} (hrows : ∀ ρ ∈ rows, ρ.Supported xs)
    (hagree : ∀ ρ ∈ rows, ∀ τ ∈ f ρ, AgreeOn xs τ ρ) (h : rows.Nodup)
    (hf : ∀ ρ ∈ rows, (f ρ).Nodup) : (rows.flatMap f).Nodup := by
  refine List.nodup_flatMap.2 ⟨hf, h.imp_of_mem ?_⟩
  intro ρ σ hρ hσ hne τ hτ hτ'
  exact hne ((hrows ρ hρ).ext (hrows σ hσ) ((hagree ρ hρ τ hτ).symm.trans (hagree σ hσ τ hτ')))

theorem nodup_joinedWith (hrows' : ∀ σ ∈ rows', σ.Supported ys) (h : rows'.Nodup) (ρ : Row) :
    (joinedWith xs ys rows' ρ).Nodup := by
  refine List.Nodup.map_on ?_ (h.filter _)
  intro σ hσ σ' hσ' he
  obtain ⟨hσ, hjoins⟩ := List.mem_filter.1 hσ
  obtain ⟨hσ', hjoins'⟩ := List.mem_filter.1 hσ'
  refine (hrows' σ hσ).ext (hrows' σ' hσ') fun y hy => ?_
  rw [← (of_decide_eq_true hjoins).merge_right hy, he, (of_decide_eq_true hjoins').merge_right hy]

theorem nodup_joinPairs (hrows : ∀ ρ ∈ rows, ρ.Supported xs)
    (hrows' : ∀ σ ∈ rows', σ.Supported ys) (h : rows.Nodup) (h' : rows'.Nodup) :
    (joinPairs xs ys rows rows').Nodup := by
  refine nodup_flatMap_of_agree hrows ?_ h fun ρ _ => nodup_joinedWith hrows' h' ρ
  intro ρ _ τ hτ
  obtain ⟨σ, -, -, rfl⟩ := mem_joinedWith.1 hτ
  exact fun x hx => merge_left hx

/-- Rows that a row joins agree on what they share with it, and are the same if that has a key. -/
theorem UniqueOn.eq_of_joins {ρ σ σ' : Row} (h : UniqueOn K rows') (hK : K ⊆ xs ∩ ys)
    (hσ : σ ∈ rows') (hσ' : σ' ∈ rows') (hjoins : Joins xs ys ρ σ) (hjoins' : Joins xs ys ρ σ') :
    σ = σ' := by
  refine h.eq hσ hσ' fun x hx => ?_
  obtain ⟨hxs, hys⟩ := SortedSet.mem_inter.1 (hK x hx)
  rw [← (hjoins x hxs hys).1, (hjoins' x hxs hys).1]

end Row

-- ---------------------------------------------------------------------------
-- Atoms of the database
-- ---------------------------------------------------------------------------

namespace Atom

variable {a : Atom Relation} {positions : List Nat} {K : VarSet}

theorem mem_keys : K ∈ a.keys ↔ ∃ positions ∈ a.predicate.constraintPositions,
    (∀ p ∈ positions, a.predicate.isNullableAt p = false) ∧ a.keyAt? positions = some K := by
  simp [keys, SortedSet.mem_ofList, and_assoc]

theorem mem_of_mapM {α β : Type} {f : α → Option β} {as : List α} {bs : List β}
    (h : as.mapM f = some bs) :
    (∀ a ∈ as, ∃ b ∈ bs, f a = some b) ∧ ∀ b ∈ bs, ∃ a ∈ as, f a = some b := by
  induction as generalizing bs with
  | nil =>
    cases h
    exact ⟨nofun, nofun⟩
  | cons a as ih =>
    rw [List.mapM_cons, Option.bind_eq_bind, Option.bind_eq_some_iff] at h
    obtain ⟨b, hb, h⟩ := h
    rw [Option.bind_eq_bind, Option.bind_eq_some_iff] at h
    obtain ⟨bs', hbs', h⟩ := h
    cases h
    obtain ⟨hall, hback⟩ := ih hbs'
    simp only [List.forall_mem_cons, List.exists_mem_cons_iff]
    exact ⟨⟨.inl hb, fun a' ha' => .inr (hall a' ha')⟩,
      .inl hb, fun b' hb' => .inr (hback b' hb')⟩

/-- A constraint has its arguments in place, and the variables among them are its key. -/
theorem keyAt?_spec (h : a.keyAt? positions = some K) :
    (∀ p ∈ positions, ∃ t, a.args[p]? = some t ∧ ∀ x, t = .var x → x ∈ K) ∧ K ⊆ a.vars := by
  obtain ⟨args, hargs, rfl⟩ := Option.map_eq_some_iff.1 h
  obtain ⟨hall, hback⟩ := mem_of_mapM hargs
  have hmem {x : Variable} : x ∈ SortedSet.ofList (args.filterMap Term.var?) ↔ .var x ∈ args := by
    simp [SortedSet.mem_ofList, Term.var?_eq_some]
  refine ⟨fun p hp => ?_, fun x hx => ?_⟩
  · obtain ⟨t, ht, harg⟩ := hall p hp
    exact ⟨t, harg, fun x hx => hmem.2 (hx ▸ ht)⟩
  · obtain ⟨p, -, harg⟩ := hback _ (hmem.1 hx)
    exact mem_vars_of_getElem? harg

/-- Tuples that an atom fits agree at a place if its rows agree on the variable there. -/
theorem getElem?_eq_of_agreeOn {S : Source} {tuple tuple' : List Constant}
    (ha : a.isWellFormed = true) (hfits : S.Fits a.args tuple) (hfits' : S.Fits a.args tuple')
    (hagree : Row.AgreeOn K (Source.assign a.args tuple) (Source.assign a.args tuple'))
    {p : Nat} {t : Term} (hp : a.args[p]? = some t) (hK : ∀ x, t = .var x → x ∈ K) :
    tuple[p]? = tuple'[p]? := by
  cases hvariable : t.isVariable with
  | true =>
    obtain ⟨x, rfl⟩ := Term.exists_eq_var hvariable
    rw [hfits.getElem?_eq hp, hfits'.getElem?_eq hp, hagree x (hK x rfl)]
  | false =>
    have hground := isGround_of_isWellFormed ha (List.mem_of_getElem? hp) hvariable
    obtain ⟨v, -, hv, heval⟩ := hfits.exists_value hp hground hvariable
    obtain ⟨w, -, hw, heval'⟩ := hfits'.exists_value hp hground hvariable
    rw [hv, hw, ← heval .blank, heval' .blank]

end Atom

-- ---------------------------------------------------------------------------
-- Trees
-- ---------------------------------------------------------------------------

namespace Tree

variable {S : Source} {t : Tree} {ts : List Tree} {K : VarSet}

/-- What is inferred about rows that agree holds of the rows of the tree. A key is about projected
variables. -/
structure UniquenessHolds (S : Source) (t : Tree) : Prop where
  subset : ∀ K ∈ t.keys, K ⊆ t.vars
  unique : ∀ K ∈ t.keys, Row.UniqueOn K (t.rows S)
  nodup : t.isDistinct = true → (t.rows S).Nodup

theorem uniquenessHolds_construct {m : Bool} {projected : VarSet} {bindings : Substitution}
    (h : t.UniquenessHolds S) : (construct m projected bindings t).UniquenessHolds S := by
  have hpassed : ∀ K ⊆ passedThrough projected bindings, Row.UniqueOn K (t.rows S) →
      Row.UniqueOn K ((construct m projected bindings t).rows S) := by
    intro K hK hunique
    refine hunique.map fun ρ _ x hx => ?_
    obtain ⟨hx, hbound⟩ := mem_passedThrough.1 (hK x hx)
    have hfixed := Substitution.applyVar_of_not_binds (Substitution.find?_of_not_mem_domain hbound)
    rw [Source.constructed, if_pos hx, hfixed, Interpretation.eval_var]
  have hkeys : ∀ K ∈ (construct m projected bindings t).keys,
      K ⊆ passedThrough projected bindings ∧ Row.UniqueOn K (t.rows S) := by
    intro K hK
    rw [keys, uniqueness] at hK
    dsimp only at hK
    unfold constructKeys at hK
    dsimp only at hK
    split at hK
    · next hwhole =>
      rw [SortedSet.mem_singleton] at hK
      rw [hK]
      exact ⟨hwhole.2.2, Row.uniqueOn_of_nodup (h.nodup hwhole.2.1) (rows_supported t)⟩
    · obtain ⟨hK, hsubset⟩ := SortedSet.mem_filter.1 hK
      exact ⟨of_decide_eq_true hsubset, h.unique K hK⟩
  refine ⟨fun K hK x hx => ?_, fun K hK => hpassed K (hkeys K hK).1 (hkeys K hK).2, fun hd => ?_⟩
  · exact (mem_passedThrough.1 ((hkeys K hK).1 x hx)).1
  · rw [isDistinct, uniqueness, Bool.not_eq_true'] at hd
    obtain ⟨K, hK⟩ := SortedSet.exists_mem_of_isEmpty_eq_false hd
    exact (hpassed K (hkeys K hK).1 (hkeys K hK).2).nodup

/-- Rows that are some of the child's, in any order. -/
theorem uniquenessHolds_of_subperm {u : Tree} (h : t.UniquenessHolds S) (hvars : u.vars = t.vars)
    (hsame : u.uniqueness = t.uniqueness) (hrows : (u.rows S).Subperm (t.rows S)) :
    u.UniquenessHolds S := by
  obtain ⟨rows, hperm, hsublist⟩ := hrows
  refine ⟨fun K hK => ?_, fun K hK => ?_, fun hd => ?_⟩
  · rw [keys, hsame] at hK
    rw [hvars]
    exact h.subset K hK
  · rw [keys, hsame] at hK
    have hunique := (h.unique K hK).sublist hsublist
    exact (hperm.pairwise_iff fun hdiffer hagree => hdiffer hagree.symm).1 hunique
  · rw [isDistinct, hsame] at hd
    exact hperm.nodup_iff.1 ((h.nodup hd).sublist hsublist)

theorem uniquenessHolds_distinct {m : Bool} (h : t.UniquenessHolds S) :
    (distinct m t).UniquenessHolds S := by
  have hsublist : ((distinct m t).rows S).Sublist (t.rows S) := List.pwFilter_sublist _
  have hwhole : Row.UniqueOn t.vars ((distinct m t).rows S) := Row.uniqueOn_distinct
  have hkeys : ∀ K ∈ (distinct m t).keys,
      K ⊆ t.vars ∧ Row.UniqueOn K ((distinct m t).rows S) := by
    intro K hK
    rw [keys, uniqueness] at hK
    dsimp only at hK
    split at hK
    · rw [SortedSet.mem_singleton] at hK
      rw [hK]
      exact ⟨fun x hx => hx, hwhole⟩
    · exact ⟨h.subset K hK, (h.unique K hK).sublist hsublist⟩
  exact ⟨fun K hK => (hkeys K hK).1, fun K hK => (hkeys K hK).2, fun _ => hwhole.nodup⟩

theorem uniquenessHolds_aggregate {m : Bool} {grouping : VarSet} {bindings : Substitution} :
    (aggregate m grouping bindings t).UniquenessHolds S := by
  have hgroups : Row.UniqueOn grouping ((aggregate m grouping bindings t).rows S) := by
    rw [rows]
    unfold Source.aggregated
    split
    · exact List.pairwise_singleton _ _
    · refine Row.UniqueOn.map (fun ρ _ x hx => ?_) Row.uniqueOn_distinct
      exact if_pos hx
  refine ⟨fun K hK => ?_, fun K hK => ?_, fun _ => hgroups.nodup⟩
  · rw [SortedSet.mem_singleton.1 hK]
    exact SortedSet.subset_union_left
  · rw [SortedSet.mem_singleton.1 hK]
    exact hgroups

-- ---------------------------------------------------------------------------
-- Joins
-- ---------------------------------------------------------------------------

theorem agreeOn_of_mem_leftJoined {xs ys : VarSet} {condition? : Option Expression}
    {rows : List Row} {ρ τ : Row} (h : τ ∈ S.leftJoined xs ys condition? rows ρ) :
    Row.AgreeOn xs τ ρ := by
  rcases Source.mem_leftJoined h with rfl | ⟨hτ, -⟩
  · exact fun _ _ => rfl
  · obtain ⟨σ, -, -, rfl⟩ := Row.mem_joinedWith.1 hτ
    exact fun x hx => Row.merge_left hx

theorem nodup_leftJoined {xs ys : VarSet} {condition? : Option Expression} {rows : List Row}
    (hrows : ∀ σ ∈ rows, σ.Supported ys) (h : rows.Nodup) (ρ : Row) :
    (S.leftJoined xs ys condition? rows ρ).Nodup := by
  unfold Source.leftJoined
  dsimp only
  split
  · exact List.nodup_singleton ρ
  · exact (Row.nodup_joinedWith hrows h ρ).filter _

theorem uniquenessHolds_leftJoin {m : Bool} {condition? : Option Expression} {left right : Tree}
    (hl : left.UniquenessHolds S) (hr : right.UniquenessHolds S) :
    (leftJoin m condition? left right).UniquenessHolds S := by
  have hnodup : (left.rows S).Nodup → (right.rows S).Nodup →
      ((leftJoin m condition? left right).rows S).Nodup := fun hleft hright =>
    Row.nodup_flatMap_of_agree (rows_supported left) (fun _ _ _ => agreeOn_of_mem_leftJoined)
      hleft fun ρ _ => nodup_leftJoined (rows_supported right) hright ρ
  have hkeys : ∀ K ∈ (leftJoin m condition? left right).keys, K ∈ left.keys ∧
      ∃ Q ∈ right.keys, Q ⊆ left.vars ∩ right.vars := by
    intro K hK
    rw [keys, uniqueness] at hK
    dsimp only at hK
    unfold leftJoinKeys at hK
    split at hK
    · next hany =>
      obtain ⟨Q, hQ, hsubset⟩ := List.any_eq_true.1 hany
      exact ⟨hK, Q, hQ, of_decide_eq_true hsubset⟩
    · exact absurd hK (SortedSet.not_mem_empty K)
  refine ⟨fun K hK x hx => ?_, fun K hK => ?_, fun hd => ?_⟩
  · exact SortedSet.mem_union.2 (.inl (hl.subset K (hkeys K hK).1 x hx))
  · obtain ⟨hK, Q, hQ, hshared⟩ := hkeys K hK
    have hleft := hl.unique K hK
    have hright := hr.unique Q hQ
    refine Row.uniqueOn_iff.2 ⟨hnodup hleft.nodup hright.nodup, ?_⟩
    intro τ hτ τ' hτ' hagree
    obtain ⟨ρ, hρ, hτ⟩ := List.mem_flatMap.1 hτ
    obtain ⟨ρ', hρ', hτ'⟩ := List.mem_flatMap.1 hτ'
    have hτρ := (agreeOn_of_mem_leftJoined hτ).mono (hl.subset K hK)
    have hτρ' := (agreeOn_of_mem_leftJoined hτ').mono (hl.subset K hK)
    have hsame : ρ = ρ' := hleft.eq hρ hρ' ((hτρ.symm.trans hagree).trans hτρ')
    subst hsame
    -- a left row has its partner or stands by itself, but not both
    unfold Source.leftJoined at hτ hτ'
    dsimp only at hτ hτ'
    split at hτ
    · next hnone =>
      rw [if_pos hnone] at hτ'
      rw [List.mem_singleton.1 hτ, List.mem_singleton.1 hτ']
    · next hsome =>
      rw [if_neg hsome] at hτ'
      obtain ⟨σ, hσ, hjoins, rfl⟩ := Row.mem_joinedWith.1 (List.mem_of_mem_filter hτ)
      obtain ⟨σ', hσ', hjoins', rfl⟩ := Row.mem_joinedWith.1 (List.mem_of_mem_filter hτ')
      rw [hright.eq_of_joins hshared hσ hσ' hjoins hjoins']
  · rw [isDistinct, uniqueness, Bool.and_eq_true] at hd
    exact hnodup (hl.nodup hd.1) (hr.nodup hd.2)

/-- The parts of a join of the trees. -/
def joinParts (ts : List Tree) : List JoinPart := ts.map fun t => ⟨t.vars, t.keys⟩

theorem uniqueness_join {m : Bool} {condition? : Option Expression} :
    (join m condition? ts).uniqueness = ⟨joinKeys (joinParts ts), ts.all isDistinct⟩ := by
  rw [uniqueness, uniquenesses_eq_map, List.zipWith_map_right, List.zipWith_self, List.all_map]
  rfl

theorem mem_determinedStep {parts : List JoinPart} {reached : List Nat} {j : Nat} :
    j ∈ determinedStep parts reached ↔
      j < parts.length ∧ (j ∈ reached ∨ ∃ i ∈ reached, determines parts i j = true) := by
  rw [determinedStep, List.mem_filter, List.mem_range, Bool.or_eq_true, List.contains_iff_mem,
    List.any_eq_true]

/-- What holds of the part at `i`, and of whatever is determined by a part that it holds of, holds of
all parts that the search reaches. -/
theorem determinedBy_induction {parts : List JoinPart} {P : Nat → Prop} {i : Nat} (hi : P i)
    (hstep : ∀ i j, P i → determines parts i j = true → P j) : ∀ j ∈ determinedBy parts i, P j := by
  have hround (rounds : List JoinPart) (reached : List Nat) (h : ∀ j ∈ reached, P j) :
      ∀ j ∈ rounds.foldl (fun reached _ => determinedStep parts reached) reached, P j := by
    induction rounds generalizing reached with
    | nil => exact h
    | cons _ rounds ih =>
      refine ih _ fun j hj => ?_
      rcases (mem_determinedStep.1 hj).2 with hj | ⟨i, hi, hij⟩
      · exact h j hj
      · exact hstep i j (h i hi) hij
  exact hround parts [i] fun j hj => List.mem_singleton.1 hj ▸ hi

/-- A search that reaches as many parts as there are reaches them all: it lists none twice. -/
theorem mem_determinedBy_of_length {parts : List JoinPart} {i : Nat} (hi : i < parts.length)
    (h : (determinedBy parts i).length = parts.length) {j : Nat} (hj : j < parts.length) :
    j ∈ determinedBy parts i := by
  have hround (rounds : List JoinPart) (reached : List Nat) (hnodup : reached.Nodup)
      (hlt : ∀ j ∈ reached, j < parts.length) :
      let result := rounds.foldl (fun reached _ => determinedStep parts reached) reached
      result.Nodup ∧ ∀ j ∈ result, j < parts.length := by
    induction rounds generalizing reached with
    | nil => exact ⟨hnodup, hlt⟩
    | cons _ rounds ih =>
      exact ih _ (List.nodup_range.filter _) fun j hj => (mem_determinedStep.1 hj).1
  obtain ⟨hnodup, hlt⟩ := hround parts [i] (List.nodup_singleton i)
    fun j hj => List.mem_singleton.1 hj ▸ hi
  have hsub : (determinedBy parts i).Subperm (List.range parts.length) :=
    hnodup.subperm fun j hj => List.mem_range.2 (hlt j hj)
  have hperm := hsub.perm_of_length_le (by rw [List.length_range, h])
  exact hperm.mem_iff.2 (List.mem_range.2 hj)

/-- A key of a join is a key of a part that determines all parts, and every part has a key. -/
theorem mem_joinKeys {parts : List JoinPart} (h : K ∈ joinKeys parts) :
    (∀ p ∈ parts, ∃ Q, Q ∈ p.keys) ∧ ∃ i p, parts[i]? = some p ∧ K ∈ p.keys ∧
      ∀ j < parts.length, j ∈ determinedBy parts i := by
  unfold joinKeys at h
  split at h
  · exact absurd h (SortedSet.not_mem_empty K)
  · next hall =>
    rw [Bool.not_eq_true, List.any_eq_false] at hall
    refine ⟨fun p hp => SortedSet.exists_mem_of_isEmpty_eq_false (Bool.eq_false_iff.2 (hall p hp)), ?_⟩
    obtain ⟨_, hmem, hK⟩ := SortedSet.mem_unions.1 h
    obtain ⟨i, hi, rfl⟩ := List.mem_map.1 hmem
    rw [List.mem_range] at hi
    split at hK
    · next hlength =>
      rw [List.getElem?_eq_getElem hi] at hK
      exact ⟨i, parts[i], List.getElem?_eq_getElem hi, hK,
        fun j hj => mem_determinedBy_of_length hi hlength hj⟩
    · exact absurd hK (SortedSet.not_mem_empty K)

section Determined

variable {τ τ' : Row} (hts : ∀ t ∈ ts, t.UniquenessHolds S) (hτ : τ ∈ joinRows S ts)
  (hτ' : τ' ∈ joinRows S ts)
include hts hτ hτ'

/-- The part at `i` has the same row in both joined rows once these agree on a key of it. -/
theorem agreeOn_vars_of_key (ht : t ∈ ts) (hK : K ∈ t.keys) (hagree : Row.AgreeOn K τ τ') :
    Row.AgreeOn t.vars τ τ' := by
  obtain ⟨ρ, hρ, hτρ⟩ := exists_of_mem_joinRows hτ t ht
  obtain ⟨ρ', hρ', hτρ'⟩ := exists_of_mem_joinRows hτ' t ht
  have hsubset := (hts t ht).subset K hK
  have hsame : ρ = ρ' := ((hts t ht).unique K hK).eq hρ hρ'
    (((hτρ.mono hsubset).symm.trans hagree).trans (hτρ'.mono hsubset))
  exact hτρ.trans (hsame ▸ hτρ'.symm)

theorem agreeOn_of_determines {i j : Nat} {t u : Tree} (hi : ts[i]? = some t)
    (hj : ts[j]? = some u) (hdetermines : determines (joinParts ts) i j = true)
    (hagree : Row.AgreeOn t.vars τ τ') : Row.AgreeOn u.vars τ τ' := by
  simp only [determines, joinParts, List.getElem?_map, hi, hj, Option.map_some] at hdetermines
  obtain ⟨Q, hQ, hshared⟩ := List.any_eq_true.1 hdetermines
  refine agreeOn_vars_of_key hts hτ hτ' (List.mem_of_getElem? hj) hQ (hagree.mono fun x hx => ?_)
  exact (SortedSet.mem_inter.1 (of_decide_eq_true hshared x hx)).1

/-- Joined rows that agree on a key of a part that determines all parts are the same. -/
theorem eq_of_agreeOn_key {i : Nat} (hi : ts[i]? = some t) (hK : K ∈ t.keys)
    (hall : ∀ j < (joinParts ts).length, j ∈ determinedBy (joinParts ts) i)
    (hagree : Row.AgreeOn K τ τ') : τ = τ' := by
  have hreached : ∀ j ∈ determinedBy (joinParts ts) i, ∀ u, ts[j]? = some u →
      Row.AgreeOn u.vars τ τ' := by
    refine determinedBy_induction ?_ ?_
    · intro u hu
      obtain rfl : t = u := Option.some.inj (hi.symm.trans hu)
      exact agreeOn_vars_of_key hts hτ hτ' (List.mem_of_getElem? hi) hK hagree
    · intro j k hj hdetermines u hu
      cases hjt : ts[j]? with
      | none => simp [determines, joinParts, hjt] at hdetermines
      | some t' => exact agreeOn_of_determines hts hτ hτ' hjt hu hdetermines (hj t' hjt)
  have hsupported : ∀ ρ ∈ joinRows S ts, ρ.Supported (varsOf ts) :=
    joinRows_supported fun t _ => rows_supported t
  refine (hsupported τ hτ).ext (hsupported τ' hτ') fun x hx => ?_
  obtain ⟨u, hu, hxu⟩ := mem_varsOf.1 hx
  obtain ⟨j, hj⟩ := List.mem_iff_getElem?.1 hu
  have hlt : j < (joinParts ts).length := by
    rw [joinParts, List.length_map]
    exact (List.getElem?_eq_some_iff.1 hj).1
  exact hreached j (hall j hlt) u hj x hxu

end Determined

theorem nodup_joinRows (h : ∀ t ∈ ts, (t.rows S).Nodup) : (joinRows S ts).Nodup := by
  induction ts with
  | nil => exact List.nodup_singleton _
  | cons t ts ih =>
    rw [List.forall_mem_cons] at h
    exact Row.nodup_joinPairs (rows_supported t) (joinRows_supported fun t _ => rows_supported t)
      h.1 (ih h.2)

theorem uniquenessHolds_join {m : Bool} {condition? : Option Expression}
    (hts : ∀ t ∈ ts, t.UniquenessHolds S) : (join m condition? ts).UniquenessHolds S := by
  have hsublist : ((join m condition? ts).rows S).Sublist (joinRows S ts) := List.filter_sublist
  have hkeys : ∀ K ∈ (join m condition? ts).keys, (∀ t ∈ ts, ∃ Q, Q ∈ t.keys) ∧
      ∃ i t, ts[i]? = some t ∧ K ∈ t.keys ∧
        ∀ j < (joinParts ts).length, j ∈ determinedBy (joinParts ts) i := by
    intro K hK
    rw [keys, uniqueness_join] at hK
    obtain ⟨hparts, i, p, hp, hK, hall⟩ := mem_joinKeys hK
    rw [joinParts, List.getElem?_map, Option.map_eq_some_iff] at hp
    obtain ⟨t, ht, rfl⟩ := hp
    exact ⟨fun t ht => hparts _ (List.mem_map_of_mem ht), i, t, ht, hK, hall⟩
  refine ⟨fun K hK x hx => ?_, fun K hK => ?_, fun hd => ?_⟩
  · obtain ⟨-, i, t, hi, hK, -⟩ := hkeys K hK
    have ht := List.mem_of_getElem? hi
    exact mem_varsOf.2 ⟨t, ht, (hts t ht).subset K hK x hx⟩
  · obtain ⟨hparts, i, t, hi, hK, hall⟩ := hkeys K hK
    refine Row.UniqueOn.sublist ?_ hsublist
    refine Row.uniqueOn_iff.2 ⟨nodup_joinRows fun t ht => ?_, fun τ hτ τ' hτ' hagree => ?_⟩
    · obtain ⟨Q, hQ⟩ := hparts t ht
      exact ((hts t ht).unique Q hQ).nodup
    · exact eq_of_agreeOn_key hts hτ hτ' hi hK hall hagree
  · rw [isDistinct, uniqueness_join, List.all_eq_true] at hd
    exact (nodup_joinRows fun t ht => (hts t ht).nodup (hd t ht)).sublist hsublist

-- ---------------------------------------------------------------------------
-- Leaves and the whole tree
-- ---------------------------------------------------------------------------

theorem uniqueOn_atom {m : Bool} {a : Atom Relation} (hS : S.KeepsKeys)
    (ha : a.isWellFormed = true) (hK : K ∈ a.keys) :
    K ⊆ a.vars ∧ Row.UniqueOn K ((leaf m (.extensional a)).rows S) := by
  obtain ⟨positions, hpositions, hne, hkey⟩ := Atom.mem_keys.1 hK
  obtain ⟨hargs, hsubset⟩ := Atom.keyAt?_spec hkey
  refine ⟨hsubset, List.pairwise_map.2 ?_⟩
  refine ((hS a.predicate positions hpositions hne).sublist List.filter_sublist).imp_of_mem ?_
  rintro tuple tuple' htuple htuple' ⟨p, hp, hdiffer⟩ hagree
  obtain ⟨t, ht, htK⟩ := hargs p hp
  refine hdiffer (Atom.getElem?_eq_of_agreeOn (S := S) ha ?_ ?_ hagree ht htK)
  · exact of_decide_eq_true (List.mem_filter.1 htuple).2
  · exact of_decide_eq_true (List.mem_filter.1 htuple').2

theorem uniquenessHolds_leaf {m : Bool} {l : Leaf} (hS : S.KeepsKeys)
    (hvalid : (∀ q, l ≠ .native q) → (leaf m l).RootValid) : (leaf m l).UniquenessHolds S := by
  cases l with
  | extensional a =>
    have ha : a.isWellFormed = true := hvalid (by simp)
    refine ⟨fun K hK => (uniqueOn_atom (m := m) hS ha hK).1, fun K hK => (uniqueOn_atom hS ha hK).2,
      fun hd => ?_⟩
    rw [isDistinct, uniqueness, Bool.not_eq_true'] at hd
    obtain ⟨K, hK⟩ := SortedSet.exists_mem_of_isEmpty_eq_false hd
    exact (uniqueOn_atom hS ha hK).2.nodup
  | intensional a => exact ⟨nofun, nofun, nofun⟩
  | native query => exact ⟨nofun, nofun, nofun⟩
  | empty projected => exact ⟨nofun, nofun, fun _ => List.nodup_nil⟩
  | unit => exact ⟨nofun, nofun, fun _ => List.nodup_singleton _⟩

theorem uniquenessHolds (hS : S.KeepsKeys)
    (h : ∀ u ∈ t.nodes, (∀ m q, u ≠ leaf m (.native q)) → u.checkNode = .ok ()) :
    t.UniquenessHolds S := by
  induction t using inductionOn with
  | step t ih =>
    obtain ⟨hroot, hchildren⟩ := forall_mem_nodes.1 h
    have ih : ∀ u ∈ t.children, u.UniquenessHolds S := fun u hu => ih u hu (hchildren u hu)
    cases t with
    | construct _ projected bindings child => exact uniquenessHolds_construct (ih child (.head _))
    | filter _ condition child =>
      exact uniquenessHolds_of_subperm (ih child (.head _)) rfl rfl List.filter_sublist.subperm
    | join _ condition? ts => exact uniquenessHolds_join ih
    | leftJoin _ condition? left right =>
      exact uniquenessHolds_leftJoin (ih left (.head _)) (ih right (.tail _ (.head _)))
    | union _ projected ts => exact ⟨nofun, nofun, nofun⟩
    | distinct _ child => exact uniquenessHolds_distinct (ih child (.head _))
    | slice _ window child =>
      exact uniquenessHolds_of_subperm (ih child (.head _)) rfl rfl (window.clip_sublist _).subperm
    | orderBy _ keys child =>
      exact uniquenessHolds_of_subperm (ih child (.head _)) rfl rfl (List.mergeSort_perm _ _).subperm
    | aggregate _ grouping bindings child => exact uniquenessHolds_aggregate
    | leaf _ l =>
      exact uniquenessHolds_leaf hS fun hne =>
        checkNode_eq_ok.1 (hroot fun m q he => hne q (Tree.leaf.inj he).2)

/-- What is inferred about rows that agree holds whatever the virtual relations and the native
queries return: no two occurrences of rows agree on all variables of a key, and a tree that is said
to be distinct returns no row twice. -/
theorem uniqueness_sound (hS : S.KeepsKeys)
    (h : ∀ u ∈ t.nodes, (∀ m q, u ≠ leaf m (.native q)) → u.checkNode = .ok ()) :
    (∀ K ∈ t.keys, (t.rows S).Pairwise fun ρ σ => ¬Row.AgreeOn K ρ σ) ∧
      (t.isDistinct = true → (t.rows S).Nodup) := by
  have hholds := uniquenessHolds hS h
  exact ⟨hholds.unique, hholds.nodup⟩

/-- A join of a left join of a keyed table with itself and of the distinct rows of a virtual relation
that repeats tuples and has NULL. -/
theorem uniqueness_sound_of_join :
    let r : Relation :=
      ⟨"r", [⟨"a", .integer, false⟩, ⟨"b", .integer, true⟩], [⟨"pk", ["a"], true⟩]⟩
    let one := Constant.integer 1
    let two := Constant.integer 2
    let D := Database.ofTable r [[one, two], [two, one], [.integer 3, two], [.integer 4, .null]]
      (by decide) (by decide) (by decide)
    let S : Source := { D.toSource with virtual := fun _ => [[two], [two], [.null], [one]] }
    let atom (x y : String) : Tree := .leaf false (.extensional ⟨r, [.var ⟨x⟩, .var ⟨y⟩]⟩)
    let view : Tree := .leaf false (.intensional ⟨⟨"v", 1⟩, [.var ⟨"y"⟩]⟩)
    let t : Tree := .join false none [.leftJoin false none (atom "x" "y") (atom "y" "z"),
      .distinct false view]
    S.KeepsKeys ∧ (∀ u ∈ t.nodes, (∀ m q, u ≠ .leaf m (.native q)) → u.checkNode = .ok ()) ∧
      (t.rows S).length = 3 ∧
      (t.rows S).Pairwise (fun ρ σ => ¬Row.AgreeOn (.singleton ⟨"x"⟩) ρ σ) ∧ (t.rows S).Nodup := by
  intro r one two D S atom view t
  have hS : S.KeepsKeys := D.keepsKeys
  have hvalid : ∀ u ∈ t.nodes, u.RootValid := by decide +kernel
  have hchecked : ∀ u ∈ t.nodes, (∀ m q, u ≠ .leaf m (.native q)) → u.checkNode = .ok () :=
    fun u hu _ => checkNode_eq_ok.2 (hvalid u hu)
  obtain ⟨hkeys, hdistinct⟩ := uniqueness_sound hS hchecked
  exact ⟨hS, hchecked, by decide +kernel, hkeys _ (by decide +kernel), hdistinct (by decide +kernel)⟩

end Tree

end QueryAlgebra
