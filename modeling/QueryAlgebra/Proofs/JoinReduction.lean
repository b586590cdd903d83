import QueryAlgebra.Proofs.Coding
import QueryAlgebra.Proofs.Demand
import QueryAlgebra.Proofs.RedundantAtoms

/-!
# One join without its redundant atoms

Atoms are removed from a join one after the other, and one that is gone justifies no other. Removing
a single atom leaves the rows as they are, up to its guards (`Tree.JoinReduces.drop`), and so does
removing one after the other (`Tree.reduceJoin_reduces`). What is left to be seen of a row are the
variables of the remaining operands, discarded or not; only what the removed atoms had to
themselves is lost.

Main statement: `Tree.finishJoin_alike` — the rows of a join, cut down to the variables that the
reduced join has, are those of the reduced join. Nothing is asked of the operands but that their
atoms are well formed, and of the tables but that they keep their keys.
-/

namespace QueryAlgebra.Tree

variable {demand : Demand}

-- ---------------------------------------------------------------------------
-- One join
-- ---------------------------------------------------------------------------

section Join

variable {D : Source} {kept : VarSet} {setOnly : Bool}

/-- The join without redundant atoms has the rows of the join, once they have passed the guards. -/
structure JoinReduces (D : Source) (setOnly : Bool) (kept : VarSet) (ts : List Tree)
    (r : ReducedJoin) : Prop where
  length : r.children.length = ts.length
  vars_subset : varsOf r.children ⊆ varsOf ts
  vars_kept : ∀ x ∈ varsOf ts, x ∈ kept → x ∈ varsOf r.children
  guarded : r.guarded ⊆ varsOf r.children
  rows : Alike setOnly ((joinRows D ts).map (Row.cut kept))
    (((joinRows D r.children).filter fun σ => Guarded r.guarded σ).map (Row.cut kept))

theorem guarded_cut {xs : VarSet} (h : xs ⊆ kept) (σ : Row) :
    Guarded xs (Row.cut kept σ) ↔ Guarded xs σ := by
  have hcut : ∀ x ∈ xs.toList, Row.cut kept σ x = σ x := fun x hx => if_pos (h x hx)
  refine forall₂_congr fun x hx => ?_
  rw [hcut x hx]

theorem guarded_union {xs ys : VarSet} {σ : Row} :
    Guarded (xs ∪ ys) σ ↔ Guarded xs σ ∧ Guarded ys σ := by
  constructor
  · intro h
    exact ⟨fun x hx => h x (SortedSet.mem_union.2 (.inl hx)),
      fun x hx => h x (SortedSet.mem_union.2 (.inr hx))⟩
  · rintro ⟨hxs, hys⟩ x hx
    exact (SortedSet.mem_union.1 hx).elim (hxs x) (hys x)

theorem guarded_empty {σ : Row} : Guarded ∅ σ := fun _ hx => absurd hx List.not_mem_nil

theorem JoinReduces.refl (ts : List Tree) : JoinReduces D setOnly kept ts ⟨ts, ∅, false⟩ := by
  refine ⟨rfl, fun _ => id, fun _ hx _ => hx, fun _ hx => absurd hx List.not_mem_nil, ?_⟩
  rw [List.filter_eq_self.2 fun σ _ => decide_eq_true guarded_empty]
  exact .refl _ _

theorem JoinReduces.mono {kept' : VarSet} {ts : List Tree} {r : ReducedJoin}
    (h : JoinReduces D setOnly kept' ts r) (hkept : kept ⊆ kept') :
    JoinReduces D setOnly kept ts r := by
  refine ⟨h.length, h.vars_subset, fun x hx hxk => h.vars_kept x hx (hkept x hxk), h.guarded, ?_⟩
  rw [← Row.map_cut_map_cut hkept, ← Row.map_cut_map_cut hkept (List.filter _ _)]
  exact h.rows.map _

theorem eq_leaf_of_isRedundantAmong {siblings : List Tree} {t : Tree}
    (h : isRedundantAmong siblings demand t = true) : ∃ m a, t = leaf m (.extensional a) := by
  cases t with
  | leaf m l =>
    cases l with
    | extensional a => exact ⟨m, a, rfl⟩
    | _ => cases h
  | _ => cases h

/-- A redundant atom may give way to the unit, if it leaves its guards behind. -/
theorem JoinReduces.drop (hD : D.KeepsKeys) {m : Bool} {a : Atom Relation}
    {before after : List Tree} {r : ReducedJoin}
    (hredundant : isRedundantAmong (before ++ after) demand (leaf m (.extensional a)) = true)
    (hwell : a.isWellFormed = true)
    (hwell' : ∀ b ∈ requiredAtomsOf (before ++ after), b.isWellFormed = true)
    (hread : ∀ x ∈ a.vars, x ∈ kept ↔ x ∉ demand.discarded)
    (hshared : ∀ x ∈ a.vars, x ∈ varsOf (before ++ after) → x ∈ kept)
    (h : JoinReduces D demand.setOnly kept (before ++ oneRow :: after) r) :
    JoinReduces D demand.setOnly kept (before ++ leaf m (.extensional a) :: after)
      ⟨r.children, (a.vars \ demand.discarded) ∪ r.guarded, true⟩ := by
  have hunit : varsOf (before ++ oneRow :: after) = varsOf (before ++ after) := by
    rw [varsOf_perm List.perm_middle]
    ext x
    exact SortedSet.mem_union.trans (or_iff_right List.not_mem_nil)
  have hatom : varsOf (before ++ leaf m (.extensional a) :: after)
      = a.vars ∪ varsOf (before ++ after) := varsOf_perm List.perm_middle
  have hguarded : a.vars \ demand.discarded ⊆ kept := fun x hx =>
    (hread x (SortedSet.mem_diff.1 hx).1).2 (SortedSet.mem_diff.1 hx).2
  have hsiblings : ∀ x ∈ varsOf (before ++ after), x ∈ kept → x ∈ varsOf r.children :=
    fun x hx => h.vars_kept x (hunit ▸ hx)
  have hread' : ∀ x ∈ a.vars, x ∉ demand.discarded → x ∈ varsOf (before ++ after) :=
    fun x => mem_varsOf_of_isRedundantAmong hredundant hwell
  refine ⟨?length, ?subset, ?kept, ?guarded, ?rows⟩
  case length =>
    rw [h.length]
    simp
  case subset =>
    intro x hx
    rw [hatom, ← hunit]
    exact SortedSet.mem_union.2 (.inr (h.vars_subset x hx))
  case kept =>
    intro x hx hxk
    rcases SortedSet.mem_union.1 (hatom ▸ hx) with hxa | hxs
    · exact hsiblings x (hread' x hxa ((hread x hxa).1 hxk)) hxk
    · exact hsiblings x hxs hxk
  case guarded =>
    intro x hx
    rcases SortedSet.mem_union.1 hx with hx | hx
    · obtain ⟨hxa, hxd⟩ := SortedSet.mem_diff.1 hx
      exact hsiblings x (hread' x hxa hxd) (hguarded x hx)
    · exact h.guarded x hx
  case rows =>
    refine (joinRows_drop hD hredundant hwell hwell' (fun x hx => (hread x hx).1)
      fun x hx hxs => (hread x hx).1 (hshared x hx hxs)).trans ?_
    refine (Row.filter_alike h.rows
      (fun σ => decide_eq_decide.2 (guarded_cut hguarded σ)) fun _ => id).trans ?_
    rw [List.filter_filter]
    refine Alike.of_perm (List.Perm.of_eq (congrArg _ (List.filter_congr fun σ _ => ?_)))
    rw [← Bool.decide_and, decide_eq_decide]
    exact guarded_union.symm

/-- What is left of the operands, besides units. -/
theorem mem_children_reduceJoin {u : Tree} (parts : List (Tree × Demand)) (before : List Tree)
    (h : u ∈ (reduceJoin before parts).children) :
    u ∈ before ++ parts.map (·.1) ∨ u = oneRow := by
  induction parts generalizing before with
  | nil => exact .inl (List.mem_append_left _ h)
  | cons part after ih =>
    obtain ⟨t, demand⟩ := part
    rw [reduceJoin] at h
    have happend (v : Tree) (hv : u ∈ (before ++ [v]) ++ after.map (·.1)) :
        u = v ∨ u ∈ before ++ t :: after.map (·.1) := by
      simp only [List.mem_append, List.mem_cons, List.not_mem_nil, or_false] at hv ⊢
      tauto
    split at h
    · rcases ih (before ++ [oneRow]) h with hu | hu
      · exact (happend oneRow hu).symm
      · exact .inr hu
    · rcases ih (before ++ [t]) h with hu | hu
      · refine .inl ((happend t hu).elim (fun he => ?_) id)
        exact List.mem_append_right _ (he ▸ List.mem_cons_self)
      · exact .inr hu

/-- Removing redundant atoms one after the other, each while the ones before it are gone already,
leaves the rows of a join as they are. What is kept of the rows are the variables that are read or
shared, and whatever else is left. -/
theorem reduceJoin_reduces (hD : D.KeepsKeys) (parts : List (Tree × Demand)) (before : List Tree)
    (hwell : ∀ b ∈ requiredAtomsOf (before ++ parts.map (·.1)), b.isWellFormed = true)
    (hset : ∀ part ∈ parts, part.2.setOnly = setOnly) (hsplits : Splits kept parts)
    (hshared : SharesOnly kept (before ++ parts.map (·.1))) :
    JoinReduces D setOnly (kept ∪ varsOf (reduceJoin before parts).children)
      (before ++ parts.map (·.1)) (reduceJoin before parts) := by
  induction parts generalizing before with
  | nil =>
    rw [List.map_nil, List.append_nil]
    exact .refl before
  | cons part after ih =>
    obtain ⟨t, demand⟩ := part
    rw [Splits, List.forall_mem_cons] at hsplits
    rw [List.forall_mem_cons] at hset
    have happend (u : Tree) : before ++ u :: after.map (·.1)
        = (before ++ [u]) ++ after.map (·.1) := by simp
    rw [List.map_cons] at hwell hshared ⊢
    rw [reduceJoin]
    split
    · next hredundant =>
      obtain ⟨m, a, rfl⟩ := eq_leaf_of_isRedundantAmong hredundant
      have hmiddle := hshared.perm List.perm_middle
      obtain ⟨hwella, hwell'⟩ := forall_mem_requiredAtomsOf_middle.1 hwell
      have hrest : JoinReduces D setOnly
          (kept ∪ varsOf (reduceJoin (before ++ [oneRow]) after).children)
          (before ++ oneRow :: after.map (·.1)) (reduceJoin (before ++ [oneRow]) after) := by
        rw [happend]
        apply ih (before ++ [oneRow]) ?_ hset.2 hsplits.2 ?_
        · rw [← happend]
          exact forall_mem_requiredAtomsOf_middle.2 ⟨fun b hb => absurd hb List.not_mem_nil, hwell'⟩
        · rw [← happend]
          refine SharesOnly.perm ?_ List.perm_middle.symm
          refine List.pairwise_cons.2 ⟨fun _ _ x hx => absurd hx List.not_mem_nil, ?_⟩
          exact (List.pairwise_cons.1 hmiddle).2
      -- a variable of the atom that is left elsewhere is shared, so it is read
      have hleft : ∀ x ∈ a.vars, x ∈ varsOf (reduceJoin (before ++ [oneRow]) after).children →
          x ∈ kept := by
        intro x hx hxr
        refine hmiddle.of_cons x hx ?_
        have hxu := hrest.vars_subset x hxr
        rw [varsOf_perm List.perm_middle] at hxu
        exact (SortedSet.mem_union.1 hxu).resolve_left List.not_mem_nil
      have hset' : demand.setOnly = setOnly := hset.1
      subst hset'
      refine JoinReduces.drop hD hredundant (hwella a (.head _)) hwell' (fun x hx => ?_)
        (fun x hx hxs => SortedSet.mem_union.2 (.inl (hmiddle.of_cons x hx hxs))) hrest
      rw [← hsplits.1 x hx, SortedSet.mem_union]
      exact or_iff_left_of_imp (hleft x hx)
    · rw [happend] at hwell hshared ⊢
      exact ih (before ++ [t]) hwell hset.2 hsplits.2 hshared

/-- The variables of a join that its demand, its condition or two of its operands have a use for. -/
def joinKept (demand : Demand) (condition? : Option Expression) (ts : List Tree) : VarSet :=
  varsOf ts \ demand.discarded.filter fun x =>
    x ∉ conditionVars condition? ∧ x ∉ sharedVars (ts.map vars)

variable {condition? : Option Expression} {ts : List Tree}

theorem mem_joinKept {x : Variable} : x ∈ joinKept demand condition? ts ↔ x ∈ varsOf ts ∧
    (x ∈ demand.discarded → x ∈ conditionVars condition? ∨ x ∈ sharedVars (ts.map vars)) := by
  simp only [joinKept, SortedSet.mem_diff, SortedSet.mem_filter, decide_eq_true_iff]
  tauto

theorem mem_sharedVars_map {x : Variable} :
    x ∈ sharedVars (ts.map vars) ↔ 1 < ts.countP fun t => x ∈ t.vars := by
  rw [mem_sharedVars, List.countP_map]
  rfl

theorem sharesOnly_joinKept : SharesOnly (joinKept demand condition? ts) ts := by
  have hshares {kept : VarSet} (ts : List Tree)
      (h : ∀ x, (1 < ts.countP fun t => x ∈ t.vars) → x ∈ kept) : SharesOnly kept ts := by
    induction ts with
    | nil => exact .nil
    | cons t ts ih =>
      refine List.pairwise_cons.2 ⟨fun u hu x hx hxu => h x ?_, ih fun x hx => h x ?_⟩
      · have hpos : 0 < ts.countP fun t => x ∈ t.vars :=
          List.countP_pos_iff.2 ⟨u, hu, decide_eq_true hxu⟩
        rw [List.countP_cons, if_pos (decide_eq_true hx)]
        omega
      · rw [List.countP_cons]
        omega
  refine hshares ts fun x hx => mem_joinKept.2 ⟨?_, fun _ => .inr (mem_sharedVars_map.2 hx)⟩
  obtain ⟨t, ht, hxt⟩ := List.countP_pos_iff.1 (Nat.zero_lt_of_lt hx)
  exact mem_varsOf.2 ⟨t, ht, of_decide_eq_true hxt⟩

theorem length_childDemands : (childDemands demand condition? ts).length = ts.length := by
  rw [childDemands, List.length_map, List.length_range]

/-- What a join demands of an operand. -/
theorem mem_zip_childDemands {part : Tree × Demand}
    (h : part ∈ ts.zip (childDemands demand condition? ts)) :
    ∃ others : List Tree, ts.Perm (part.1 :: others) ∧ part.2.setOnly = demand.setOnly ∧
      ∀ x, x ∈ part.2.discarded ↔ x ∈ part.1.vars ∧ x ∈ demand.discarded ∧
        x ∉ conditionVars condition? ∪ varsOf others := by
  obtain ⟨i, hi⟩ := List.mem_iff_getElem?.1 h
  obtain ⟨htree, hdemand⟩ := List.getElem?_zip_eq_some.1 hi
  obtain ⟨hlt, htree⟩ := List.getElem?_eq_some_iff.1 htree
  have hrange : (List.range ts.length)[i]? = some i := by simp [hlt]
  rw [childDemands, List.getElem?_map, hrange, Option.map_some, Option.some_inj] at hdemand
  refine ⟨ts.eraseIdx i, ?_, ?_, fun x => ?_⟩
  · rw [← htree]
    exact (List.getElem_cons_eraseIdx_perm hlt).symm
  · rw [← hdemand]
  · rw [← hdemand, List.getElem?_eq_getElem hlt, htree]
    simp only [Option.map_some, Option.getD_some, SortedSet.mem_filter, decide_eq_true_iff]

theorem splits_joinKept :
    Splits (joinKept demand condition? ts) (ts.zip (childDemands demand condition? ts)) := by
  intro part hpart x hx
  obtain ⟨others, hperm, -, hdiscarded⟩ := mem_zip_childDemands hpart
  have hshared : x ∈ sharedVars (ts.map vars) ↔ x ∈ varsOf others := by
    rw [mem_sharedVars_map, hperm.countP_eq, List.countP_cons, if_pos (decide_eq_true hx),
      Nat.lt_add_left_iff_pos, List.countP_pos_iff, mem_varsOf]
    simp only [decide_eq_true_iff]
  have hmem : x ∈ varsOf ts := by
    rw [varsOf_perm hperm]
    exact SortedSet.mem_union.2 (.inl hx)
  rw [mem_joinKept, hdiscarded, hshared, SortedSet.mem_union]
  tauto

theorem holdsOptional_guardedCondition {guarded : VarSet} {σ : Row} :
    D.HoldsOptional σ (guardedCondition condition? guarded)
      ↔ D.HoldsOptional σ condition? ∧ Guarded guarded σ := by
  rw [guardedCondition, Interpretation.holdsOptional_conjunction, List.forall_mem_append,
    List.forall_mem_map]
  have hcondition : (∀ e ∈ condition?.toList, D.Holds σ e) ↔ D.HoldsOptional σ condition? := by
    simp [Interpretation.HoldsOptional, Option.mem_toList]
  have hguard : ∀ x, D.Holds σ (.isNotNull (.var x)) ↔ σ x ≠ .null := by
    intro x
    rw [Interpretation.Holds, Interpretation.judge_expression_isNotNull, Interpretation.eval_var]
    cases σ x <;> simp [Constant.isNull]
  rw [hcondition]
  exact and_congr_right fun _ => forall₂_congr fun x _ => hguard x

theorem conditionVars_guardedCondition {guarded xs : VarSet} (h : conditionVars condition? ⊆ xs)
    (hguarded : guarded ⊆ xs) : conditionVars (guardedCondition condition? guarded) ⊆ xs := by
  refine conditionVars_conjunction fun e he => ?_
  rcases List.mem_append.1 he with he | he
  · exact conditionVars_subset_iff.1 h e (Option.mem_toList.1 he)
  · obtain ⟨x, hx, rfl⟩ := List.mem_map.1 he
    intro y hy
    obtain ⟨t, ht, hy⟩ := Term.mem_varsOf.1 hy
    rw [List.mem_singleton.1 ht, Term.mem_vars_var] at hy
    exact hguarded y (hy ▸ hx)

/-- A join over reduced operands has the rows of the join, if its condition also guards them. -/
theorem JoinReduces.rows_join {m n : Bool} {condition'? : Option Expression} {r : ReducedJoin}
    {xs : VarSet} (h : JoinReduces D setOnly kept ts r) (hcondition : conditionVars condition? ⊆ kept)
    (hxs : xs ⊆ kept)
    (hholds : ∀ σ, D.HoldsOptional σ condition'? ↔
      D.HoldsOptional σ condition? ∧ Guarded r.guarded σ) :
    Alike setOnly (((join m condition? ts).rows D).map (Row.cut xs))
      (((join n condition'? r.children).rows D).map (Row.cut xs)) := by
  refine (Row.filter_alike h.rows (fun σ => ?_) hxs).trans ?_
  · exact decide_eq_decide.2 (Source.holdsOptional_cut hcondition σ)
  · rw [List.filter_filter]
    refine Alike.of_perm (List.Perm.of_eq (congrArg _ (List.filter_congr fun σ _ => ?_)))
    rw [← Bool.decide_and, decide_eq_decide]
    exact (hholds σ).symm

variable {us : List Tree}

/-- What is demanded of the operands also fits narrower ones. -/
theorem splits_of_narrower (h : NarrowerAll ts us) :
    Splits (joinKept demand condition? ts) (us.zip (childDemands demand condition? ts)) := by
  intro part hpart x hx
  obtain ⟨i, hi⟩ := List.mem_iff_getElem?.1 hpart
  obtain ⟨htree, hdemand⟩ := List.getElem?_zip_eq_some.1 hi
  obtain ⟨hu, hu'⟩ := List.getElem?_eq_some_iff.1 htree
  have ht : i < ts.length := h.length_eq ▸ hu
  have hmem : (ts[i], part.2) ∈ ts.zip (childDemands demand condition? ts) :=
    List.mem_iff_getElem?.2
      ⟨i, List.getElem?_zip_eq_some.2 ⟨List.getElem?_eq_getElem ht, hdemand⟩⟩
  have hsubset : part.1.vars ⊆ ts[i].vars := hu' ▸ h.get ht hu
  exact splits_joinKept _ hmem x (hsubset x hx)

/-- The operands of a join, or narrower ones, are reduced under what the join demands of them. -/
theorem reduceJoin_childDemands (demand : Demand) (condition? : Option Expression)
    (hD : D.KeepsKeys) (hnarrower : NarrowerAll ts us)
    (hwell : ∀ b ∈ requiredAtomsOf us, b.isWellFormed = true) :
    JoinReduces D demand.setOnly (joinKept demand condition? ts ∪
        varsOf (reduceJoin [] (us.zip (childDemands demand condition? ts))).children) us
      (reduceJoin [] (us.zip (childDemands demand condition? ts))) := by
  have hlength : us.length ≤ (childDemands demand condition? ts).length := by
    rw [length_childDemands, hnarrower.length_eq]
  have hfst : [] ++ (us.zip (childDemands demand condition? ts)).map (·.1) = us :=
    List.map_fst_zip hlength
  have hset : ∀ part ∈ us.zip (childDemands demand condition? ts),
      part.2.setOnly = demand.setOnly := by
    intro part hpart
    obtain ⟨i, -, he⟩ := List.mem_map.1 (List.of_mem_zip hpart).2
    rw [← he]
  have hreduces := reduceJoin_reduces hD (us.zip (childDemands demand condition? ts)) []
    (by rwa [hfst]) hset (splits_of_narrower hnarrower)
    (by rw [hfst]; exact hnarrower.sharesOnly sharesOnly_joinKept)
  rwa [hfst] at hreduces

/-- A join without its redundant atoms only lacks variables that are discarded above it, and has the
rows of the join on the others, each as often where that counts. The demands may have been made of
operands that were wider. -/
theorem finishJoin_alike {σ : BuildSettings} {m : Bool} (hD : D.KeepsKeys)
    (hvalid : ∀ u ∈ (join m condition? us).nodes, (∀ n q, u ≠ leaf n (.native q)) →
      u.checkNode = .ok ())
    (hnarrower : NarrowerAll ts us)
    (hreduced : (reduceJoin [] (us.zip (childDemands demand condition? ts))).reduced = true) :
    ∃ u, finishJoin σ (join m condition? ts) condition? (childDemands demand condition? ts) us
        = .ok u ∧
      (∀ x ∈ (join m condition? us).vars, x ∉ u.vars → x ∈ demand.discarded) ∧
      u.vars ⊆ (join m condition? us).vars ∧
      Alike demand.setOnly (((join m condition? us).rows D).map (Row.cut u.vars)) (u.rows D) := by
  have hwell : ∀ b ∈ requiredAtomsOf us, b.isWellFormed = true :=
    fun b hb => isWellFormed_of_mem_requiredAtoms hvalid hb
  obtain ⟨hlength, hscope⟩ : (join m condition? us).RootValid :=
    checkNode_eq_ok.1 ((forall_mem_nodes.1 hvalid).1 (by simp))
  have hreduces := reduceJoin_childDemands demand condition? hD hnarrower hwell
  rw [finishJoin, if_pos hreduced]
  generalize reduceJoin [] (us.zip (childDemands demand condition? ts)) = r at hreduces
  have hkept : ∀ x ∈ varsOf us, (x ∈ demand.discarded → x ∈ conditionVars condition?) →
      x ∈ joinKept demand condition? ts ∪ varsOf r.children := fun x hx hxd =>
    SortedSet.mem_union.2 (.inl (mem_joinKept.2
      ⟨hnarrower.vars_subset x hx, fun h => .inl (hxd h)⟩))
  have hcondition : conditionVars condition? ⊆ joinKept demand condition? ts ∪ varsOf r.children :=
    fun x hx => hkept x (hscope x hx) fun _ => hx
  let u : Tree := join false (guardedCondition condition? r.guarded) r.children
  have hroot : u.RootValid :=
    ⟨hreduces.length ▸ hlength, conditionVars_guardedCondition
      (fun x hx => hreduces.vars_kept x (hscope x hx) (hcondition x hx)) hreduces.guarded⟩
  refine ⟨u, build_eq_ok hroot, fun x hx hlost => ?_, hreduces.vars_subset, ?_⟩
  · by_contra hxd
    exact hlost (hreduces.vars_kept x hx (hkept x hx fun h => absurd h hxd))
  · have hrows : Alike demand.setOnly (((join m condition? us).rows D).map (Row.cut u.vars))
        ((u.rows D).map (Row.cut u.vars)) :=
      hreduces.rows_join hcondition (fun x hx => SortedSet.mem_union.2 (.inr hx))
        fun _ => holdsOptional_guardedCondition
    rwa [map_cut_rows (t := u) fun _ => id] at hrows

/-- A second look at a visit of the same number goes, and with it the place that nobody reads. -/
theorem finishJoin_alike_of_key :
    let visit : Relation :=
      ⟨"visit", [⟨"id", .integer, false⟩, ⟨"place", .string, true⟩], [⟨"pk", ["id"], true⟩]⟩
    let D := Database.ofTable visit [[.integer 1, .string "a"], [.integer 2, .null]] (by decide)
      (by decide) (by decide)
    let atom (x y : String) : Tree := .leaf false (.extensional ⟨visit, [.var ⟨x⟩, .var ⟨y⟩]⟩)
    let ts := [atom "id" "place", filter false (.isNotNull (.var ⟨"where"⟩)) (atom "id" "where")]
    let demand : Demand := ⟨.singleton ⟨"place"⟩, false⟩
    D.KeepsKeys ∧
      (∀ u ∈ (join false none ts).nodes, (∀ n q, u ≠ leaf n (.native q)) → u.checkNode = .ok ()) ∧
      NarrowerAll ts ts ∧
      (reduceJoin [] (ts.zip (childDemands demand none ts))).reduced = true ∧
      ((join false none ts).rows D).length = 1 ∧
      ∃ u, finishJoin ⟨true⟩ (join false none ts) none (childDemands demand none ts) ts = .ok u ∧
        (∀ x ∈ (join false none ts).vars, x ∉ u.vars → x ∈ demand.discarded) ∧
        u.vars ⊆ (join false none ts).vars ∧
        Alike false (((join false none ts).rows D).map (Row.cut u.vars)) (u.rows D) := by
  intro visit D atom ts demand
  have hroots : ∀ u ∈ (join false none ts).nodes, u.RootValid := by decide +kernel
  have hvalid : ∀ u ∈ (join false none ts).nodes, (∀ n q, u ≠ leaf n (.native q)) →
      u.checkNode = .ok () := fun u hu _ => checkNode_eq_ok.2 (hroots u hu)
  have hreduced : (reduceJoin [] (ts.zip (childDemands demand none ts))).reduced = true := by
    decide +kernel
  exact ⟨D.keepsKeys, hvalid, .refl ts, hreduced, by decide +kernel,
    finishJoin_alike D.keepsKeys hvalid (.refl ts) hreduced⟩

end Join

end QueryAlgebra.Tree
