import QueryAlgebra.Proofs.Pushdown.Conditions
import QueryAlgebra.Proofs.Scope.Pushdown

/-!
# Growth in a descent

Where something is simplified on the way, a tree may come out of a descent with more nodes than it
had. A filter leaves a construction behind for the equalities that it hands on, and a construction a
filter for definitions that have to be equal; the next descent takes them up again. Each time there
is one variable less than before, below the construction or in it. So as long as nothing is
aggregated there is an end to this, however many descents follow one another, and `Tree.growth`
bounds what comes of it (`Tree.keepsGrowth_descendTo`).

What is kept above an aggregation has no such price: its variables are as many as before.
-/

namespace QueryAlgebra

open QueryAlgebra.Except (Returns)

-- ---------------------------------------------------------------------------
-- Counting variables
-- ---------------------------------------------------------------------------

namespace Substitution

variable {xs : VarSet} {s e : Substitution} {x : Variable}

/-- There are no more images than variables. -/
theorem Flat.size_applyVars_le (hs : s.Flat) : (s.applyVars xs).size ≤ xs.size := by
  have hmem : ∀ y ∈ (s.applyVars xs).toList,
      y ∈ xs.toList.filterMap fun x => (s.applyVar x).var? := by
    intro y hy
    obtain ⟨x, hx, hxy⟩ := hs.mem_applyVars.1 hy
    exact List.mem_filterMap.2 ⟨x, hx, Term.var?_eq_some.2 hxy⟩
  exact (SortedSet.length_le_of_forall_mem (s.applyVars xs).nodup hmem).trans
    (List.length_filterMap_le _ _)

/-- There are fewer if the image of a variable is that of another one as well, or is none. -/
theorem Flat.size_applyVars_lt (hs : s.Flat) (hx : x ∈ xs)
    (hother : ∀ y, s.applyVar x = .var y → ∃ z ∈ xs, z ≠ x ∧ s.applyVar z = .var y) :
    (s.applyVars xs).size < xs.size := by
  have hsubset : s.applyVars xs ⊆ s.applyVars (xs.filter (· ≠ x)) := by
    intro y hy
    obtain ⟨z, hz, hzy⟩ := hs.mem_applyVars.1 hy
    by_cases hzx : z = x
    · obtain ⟨w, hw, hwx, hwy⟩ := hother y (hzx ▸ hzy)
      exact hs.mem_applyVars.2 ⟨w, SortedSet.mem_filter.2 ⟨hw, decide_eq_true hwx⟩, hwy⟩
    · exact hs.mem_applyVars.2 ⟨z, SortedSet.mem_filter.2 ⟨hz, decide_eq_true hzx⟩, hzy⟩
  have hfewer : (xs.filter (· ≠ x)).size < xs.size := by
    refine SortedSet.size_lt_of_subset (fun y hy => (SortedSet.mem_filter.1 hy).1) hx fun hmem => ?_
    exact of_decide_eq_true (SortedSet.mem_filter.1 hmem).2 rfl
  exact ((SortedSet.size_le_of_subset hsubset).trans hs.size_applyVars_le).trans_lt hfewer

/-- Every equality costs a variable. -/
theorem Solved.size_applyVars_lt (he : e.Solved xs) (hne : ¬e.isEmpty = true) :
    (e.applyVars xs).size < xs.size := by
  obtain ⟨x, hx⟩ : ∃ x, e.applyVar x ≠ .var x := by
    by_contra! hfixed
    refine hne ?_
    rw [show e = ∅ from ext_applyVar hfixed]
    rfl
  refine SortedSet.size_lt_of_subset (fun y hy => (he.mem_applyVars.1 hy).1) (he.mem_of_moved hx)
    fun hmem => hx (he.mem_applyVars.1 hmem).2

end Substitution

namespace Tree

variable {σ : BuildSettings} {below : Pushdown} {s e bindings : Substitution} {own : SplitCondition}
  {constraint? condition? : Option Expression} {constraint condition : Expression}
  {projected images xs : VarSet} {m optimize : Bool} {child left right t u : Tree}
  {ts us : List Tree} {k n : Nat}

/-- Definitions that have to equal something lie at variables whose images are there without
them. -/
theorem exists_redundant_of_moveDefinitions {childPart : Substitution}
    {bs : List (Variable × Term)} {definitions : SortedMap Variable Term}
    {equalities : List Expression} (hs : s.Flat) (hbs : ∀ b ∈ bs, b.1 ∈ projected)
    (hnodup : (bs.map Prod.fst).Nodup)
    (himages : ∀ b ∈ bs, ∀ y ∈ images, ∃ z ∈ projected, z ≠ b.1 ∧ s.applyVar z = .var y)
    (hdefinitions : ∀ b ∈ bs, ∀ y t, definitions.find? y = some t →
      ∃ z ∈ projected, z ≠ b.1 ∧ s.applyVar z = .var y)
    (h : (moveDefinitions s childPart images bs (definitions, equalities)).2 ≠ equalities) :
    ∃ x ∈ projected, ∀ y, s.applyVar x = .var y →
      ∃ z ∈ projected, z ≠ x ∧ s.applyVar z = .var y := by
  induction bs generalizing definitions with
  | nil => exact absurd rfl h
  | cons b rest ih =>
    obtain ⟨x, t⟩ := b
    rw [List.forall_mem_cons] at hbs himages hdefinitions
    rw [List.map_cons, List.nodup_cons] at hnodup
    rcases Term.eq_var_or_const (hs x) with ⟨y, hy⟩ | ⟨c, hc⟩
    · have hsame {y' : Variable} (hy' : s.applyVar x = .var y') : y' = y :=
        Term.var.inj (hy'.symm.trans hy)
      rw [moveDefinitions] at h
      simp only [hy] at h
      by_cases hyi : y ∈ images
      · exact ⟨x, hbs.1, fun y' hy' => hsame hy' ▸ himages.1 y hyi⟩
      rw [if_neg hyi] at h
      cases hfind : definitions.find? y with
      | some other => exact ⟨x, hbs.1, fun y' hy' => hsame hy' ▸ hdefinitions.1 y other hfind⟩
      | none =>
        rw [hfind] at h
        refine ih hbs.2 hnodup.2 himages.2 (fun b hb z u hz => ?_) h
        rw [SortedMap.find?_insert] at hz
        split at hz
        · next hzy =>
          refine ⟨x, hbs.1, fun hxb => hnodup.1 ?_, hzy ▸ hy⟩
          exact List.mem_map.2 ⟨b, hb, hxb.symm⟩
        · exact hdefinitions.2 b hb z u hz
    · exact ⟨x, hbs.1, fun y hy => by rw [hc] at hy; cases hy⟩

/-- Each of them costs a variable. -/
theorem size_applyVars_lt_of_moveDefinitions {bindings' : Substitution} (hs : s.Flat)
    (hdomain : bindings.domain ⊆ projected) (hsubset : bindings'.domain ⊆ bindings.domain)
    (h : (moveDefinitions s (s.restrict (passedThrough projected bindings))
      ((s.restrict (passedThrough projected bindings)).applyVars (passedThrough projected bindings))
      bindings'.bindings (∅, [])).2 ≠ []) :
    (s.applyVars projected).size < projected.size := by
  have hbound {b : Variable × Term} (hb : b ∈ bindings'.bindings) : b.1 ∈ bindings.domain :=
    hsubset _ (Substitution.mem_domain.2 ⟨b.2, Substitution.mem_bindings.1 hb⟩)
  have himages : ∀ b ∈ bindings'.bindings,
      ∀ y ∈ (s.restrict (passedThrough projected bindings)).applyVars
        (passedThrough projected bindings),
      ∃ z ∈ projected, z ≠ b.1 ∧ s.applyVar z = .var y := by
    intro b hb y hy
    obtain ⟨z, hz, hzy⟩ := (hs.restrict _).mem_applyVars.1 hy
    rw [Substitution.applyVar_restrict, if_pos hz] at hzy
    obtain ⟨hzp, hzd⟩ := mem_passedThrough.1 hz
    exact ⟨z, hzp, fun hzb => hzd (hzb ▸ hbound hb), hzy⟩
  obtain ⟨x, hx, hother⟩ := exists_redundant_of_moveDefinitions hs
    (fun b hb => hdomain _ (hbound hb)) bindings'.domain.nodup himages (fun _ _ _ _ h => by cases h) h
  exact hs.size_applyVars_lt hx hother

-- ---------------------------------------------------------------------------
-- Bounds
-- ---------------------------------------------------------------------------

/-- No node aggregates. -/
def AggregateFree (t : Tree) : Prop := ∀ u ∈ t.nodes, u.isAggregation = false

instance (t : Tree) : Decidable t.AggregateFree := inferInstanceAs (Decidable (∀ u ∈ t.nodes, _))

theorem aggregateFree_iff :
    t.AggregateFree ↔ t.isAggregation = false ∧ ∀ c ∈ t.children, c.AggregateFree := forall_mem_nodes

theorem Core.aggregateFree {f : Fragment} (h : t.Core f) : t.AggregateFree := by
  intro u hu
  have hroot := h u hu
  cases u with
  | aggregate => cases hroot
  | _ => rfl

/-- The tree aggregates nothing, and no more than `n` nodes may come of it. -/
structure Bounded (n : Nat) (t : Tree) : Prop where
  aggregateFree : t.AggregateFree
  growth_le : t.growth ≤ n

theorem Bounded.mono (h : t.Bounded k) (hn : k ≤ n) : t.Bounded n := ⟨h.1, h.2.trans hn⟩

theorem Bounded.of_children (hroot : t.isAggregation = false)
    (hchildren : ∀ c ∈ t.children, c.AggregateFree) (hn : t.growth ≤ n) : t.Bounded n :=
  ⟨aggregateFree_iff.2 ⟨hroot, hchildren⟩, hn⟩

theorem bounded_noRow (hn : 0 < n) : (noRow xs).Bounded n :=
  .of_children rfl (List.forall_mem_nil _) hn

theorem conditionGrowth_pos (n : Nat) : 0 < conditionGrowth n := by
  cases n <;> exact Nat.succ_pos _

theorem growth_pos (t : Tree) : 0 < t.growth := by
  cases t with
  | filter m condition child => exact Nat.add_pos_right _ (conditionGrowth_pos _)
  | _ => exact Nat.succ_pos _

theorem growth_le_growthOf (h : t ∈ ts) : t.growth ≤ growthOf ts := by
  induction ts with
  | nil => cases h
  | cons u us ih =>
    rw [growthOf]
    rcases List.mem_cons.1 h with rfl | h
    · exact Nat.le_add_right _ _
    · exact (ih h).trans (Nat.le_add_left _ _)

theorem growth_lt_of_mem_children {c : Tree} (h : c ∈ t.children) : c.growth < t.growth := by
  cases t with
  | join m condition? ts | union m projected ts =>
    have hle : c.growth ≤ growthOf ts := growth_le_growthOf h
    rw [growth]
    omega
  | leaf m l => cases h
  | leftJoin m condition? left right =>
    rcases List.mem_pair.1 h with rfl | rfl
    all_goals
      rw [growth]
      omega
  | filter m condition child =>
    obtain rfl := List.mem_singleton.1 h
    exact Nat.lt_add_of_pos_right (conditionGrowth_pos _)
  | _ =>
    obtain rfl := List.mem_singleton.1 h
    rw [growth]
    omega

theorem conditionGrowth_mono (h : k ≤ n) : conditionGrowth k ≤ conditionGrowth n := by
  induction h with
  | refl => exact le_rfl
  | step _ ih => exact ih.trans (Nat.le_succ_of_le (Nat.le_mul_of_pos_left _ (Nat.succ_pos _)))

/-- A condition over `n` variables makes up for a construction of `n` variables and a condition over
fewer. -/
theorem le_conditionGrowth (h : k < n) :
    conditionGrowth k + n * conditionGrowth k + 1 ≤ conditionGrowth n := by
  obtain ⟨n, rfl⟩ := Nat.exists_eq_succ_of_ne_zero (Nat.ne_zero_of_lt h)
  have hmono := conditionGrowth_mono (Nat.le_of_lt_succ h)
  calc conditionGrowth k + (n + 1) * conditionGrowth k + 1
      = (n + 2) * conditionGrowth k + 1 := by rw [Nat.add_comm (conditionGrowth k), ← Nat.succ_mul]
    _ ≤ (n + 2) * conditionGrowth n + 1 := Nat.succ_le_succ (Nat.mul_le_mul_left _ hmono)

-- ---------------------------------------------------------------------------
-- Building
-- ---------------------------------------------------------------------------

/-- A condition that is left, above a child. -/
theorem bounded_filterOptional (hu : u.Bounded n) :
    Returns (fun v => v.vars = u.vars ∧ v.Bounded (n + conditionGrowth v.vars.size))
      (σ.filterOptional condition? u) := by
  cases condition? with
  | none => exact .ok ⟨rfl, hu.mono (Nat.le_add_right _ _)⟩
  | some condition =>
    refine BuildSettings.returns_build ⟨rfl, .of_children rfl ?_ ?_⟩
    · exact List.forall_mem_singleton.2 hu.aggregateFree
    · exact Nat.add_le_add_right hu.growth_le _

theorem bounded_join (hus : ∀ u ∈ us, u.AggregateFree) (hn : growthOf us ≤ n) :
    (join m condition? us).Bounded (n + 1 + conditionGrowth (varsOf us).size) := by
  refine .of_children rfl hus ?_
  rw [growth]
  omega

theorem bounded_joinOf (hus : ∀ u ∈ us, u.AggregateFree) (hn : growthOf us ≤ n) :
    Returns (fun v => v.vars = varsOf us ∧ v.Bounded (n + 1 + conditionGrowth v.vars.size))
      (σ.joinOf condition? us) := by
  unfold BuildSettings.joinOf
  split
  · have hunit : oneRow.Bounded (n + 1) :=
      .of_children rfl (List.forall_mem_nil _) (Nat.le_add_left 1 n)
    exact bounded_filterOptional hunit
  · next u =>
    rw [growthOf, growthOf] at hn
    have hu : u.Bounded (n + 1) := ⟨hus u (.head _), by omega⟩
    rw [varsOf_singleton]
    exact bounded_filterOptional hu
  · exact BuildSettings.returns_build ⟨rfl, bounded_join hus hn⟩

/-- The equalities that went down come back above the rest of the condition. -/
theorem bounded_restoreEqualities (he : e.Solved xs) (hvars : u.vars = e.applyVars xs)
    (hu : u.Bounded (n + conditionGrowth u.vars.size)) :
    Returns (Bounded (n + conditionGrowth xs.size)) (σ.restoreEqualities xs e u) := by
  refine .ite (fun hempty => ?_) fun hne => ?_
  · rw [hvars, Substitution.applyVars_of_isEmpty hempty] at hu
    exact .ok hu
  · have hfewer : u.vars.size < xs.size := hvars ▸ he.size_applyVars_lt hne
    have hcondition := le_conditionGrowth hfewer
    have hgrowth := hu.growth_le
    refine BuildSettings.returns_build (.of_children rfl ?_ ?_)
    · exact List.forall_mem_singleton.2 hu.aggregateFree
    · rw [growth]
      omega

/-- A construction of `k` variables under conditions, of which it had a variable more each. -/
theorem bounded_constructOver {definitions : Substitution}
    (hu : u.Bounded (n + (k - projected.size) * conditionGrowth u.vars.size))
    (hprojected : projected.size ≤ k) :
    Returns (Bounded (n + k * conditionGrowth u.vars.size + 1))
      (if definitions.isEmpty ∧ u.vars = projected then .ok u
        else σ.construct projected definitions u) := by
  have hsum : (k - projected.size) * conditionGrowth u.vars.size
      + projected.size * conditionGrowth u.vars.size = k * conditionGrowth u.vars.size := by
    rw [← Nat.add_mul, Nat.sub_add_cancel hprojected]
  have hgrowth := hu.growth_le
  refine .ite (fun _ => .ok (hu.mono (by omega))) fun _ => ?_
  refine BuildSettings.returns_build (.of_children rfl ?_ ?_)
  · exact List.forall_mem_singleton.2 hu.aggregateFree
  · rw [growth]
    omega

-- ---------------------------------------------------------------------------
-- One node
-- ---------------------------------------------------------------------------

/-- No more comes of the trees below once something has been pushed into them. -/
structure KeepsGrowth (σ : BuildSettings) (below : Pushdown) : Prop where
  keepsScope : below.KeepsScope σ
  descend : ∀ {s : Substitution} {constraint? : Option Expression} {optimize : Bool} {t : Tree},
    t.InScope → t.AggregateFree → s.Flat →
      Returns (Bounded t.growth) (below.descend s constraint? optimize t)
  propagate : ∀ {constraint : Expression} {t : Tree}, t.InScope → t.AggregateFree →
    Returns (Bounded t.growth) (below.propagate constraint t)

/-- What becomes of `t` under a substitution: a tree over the images, of which no more comes. -/
structure Grown (s : Substitution) (t u : Tree) : Prop where
  images : u.Over (s.applyVars t.vars)
  bounded : u.Bounded t.growth

theorem Grown.size_vars_le (h : Grown s t u) (hs : s.Flat) : u.vars.size ≤ t.vars.size :=
  h.images.vars ▸ hs.size_applyVars_le

theorem growthOf_le (h : List.Forall₂ (fun t u => u.Bounded t.growth) ts us) :
    growthOf us ≤ growthOf ts := by
  induction h with
  | nil => exact le_rfl
  | cons hu _ ih => exact Nat.add_le_add hu.growth_le ih

theorem growthOf_grown (h : List.Forall₂ (Grown s) ts us) : growthOf us ≤ growthOf ts :=
  growthOf_le (h.imp fun _ _ hu => hu.bounded)

theorem varsOf_grown (h : List.Forall₂ (Grown s) ts us) : varsOf us = s.applyVars (varsOf ts) :=
  varsOf_eq_applyVars (h.imp fun _ _ hu => hu.images)

theorem aggregateFree_grown (h : List.Forall₂ (Grown s) ts us) : ∀ u ∈ us, u.AggregateFree := by
  intro u hu
  obtain ⟨t, -, htu⟩ := exists_of_mem_right h hu
  exact htu.bounded.aggregateFree

section Nodes

variable (hbelow : KeepsGrowth σ below)
include hbelow

theorem KeepsGrowth.grown (ht : t.InScope) (hfree : t.AggregateFree) (hs : s.Flat) :
    Returns (Grown s t) (below.descend s constraint? optimize t) := fun u hu =>
  ⟨(hbelow.keepsScope.descend ht hs).returns u hu, hbelow.descend ht hfree hs u hu⟩

theorem KeepsGrowth.grown_pushSplit (hown : own.equalities.Flat) (ht : t.InScope)
    (hfree : t.AggregateFree) :
    Returns (Grown own.equalities t) (below.pushSplit own constraint? t) := by
  intro u hu
  refine ⟨(hbelow.keepsScope.pushSplit hown ht).returns u hu, ?_⟩
  have hbounded : Returns (Bounded t.growth) (below.pushSplit own constraint? t) := by
    refine .ite (fun _ => hbelow.descend ht hfree hown) fun _ => ?_
    cases constraint? with
    | none => exact .ok ⟨hfree, le_rfl⟩
    | some constraint => exact hbelow.propagate ht hfree
  exact hbounded u hu

omit hbelow in
/-- A filter whose equalities have gone down. -/
theorem bounded_filtered (he : e.Solved xs) (hvars : u.vars = e.applyVars xs) (hu : u.Bounded n) :
    Returns (Bounded (n + conditionGrowth xs.size)) (do
      let filtered ← σ.filterOptional condition? u
      σ.restoreEqualities xs e filtered) :=
  (bounded_filterOptional hu).bind fun _ hv =>
    bounded_restoreEqualities he (hv.1.trans hvars) hv.2

omit hbelow in
/-- A join whose equalities have gone down. -/
theorem bounded_joined (he : e.Solved xs) (hvars : varsOf us = e.applyVars xs)
    (hus : ∀ u ∈ us, u.AggregateFree) (hn : growthOf us ≤ n) :
    Returns (Bounded (n + 1 + conditionGrowth xs.size)) (do
      let joined ← σ.joinOf condition? us
      σ.restoreEqualities xs e joined) :=
  (bounded_joinOf hus hn).bind fun _ hv => bounded_restoreEqualities he (hv.1.trans hvars) hv.2

theorem bounded_propagateFilter (hcondition : condition.vars ⊆ child.vars) (hchild : child.InScope)
    (hfree : child.AggregateFree) :
    Returns (Bounded (filter m condition child).growth)
      (propagateFilter σ below constraint? condition child) := by
  unfold propagateFilter
  dsimp only
  split
  · exact .ok (bounded_noRow (growth_pos _))
  · next own told? hsplit =>
    have hcondition : conditionVars (some condition) ⊆ child.vars := hcondition
    have hown : own.InScope child.vars := Condition.inScope_of_split hcondition
      (fun _ h => keepAggregateEqualities_inScope h _) hsplit
    refine (hbelow.grown_pushSplit hown.solved.flat hchild hfree).bind fun _ hchild' => ?_
    exact bounded_filtered hown.solved hchild'.images.vars hchild'.bounded

theorem bounded_descendFilter (hs : s.Flat) (hcondition : condition.vars ⊆ child.vars)
    (hchild : child.InScope) (hfree : child.AggregateFree) :
    Returns (Bounded (filter m condition child).growth)
      (descendFilter σ below s constraint? optimize condition child) := by
  refine .ite (fun _ => ?_) fun _ => ?_
  · refine (hbelow.grown hchild hfree hs).bind fun _ hchild' => ?_
    refine BuildSettings.returns_build (.of_children rfl ?_ ?_)
    · exact List.forall_mem_singleton.2 hchild'.bounded.aggregateFree
    · exact Nat.add_le_add hchild'.bounded.growth_le
        (conditionGrowth_mono (hchild'.size_vars_le hs))
  split
  · exact .ok (bounded_noRow (growth_pos _))
  · next own told? hsplit =>
    have himages : conditionVars (some (s.applyExpression condition)) ⊆ s.applyVars child.vars :=
      vars_applyExpression_images hcondition
    have hown : own.InScope (s.applyVars child.vars) :=
      Condition.inScope_of_split himages (fun _ h => h) hsplit
    refine (hbelow.grown hchild hfree (hown.solved.flat.compose hs)).bind fun _ hchild' => ?_
    have hvars := hchild'.images.vars
    rw [Substitution.applyVars_compose] at hvars
    refine (bounded_filtered hown.solved hvars hchild'.bounded).imp fun _ h => h.mono ?_
    exact Nat.add_le_add_left (conditionGrowth_mono hs.size_applyVars_le) _

theorem bounded_propagateJoin (hcondition : conditionVars condition? ⊆ varsOf ts)
    (hts : ∀ t ∈ ts, t.InScope) (hfree : ∀ t ∈ ts, t.AggregateFree) :
    Returns (Bounded (join m condition? ts).growth)
      (propagateJoin σ below constraint? condition? ts) := by
  unfold propagateJoin
  dsimp only
  split
  · exact .ok (bounded_noRow (growth_pos _))
  · next own told? hsplit =>
    have hown : own.InScope (varsOf ts) := Condition.inScope_of_split hcondition
      (fun _ h => keepAggregateEqualities_inScope h _) hsplit
    refine (Returns.mapM fun t ht =>
      hbelow.grown_pushSplit hown.solved.flat (hts t ht) (hfree t ht)).bind fun us hus => ?_
    refine (bounded_joined hown.solved (varsOf_grown hus) (aggregateFree_grown hus)
      (growthOf_grown hus)).imp fun _ h => h.mono ?_
    rw [growth]
    omega

theorem bounded_descendJoin (hs : s.Flat) (hcondition : conditionVars condition? ⊆ varsOf ts)
    (hts : ∀ t ∈ ts, t.InScope) (hfree : ∀ t ∈ ts, t.AggregateFree) :
    Returns (Bounded (join m condition? ts).growth)
      (descendJoin σ below s constraint? optimize condition? ts) := by
  refine .ite (fun _ => ?_) fun _ => ?_
  · refine (Returns.mapM fun t ht => hbelow.grown (hts t ht) (hfree t ht) hs).bind fun us hus => ?_
    refine BuildSettings.returns_build
      ((bounded_join (aggregateFree_grown hus) (growthOf_grown hus)).mono ?_)
    have hcondition := conditionGrowth_mono ((varsOf_grown hus) ▸ hs.size_applyVars_le)
    rw [growth]
    omega
  split
  · exact .ok (bounded_noRow (growth_pos _))
  · next own told? hsplit =>
    have hown : own.InScope (s.applyVars (varsOf ts)) :=
      Condition.inScope_of_split (conditionVars_images hcondition) (fun _ h => h) hsplit
    refine (Returns.mapM fun t ht => hbelow.grown (hts t ht) (hfree t ht)
      (hown.solved.flat.compose hs)).bind fun us hus => ?_
    have hvars := varsOf_grown hus
    rw [Substitution.applyVars_compose] at hvars
    refine (bounded_joined hown.solved hvars (aggregateFree_grown hus)
      (growthOf_grown hus)).imp fun _ h => h.mono ?_
    have hsize : (s.applyVars (varsOf ts)).size ≤ (varsOf ts).size := hs.size_applyVars_le
    have hcondition := conditionGrowth_mono hsize
    rw [growth]
    omega

/-- The child is renamed, at most. -/
theorem bounded_renameHidden (hchild : child.InScope) (hfree : child.AggregateFree) :
    Returns (fun r => r.1.InScope ∧ r.1.vars.size ≤ child.vars.size ∧ r.1.Bounded child.growth ∧
        r.2.domain ⊆ bindings.domain)
      (renameHidden below s optimize projected bindings child) := by
  refine .ite (fun _ => .ok ⟨hchild, le_rfl, ⟨hfree, le_rfl⟩, fun _ hx => hx⟩) fun _ => ?_
  have hnames := NameSupply.renames_freshRenaming
    (NameSupply.ofKnown (child.knownVars ∪ projected ∪ s.rangeVars))
    (child.vars.filter fun x => x ∉ passedThrough projected bindings ∧ x ∈ s.rangeVars)
  refine (hbelow.grown hchild hfree hnames.flat).bind fun u hu => .ok ?_
  exact ⟨hu.images.inScope, hu.size_vars_le hnames.flat, hu.bounded,
    Substitution.domain_mapTerms_subset⟩

/-- The construction under a substitution. The definitions that have to be equal cost it as many
variables. -/
theorem bounded_descendConstruct (hs : s.Flat)
    (hroot : (construct m projected bindings child).RootInScope) (hchild : child.InScope)
    (hfree : child.AggregateFree) :
    Returns (Bounded (construct m projected bindings child).growth)
      (descendConstruct σ below s constraint? optimize projected bindings child) := by
  have hdomain : bindings.domain ⊆ projected := Substitution.domain_subset_of_fixed hroot.fixed
  unfold descendConstruct
  refine (bounded_renameHidden hbelow hchild hfree).bind ?_
  rintro ⟨child₁, bindings₁⟩ ⟨hscope, hsize, hbounded, hsubset⟩
  have hpassed := hs.restrict (passedThrough projected bindings)
  refine (hbelow.grown hscope hbounded.aggregateFree hpassed).bind fun child' hchild' => ?_
  have hsize' : child'.vars.size ≤ child.vars.size := (hchild'.size_vars_le hpassed).trans hsize
  have hbounded' : child'.Bounded child.growth := hchild'.bounded.mono hbounded.growth_le
  have hfinish {definitions : Substitution} {u : Tree} (hvars : u.vars = child'.vars)
      (hu : u.Bounded (child.growth
        + (projected.size - (s.applyVars projected).size) * conditionGrowth child'.vars.size)) :
      Returns (Bounded (construct m projected bindings child).growth)
        (if definitions.isEmpty ∧ u.vars = s.applyVars projected then .ok u
          else σ.construct (s.applyVars projected) definitions u) := by
    rw [← hvars] at hu
    refine (bounded_constructOver hu hs.size_applyVars_le).imp fun _ h => h.mono ?_
    have hmul := Nat.mul_le_mul_left projected.size (conditionGrowth_mono hsize')
    rw [hvars, growth]
    omega
  have hsame := hbounded'.mono (Nat.le_add_right child.growth
    ((projected.size - (s.applyVars projected).size) * conditionGrowth child'.vars.size))
  dsimp only
  split
  · exact hfinish rfl hsame
  · next condition hcondition =>
    have hfewer : (s.applyVars projected).size < projected.size := by
      refine size_applyVars_lt_of_moveDefinitions hs hdomain hsubset fun hnil => ?_
      rw [hnil] at hcondition
      cases hcondition
    have hfilter (e : Expression) : Returns (fun u => u.vars = child'.vars ∧ u.Bounded
        (child.growth + (projected.size - (s.applyVars projected).size)
          * conditionGrowth child'.vars.size)) (σ.filter e child') := by
      refine BuildSettings.returns_build ⟨rfl, .of_children rfl ?_ ?_⟩
      · exact List.forall_mem_singleton.2 hbounded'.aggregateFree
      · exact Nat.add_le_add hbounded'.growth_le
          (Nat.le_mul_of_pos_left _ (Nat.sub_pos_of_lt hfewer))
    refine .ite (fun _ => ?_) fun _ => (hfilter _).bind fun _ hu => hfinish hu.1 hu.2
    split
    · exact hfinish rfl hsame
    · exact .ok (bounded_noRow (growth_pos _))
    · exact .ok (bounded_noRow (growth_pos _))
    · exact (hfilter _).bind fun _ hu => hfinish hu.1 hu.2

omit hbelow in
/-- A left join of the two sides, over no more than `p` variables. -/
theorem bounded_leftJoin {p : Nat} (hleft : left.Bounded k) (hright : right.Bounded n)
    (hsize : (left.vars ∪ right.vars).size ≤ p) :
    Returns (Bounded (k + n + (p + 1) * conditionGrowth p + 2))
      (σ.leftJoin condition? left right) := by
  have hmul := Nat.mul_le_mul (Nat.add_le_add_right hsize 1) (conditionGrowth_mono hsize)
  have hleftGrowth := hleft.growth_le
  have hrightGrowth := hright.growth_le
  refine BuildSettings.returns_build (.of_children rfl ?_ ?_)
  · exact List.forall_mem_cons.2
      ⟨hleft.aggregateFree, List.forall_mem_singleton.2 hright.aggregateFree⟩
  · rw [growth]
    omega

omit hbelow in
/-- The left side padded with NULLs. -/
theorem bounded_padRight {p : Nat} (hleft : left.Bounded k)
    (hsize : (left.vars ∪ right.vars).size ≤ p) :
    Returns (Bounded (k + n + (p + 1) * conditionGrowth p + 2))
      (σ.padWithNulls left (rightSpecific left right)) := by
  refine .ite (fun _ => .ok (hleft.mono (by omega))) fun _ => ?_
  have hprojected : (left.vars ∪ rightSpecific left right).size ≤ p := by
    refine (SortedSet.size_le_of_subset fun x hx => ?_).trans hsize
    exact SortedSet.mem_union.2
      ((SortedSet.mem_union.1 hx).imp_right fun h => (SortedSet.mem_diff.1 h).1)
  have hvars : left.vars.size ≤ p :=
    (SortedSet.size_le_of_subset SortedSet.subset_union_left).trans hsize
  have hmul := Nat.mul_le_mul hprojected (conditionGrowth_mono hvars)
  have hgrowth := hleft.growth_le
  refine BuildSettings.returns_build (.of_children rfl ?_ ?_)
  · exact List.forall_mem_singleton.2 hleft.aggregateFree
  · rw [growth, Nat.succ_mul]
    omega

omit hbelow in
theorem growth_joinPair_lt : (join false condition? [left, right]).growth
    < (leftJoin m condition? left right).growth := by
  rw [growth, growth, growthOf, growthOf, growthOf, varsOf_pair, Nat.succ_mul]
  omega

omit hbelow in
theorem aggregateFree_joinPair (h : (leftJoin m condition? left right).AggregateFree) :
    (join false condition? [left, right]).AggregateFree :=
  aggregateFree_iff.2 ⟨rfl, (aggregateFree_iff.1 h).2⟩

theorem bounded_descendLeftJoin (hs : s.Flat) (ht : (leftJoin m condition? left right).InScope)
    (hfree : (leftJoin m condition? left right).AggregateFree) :
    Returns (Bounded (leftJoin m condition? left right).growth)
      (descendLeftJoin σ below s constraint? optimize condition? left right) := by
  obtain ⟨-, hleft, hright⟩ := inScope_leftJoin.1 ht
  obtain ⟨-, hchildren⟩ := aggregateFree_iff.1 hfree
  refine .ite (fun _ => ?_) fun _ => ?_
  · refine Returns.bind
      (BuildSettings.returns_build (P := (· = join false condition? [left, right])) rfl) ?_
    rintro _ rfl
    exact (hbelow.descend (inScope_join_pair.2 ht) (aggregateFree_joinPair hfree) hs).imp
      fun _ h => h.mono growth_joinPair_lt.le
  refine (hbelow.grown hleft (hchildren left (.head _)) hs).bind fun left' hleft' => ?_
  refine (hbelow.grown hright (hchildren right (.tail _ (.head _))) hs).bind fun right' hright' => ?_
  have hsize : (left'.vars ∪ right'.vars).size ≤ (left.vars ∪ right.vars).size := by
    rw [hleft'.images.vars, hright'.images.vars, ← Substitution.applyVars_union]
    exact hs.size_applyVars_le
  have hjoin (condition? : Option Expression) :
      Returns (Bounded (leftJoin m condition? left right).growth)
        (σ.leftJoin condition? left' right') :=
    bounded_leftJoin hleft'.bounded hright'.bounded hsize
  have hpadded : Returns (Bounded (leftJoin m condition? left right).growth)
      (σ.padWithNulls left' (rightSpecific left' right')) :=
    bounded_padRight hleft'.bounded hsize
  refine .ite (fun _ => hjoin _) fun _ => ?_
  refine .ite (fun _ => .ok (bounded_noRow (growth_pos _))) fun _ => .ite (fun _ => hpadded) fun _ => ?_
  split
  · exact hjoin none
  · exact hjoin none
  · exact hpadded
  · exact hpadded
  · exact hjoin _

theorem bounded_propagateLeftJoin (ht : (leftJoin m condition? left right).InScope)
    (hfree : (leftJoin m condition? left right).AggregateFree) :
    Returns (Bounded (leftJoin m condition? left right).growth)
      (propagateLeftJoin σ below constraint condition? left right) := by
  obtain ⟨-, hleft, hright⟩ := inScope_leftJoin.1 ht
  obtain ⟨-, hchildren⟩ := aggregateFree_iff.1 hfree
  refine .ite (fun _ => ?_) fun _ => ?_
  · refine Returns.bind
      (BuildSettings.returns_build (P := (· = join false condition? [left, right])) rfl) ?_
    rintro _ rfl
    exact (hbelow.propagate (inScope_join_pair.2 ht) (aggregateFree_joinPair hfree)).imp
      fun _ h => h.mono growth_joinPair_lt.le
  · have hright' : right.Bounded right.growth := ⟨hchildren right (.tail _ (.head _)), le_rfl⟩
    have hjoin (left' : Tree) (hleft' : left'.vars = left.vars ∧ left'.Bounded left.growth) :
        Returns (Bounded (leftJoin m condition? left right).growth)
          (σ.leftJoin condition? left' right) :=
      bounded_leftJoin hleft'.2 hright' (by rw [hleft'.1])
    have hfreeLeft := hchildren left (.head _)
    dsimp only
    split
    · refine Returns.bind (fun u hu => ?_) hjoin
      exact ⟨((hbelow.keepsScope.propagate hleft).returns u hu).vars,
        hbelow.propagate hleft hfreeLeft u hu⟩
    · exact hjoin left ⟨rfl, hfreeLeft, le_rfl⟩

theorem bounded_descendRoot (hs : s.Flat) (ht : t.InScope) (hfree : t.AggregateFree) :
    Returns (Bounded t.growth) (descendRoot σ below s constraint? optimize t) := by
  obtain ⟨hroot, hscope⟩ := inScope_iff.1 ht
  obtain ⟨haggregation, hchildren⟩ := aggregateFree_iff.1 hfree
  have hgrown {c : Tree} (hc : c ∈ t.children) {constraint? : Option Expression} :
      Returns (Grown s c) (below.descend s constraint? optimize c) :=
    hbelow.grown (hscope c hc) (hchildren c hc) hs
  cases t with
  | construct m projected bindings child =>
    exact bounded_descendConstruct hbelow hs hroot (hscope child (.head _))
      (hchildren child (.head _))
  | filter m condition child =>
    exact bounded_descendFilter hbelow hs hroot (hscope child (.head _)) (hchildren child (.head _))
  | join m condition? ts => exact bounded_descendJoin hbelow hs hroot.2 hscope hchildren
  | leftJoin m condition? left right => exact bounded_descendLeftJoin hbelow hs ht hfree
  | union m projected ts =>
    refine (Returns.mapM fun t ht => hgrown ht).bind fun us hus => ?_
    exact BuildSettings.returns_build (.of_children rfl (aggregateFree_grown hus)
      (Nat.succ_le_succ (growthOf_grown hus)))
  | distinct m child | slice m window child | orderBy m keys child =>
    refine (hgrown (.head _)).bind fun u hu => ?_
    exact BuildSettings.returns_build (.of_children rfl
      (List.forall_mem_singleton.2 hu.bounded.aggregateFree)
      (Nat.succ_le_succ hu.bounded.growth_le))
  | aggregate m grouping bindings child => cases haggregation
  | leaf m l =>
    cases l with
    | native query => exact .error
    | _ => exact .ok (.of_children rfl (List.forall_mem_nil _) le_rfl)

theorem bounded_descendNode (hs : s.Flat) (ht : t.InScope) (hfree : t.AggregateFree) :
    Returns (Bounded t.growth) (descendNode σ below s constraint? optimize t) := by
  refine descendNode_rule hs ?_ (fun _ _ _ => .ok (bounded_noRow (growth_pos t)))
    (fun _ => .ok ⟨hfree, le_rfl⟩) (fun _ _ _ => hbelow.propagate ht hfree)
    fun _ => bounded_descendRoot hbelow (hs.restrict _) ht hfree
  rintro m q rfl
  exact inScope_leaf.1 ht

/-- A node that the constraint goes through as it is. -/
theorem bounded_rebuild (ht : t.InScope) (hfree : t.AggregateFree)
    (hbuild : ∀ us, List.Forall₂ (fun c u => u.Bounded c.growth) t.children us →
      Returns (Bounded t.growth) (t.withChildren σ us)) :
    Returns (Bounded t.growth)
      (do rebuild σ t (← t.children.mapM (below.propagate constraint))) := by
  have hscope := (inScope_iff.1 ht).2
  have hchildren := (aggregateFree_iff.1 hfree).2
  refine (Returns.mapM fun c hc => hbelow.propagate (hscope c hc) (hchildren c hc)).bind
    fun us hus => ?_
  exact .ite (fun _ => .ok ⟨hfree, le_rfl⟩) fun _ => hbuild us hus

theorem bounded_propagateNode (ht : t.InScope) (hfree : t.AggregateFree) :
    Returns (Bounded t.growth) (propagateNode σ below constraint t) := by
  obtain ⟨hroot, hscope⟩ := inScope_iff.1 ht
  obtain ⟨haggregation, hchildren⟩ := aggregateFree_iff.1 hfree
  have hkept : t.Bounded t.growth := ⟨hfree, le_rfl⟩
  cases t with
  | construct m projected bindings child =>
    have hbuild (u : Tree) (hu : u.vars = child.vars ∧ u.Bounded child.growth) :
        Returns (Bounded (construct m projected bindings child).growth)
          (σ.construct projected bindings u) := by
      refine BuildSettings.returns_build (.of_children rfl ?_ ?_)
      · exact List.forall_mem_singleton.2 hu.2.aggregateFree
      · rw [growth, growth, hu.1]
        exact Nat.succ_le_succ (Nat.add_le_add_right hu.2.growth_le _)
    have hchild := hscope child (.head _)
    have hfreeChild := hchildren child (.head _)
    unfold propagateNode propagateConstruct
    dsimp only
    split
    · exact hbuild child ⟨rfl, hfreeChild, le_rfl⟩
    · refine Returns.bind (fun u hu => ?_) hbuild
      exact ⟨((hbelow.keepsScope.propagate hchild).returns u hu).vars,
        hbelow.propagate hchild hfreeChild u hu⟩
  | filter m condition child =>
    exact bounded_propagateFilter hbelow hroot (hscope child (.head _)) (hchildren child (.head _))
  | join m condition? ts => exact bounded_propagateJoin hbelow hroot.2 hscope hchildren
  | leftJoin m condition? left right => exact bounded_propagateLeftJoin hbelow ht hfree
  | union m projected ts =>
    refine bounded_rebuild hbelow ht hfree fun us hus => .ite (fun _ => ?_) fun _ => .error
    refine BuildSettings.returns_build (.of_children rfl (fun u hu => ?_) ?_)
    · obtain ⟨t, -, htu⟩ := exists_of_mem_right hus hu
      exact htu.aggregateFree
    · exact Nat.succ_le_succ (growthOf_le hus)
  | distinct m child | orderBy m keys child =>
    refine bounded_rebuild hbelow ht hfree fun us hus => ?_
    obtain ⟨u, _, hu, hnil, rfl⟩ := List.forall₂_cons_left_iff.1 hus
    cases hnil
    exact BuildSettings.returns_build (.of_children rfl
      (List.forall_mem_singleton.2 hu.aggregateFree) (Nat.succ_le_succ hu.growth_le))
  | slice m window child => exact .ok hkept
  | aggregate m grouping bindings child => cases haggregation
  | leaf m l =>
    cases l with
    | native query => exact .error
    | _ => exact .ok hkept

end Nodes

-- ---------------------------------------------------------------------------
-- Any depth
-- ---------------------------------------------------------------------------

theorem keepsGrowth_descendTo (σ : BuildSettings) (depth : Nat) :
    KeepsGrowth σ ⟨descendTo σ depth, propagateTo σ depth⟩ := by
  induction depth with
  | zero => exact ⟨keepsScope_descendTo σ 0, fun _ _ _ => .error, fun _ _ => .error⟩
  | succ depth ih =>
    exact ⟨keepsScope_descendTo σ (depth + 1),
      fun ht hfree hs => bounded_descendNode ih hs ht hfree,
      fun ht hfree => bounded_propagateNode ih ht hfree⟩

end Tree

end QueryAlgebra
