import Mathlib.Algebra.GroupWithZero.Nat
import Mathlib.Algebra.Order.BigOperators.Group.List
import QueryAlgebra.Proofs.Nodes
import QueryAlgebra.Proofs.Rewriting
import QueryAlgebra.Proofs.Validity
import QueryAlgebra.Tree.Normalize

/-!
# Rewriting does not duplicate atoms

`Tree.atomCount` is the number of leaves that read a relation of the database. What is pushed through a
tree leaves it with at most as many of them, and so does every rule of the normal form: each rule
passes its subtrees on at most once, however often it rewrites them.

A rewriting is said to stay `Within` a number of atoms, so that a tree that is rewritten twice needs no
extra care. Main statement: `Tree.within_normalize`.
-/

namespace QueryAlgebra

open QueryAlgebra.Except (Ends)

-- ---------------------------------------------------------------------------
-- Counting
-- ---------------------------------------------------------------------------

namespace Tree

mutual

/-- The number of atoms over relations of the database. -/
def atomCount : Tree → Nat
  | construct _ _ _ child | filter _ _ child | distinct _ child | slice _ _ child => atomCount child
  | orderBy _ _ child | aggregate _ _ _ child => atomCount child
  | join _ _ children | union _ _ children => atomCountOf children
  | leftJoin _ _ left right => atomCount left + atomCount right
  | leaf _ (.extensional _) => 1
  | leaf _ _ => 0

/-- The number of atoms in all trees together. -/
def atomCountOf : List Tree → Nat
  | [] => 0
  | t :: ts => atomCount t + atomCountOf ts

end

theorem atomCountOf_eq_sum (ts : List Tree) : atomCountOf ts = (ts.map atomCount).sum := by
  induction ts with
  | nil => rfl
  | cons t ts ih => rw [atomCountOf, ih, List.map_cons, List.sum_cons]

theorem atomCountOf_append (ts us : List Tree) :
    atomCountOf (ts ++ us) = atomCountOf ts + atomCountOf us := by
  simp [atomCountOf_eq_sum]

theorem atomCountOf_le {ts us : List Tree}
    (h : List.Forall₂ (fun t u => u.atomCount ≤ t.atomCount) ts us) :
    atomCountOf us ≤ atomCountOf ts := by
  induction h with
  | nil => rfl
  | cons hle _ ih => exact Nat.add_le_add hle ih

theorem atomCount_unmarked (t : Tree) : t.unmarked.atomCount = t.atomCount := by
  induction t using inductionOn with
  | step t ih =>
    have hall (ts : List Tree) (h : ∀ t ∈ ts, t.unmarked.atomCount = t.atomCount) :
        atomCountOf (ts.map unmarked) = atomCountOf ts := by
      rw [atomCountOf_eq_sum, atomCountOf_eq_sum, List.map_map]
      exact congrArg List.sum (List.map_congr_left h)
    cases t with
    | join _ condition? ts | union _ projected ts => simpa [unmarked, atomCount] using hall ts ih
    | leaf _ l => cases l <;> rfl
    | _ => simp_all [unmarked, atomCount, children]

theorem atomCount_withMark (mark : Bool) (t : Tree) : (t.withMark mark).atomCount = t.atomCount := by
  cases t with
  | leaf _ l => cases l <;> rfl
  | _ => rfl

end Tree

/-- The computation gives a tree with at most so many atoms. -/
def Within (n : Nat) : Except Error Tree → Prop := Ends (fun t => t.atomCount ≤ n) fun _ => True

/-- The rewriting gives a tree with at most so many atoms. -/
def Rewrite.Within (n : Nat) : Rewrite Tree → Prop :=
  Rewrite.Ends (fun t => t.atomCount ≤ n) fun _ => True

variable {σ : BuildSettings} {below push : Pushdown} {t child left right : Tree} {ts : List Tree}
  {l m n : Nat}

-- ---------------------------------------------------------------------------
-- Building
-- ---------------------------------------------------------------------------

namespace BuildSettings

theorem within_build (h : t.atomCount ≤ n) : Within n (σ.build t) :=
  ends_build h fun _ _ _ => trivial

theorem within_filter {condition : Expression} (h : t.atomCount ≤ n) :
    Within n (σ.filter condition t) := within_build h

theorem within_join {condition? : Option Expression} (h : Tree.atomCountOf ts ≤ n) :
    Within n (σ.join condition? ts) := within_build h

theorem within_filterOptional {condition? : Option Expression} (h : t.atomCount ≤ n) :
    Within n (σ.filterOptional condition? t) := by
  cases condition? with
  | none => exact h
  | some condition => exact within_build h

theorem within_restoreEqualities {xs : VarSet} {s : Substitution} (h : t.atomCount ≤ n) :
    Within n (σ.restoreEqualities xs s t) :=
  .ite (fun _ => h) fun _ => within_build h

theorem within_padWithNulls {xs : VarSet} (h : t.atomCount ≤ n) :
    Within n (σ.padWithNulls t xs) :=
  .ite (fun _ => h) fun _ => within_build h

theorem within_joinOf {condition? : Option Expression} (h : Tree.atomCountOf ts ≤ n) :
    Within n (σ.joinOf condition? ts) := by
  unfold joinOf
  split
  · exact within_filterOptional (Nat.zero_le _)
  · exact within_filterOptional h
  · exact within_build h

end BuildSettings

open BuildSettings

-- ---------------------------------------------------------------------------
-- Pushing down
-- ---------------------------------------------------------------------------

/-- What is pushed below leaves each tree with at most its atoms. -/
structure Pushdown.KeepsAtoms (below : Pushdown) : Prop where
  descend : ∀ {n s constraint? optimize t}, t.atomCount ≤ n →
    Within n (below.descend s constraint? optimize t)
  propagate : ∀ {n constraint t}, t.atomCount ≤ n → Within n (below.propagate constraint t)

section Pushing

variable (hbelow : below.KeepsAtoms)
include hbelow

theorem Pushdown.KeepsAtoms.pushSplit {own : SplitCondition} {constraint? : Option Expression}
    (h : t.atomCount ≤ n) : Within n (below.pushSplit own constraint? t) := by
  refine .ite (fun _ => hbelow.descend h) fun _ => ?_
  cases constraint? with
  | none => exact h
  | some constraint => exact hbelow.propagate h

namespace Tree

omit hbelow in
/-- Trees that are pushed through one by one. -/
theorem within_mapM {f : Tree → Except Error Tree} (hf : ∀ t, Within t.atomCount (f t))
    (h : atomCountOf ts ≤ n) :
    Ends (fun us => atomCountOf us ≤ n) (fun _ => True) (ts.mapM f) :=
  (Ends.mapM fun t _ => hf t).imp fun _ hus => (atomCountOf_le hus).trans h

omit hbelow in
theorem within_withChildren (h : atomCountOf ts ≤ n) (hleaf : t.isLeaf = false) :
    Within n (t.withChildren σ ts) := by
  have hone (child : Tree) (h : atomCountOf [child] ≤ n) : child.atomCount ≤ n := h
  have htwo (l r : Tree) (h : atomCountOf [l, r] ≤ n) : l.atomCount + r.atomCount ≤ n := h
  unfold withChildren
  split
  case h_7 left right => exact within_build (htwo left right h)
  case h_8 => cases hleaf
  case h_9 | h_10 => exact .ite (fun _ => within_build h) fun _ => trivial
  case h_11 => trivial
  all_goals exact within_build (hone _ h)

theorem within_descendConstruct {s : Substitution} {constraint? : Option Expression}
    {optimize : Bool} {projected : VarSet} {bindings : Substitution} (h : child.atomCount ≤ n) :
    Within n (descendConstruct σ below s constraint? optimize projected bindings child) := by
  have hrename : Ends (fun r => r.1.atomCount ≤ n) (fun _ => True)
      (renameHidden below s optimize projected bindings child) :=
    .ite (fun _ => h) fun _ => (hbelow.descend h).bind fun _ hrenamed => hrenamed
  refine hrename.bind fun r hr => (hbelow.descend hr).bind fun child' hchild => ?_
  have hfinish {projected : VarSet} {definitions : Substitution} (t : Tree)
      (ht : t.atomCount ≤ n) :
      Within n (if definitions.isEmpty ∧ t.vars = projected then .ok t
        else σ.construct projected definitions t) :=
    .ite (fun _ => ht) fun _ => within_build ht
  dsimp only
  split
  · exact hfinish _ hchild
  · refine .ite (fun _ => ?_) fun _ => ?_
    · split
      · exact hfinish _ hchild
      · exact Nat.zero_le n
      · exact Nat.zero_le n
      · exact (within_filter hchild).bind fun t ht => hfinish t ht
    · exact (within_filter hchild).bind fun t ht => hfinish t ht

theorem within_propagateConstruct {constraint : Expression} {projected : VarSet}
    {bindings : Substitution} (h : child.atomCount ≤ n) :
    Within n (propagateConstruct σ below constraint projected bindings child) := by
  unfold propagateConstruct
  split
  · exact within_build h
  · exact (hbelow.propagate h).bind fun _ hchild => within_build hchild

theorem within_propagateFilter {constraint? : Option Expression} {condition : Expression}
    (h : child.atomCount ≤ n) :
    Within n (propagateFilter σ below constraint? condition child) := by
  unfold propagateFilter
  dsimp only
  split
  · exact Nat.zero_le n
  · exact (hbelow.pushSplit h).bind fun _ hchild =>
      (within_filterOptional hchild).bind fun _ => within_restoreEqualities

theorem within_descendFilter {s : Substitution} {constraint? : Option Expression}
    {optimize : Bool} {condition : Expression} (h : child.atomCount ≤ n) :
    Within n (descendFilter σ below s constraint? optimize condition child) := by
  refine .ite (fun _ => (hbelow.descend h).bind fun _ => within_filter) fun _ => ?_
  split
  · exact Nat.zero_le n
  · exact (hbelow.descend h).bind fun _ hchild =>
      (within_filterOptional hchild).bind fun _ => within_restoreEqualities

theorem within_propagateJoin {constraint? condition? : Option Expression}
    (h : atomCountOf ts ≤ n) :
    Within n (propagateJoin σ below constraint? condition? ts) := by
  unfold propagateJoin
  dsimp only
  split
  · exact Nat.zero_le n
  · exact (within_mapM (fun _ => hbelow.pushSplit le_rfl) h).bind fun _ hts =>
      (within_joinOf hts).bind fun _ => within_restoreEqualities

theorem within_descendJoin {s : Substitution} {constraint? : Option Expression} {optimize : Bool}
    {condition? : Option Expression} (h : atomCountOf ts ≤ n) :
    Within n (descendJoin σ below s constraint? optimize condition? ts) := by
  have hmapM {s constraint? optimize} := within_mapM (f := below.descend s constraint? optimize)
    (fun _ => hbelow.descend le_rfl) h
  refine .ite (fun _ => hmapM.bind fun _ => within_join) fun _ => ?_
  split
  · exact Nat.zero_le n
  · exact hmapM.bind fun _ hts => (within_joinOf hts).bind fun _ => within_restoreEqualities

theorem within_descendLeftJoin {s : Substitution} {constraint? : Option Expression}
    {optimize : Bool} {condition? : Option Expression}
    (h : left.atomCount + right.atomCount ≤ n) :
    Within n (descendLeftJoin σ below s constraint? optimize condition? left right) := by
  have hpair : atomCountOf [left, right] ≤ n := h
  refine .ite (fun _ => (within_join hpair).bind fun _ => hbelow.descend) fun _ => ?_
  refine (hbelow.descend le_rfl).bind fun left' hleft => ?_
  refine (hbelow.descend le_rfl).bind fun right' hright => ?_
  have hboth {m : Bool} {condition? : Option Expression} :
      (leftJoin m condition? left' right').atomCount ≤ n :=
    (Nat.add_le_add hleft hright).trans h
  have hpadded : left'.atomCount ≤ n := hleft.trans ((Nat.le_add_right _ _).trans h)
  refine .ite (fun _ => within_build hboth) fun _ => ?_
  refine .ite (fun _ => Nat.zero_le n) fun _ => ?_
  refine .ite (fun _ => within_padWithNulls hpadded) fun _ => ?_
  split
  · exact within_build hboth
  · exact within_build hboth
  · exact within_padWithNulls hpadded
  · exact within_padWithNulls hpadded
  · exact within_build hboth

theorem within_propagateLeftJoin {constraint : Expression} {condition? : Option Expression}
    (h : left.atomCount + right.atomCount ≤ n) :
    Within n (propagateLeftJoin σ below constraint condition? left right) := by
  have hpair : atomCountOf [left, right] ≤ n := h
  refine .ite (fun _ => (within_join hpair).bind fun _ => hbelow.propagate) fun _ => ?_
  have hbuild (left' : Tree) (hleft : left'.atomCount ≤ left.atomCount) :
      Within n (σ.leftJoin condition? left' right) :=
    within_build ((Nat.add_le_add_right hleft _).trans h)
  dsimp only
  split
  · exact (hbelow.propagate le_rfl).bind hbuild
  · exact hbuild left le_rfl

theorem within_descendAggregate {s : Substitution} {optimize : Bool} {grouping : VarSet}
    {bindings : Substitution} (h : child.atomCount ≤ n) :
    Within n (descendAggregate σ below s optimize grouping bindings child) := by
  have hsame : Within n (.ok child) := h
  unfold descendAggregate
  refine .ite (fun _ => hsame.bind fun child hchild => ?_) fun _ =>
    (hbelow.descend h).bind fun child hchild => ?_
  all_goals
    refine (hbelow.descend hchild).bind fun child' hchild => ?_
    have haggregate {grouping : VarSet} {bindings : Substitution} :
        Within n (σ.aggregate grouping bindings child') := within_build hchild
    refine haggregate.bind fun aggregation h => ?_
    split
    · exact h
    · exact (within_filter h).bind fun _ h => within_build h

theorem within_descendRoot {s : Substitution} {constraint? : Option Expression} {optimize : Bool}
    (h : t.atomCount ≤ n) : Within n (descendRoot σ below s constraint? optimize t) := by
  cases t with
  | construct m projected bindings child => exact within_descendConstruct hbelow h
  | filter m condition child => exact within_descendFilter hbelow h
  | join m condition? ts => exact within_descendJoin hbelow h
  | leftJoin m condition? left right => exact within_descendLeftJoin hbelow h
  | union m projected ts =>
    exact (within_mapM (fun _ => hbelow.descend le_rfl) h).bind fun _ h => within_build h
  | distinct m child => exact Ends.bind (hbelow.descend h) fun _ h => within_build h
  | slice m window child => exact Ends.bind (hbelow.descend h) fun _ h => within_build h
  | orderBy m keys child => exact Ends.bind (hbelow.descend h) fun _ h => within_build h
  | aggregate m grouping bindings child => exact within_descendAggregate hbelow h
  | leaf m l =>
    cases l with
    | native query => trivial
    | _ => exact h

theorem within_descendNode {s : Substitution} {constraint? : Option Expression} {optimize : Bool}
    (h : t.atomCount ≤ n) : Within n (descendNode σ below s constraint? optimize t) := by
  unfold descendNode
  dsimp only
  split
  · trivial
  · refine .ite (fun _ => trivial) fun _ => .ite (fun _ => Nat.zero_le n) fun _ => ?_
    refine .ite (fun _ => ?_) fun _ => within_descendRoot hbelow h
    split
    · exact hbelow.propagate h
    · exact h

theorem within_propagateNode {constraint : Expression} (h : t.atomCount ≤ n) :
    Within n (propagateNode σ below constraint t) := by
  have hrebuild {t : Tree} (ht : t.atomCount ≤ n) (hts : atomCountOf t.children ≤ n)
      (hleaf : t.isLeaf = false) :
      Within n (do rebuild σ t (← t.children.mapM (below.propagate constraint))) :=
    (within_mapM (fun _ => hbelow.propagate le_rfl) hts).bind fun _ hus =>
      .ite (fun _ => ht) fun _ => within_withChildren hus hleaf
  cases t with
  | construct m projected bindings child => exact within_propagateConstruct hbelow h
  | filter m condition child => exact within_propagateFilter hbelow h
  | join m condition? ts => exact within_propagateJoin hbelow h
  | leftJoin m condition? left right => exact within_propagateLeftJoin hbelow h
  | union m projected ts | distinct m child | orderBy m keys child => exact hrebuild h h rfl
  | slice m window child | aggregate m grouping bindings child => exact h
  | leaf m l =>
    cases l with
    | native query => trivial
    | _ => exact h

omit hbelow in
theorem keepsAtoms_descendTo (σ : BuildSettings) (depth : Nat) :
    Pushdown.KeepsAtoms ⟨descendTo σ depth, propagateTo σ depth⟩ := by
  induction depth with
  | zero => exact ⟨fun _ => trivial, fun _ => trivial⟩
  | succ depth ih => exact ⟨within_descendNode ih, within_propagateNode ih⟩

omit hbelow in
theorem keepsAtoms_pushdown (σ : BuildSettings) : (pushdown σ).KeepsAtoms := by
  constructor
  · intro n s constraint? optimize t h
    obtain ⟨depth, hdepth⟩ := t.exists_depth
    rw [(hdepth σ).1]
    exact (keepsAtoms_descendTo σ depth).descend h
  · intro n constraint t h
    obtain ⟨depth, hdepth⟩ := t.exists_depth
    rw [(hdepth σ).2]
    exact (keepsAtoms_descendTo σ depth).propagate h

end Tree

end Pushing

-- ---------------------------------------------------------------------------
-- The rules of the normal form
-- ---------------------------------------------------------------------------

section Normalizing

variable (hpush : push.KeepsAtoms)
include hpush

namespace Tree

theorem within_constructNormally {projected : VarSet} {bindings : Substitution}
    (h : child.atomCount ≤ n) :
    Rewrite.Within n (constructNormally σ push projected bindings child) := by
  have hrename (nb : NormalBindings) : Within n (nb.renameChild push child) :=
    .ite (fun _ => h) fun _ => hpush.descend h
  refine (Rewrite.Ends.any _).bind fun nb _ => ?_
  refine (Rewrite.Ends.lift (hrename nb)).bind fun child' hchild => .lift ?_
  exact .ite (fun _ => hchild) fun _ => within_build hchild

theorem within_normalizeConstruct {projected : VarSet} {bindings : Substitution}
    (h : child.atomCount ≤ n) :
    Rewrite.Within n (normalizeConstruct σ push projected bindings child) := by
  unfold normalizeConstruct
  split
  · exact .pure (Nat.zero_le n)
  · exact within_constructNormally hpush h
  · exact .ite (fun _ => .pure h) fun _ => within_constructNormally hpush h

omit hpush in
theorem atomCountOf_liftable? {l : LiftableChild} (h : liftable? ts = some l) :
    atomCountOf ts = atomCountOf l.before + l.child.atomCount + atomCountOf l.after := by
  obtain ⟨m, rfl⟩ := eq_of_liftable? h
  rw [atomCountOf_append, atomCountOf, atomCount, Nat.add_assoc]

theorem within_liftConstruction {condition? : Option Expression} {l : LiftableChild}
    (h : atomCountOf l.before + l.child.atomCount + atomCountOf l.after ≤ n) :
    Rewrite.Within n (liftConstruction σ push condition? ts l) := by
  refine (Rewrite.Ends.any _).bind fun _ _ => (Rewrite.Ends.any _).bind fun names _ => ?_
  refine (Rewrite.Ends.lift (hpush.descend le_rfl)).bind fun child hchild => ?_
  refine (Rewrite.Ends.any _).bind fun parts? _ => ?_
  cases parts? with
  | none => exact .pure (Nat.zero_le n)
  | some parts =>
    have hsiblings (ts : List Tree) : Rewrite.Ends (fun us => atomCountOf us ≤ atomCountOf ts)
        (fun _ => True)
        (ts.mapM fun t => liftM (push.descend (.ofList parts.descending) none true t)) :=
      (Rewrite.Ends.mapM fun t _ => .lift (hpush.descend le_rfl)).imp fun _ => atomCountOf_le
    refine (hsiblings _).bind fun before hbefore => (hsiblings _).bind fun after hafter => ?_
    have hall : atomCountOf (before ++ child :: after) ≤ n := by
      rw [atomCountOf_append, atomCountOf]
      omega
    refine (Rewrite.Ends.lift (within_joinOf hall)).bind fun joined hjoined => .lift ?_
    exact within_build hjoined

omit hpush in
/-- The children that are taken in hold the atoms of those that they stand in for. -/
theorem atomCountOf_absorbed (ts : List Tree) :
    atomCountOf (ts.flatMap absorbedChildren) = atomCountOf ts := by
  induction ts with
  | nil => rfl
  | cons t ts ih =>
    have ht : atomCountOf (absorbedChildren t) = t.atomCount := by
      cases t with
      | leaf m l => cases l <;> rfl
      | _ => simp only [absorbedChildren, atomCountOf, atomCount, Nat.add_zero]
    rw [List.flatMap_cons, atomCountOf_append, ht, ih, atomCountOf]

theorem within_normalizeJoin {condition? : Option Expression} (h : atomCountOf ts ≤ n) :
    Rewrite.Within n (normalizeJoin σ push condition? ts) := by
  refine .ite (fun _ => .pure (Nat.zero_le n)) fun _ => .ite (fun _ => .lift ?_) fun _ => ?_
  · exact within_joinOf ((atomCountOf_absorbed ts).trans_le h)
  · split
    · next l hl => exact within_liftConstruction hpush ((atomCountOf_liftable? hl).symm.trans_le h)
    · exact .lift (within_propagateJoin hpush h)

theorem within_liftLeftConstruction {condition? : Option Expression} {projected : VarSet}
    {bindings : Substitution} (h : child.atomCount + right.atomCount ≤ n) :
    Rewrite.Within n (liftLeftConstruction σ push condition? projected bindings child right) := by
  refine (Rewrite.Ends.any _).bind fun _ _ => (Rewrite.Ends.any _).bind fun _ _ => ?_
  refine (Rewrite.Ends.any _).bind fun names _ => ?_
  refine (Rewrite.Ends.lift (hpush.descend le_rfl)).bind fun left hleft => ?_
  refine (Rewrite.Ends.any _).bind fun parts _ => ?_
  refine (Rewrite.Ends.lift (hpush.descend le_rfl)).bind fun right' hright => ?_
  have hjoin {condition? : Option Expression} : Within n (σ.leftJoin condition? left right') :=
    within_build ((Nat.add_le_add hleft hright).trans h)
  exact (Rewrite.Ends.lift hjoin).bind fun joined hjoined => .lift (within_build hjoined)

theorem within_simplifyLeftJoin {condition? : Option Expression}
    (h : left.atomCount + right.atomCount ≤ n) :
    Within n (simplifyLeftJoin σ push condition? left right) := by
  have hjoin {condition? : Option Expression} : Within n (σ.leftJoin condition? left right) :=
    within_build h
  have hpadded : Within n (σ.padWithNulls left (rightSpecific left right)) :=
    within_padWithNulls ((Nat.le_add_right _ _).trans h)
  unfold simplifyLeftJoin
  split
  · exact hjoin
  · split
    · exact hjoin
    · exact hpadded
    · exact hpadded
    · refine (hpush.propagate le_rfl).bind fun right' hright => .ite (fun _ => hpadded) fun _ => ?_
      exact within_build ((Nat.add_le_add_left hright _).trans h)

theorem within_normalizeLeftJoin {condition? : Option Expression}
    (h : left.atomCount + right.atomCount ≤ n) :
    Rewrite.Within n (normalizeLeftJoin σ push condition? left right) := by
  have hleft : left.atomCount ≤ n := (Nat.le_add_right _ _).trans h
  refine .ite (fun _ => .pure (Nat.zero_le n)) fun _ => ?_
  refine .ite (fun _ => .lift (within_padWithNulls hleft)) fun _ => ?_
  refine .ite (fun _ => .pure hleft) fun _ => ?_
  split
  · refine .ite (fun _ => .lift (within_simplifyLeftJoin hpush h)) fun _ => ?_
    exact within_liftLeftConstruction hpush h
  · exact .lift (within_simplifyLeftJoin hpush h)

theorem within_normalizeFilter {condition : Expression} (h : child.atomCount ≤ n) :
    Within n (normalizeFilter σ push condition child) := by
  unfold normalizeFilter
  split
  · exact h
  · next m inner grandchild =>
      have hgrandchild : grandchild.atomCount ≤ n := h
      exact within_filter hgrandchild
  · next m projected bindings grandchild =>
      have hgrandchild : grandchild.atomCount ≤ n := h
      exact (within_filter hgrandchild).bind fun _ h => within_build h
  · exact within_propagateFilter hpush h

omit hpush in
theorem within_normalizeDistinct (h : child.atomCount ≤ n) :
    Within n (normalizeDistinct σ child) := by
  refine .ite (fun _ => h) fun _ => ?_
  split
  · have hrest {projected : VarSet} {bindings : Substitution} (t : Tree) (h : t.atomCount ≤ n) :
        Within n (σ.distinct t >>= σ.construct projected bindings) :=
      Ends.bind (within_build h : Within n (σ.distinct t)) fun _ h => within_build h
    refine .ite (fun _ => .ite (fun _ => ?_) fun _ => ?_) fun _ => within_build h
    · exact hrest _ h
    · exact Ends.bind (within_build h : Within n (σ.project _ _)) hrest
  · exact within_build h

omit hpush in
theorem within_normalizeSlice {window : Window} (h : child.atomCount ≤ n) :
    Within n (normalizeSlice σ window child) := by
  have hslice {window : Window} {t : Tree} (h : t.atomCount ≤ n) : Within n (σ.slice window t) :=
    within_build h
  refine .ite (fun _ => Nat.zero_le n) fun _ => ?_
  split
  · exact h
  · next m inner grandchild =>
      have hgrandchild : grandchild.atomCount ≤ n := h
      exact hslice hgrandchild
  · next m projected bindings grandchild =>
      have hgrandchild : grandchild.atomCount ≤ n := h
      exact (hslice hgrandchild).bind fun _ h => within_build h
  · show Within n (.ok _)
    split <;> exact Nat.zero_le n
  · exact .ite (fun _ => h) fun _ => hslice h

omit hpush in
theorem within_normalizeOrderBy {keys : List SortKey} (h : child.atomCount ≤ n) :
    Within n (normalizeOrderBy σ keys child) := by
  have hoptional {keys : List SortKey} {t : Tree} (h : t.atomCount ≤ n) :
      Within n (orderByOptional σ keys t) :=
    .ite (fun _ => h) fun _ => within_build h
  unfold normalizeOrderBy
  split
  · exact h
  · next m projected bindings grandchild =>
      have hgrandchild : grandchild.atomCount ≤ n := h
      exact (hoptional hgrandchild).bind fun _ h => within_build h
  · exact hoptional h

omit hpush in
theorem within_normalizeAggregate {grouping : VarSet} {bindings : Substitution}
    (h : child.atomCount ≤ n) : Within n (normalizeAggregate σ grouping bindings child) :=
  .ite (fun _ => .ite (fun _ => Nat.zero_le n) fun _ => within_build (Nat.zero_le n))
    fun _ => within_build h

omit hpush in
/-- The branches hold the atoms of the children that they stand in for. -/
theorem atomCountOf_branches (ts : List Tree) :
    atomCountOf (ts.flatMap branchesOf) = atomCountOf ts := by
  induction ts with
  | nil => rfl
  | cons t ts ih =>
    have ht : atomCountOf (branchesOf t) = t.atomCount := by
      cases t with
      | leaf m l => cases l <;> rfl
      | _ => simp only [branchesOf, atomCountOf, atomCount, Nat.add_zero]
    rw [List.flatMap_cons, atomCountOf_append, ht, ih, atomCountOf]

omit hpush in
theorem within_normalizeUnion {projected : VarSet} (h : atomCountOf ts ≤ n) :
    Within n (normalizeUnion σ projected ts) := by
  have hwithout (xs ys : VarSet) (t : Tree) : Within t.atomCount (withoutBindings σ xs ys t) := by
    unfold withoutBindings
    split
    · exact .ite (fun _ => le_rfl) fun _ => within_build le_rfl
    · exact le_rfl
  have hunion {projected : VarSet} {ts : List Tree} (h : atomCountOf ts ≤ n) :
      Within n (σ.union projected ts) := within_build h
  have hbranches : atomCountOf (ts.flatMap branchesOf) ≤ n := (atomCountOf_branches ts).trans_le h
  unfold normalizeUnion
  split
  · exact Nat.zero_le n
  · next branch heq =>
    rw [heq] at hbranches
    exact hbranches
  · refine .ite (fun _ => hunion hbranches) fun _ => .ite (fun _ => hunion hbranches) fun _ => ?_
    refine (within_mapM (hwithout _ _) hbranches).bind fun _ h => ?_
    exact (hunion h).bind fun _ h => within_build h

-- ---------------------------------------------------------------------------
-- Rounds
-- ---------------------------------------------------------------------------

theorem within_round {recur : Tree → Rewrite Tree}
    (hrecur : ∀ {n} t, atomCount t ≤ n → Rewrite.Within n (recur t)) (h : t.atomCount ≤ n) :
    Rewrite.Within n (round σ push recur t) := by
  have hmapM {ts : List Tree} (h : atomCountOf ts ≤ n) :
      Rewrite.Ends (fun us => atomCountOf us ≤ n) (fun _ => True) (ts.mapM recur) :=
    (Rewrite.Ends.mapM fun t _ => hrecur t le_rfl).imp fun _ hus => (atomCountOf_le hus).trans h
  cases t with
  | construct m projected bindings child =>
    exact (hrecur child h).bind fun _ h => within_normalizeConstruct hpush h
  | filter m condition child =>
    exact (hrecur child h).bind fun _ h => .lift (within_normalizeFilter hpush h)
  | join m condition? ts => exact (hmapM h).bind fun _ h => within_normalizeJoin hpush h
  | leftJoin m condition? left right =>
    refine (hrecur left le_rfl).bind fun left' hleft => (hrecur right le_rfl).bind fun right' hright => ?_
    exact within_normalizeLeftJoin hpush ((Nat.add_le_add hleft hright).trans h)
  | union m projected ts => exact (hmapM h).bind fun _ h => .lift (within_normalizeUnion h)
  | distinct m child => exact (hrecur child h).bind fun _ h => .lift (within_normalizeDistinct h)
  | slice m window child => exact (hrecur child h).bind fun _ h => .lift (within_normalizeSlice h)
  | orderBy m keys child => exact (hrecur child h).bind fun _ h => .lift (within_normalizeOrderBy h)
  | aggregate m grouping bindings child =>
    exact (hrecur child h).bind fun _ h => .lift (within_normalizeAggregate h)
  | leaf m l => exact .pure ((atomCount_withMark true _).trans_le h)

omit hpush in
theorem within_settle {step : Tree → Rewrite Tree}
    (hstep : ∀ {n t}, atomCount t ≤ n → Rewrite.Within n (step t)) {rounds : Nat}
    (h : t.atomCount ≤ n) : Rewrite.Within n (settle step rounds t) := by
  induction rounds generalizing t with
  | zero => exact .pure ((atomCount_withMark true t).trans_le h)
  | succ rounds ih =>
    refine .ite (fun _ => .pure h) fun _ => (hstep h).bind fun next hnext => ?_
    exact .ite (fun _ => .pure ((atomCount_withMark true next).trans_le hnext)) fun _ => ih hnext

theorem within_normalizeTo {depth : Nat} (h : t.atomCount ≤ n) :
    Rewrite.Within n (normalizeTo σ push depth t) := by
  induction depth generalizing t n with
  | zero => exact fun _ => trivial
  | succ depth ih =>
    refine .ite (fun _ => .pure h) fun _ => (within_round hpush (fun _ => ih) h).bind fun first hfirst => ?_
    exact within_settle (within_round hpush fun _ => ih) hfirst

omit hpush in
/-- A normal form has at most the atoms of the tree. -/
theorem within_normalize (σ : BuildSettings) (t : Tree) :
    Rewrite.Within t.atomCount (normalize σ t) :=
  within_normalizeTo (keepsAtoms_pushdown σ) le_rfl

end Tree

end Normalizing

end QueryAlgebra
