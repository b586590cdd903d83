import QueryAlgebra.Proofs.Validity
import QueryAlgebra.Proofs.Watching
import QueryAlgebra.Proofs.Rewriting

/-!
# Positive trees

Constructions, filters, joins and unions over leaves: trees in which no node asks which rows there are
not, whether rows are alike, or how many there are. Rewriting builds no other node out of these
(`Tree.positive_rules`), and neither does what is pushed through them (`Tree.keepsPositive_pushdown`).
-/

namespace QueryAlgebra

open QueryAlgebra.Except (Ends)

/-- Built of constructions, filters, joins, unions and leaves. -/
inductive Tree.Positive : Tree → Prop
  | construct {m : Bool} {projected : VarSet} {bindings : Substitution} {child : Tree}
      (h : Positive child) : Positive (.construct m projected bindings child)
  | filter {m : Bool} {condition : Expression} {child : Tree} (h : Positive child) :
      Positive (.filter m condition child)
  | join {m : Bool} {condition? : Option Expression} {ts : List Tree} (h : ∀ t ∈ ts, Positive t) :
      Positive (.join m condition? ts)
  | union {m : Bool} {projected : VarSet} {ts : List Tree} (h : ∀ t ∈ ts, Positive t) :
      Positive (.union m projected ts)
  | leaf {m : Bool} {l : Leaf} : Positive (.leaf m l)

/-- The computation gives a positive tree. -/
def GivesPositive : Except Error Tree → Prop := Ends Tree.Positive fun _ => True

/-- The rewriting gives a positive tree. -/
def Rewrite.GivesPositive : Rewrite Tree → Prop := Rewrite.Ends Tree.Positive fun _ => True

variable {σ : BuildSettings} {below push : Pushdown} {t child : Tree} {ts : List Tree}
  {s bindings : Substitution} {condition? constraint? : Option Expression}
  {condition constraint : Expression} {projected xs : VarSet} {optimize : Bool}

theorem Tree.Positive.children (h : t.Positive) : ∀ c ∈ t.children, c.Positive := by
  cases h with
  | construct h | filter h => exact List.forall_mem_singleton.2 h
  | join h | union h => exact h
  | leaf => exact List.forall_mem_nil _

theorem Tree.Positive.withMark {mark : Bool} (h : t.Positive) : (t.withMark mark).Positive := by
  cases h with
  | construct h => exact .construct h
  | filter h => exact .filter h
  | join h => exact .join h
  | union h => exact .union h
  | leaf => exact .leaf

-- ---------------------------------------------------------------------------
-- Building
-- ---------------------------------------------------------------------------

namespace BuildSettings

theorem givesPositive_build (h : t.Positive) : GivesPositive (σ.build t) :=
  ends_build h fun _ _ _ => trivial

theorem givesPositive_construct (h : t.Positive) : GivesPositive (σ.construct projected bindings t) :=
  givesPositive_build (.construct h)

theorem givesPositive_filter (h : t.Positive) : GivesPositive (σ.filter condition t) :=
  givesPositive_build (.filter h)

theorem givesPositive_union (h : ∀ t ∈ ts, t.Positive) : GivesPositive (σ.union projected ts) :=
  givesPositive_build (.union h)

theorem givesPositive_filterOptional (h : t.Positive) :
    GivesPositive (σ.filterOptional condition? t) := by
  cases condition? with
  | none => exact h
  | some condition => exact givesPositive_filter h

theorem givesPositive_restoreEqualities (h : t.Positive) :
    GivesPositive (σ.restoreEqualities xs s t) :=
  .ite (fun _ => h) fun _ => givesPositive_construct h

theorem givesPositive_joinOf (h : ∀ t ∈ ts, t.Positive) : GivesPositive (σ.joinOf condition? ts) := by
  unfold joinOf
  split
  · exact givesPositive_filterOptional .leaf
  · exact givesPositive_filterOptional (h _ (.head _))
  · exact givesPositive_build (.join h)

end BuildSettings

open BuildSettings

-- ---------------------------------------------------------------------------
-- Pushing down
-- ---------------------------------------------------------------------------

/-- What is pushed into positive trees leaves them positive. -/
structure Pushdown.KeepsPositive (below : Pushdown) : Prop where
  descend : ∀ {s constraint? optimize t}, t.Positive →
    GivesPositive (below.descend s constraint? optimize t)
  propagate : ∀ {constraint t}, t.Positive → GivesPositive (below.propagate constraint t)

/-- What is computed for each of the trees. -/
theorem Tree.positive_mapM {f : Tree → Except Error Tree} (h : ∀ t ∈ ts, GivesPositive (f t)) :
    Ends (fun us => ∀ u ∈ us, Positive u) (fun _ => True) (ts.mapM f) := by
  refine (Ends.mapM (R := fun _ u => u.Positive) h).imp fun us hus u hu => ?_
  obtain ⟨-, -, hu⟩ := exists_of_mem_right hus hu
  exact hu

section Pushing

variable (hbelow : below.KeepsPositive)
include hbelow

theorem Pushdown.KeepsPositive.pushSplit {own : SplitCondition} (h : t.Positive) :
    GivesPositive (below.pushSplit own constraint? t) := by
  refine .ite (fun _ => hbelow.descend h) fun _ => ?_
  cases constraint? with
  | none => exact h
  | some constraint => exact hbelow.propagate h

namespace Tree

theorem positive_descendConstruct (h : child.Positive) :
    GivesPositive (descendConstruct σ below s constraint? optimize projected bindings child) := by
  have hrename : Ends (fun r => r.1.Positive) (fun _ => True)
      (renameHidden below s optimize projected bindings child) :=
    .ite (fun _ => h) fun _ => (hbelow.descend h).bind fun _ hrenamed => hrenamed
  refine hrename.bind fun r hr => (hbelow.descend hr).bind fun child' hchild => ?_
  have hfinish {projected : VarSet} {definitions : Substitution} (t : Tree) (ht : t.Positive) :
      GivesPositive (if definitions.isEmpty ∧ t.vars = projected then .ok t
        else σ.construct projected definitions t) :=
    .ite (fun _ => ht) fun _ => givesPositive_construct ht
  dsimp only
  split
  · exact hfinish _ hchild
  · refine .ite (fun _ => ?_) fun _ => (givesPositive_filter hchild).bind fun t ht => hfinish t ht
    split
    · exact hfinish _ hchild
    · exact Positive.leaf
    · exact Positive.leaf
    · exact (givesPositive_filter hchild).bind fun t ht => hfinish t ht

theorem positive_propagateConstruct (h : child.Positive) :
    GivesPositive (propagateConstruct σ below constraint projected bindings child) := by
  unfold propagateConstruct
  split
  · exact givesPositive_construct h
  · exact (hbelow.propagate h).bind fun _ hchild => givesPositive_construct hchild

theorem positive_propagateFilter (h : child.Positive) :
    GivesPositive (propagateFilter σ below constraint? condition child) := by
  unfold propagateFilter
  dsimp only
  split
  · exact Positive.leaf
  · exact (hbelow.pushSplit h).bind fun _ hchild =>
      (givesPositive_filterOptional hchild).bind fun _ => givesPositive_restoreEqualities

theorem positive_descendFilter (h : child.Positive) :
    GivesPositive (descendFilter σ below s constraint? optimize condition child) := by
  refine .ite (fun _ => (hbelow.descend h).bind fun _ => givesPositive_filter) fun _ => ?_
  split
  · exact Positive.leaf
  · exact (hbelow.descend h).bind fun _ hchild =>
      (givesPositive_filterOptional hchild).bind fun _ => givesPositive_restoreEqualities

theorem positive_propagateJoin (h : ∀ t ∈ ts, t.Positive) :
    GivesPositive (propagateJoin σ below constraint? condition? ts) := by
  unfold propagateJoin
  dsimp only
  split
  · exact Positive.leaf
  · exact (positive_mapM fun t ht => hbelow.pushSplit (h t ht)).bind fun _ hts =>
      (givesPositive_joinOf hts).bind fun _ => givesPositive_restoreEqualities

theorem positive_descendJoin (h : ∀ t ∈ ts, t.Positive) :
    GivesPositive (descendJoin σ below s constraint? optimize condition? ts) := by
  have hmapM {s constraint? optimize} :=
    positive_mapM (f := below.descend s constraint? optimize) fun t ht => hbelow.descend (h t ht)
  refine .ite (fun _ => hmapM.bind fun _ hts => givesPositive_build (.join hts)) fun _ => ?_
  split
  · exact Positive.leaf
  · exact hmapM.bind fun _ hts =>
      (givesPositive_joinOf hts).bind fun _ => givesPositive_restoreEqualities

theorem positive_descendNode (h : t.Positive) :
    GivesPositive (descendNode σ below s constraint? optimize t) := by
  have hroot (s : Substitution) : GivesPositive (descendRoot σ below s constraint? optimize t) := by
    cases h with
    | construct h => exact positive_descendConstruct hbelow h
    | filter h => exact positive_descendFilter hbelow h
    | join h => exact positive_descendJoin hbelow h
    | union h =>
      exact (positive_mapM fun t ht => hbelow.descend (h t ht)).bind fun _ => givesPositive_union
    | @leaf m l =>
      cases l with
      | native query => trivial
      | _ => exact Positive.leaf
  unfold descendNode
  dsimp only
  split
  · trivial
  · refine .ite (fun _ => trivial) fun _ => .ite (fun _ => Positive.leaf) fun _ => ?_
    refine .ite (fun _ => ?_) fun _ => hroot _
    split
    · exact hbelow.propagate h
    · exact h

theorem positive_propagateNode (h : t.Positive) :
    GivesPositive (propagateNode σ below constraint t) := by
  cases h with
  | construct h => exact positive_propagateConstruct hbelow h
  | filter h => exact positive_propagateFilter hbelow h
  | join h => exact positive_propagateJoin hbelow h
  | union h =>
    refine (positive_mapM fun t ht => hbelow.propagate (h t ht)).bind fun us hus => ?_
    exact .ite (fun _ => .union h) fun _ => .ite (fun _ => givesPositive_union hus) fun _ => trivial
  | @leaf m l =>
    cases l with
    | native query => trivial
    | _ => exact Positive.leaf

omit hbelow in
theorem keepsPositive_descendTo (σ : BuildSettings) (depth : Nat) :
    Pushdown.KeepsPositive ⟨descendTo σ depth, propagateTo σ depth⟩ := by
  induction depth with
  | zero => exact ⟨fun _ => trivial, fun _ => trivial⟩
  | succ depth ih => exact ⟨positive_descendNode ih, positive_propagateNode ih⟩

omit hbelow in
theorem keepsPositive_pushdown (σ : BuildSettings) : (pushdown σ).KeepsPositive := by
  constructor
  · intro s constraint? optimize t h
    obtain ⟨depth, hdepth⟩ := t.exists_depth
    rw [(hdepth σ).1]
    exact (keepsPositive_descendTo σ depth).descend h
  · intro constraint t h
    obtain ⟨depth, hdepth⟩ := t.exists_depth
    rw [(hdepth σ).2]
    exact (keepsPositive_descendTo σ depth).propagate h

end Tree

end Pushing

-- ---------------------------------------------------------------------------
-- The rules of the normal form
-- ---------------------------------------------------------------------------

namespace Tree

variable (hpush : push.KeepsPositive)
include hpush

theorem positive_constructNormally (h : child.Positive) :
    Rewrite.GivesPositive (constructNormally σ push projected bindings child) := by
  have hrename (nb : NormalBindings) : GivesPositive (nb.renameChild push child) :=
    .ite (fun _ => h) fun _ => hpush.descend h
  refine (Rewrite.Ends.any _).bind fun nb _ => ?_
  refine (Rewrite.Ends.lift (hrename nb)).bind fun child' hchild => .lift ?_
  exact .ite (fun _ => hchild) fun _ => givesPositive_construct hchild

theorem positive_normalizeConstruct (h : child.Positive) :
    Rewrite.GivesPositive (normalizeConstruct σ push projected bindings child) := by
  unfold normalizeConstruct
  split
  · exact .pure .leaf
  · cases h with
    | construct h => exact positive_constructNormally hpush h
  · exact .ite (fun _ => .pure h) fun _ => positive_constructNormally hpush h

theorem positive_normalizeFilter (h : child.Positive) :
    GivesPositive (normalizeFilter σ push condition child) := by
  unfold normalizeFilter
  split
  · exact h
  · cases h with
    | filter h => exact givesPositive_filter h
  · cases h with
    | construct h => exact (givesPositive_filter h).bind fun _ => givesPositive_construct
  · exact positive_propagateFilter hpush h

theorem positive_liftConstruction {l : LiftableChild} (hl : liftable? ts = some l)
    (h : ∀ t ∈ ts, t.Positive) :
    Rewrite.GivesPositive (liftConstruction σ push condition? ts l) := by
  obtain ⟨m, rfl⟩ := eq_of_liftable? hl
  rw [List.forall_mem_append, List.forall_mem_cons] at h
  obtain ⟨hbefore, hchild, hafter⟩ := h
  cases hchild with
  | construct hchild =>
    refine (Rewrite.Ends.any _).bind fun _ _ => (Rewrite.Ends.any _).bind fun names _ => ?_
    refine (Rewrite.Ends.lift (hpush.descend hchild)).bind fun child hchild => ?_
    refine (Rewrite.Ends.any _).bind fun parts? _ => ?_
    cases parts? with
    | none => exact .pure .leaf
    | some parts =>
      dsimp only
      rw [Rewrite.mapM_lift, Rewrite.mapM_lift]
      refine (Rewrite.Ends.lift (positive_mapM fun t ht => hpush.descend (hbefore t ht))).bind
        fun before hbefore => ?_
      refine (Rewrite.Ends.lift (positive_mapM fun t ht => hpush.descend (hafter t ht))).bind
        fun after hafter => ?_
      have hall : ∀ t ∈ before ++ child :: after, t.Positive := by
        rw [List.forall_mem_append, List.forall_mem_cons]
        exact ⟨hbefore, hchild, hafter⟩
      exact (Rewrite.Ends.lift (givesPositive_joinOf hall)).bind fun joined hjoined =>
        .lift (givesPositive_construct hjoined)

theorem positive_normalizeJoin (h : ∀ t ∈ ts, t.Positive) :
    Rewrite.GivesPositive (normalizeJoin σ push condition? ts) := by
  refine .ite (fun _ => .pure .leaf) fun _ => .ite (fun _ => .lift ?_) fun _ => ?_
  · refine givesPositive_joinOf fun u hu => ?_
    obtain ⟨t, ht, hu⟩ := List.mem_flatMap.1 hu
    rcases eq_or_mem_children_of_absorbed hu with rfl | hu
    · exact h u ht
    · exact (h t ht).children u hu
  · split
    · next l hl => exact positive_liftConstruction hpush hl h
    · exact .lift (positive_propagateJoin hpush h)

omit hpush in
theorem positive_normalizeUnion (h : ∀ t ∈ ts, t.Positive) :
    GivesPositive (normalizeUnion σ projected ts) := by
  have hbranches : ∀ u ∈ ts.flatMap branchesOf, u.Positive := by
    intro u hu
    obtain ⟨t, ht, hu⟩ := List.mem_flatMap.1 hu
    rcases eq_or_mem_children_of_branch hu with rfl | hu
    · exact h u ht
    · exact (h t ht).children u hu
  have hwithout (xs ys : VarSet) : ∀ u ∈ ts.flatMap branchesOf,
      GivesPositive (withoutBindings σ xs ys u) := by
    intro u hu
    unfold withoutBindings
    split
    · cases hbranches _ hu with
      | construct hchild => exact .ite (fun _ => hchild) fun _ => givesPositive_construct hchild
    · exact hbranches _ hu
  unfold normalizeUnion
  split
  · exact Positive.leaf
  · next branch heq =>
    rw [heq] at hbranches
    exact hbranches branch (.head _)
  · refine .ite (fun _ => givesPositive_union hbranches) fun _ =>
      .ite (fun _ => givesPositive_union hbranches) fun _ => ?_
    refine (positive_mapM (hwithout _ _)).bind fun _ hus => ?_
    exact (givesPositive_union hus).bind fun _ => givesPositive_construct

/-- The rules of a positive node over other ones. -/
theorem positive_rules (h : t.Positive) : Rewrite.GivesPositive (rules σ push t) := by
  cases h with
  | construct h => exact positive_normalizeConstruct hpush h
  | filter h => exact .lift (positive_normalizeFilter hpush h)
  | join h => exact positive_normalizeJoin hpush h
  | union h => exact .lift (positive_normalizeUnion h)
  | leaf => exact .pure .leaf

end Tree

end QueryAlgebra
