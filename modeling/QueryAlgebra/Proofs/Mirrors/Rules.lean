import QueryAlgebra.Proofs.Mirrors.Pushdown
import QueryAlgebra.Proofs.Watching

/-!
# Rules mirrored

The rules of a node give related trees on related trees, and take the same names from the supply.

Main statement: `Tree.Mirroring.rules`.
-/

namespace QueryAlgebra.Tree

variable {R : Tree → Tree → Prop} {Q : Error → Prop} {σ τ : BuildSettings} {p q : Pushdown}
  {t t' u u' : Tree} {ts us : List Tree} {bindings : Substitution} {projected grouping : VarSet}
  {condition : Expression} {condition? : Option Expression} {keys : List SortKey} {window : Window}
  {recur : Tree → Rewrite Tree}

/-- The same construction, lifted from among related siblings. -/
structure SameLift (R : Tree → Tree → Prop) (l l' : LiftableChild) : Prop where
  before : List.Forall₂ R l.before l'.before
  projected : l.projected = l'.projected
  bindings : l.bindings = l'.bindings
  child : R l.child l'.child
  after : List.Forall₂ R l.after l'.after

namespace Mirroring

variable (hR : Mirroring R Q σ τ)
include hR

-- ---------------------------------------------------------------------------
-- What is taken in and lifted
-- ---------------------------------------------------------------------------

theorem absorbedChildren (h : R t u) : List.Forall₂ R t.absorbedChildren u.absorbedChildren := by
  cases hR.root h with
  | join hs => exact hs
  | filter hc => exact .cons hc .nil
  | @leaf _ _ l =>
    cases l with
    | unit => exact .nil
    | _ => exact .cons h .nil
  | _ => exact .cons h .nil

theorem branchesOf (h : R t u) : List.Forall₂ R t.branchesOf u.branchesOf := by
  cases hR.root h with
  | union hs => exact hs
  | @leaf _ _ l =>
    cases l with
    | empty => exact .nil
    | _ => exact .cons h .nil
  | _ => exact .cons h .nil

theorem commonBindings_eq (h : List.Forall₂ R ts us) :
    commonBindings projected ts = commonBindings projected us := by
  have hmapM : ts.mapM constructBindings? = us.mapM constructBindings? := by
    induction h with
    | nil => rfl
    | cons h _ ih =>
      rw [List.mapM_cons, List.mapM_cons, ih]
      cases hR.root h <;> rfl
  rw [commonBindings, commonBindings, hmapM]

/-- The same construction is lifted out of related trees. -/
theorem liftable? (h : List.Forall₂ R ts us) :
    Option.Rel (SameLift R) (liftable? ts) (Tree.liftable? us) := by
  have hskip {t u : Tree} {l? l'? : Option LiftableChild} (h : R t u)
      (hl : Option.Rel (SameLift R) l? l'?) : Option.Rel (SameLift R)
        (l?.map fun l => { l with before := t :: l.before })
        (l'?.map fun l => { l with before := u :: l.before }) := by
    cases hl with
    | none => exact .none
    | some hl => exact .some { hl with before := .cons h hl.before }
  induction h with
  | nil => exact .none
  | @cons t u ts us h hs ih =>
    have hnext := hskip h ih
    cases hR.root h with
    | @construct _ _ projected bindings _ _ hc =>
      rw [Tree.liftable?, Tree.liftable?]
      split
      · exact hnext
      · exact .some ⟨.nil, rfl, rfl, hc, hs⟩
    | _ => exact hnext

-- ---------------------------------------------------------------------------
-- Unions and nodes with one child
-- ---------------------------------------------------------------------------

theorem normalizeUnion (h : List.Forall₂ R ts us) :
    Mirrors R Q (normalizeUnion σ projected ts) (normalizeUnion τ projected us) := by
  have hbranches : List.Forall₂ R (ts.flatMap Tree.branchesOf) (us.flatMap Tree.branchesOf) :=
    List.rel_flatMap h fun _ _ h => hR.branchesOf h
  have hreplaced : ts.any isBranchReplaced = us.any isBranchReplaced := by
    refine any_eq_of_forall₂ (fun t u h => ?_) h
    cases hR.root h with
    | @leaf _ _ l => cases l <;> rfl
    | _ => rfl
  have hwithout (xs ys : VarSet) (t u : Tree) (h : R t u) :
      Mirrors R Q (withoutBindings σ xs ys t) (withoutBindings τ xs ys u) := by
    cases hR.root h with
    | construct hc => exact hR.constructOver _ _ hc
    | _ => exact .ok h
  unfold Tree.normalizeUnion
  generalize ts.flatMap Tree.branchesOf = branches at hbranches ⊢
  generalize us.flatMap Tree.branchesOf = branches' at hbranches ⊢
  match hbranches with
  | .nil => exact .ok (hR.leaf _ _)
  | .cons hfirst .nil => exact .ok hfirst
  | .cons hfirst (.cons hsecond hrest) =>
    have hall := List.Forall₂.cons hfirst (.cons hsecond hrest)
    dsimp only
    rw [hreplaced, hR.commonBindings_eq hall]
    refine .ite Iff.rfl (fun _ => hR.build (.union hall) rfl rfl) fun _ => ?_
    refine .ite Iff.rfl (fun _ => hR.build (.union hall) rfl rfl) fun _ => ?_
    refine (Mirrors.mapM (hwithout _ _) hall).bind fun _ _ hs => ?_
    exact (hR.build (.union hs) rfl rfl).bind fun _ _ h => hR.build (.construct h) rfl rfl

theorem normalizeFilter (hpq : p.Mirrors R Q q) (h : R t u) :
    Mirrors R Q (normalizeFilter σ p condition t) (normalizeFilter τ q condition u) := by
  have hpropagate : Mirrors R Q (Tree.propagateFilter σ p none condition t)
      (Tree.propagateFilter τ q none condition u) := hR.propagateFilter hpq h
  cases hR.root h with
  | filter hc => exact hR.build (.filter hc) rfl rfl
  | construct hc =>
    exact (hR.build (.filter hc) rfl rfl).bind fun _ _ h => hR.build (.construct h) rfl rfl
  | @leaf _ _ l =>
    cases l with
    | empty => exact .ok h
    | _ => exact hpropagate
  | _ => exact hpropagate

theorem normalizeDistinct (h : R t u) :
    Mirrors R Q (normalizeDistinct σ t) (normalizeDistinct τ u) := by
  have hdistinct {t u : Tree} (h : R t u) : Mirrors R Q (σ.distinct t) (τ.distinct u) :=
    hR.build (.distinct h) rfl rfl
  unfold Tree.normalizeDistinct
  rw [hR.isEmpty_eq h, hR.isDistinct_eq h]
  refine .ite Iff.rfl (fun _ => .ok h) fun _ => ?_
  cases hR.root h with
  | construct hc =>
    have hrest {projected : VarSet} {bindings : Substitution} {t u : Tree} (h : R t u) :
        Mirrors R Q (σ.distinct t >>= σ.construct projected bindings)
          (τ.distinct u >>= τ.construct projected bindings) :=
      (hdistinct h).bind fun _ _ h => hR.build (.construct h) rfl rfl
    refine .ite Iff.rfl (fun _ => ?_) fun _ => hdistinct h
    dsimp only
    rw [hR.vars_eq hc]
    refine .ite Iff.rfl (fun _ => ?_) fun _ => ?_
    · exact (Mirrors.ok hc).bind fun _ _ h => hrest h
    · exact (hR.build (.construct hc) rfl rfl).bind fun _ _ h => hrest h
  | _ => exact hdistinct h

theorem normalizeSlice (h : R t u) :
    Mirrors R Q (normalizeSlice σ window t) (normalizeSlice τ window u) := by
  have hslice : Mirrors R Q
      (if window.offset = 0 ∧ window.limit? = none then .ok t else σ.slice window t)
      (if window.offset = 0 ∧ window.limit? = none then .ok u else τ.slice window u) :=
    .ite Iff.rfl (fun _ => .ok h) fun _ => hR.build (.slice h) rfl rfl
  unfold Tree.normalizeSlice
  rw [hR.vars_eq h]
  refine .ite Iff.rfl (fun _ => .ok (hR.leaf _ _)) fun _ => ?_
  cases hR.root h with
  | slice hc => exact hR.build (.slice hc) rfl rfl
  | construct hc =>
    exact (hR.build (.slice hc) rfl rfl).bind fun _ _ h => hR.build (.construct h) rfl rfl
  | @leaf _ _ l =>
    cases l with
    | empty => exact .ok h
    | unit =>
      dsimp only
      split
      · exact .ok (hR.leaf _ _)
      · exact .ok h
    | _ => exact hslice
  | _ => exact hslice

theorem normalizeOrderBy (h : R t u) :
    Mirrors R Q (normalizeOrderBy σ keys t) (normalizeOrderBy τ keys u) := by
  have hoptional (keys : List SortKey) {t u : Tree} (h : R t u) :
      Mirrors R Q (orderByOptional σ keys t) (orderByOptional τ keys u) :=
    .ite Iff.rfl (fun _ => .ok h) fun _ => hR.build (.orderBy h) rfl rfl
  cases hR.root h with
  | construct hc => exact (hoptional _ hc).bind fun _ _ h => hR.build (.construct h) rfl rfl
  | @leaf _ _ l =>
    cases l with
    | empty => exact .ok h
    | _ => exact hoptional _ h
  | _ => exact hoptional _ h

theorem normalizeAggregate (h : R t u) :
    Mirrors R Q (normalizeAggregate σ grouping bindings t) (normalizeAggregate τ grouping bindings u) := by
  unfold Tree.normalizeAggregate
  rw [hR.isEmpty_eq h, hR.nullability_eq h]
  refine .ite Iff.rfl (fun _ => .ite Iff.rfl (fun _ => .ok (hR.leaf _ _)) fun _ => ?_) fun _ => ?_
  · exact hR.build (.construct (hR.leaf _ _)) rfl rfl
  · exact hR.build (.aggregate h) rfl rfl

-- ---------------------------------------------------------------------------
-- Constructions and joins
-- ---------------------------------------------------------------------------

variable (hpq : p.Mirrors R Q q)
include hpq

theorem constructNormally (h : R t u) :
    Rewrite.Mirrors R Q (constructNormally σ p projected bindings t)
      (constructNormally τ q projected bindings u) := by
  unfold Tree.constructNormally
  dsimp only
  rw [hR.nullability_eq h, hR.vars_eq h]
  refine .bind_same fun nb => (Rewrite.Mirrors.lift ?_).bind fun _ _ h => .lift (hR.constructOver _ _ h)
  exact .ite Iff.rfl (fun _ => .ok h) fun _ => hpq.descend _ _ _ h

theorem normalizeConstruct (h : R t u) :
    Rewrite.Mirrors R Q (normalizeConstruct σ p projected bindings t)
      (normalizeConstruct τ q projected bindings u) := by
  have hnormally : Rewrite.Mirrors R Q
      (if bindings.isEmpty ∧ t.vars = projected then pure t
        else Tree.constructNormally σ p projected bindings t)
      (if bindings.isEmpty ∧ u.vars = projected then pure u
        else Tree.constructNormally τ q projected bindings u) :=
    .ite (by rw [hR.vars_eq h]) (fun _ => .pure h) fun _ => hR.constructNormally hpq h
  cases hR.root h with
  | construct hc => exact hR.constructNormally hpq hc
  | @leaf _ _ l =>
    cases l with
    | empty => exact .pure (hR.leaf _ _)
    | _ => exact hnormally
  | _ => exact hnormally

theorem liftConstruction {l l' : LiftableChild} (h : List.Forall₂ R ts us) (hl : SameLift R l l') :
    Rewrite.Mirrors R Q (liftConstruction σ p condition? ts l)
      (liftConstruction τ q condition? us l') := by
  have hsiblings : List.Forall₂ R (l.before ++ l.after) (l'.before ++ l'.after) :=
    List.rel_append hl.before hl.after
  have hmapM {s : Substitution} {ts us : List Tree} (h : List.Forall₂ R ts us) :
      Rewrite.Mirrors (List.Forall₂ R) Q
        (ts.mapM fun t => (liftM (p.descend s none true t) : Rewrite Tree))
        (us.mapM fun t => (liftM (q.descend s none true t) : Rewrite Tree)) :=
    .mapM (fun _ _ h => .lift (hpq.descend _ _ _ h)) h
  unfold Tree.liftConstruction
  dsimp only
  rw [hR.knownVarsOf_eq h, hR.varsOf_eq h, hR.varsOf_eq hsiblings, hR.vars_eq hl.child,
    hl.projected, hl.bindings]
  refine .bind_same fun _ => .bind_same fun names => ?_
  refine (Rewrite.Mirrors.lift (hpq.descend _ _ _ hl.child)).bind fun child child' hchild => ?_
  refine .bind_same fun parts? => ?_
  cases parts? with
  | none => exact .pure (hR.leaf _ _)
  | some parts =>
    refine (hmapM hl.before).bind fun before before' hbefore => ?_
    refine (hmapM hl.after).bind fun after after' hafter => ?_
    have hall : List.Forall₂ R (before ++ child :: after) (before' ++ child' :: after') :=
      List.rel_append hbefore (.cons hchild hafter)
    exact (Rewrite.Mirrors.lift (hR.joinOf _ hall)).bind fun _ _ h =>
      .lift (hR.build (.construct h) rfl rfl)

theorem normalizeJoin (h : List.Forall₂ R ts us) :
    Rewrite.Mirrors R Q (normalizeJoin σ p condition? ts) (normalizeJoin τ q condition? us) := by
  have habsorbed : ts.any isAbsorbed = us.any isAbsorbed := by
    refine any_eq_of_forall₂ (fun t u h => ?_) h
    cases hR.root h with
    | @leaf _ _ l => cases l <;> rfl
    | _ => rfl
  have hconditions : ts.flatMap absorbedConditions = us.flatMap absorbedConditions := by
    rw [List.flatMap_def, List.flatMap_def,
      map_eq_of_forall₂ (fun t u h => by cases hR.root h <;> rfl) h]
  unfold Tree.normalizeJoin
  rw [any_eq_of_forall₂ (fun _ _ h => hR.isEmpty_eq h) h, habsorbed, hconditions, hR.varsOf_eq h]
  refine .ite Iff.rfl (fun _ => .pure (hR.leaf _ _)) fun _ => .ite Iff.rfl (fun _ => ?_) fun _ => ?_
  · exact .lift (hR.joinOf _ (List.rel_flatMap h fun _ _ h => hR.absorbedChildren h))
  · have hlift := hR.liftable? h
    generalize Tree.liftable? ts = l? at hlift ⊢
    generalize Tree.liftable? us = l'? at hlift ⊢
    cases hlift with
    | some hl => exact hR.liftConstruction hpq h hl
    | none => exact .lift (hR.propagateJoin hpq h)

-- ---------------------------------------------------------------------------
-- Left joins
-- ---------------------------------------------------------------------------

theorem liftLeftConstruction (h : R t u) (h' : R t' u') :
    Rewrite.Mirrors R Q (liftLeftConstruction σ p condition? projected bindings t t')
      (liftLeftConstruction τ q condition? projected bindings u u') := by
  unfold Tree.liftLeftConstruction
  dsimp only
  rw [hR.knownVars_eq h, hR.knownVars_eq h', hR.vars_eq h, hR.vars_eq h']
  refine .bind_same fun _ => .bind_same fun _ => .bind_same fun names => ?_
  refine (Rewrite.Mirrors.lift (hpq.descend _ _ _ h)).bind fun left left' h => ?_
  refine .bind_same fun parts => ?_
  refine (Rewrite.Mirrors.lift (hpq.descend _ _ _ h')).bind fun right right' h' => ?_
  refine (Rewrite.Mirrors.lift (hR.build (.leftJoin h h') rfl rfl)).bind fun _ _ h => ?_
  exact .lift (hR.build (.construct h) rfl rfl)

theorem simplifyLeftJoin (h : R t u) (h' : R t' u') :
    Mirrors R Q (simplifyLeftJoin σ p condition? t t') (simplifyLeftJoin τ q condition? u u') := by
  unfold Tree.simplifyLeftJoin
  rw [hR.joinedNullability_eq (.cons h (.cons h' .nil)), hR.rightSpecific_eq h h']
  split
  · exact hR.build (.leftJoin h h') rfl rfl
  · split
    · exact hR.build (.leftJoin h h') rfl rfl
    · exact hR.padWithNulls _ h
    · exact hR.padWithNulls _ h
    · refine (hpq.propagate _ h').bind fun right right' hright => ?_
      rw [hR.isEmpty_eq hright]
      exact .ite Iff.rfl (fun _ => hR.padWithNulls _ h) fun _ =>
        hR.build (.leftJoin h hright) rfl rfl

theorem normalizeLeftJoin (h : R t u) (h' : R t' u') :
    Rewrite.Mirrors R Q (normalizeLeftJoin σ p condition? t t')
      (normalizeLeftJoin τ q condition? u u') := by
  have hsimplify : Rewrite.Mirrors R Q (liftM (Tree.simplifyLeftJoin σ p condition? t t'))
      (liftM (Tree.simplifyLeftJoin τ q condition? u u')) := .lift (hR.simplifyLeftJoin hpq h h')
  unfold Tree.normalizeLeftJoin
  rw [hR.isEmpty_eq h, hR.isEmpty_eq h', hR.isUnit_eq h', hR.vars_eq h, hR.vars_eq h',
    hR.rightSpecific_eq h h']
  refine .ite Iff.rfl (fun _ => .pure (hR.leaf _ _)) fun _ => ?_
  refine .ite Iff.rfl (fun _ => .lift (hR.padWithNulls _ h)) fun _ => ?_
  refine .ite Iff.rfl (fun _ => .pure h) fun _ => ?_
  cases hR.root h with
  | construct hc => exact .ite Iff.rfl (fun _ => hsimplify) fun _ => hR.liftLeftConstruction hpq hc h'
  | _ => exact hsimplify

-- ---------------------------------------------------------------------------
-- All rules
-- ---------------------------------------------------------------------------

/-- The rules of related nodes. -/
theorem rules (h : SameRoot R t u) : Rewrite.Mirrors R Q (rules σ p t) (rules τ q u) := by
  cases h with
  | construct h => exact hR.normalizeConstruct hpq h
  | filter h => exact .lift (hR.normalizeFilter hpq h)
  | join h => exact hR.normalizeJoin hpq h
  | leftJoin h h' => exact hR.normalizeLeftJoin hpq h h'
  | union h => exact .lift (hR.normalizeUnion h)
  | distinct h => exact .lift (hR.normalizeDistinct h)
  | slice h => exact .lift (hR.normalizeSlice h)
  | orderBy h => exact .lift (hR.normalizeOrderBy h)
  | aggregate h => exact .lift (hR.normalizeAggregate h)
  | leaf => exact .pure (hR.leaf _ _)

end Mirroring

/-- The node over what becomes of its children. -/
theorem sameRoot_normalizeChildren {S : Tree → Tree → Prop}
    (hrecur : ∀ c ∈ t.children, Rewrite.Ends (S c) Q (recur c)) :
    Rewrite.Ends (fun u => SameRoot S t u ∧ u.isNormalized = t.isNormalized) Q
      (normalizeChildren recur t) := by
  have hmapM {ts : List Tree} (hts : ∀ t ∈ ts, Rewrite.Ends (S t) Q (recur t)) :
      Rewrite.Ends (List.Forall₂ S ts) Q (ts.mapM recur) := .mapM hts
  cases t with
  | construct => exact (hrecur _ (.head _)).bind fun _ h => .pure ⟨.construct h, rfl⟩
  | filter => exact (hrecur _ (.head _)).bind fun _ h => .pure ⟨.filter h, rfl⟩
  | join => exact (hmapM hrecur).bind fun _ h => .pure ⟨.join h, rfl⟩
  | leftJoin =>
    exact (hrecur _ (.head _)).bind fun _ h => (hrecur _ (.tail _ (.head _))).bind fun _ h' =>
      .pure ⟨.leftJoin h h', rfl⟩
  | union => exact (hmapM hrecur).bind fun _ h => .pure ⟨.union h, rfl⟩
  | distinct => exact (hrecur _ (.head _)).bind fun _ h => .pure ⟨.distinct h, rfl⟩
  | slice => exact (hrecur _ (.head _)).bind fun _ h => .pure ⟨.slice h, rfl⟩
  | orderBy => exact (hrecur _ (.head _)).bind fun _ h => .pure ⟨.orderBy h, rfl⟩
  | aggregate => exact (hrecur _ (.head _)).bind fun _ h => .pure ⟨.aggregate h, rfl⟩
  | leaf => exact .pure ⟨.leaf, rfl⟩

end QueryAlgebra.Tree
