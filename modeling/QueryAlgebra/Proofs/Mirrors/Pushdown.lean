import QueryAlgebra.Proofs.Mirrors.Basic

/-!
# Pushing mirrored

What is pushed through related trees gives related trees, node by node and so to any depth.

Main statement: `Tree.Mirroring.pushdown`.
-/

namespace QueryAlgebra

variable {R : Tree → Tree → Prop} {Q : Error → Prop} {σ τ : BuildSettings} {p q : Pushdown}
  {t t' u u' : Tree} {ts us : List Tree} {s bindings : Substitution} {projected grouping : VarSet}
  {constraint condition : Expression} {constraint? condition? : Option Expression}
  {optimize : Bool}

/-- What is pushed into related trees by the one and by the other. -/
structure Pushdown.Mirrors (R : Tree → Tree → Prop) (Q : Error → Prop) (p q : Pushdown) : Prop where
  descend : ∀ s constraint? optimize {t u : Tree}, R t u →
    QueryAlgebra.Mirrors R Q (p.descend s constraint? optimize t) (q.descend s constraint? optimize u)
  propagate : ∀ constraint {t u : Tree}, R t u →
    QueryAlgebra.Mirrors R Q (p.propagate constraint t) (q.propagate constraint u)

theorem Pushdown.Mirrors.pushSplit (hpq : p.Mirrors R Q q) (own : SplitCondition)
    (constraint? : Option Expression) (h : R t u) :
    QueryAlgebra.Mirrors R Q (p.pushSplit own constraint? t) (q.pushSplit own constraint? u) := by
  refine .ite Iff.rfl (fun _ => hpq.descend _ _ _ h) fun _ => ?_
  cases constraint? with
  | none => exact .ok h
  | some constraint => exact hpq.propagate constraint h

namespace Tree.Mirroring

variable (hR : Mirroring R Q σ τ) (hpq : p.Mirrors R Q q)
include hR hpq

-- ---------------------------------------------------------------------------
-- Constructions
-- ---------------------------------------------------------------------------

theorem renameHidden (h : R t u) :
    Mirrors (fun a b => R a.1 b.1 ∧ a.2 = b.2) Q (renameHidden p s optimize projected bindings t)
      (renameHidden q s optimize projected bindings u) := by
  unfold Tree.renameHidden
  rw [hR.vars_eq h, hR.knownVars_eq h]
  exact .ite Iff.rfl (fun _ => .ok ⟨h, rfl⟩) fun _ =>
    (hpq.descend _ _ _ h).bind fun _ _ h => .ok ⟨h, rfl⟩

theorem descendConstruct (h : R t u) :
    Mirrors R Q (descendConstruct σ p s constraint? optimize projected bindings t)
      (descendConstruct τ q s constraint? optimize projected bindings u) := by
  refine (hR.renameHidden hpq h).bind ?_
  rintro ⟨child, bindings⟩ ⟨child', _⟩ ⟨h, rfl⟩
  refine (hpq.descend _ _ _ h).bind fun rewritten rewritten' h => ?_
  dsimp only
  rw [hR.nullability_eq h]
  split
  · exact hR.constructOver _ _ h
  · refine .ite Iff.rfl (fun _ => ?_) fun _ => ?_
    · split
      · exact hR.constructOver _ _ h
      · exact .ok (hR.leaf _ _)
      · exact .ok (hR.leaf _ _)
      · exact (hR.build (.filter h) rfl rfl).bind fun _ _ h => hR.constructOver _ _ h
    · exact (hR.build (.filter h) rfl rfl).bind fun _ _ h => hR.constructOver _ _ h

theorem propagateConstruct (h : R t u) :
    Mirrors R Q (propagateConstruct σ p constraint projected bindings t)
      (propagateConstruct τ q constraint projected bindings u) := by
  unfold Tree.propagateConstruct
  split
  · exact hR.build (.construct h) rfl rfl
  · exact (hpq.propagate _ h).bind fun _ _ h => hR.build (.construct h) rfl rfl

-- ---------------------------------------------------------------------------
-- Filters and joins
-- ---------------------------------------------------------------------------

theorem propagateFilter (h : R t u) :
    Mirrors R Q (propagateFilter σ p constraint? condition t)
      (propagateFilter τ q constraint? condition u) := by
  unfold Tree.propagateFilter
  dsimp only
  simp only [hR.nullability_eq h, hR.vars_eq h, hR.keepAggregateEqualities_eq _ (.cons h .nil)]
  split
  · exact .ok (hR.leaf _ _)
  · exact (hpq.pushSplit _ _ h).bind fun _ _ h => (hR.filterOptional _ h).bind fun _ _ h =>
      hR.restoreEqualities _ _ h

theorem descendFilter (h : R t u) :
    Mirrors R Q (descendFilter σ p s constraint? optimize condition t)
      (descendFilter τ q s constraint? optimize condition u) := by
  unfold Tree.descendFilter
  dsimp only
  rw [hR.vars_eq h]
  refine .ite Iff.rfl (fun _ => ?_) fun _ => ?_
  · exact (hpq.descend _ _ _ h).bind fun _ _ h => hR.build (.filter h) rfl rfl
  · split
    · exact .ok (hR.leaf _ _)
    · exact (hpq.descend _ _ _ h).bind fun _ _ h => (hR.filterOptional _ h).bind fun _ _ h =>
        hR.restoreEqualities _ _ h

theorem propagateJoin (h : List.Forall₂ R ts us) :
    Mirrors R Q (propagateJoin σ p constraint? condition? ts)
      (propagateJoin τ q constraint? condition? us) := by
  unfold Tree.propagateJoin
  dsimp only
  simp only [hR.joinedNullability_eq h, hR.varsOf_eq h, hR.keepAggregateEqualities_eq _ h]
  split
  · exact .ok (hR.leaf _ _)
  · exact (Mirrors.mapM (fun _ _ h => hpq.pushSplit _ _ h) h).bind fun _ _ h =>
      (hR.joinOf _ h).bind fun _ _ h => hR.restoreEqualities _ _ h

theorem descendJoin (h : List.Forall₂ R ts us) :
    Mirrors R Q (descendJoin σ p s constraint? optimize condition? ts)
      (descendJoin τ q s constraint? optimize condition? us) := by
  unfold Tree.descendJoin
  dsimp only
  rw [hR.varsOf_eq h]
  refine .ite Iff.rfl (fun _ => ?_) fun _ => ?_
  · exact (Mirrors.mapM (fun _ _ h => hpq.descend _ _ _ h) h).bind fun _ _ h =>
      hR.build (.join h) rfl rfl
  · split
    · exact .ok (hR.leaf _ _)
    · exact (Mirrors.mapM (fun _ _ h => hpq.descend _ _ _ h) h).bind fun _ _ h =>
        (hR.joinOf _ h).bind fun _ _ h => hR.restoreEqualities _ _ h

-- ---------------------------------------------------------------------------
-- Left joins
-- ---------------------------------------------------------------------------

theorem descendLeftJoin (h : R t u) (h' : R t' u') :
    Mirrors R Q (descendLeftJoin σ p s constraint? optimize condition? t t')
      (descendLeftJoin τ q s constraint? optimize condition? u u') := by
  have hequates : equatesRightSpecific s t t' = equatesRightSpecific s u u' := by
    rw [equatesRightSpecific, equatesRightSpecific, hR.vars_eq h, hR.vars_eq h',
      hR.rightSpecific_eq h h']
  unfold Tree.descendLeftJoin
  dsimp only
  rw [hequates, hR.rightSpecific_eq h h', hR.vars_eq h]
  refine .ite Iff.rfl (fun _ => ?_) fun _ => ?_
  · exact (hR.build (.join (.cons h (.cons h' .nil))) rfl rfl).bind fun _ _ h => hpq.descend _ _ _ h
  · refine (hpq.descend _ _ _ h).bind fun left left' h => ?_
    refine (hpq.descend _ _ _ h').bind fun right right' h' => ?_
    rw [hR.isEmpty_eq h, hR.isEmpty_eq h', hR.rightSpecific_eq h h', hR.vars_eq h, hR.vars_eq h']
    refine .ite Iff.rfl (fun _ => hR.build (.leftJoin h h') rfl rfl) fun _ => ?_
    refine .ite Iff.rfl (fun _ => .ok (hR.leaf _ _)) fun _ => ?_
    refine .ite Iff.rfl (fun _ => hR.padWithNulls _ h) fun _ => ?_
    split
    · exact hR.build (.leftJoin h h') rfl rfl
    · exact hR.build (.leftJoin h h') rfl rfl
    · exact hR.padWithNulls _ h
    · exact hR.padWithNulls _ h
    · exact hR.build (.leftJoin h h') rfl rfl

theorem propagateLeftJoin (h : R t u) (h' : R t' u') :
    Mirrors R Q (propagateLeftJoin σ p constraint condition? t t')
      (propagateLeftJoin τ q constraint condition? u u') := by
  unfold Tree.propagateLeftJoin
  rw [hR.rightSpecific_eq h h', hR.vars_eq h]
  refine .ite Iff.rfl (fun _ => ?_) fun _ => ?_
  · exact (hR.build (.join (.cons h (.cons h' .nil))) rfl rfl).bind fun _ _ h => hpq.propagate _ h
  · dsimp only
    split
    · exact (hpq.propagate _ h).bind fun _ _ h => hR.build (.leftJoin h h') rfl rfl
    · exact hR.build (.leftJoin h h') rfl rfl

-- ---------------------------------------------------------------------------
-- Aggregations
-- ---------------------------------------------------------------------------

theorem descendAggregate (h : R t u) :
    Mirrors R Q (descendAggregate σ p s optimize grouping bindings t)
      (descendAggregate τ q s optimize grouping bindings u) := by
  unfold Tree.descendAggregate
  dsimp only
  rw [hR.vars_eq h, hR.knownVars_eq h]
  refine .ite Iff.rfl (fun _ => Mirrors.bind (.ok h) fun child child' h => ?_) fun _ =>
    (hpq.descend _ _ _ h).bind fun child child' h => ?_
  all_goals
    refine (hpq.descend _ _ _ h).bind fun _ _ h => ?_
    rw [hR.knownVars_eq h]
    refine (hR.build (.aggregate h) rfl rfl).bind fun aggregation aggregation' h => ?_
    split
    · exact .ok h
    · exact (hR.build (.filter h) rfl rfl).bind fun _ _ h => hR.build (.construct h) rfl rfl

-- ---------------------------------------------------------------------------
-- One node
-- ---------------------------------------------------------------------------

theorem descendRoot (h : R t u) :
    Mirrors R Q (descendRoot σ p s constraint? optimize t)
      (descendRoot τ q s constraint? optimize u) := by
  cases hR.root h with
  | construct hc => exact hR.descendConstruct hpq hc
  | filter hc => exact hR.descendFilter hpq hc
  | join hs => exact hR.descendJoin hpq hs
  | leftJoin hleft hright => exact hR.descendLeftJoin hpq hleft hright
  | union hs =>
    exact (Mirrors.mapM (fun _ _ h => hpq.descend _ _ _ h) hs).bind fun _ _ hs =>
      hR.build (.union hs) rfl rfl
  | distinct hc => exact (hpq.descend _ _ _ hc).bind fun _ _ h => hR.build (.distinct h) rfl rfl
  | slice hc => exact (hpq.descend _ _ _ hc).bind fun _ _ h => hR.build (.slice h) rfl rfl
  | orderBy hc => exact (hpq.descend _ _ _ hc).bind fun _ _ h => hR.build (.orderBy h) rfl rfl
  | aggregate hc => exact hR.descendAggregate hpq hc
  | @leaf _ _ l =>
    cases l with
    | native query => exact .error _
    | unit => exact .ok h
    | _ => exact .ok (hR.leaf _ _)

theorem descendNode (h : R t u) :
    Mirrors R Q (descendNode σ p s constraint? optimize t)
      (descendNode τ q s constraint? optimize u) := by
  -- what is done with any tree but a native query
  have hother (s : Substitution) (xs : VarSet) {pass pass' : Except Error Tree}
      (hpass : Mirrors R Q pass pass') : Mirrors R Q
      (if !s.isNonFunctional then .error (.functionalBinding s.text t.label)
        else if s.bindings.any (·.2.isNull) then .ok (noRow (s.applyVars xs))
        else if s.isEmpty then pass else Tree.descendRoot σ p s constraint? optimize t)
      (if !s.isNonFunctional then .error (.functionalBinding s.text u.label)
        else if s.bindings.any (·.2.isNull) then .ok (noRow (s.applyVars xs))
        else if s.isEmpty then pass' else Tree.descendRoot τ q s constraint? optimize u) := by
    rw [hR.label_eq h]
    refine .ite Iff.rfl (fun _ => .error _) fun _ => ?_
    refine .ite Iff.rfl (fun _ => .ok (hR.leaf _ _)) fun _ => ?_
    exact .ite Iff.rfl (fun _ => hpass) fun _ => hR.descendRoot hpq h
  have hvars := hR.vars_eq h
  have hpropagate (constraint : Expression) := hpq.propagate constraint h
  cases hR.root h with
  | @leaf _ _ l =>
    cases l with
    | native query => exact .error _
    | _ =>
      refine hother _ _ ?_
      split
      · exact hpropagate _
      · exact .ok h
  | _ =>
    unfold Tree.descendNode
    dsimp only
    rw [hvars]
    refine hother _ _ ?_
    split
    · exact hpropagate _
    · exact .ok h

theorem rebuild (constraint : Expression) (h : R t u) :
    Mirrors R Q (do rebuild σ t (← t.children.mapM (p.propagate constraint)))
      (do rebuild τ u (← u.children.mapM (q.propagate constraint))) := by
  have hchildren := (hR.root h).children
  refine (Mirrors.mapM (fun _ _ h => hpq.propagate constraint h) hchildren).bind fun us us' hs => ?_
  unfold Tree.rebuild
  rw [hR.sameAll_eq hs hchildren]
  exact .ite Iff.rfl (fun _ => .ok h) fun _ => hR.withChildren h hs

theorem propagateNode (h : R t u) :
    Mirrors R Q (propagateNode σ p constraint t) (propagateNode τ q constraint u) := by
  have hrebuild := hR.rebuild hpq constraint h
  cases hR.root h with
  | construct hc => exact hR.propagateConstruct hpq hc
  | filter hc => exact hR.propagateFilter hpq hc
  | join hs => exact hR.propagateJoin hpq hs
  | leftJoin hleft hright => exact hR.propagateLeftJoin hpq hleft hright
  | union | distinct | orderBy => exact hrebuild
  | slice | aggregate => exact .ok h
  | @leaf _ _ l =>
    cases l with
    | native query => exact .error _
    | _ => exact .ok h

omit hpq in
/-- So it is with what is pushed to any depth. -/
theorem descendTo (depth : Nat) : Pushdown.Mirrors R Q ⟨descendTo σ depth, propagateTo σ depth⟩
    ⟨Tree.descendTo τ depth, propagateTo τ depth⟩ := by
  induction depth with
  | zero => exact ⟨fun _ _ _ _ _ _ => .error _, fun _ _ _ _ => .error _⟩
  | succ depth ih =>
    exact ⟨fun _ _ _ _ _ h => hR.descendNode ih h, fun _ _ _ h => hR.propagateNode ih h⟩

omit hpq in
theorem pushdown : (pushdown σ).Mirrors R Q (Tree.pushdown τ) := by
  constructor
  · intro s constraint? optimize t u h
    simp only [Tree.pushdown, descend, hR.pushdownDepth_eq h]
    generalize u.pushdownDepth = depth
    exact (hR.descendTo depth).descend s constraint? optimize h
  · intro constraint t u h
    simp only [Tree.pushdown, propagate, hR.pushdownDepth_eq h]
    generalize u.pushdownDepth = depth
    exact (hR.descendTo depth).propagate constraint h

end Tree.Mirroring

end QueryAlgebra
