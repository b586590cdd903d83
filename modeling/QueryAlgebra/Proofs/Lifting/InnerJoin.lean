import QueryAlgebra.Proofs.Lifting.Basic
import QueryAlgebra.Proofs.Pushdown

/-!
# Lifting a construction above a join

A join over a construction becomes a construction over a join. What the siblings of the construction
learn of its bindings goes into them, the names of what it hides go into its child, and whatever is
pushed there has to return the images of the rows that satisfy its equalities
(`Tree.ReturnsImages`). Nothing else is asked of the trees, so they may be of any kind.

Main statement: `Tree.liftConstruction_rows` — if that is so for each substitution that is pushed
(`Tree.LiftableChild.Pushes`), the lifted tree is built, and it has the rows of the join. Where a
variable that is bound to NULL is shared, no row joins, and nothing is pushed into the siblings.
-/

namespace QueryAlgebra.Tree

open QueryAlgebra.Except (Ends)

variable {D : Database} {σ : BuildSettings} {push : Pushdown} {s : Substitution}
  {condition? : Option Expression} {t u : Tree} {ts us : List Tree} {m m' : Bool}

-- ---------------------------------------------------------------------------
-- Images of trees
-- ---------------------------------------------------------------------------

/-- `u` returns, of each row of `t` that satisfies the equalities of `s`, its image, and nothing
else. -/
def ReturnsImages (D : Database) (s : Substitution) (t u : Tree) : Prop :=
  u.HasBag D (s.applyVars t.vars)
    (((t.rows D).filter fun ρ => ρ.Meets s t.vars).map (Row.image s t.vars))

theorem ReturnsImages.perm_renamed (h : ReturnsImages D s t u) (hs : s.Flat) :
    (u.rows D).Perm (Row.renamed D.toInterpretation s t.vars (t.rows D)) := by
  rw [Row.renamed_eq hs]
  exact h.perm

/-- What is pushed through a core tree returns the images. -/
theorem returnsImages_pushdown (ht : t.Core .inner) (hs : s.Flat)
    (hok : ((pushdown σ).descend s none true t).isOk = true) :
    ∃ u, (pushdown σ).descend s none true t = .ok u ∧ ReturnsImages D s t u := by
  cases hu : (pushdown σ).descend s none true t with
  | error e =>
    rw [hu] at hok
    cases hok
  | ok u =>
    have hnarrows := (sound_pushdown (D := D)).descend_none ht hs.suits u hu
    rw [Row.renamed_eq hs] at hnarrows
    exact ⟨u, rfl, hnarrows.hasBag⟩

/-- Joined images are the images of what is joined. -/
theorem joinRows_images (hs : s.Flat) (h : List.Forall₂ (ReturnsImages D s) ts us) :
    (joinRows D us).Perm (Row.renamed D.toInterpretation s (varsOf ts) (joinRows D ts)) := by
  have hpruned : Pruned (D.Possible _ none) _ _ := pruned_joinRows hs
    (h.imp fun _ _ htu => ⟨htu.vars, .of_perm (htu.perm_renamed hs)⟩)
  exact hpruned.perm fun _ _ => Interpretation.possible_none

/-- The tree without rows over `xs`, or a construction of `xs` with these bindings over a join. -/
def IsLifted (xs : VarSet) (lifted : Substitution) : Tree → Prop
  | construct _ projected bindings (join _ _ _) => projected = xs ∧ bindings = lifted
  | leaf _ (.empty projected) => projected = xs
  | _ => False

-- ---------------------------------------------------------------------------
-- What is pushed
-- ---------------------------------------------------------------------------

namespace LiftableChild

/-- The children of the join. -/
def children (l : LiftableChild) (m : Bool) : List Tree :=
  l.before ++ construct m l.projected l.bindings l.child :: l.after

def siblings (l : LiftableChild) : List Tree := l.before ++ l.after

/-- New names for what the construction hides, and the supply that is left. -/
def hiddenNames (l : LiftableChild) (supply : NameSupply) : Substitution × NameSupply :=
  supply.freshRenaming (hiddenClashes l.projected l.bindings l.child.vars (varsOf l.siblings))

/-- The bindings over the new names. -/
def renamedBindings (l : LiftableChild) (supply : NameSupply) : Substitution :=
  l.bindings.mapTerms (l.hiddenNames supply).1.apply

/-- The variables that the renamed bindings compute from. -/
def renamedScope (l : LiftableChild) (supply : NameSupply) : VarSet :=
  (l.hiddenNames supply).1.applyVars l.child.vars

/-- What the siblings learn, if anything. -/
def learned (l : LiftableChild) (supply : NameSupply) :
    Except Error (Option LiftedBindings × NameSupply) :=
  bindingsForSiblings (varsOf l.siblings) {} (l.renamedBindings supply).bindings
    (l.hiddenNames supply).2

/-- The condition of the join below the lifted bindings. -/
def liftedCondition (l : LiftableChild) (supply : NameSupply) (condition? : Option Expression)
    (parts : LiftedBindings) : Option Expression :=
  Expression.andOptional (condition?.map (l.renamedBindings supply).applyExpression)
    (Expression.conjunction parts.equalities)

/-- The substitutions that are pushed while the construction is lifted, each with the tree that it is
pushed into. -/
inductive Pushes (l : LiftableChild) (supply : NameSupply) : Substitution → Tree → Prop
  | below : Pushes l supply (l.hiddenNames supply).1 l.child
  | sideways {parts : LiftedBindings} {left : NameSupply} {t : Tree}
      (h : l.learned supply = .ok (some parts, left)) (ht : t ∈ l.siblings) :
      Pushes l supply (.ofList parts.descending) t

variable {l : LiftableChild} {supply : NameSupply}

theorem vars_children : varsOf (l.children m) = l.projected ∪ varsOf l.siblings := varsOf_middle

/-- The rows of the join, one row of the construction after the other. -/
theorem rows_join_children : ((join m' condition? (l.children m)).rows D).Perm
    (((l.child.rows D).map (D.constructed l.projected l.bindings)).flatMap
      (D.matched l.projected (varsOf l.siblings) condition? (joinRows D l.siblings))) := by
  rw [rows]
  refine ((joinRows_perm List.perm_middle).filter _).trans (.of_eq ?_)
  rw [joinRows, Row.joinPairs, List.filter_flatMap]
  rfl

/-- The bindings compute what the construction projects, and the supply knows what the join has. -/
structure Prepared (l : LiftableChild) (supply : NameSupply) : Prop where
  computes : l.bindings.Computes l.projected l.child.vars
  projected : l.projected ⊆ supply.known
  scope : l.child.vars ⊆ supply.known
  siblings : varsOf l.siblings ⊆ supply.known

theorem prepared_register (m : Bool) (supply : NameSupply)
    (hcomputes : l.bindings.Computes l.projected l.child.vars) :
    l.Prepared (supply.register (knownVarsOf (l.children m))) := by
  have hmem : construct m l.projected l.bindings l.child ∈ l.children m :=
    List.mem_append_right _ (.head _)
  have hknown {t : Tree} (ht : t ∈ l.children m) :
      t.knownVars ⊆ (supply.register (knownVarsOf (l.children m))).known := fun x hx =>
    SortedSet.mem_union.2 (.inr (knownVars_subset_knownVarsOf ht x hx))
  refine ⟨hcomputes, fun x hx => ?_, fun x hx => ?_, fun x hx => ?_⟩
  · exact hknown hmem x (vars_subset_knownVars _ x hx)
  · refine hknown hmem x (knownVars_subset_of_mem_children (.head _) x ?_)
    exact vars_subset_knownVars l.child x hx
  · obtain ⟨t, ht, hx⟩ := mem_varsOf.1 hx
    have ht : t ∈ l.children m := (List.mem_append.1 ht).elim (List.mem_append_left _) fun hafter =>
      List.mem_append_right _ (.tail _ hafter)
    exact hknown ht x (vars_subset_knownVars t x hx)

/-- The construction is valid as well. -/
structure Ready (l : LiftableChild) (supply : NameSupply) : Prop extends l.Prepared supply where
  root : (construct false l.projected l.bindings l.child).RootValid

theorem ready_register (supply : NameSupply) (hvalid : (join m' condition? (l.children m)).Valid) :
    l.Ready (supply.register (knownVarsOf (l.children m))) := by
  have hmem : construct m l.projected l.bindings l.child ∈ l.children m :=
    List.mem_append_right _ (.head _)
  have hroot := (valid_iff.1 ((valid_iff.1 hvalid).2 _ hmem)).1
  exact ⟨prepared_register m supply (rootInScope_of_rootValid hroot), hroot⟩

-- ---------------------------------------------------------------------------
-- The rows of the lifted tree
-- ---------------------------------------------------------------------------

theorem renames_hiddenNames (l : LiftableChild) (supply : NameSupply) :
    (l.hiddenNames supply).1.Renames
      (hiddenClashes l.projected l.bindings l.child.vars (varsOf l.siblings)) supply.known :=
  supply.renames_freshRenaming _

variable {before after : List Tree} {child : Tree} {parts : LiftedBindings} {xs : VarSet}

namespace Prepared

variable (h : l.Prepared supply)
include h

theorem computes_renamed :
    (l.renamedBindings supply).Computes l.projected (l.renamedScope supply) :=
  (l.renames_hiddenNames supply).computes_mapTerms h.computes

theorem perm_constructed (hchild : ReturnsImages D (l.hiddenNames supply).1 l.child child) :
    ((child.rows D).map (D.constructed l.projected (l.renamedBindings supply))).Perm
      ((l.child.rows D).map (D.constructed l.projected l.bindings)) := by
  rw [← (l.renames_hiddenNames supply).map_constructed h.computes h.scope]
  exact (hchild.perm_renamed (l.renames_hiddenNames supply).flat).map _

/-- The siblings learn how the bindings relate to what they have, or share a variable that is bound to
NULL. -/
theorem relays_learned :
    Ends (fun r =>
        (r.1 = none → ∃ x ∈ varsOf l.siblings,
          (x, .const .null) ∈ (l.renamedBindings supply).bindings) ∧
        ∀ parts ∈ r.1, parts.Learns (varsOf l.siblings) (l.renamedBindings supply).bindings ∧
          (l.renamedBindings supply).Relays l.projected (l.renamedScope supply)
            (varsOf l.siblings) (.ofList parts.descending) parts.equalities)
      (fun _ => False) (l.learned supply) := by
  refine (LiftedBindings.adds_bindingsForSiblings _ _ _).imp fun r hr => ⟨hr.1, fun parts hparts => ?_⟩
  have hadds := hr.2 parts hparts
  refine ⟨hadds.learns, hadds.relays h.computes_renamed ?_ ?_⟩
  · exact NameSupply.applyVars_freshRenaming h.scope
  · exact fun x hx => (supply.known_freshForEach _).1 x (h.siblings x hx)

/-- Where a shared variable is bound to NULL, no row joins. -/
theorem rows_of_null {x : Variable} (hx : x ∈ varsOf l.siblings)
    (hnull : (x, .const .null) ∈ (l.renamedBindings supply).bindings)
    (hchild : ReturnsImages D (l.hiddenNames supply).1 l.child child) :
    (join m' condition? (l.children m)).rows D = [] := by
  have hfind := Substitution.mem_bindings.1 hnull
  have hxp : x ∈ l.projected := Substitution.domain_subset_of_fixed h.computes_renamed.fixed x
    (Substitution.mem_domain.2 ⟨_, hfind⟩)
  have hperm := ((h.perm_constructed hchild).symm.flatMap_right
    (D.matched l.projected (varsOf l.siblings) condition? (joinRows D l.siblings)))
  refine (rows_join_children.trans (hperm.trans (.of_eq ?_))).eq_nil
  rw [List.flatMap_map, List.flatMap_eq_nil_iff]
  exact fun ρ _ => Source.matched_constructed_of_null hxp hx (Substitution.applyVar_of_find? hfind) ρ

/-- The bindings above the join of images compute the rows of the join. -/
theorem map_constructed_join (hcondition : conditionVars condition? ⊆ l.projected ∪ varsOf l.siblings)
    (hrelays : (l.renamedBindings supply).Relays l.projected (l.renamedScope supply)
      (varsOf l.siblings) (.ofList parts.descending) parts.equalities)
    (hchild : ReturnsImages D (l.hiddenNames supply).1 l.child child)
    (hsiblings : List.Forall₂ (ReturnsImages D (.ofList parts.descending)) l.siblings
      (before ++ after)) :
    (((join false (l.liftedCondition supply condition? parts)
        (before ++ child :: after)).rows D).map
      (D.constructed (l.projected ∪ varsOf l.siblings) (l.renamedBindings supply))).Perm
      ((join m' condition? (l.children m)).rows D) := by
  have hmatched := Source.matched_constructed (D := D) hrelays h.computes_renamed
    (fun x hx => (l.renames_hiddenNames supply).mem_projected_of_shared h.siblings hx)
    (conditionVars_subset_iff.1 hcondition) (supported_joinRows (D := D) l.siblings)
  have hlifted : (child.rows D).flatMap (fun ρ =>
        D.matched l.projected (varsOf l.siblings) condition? (joinRows D l.siblings)
          (D.constructed l.projected (l.renamedBindings supply) ρ)) = _ :=
    List.flatMap_congr fun ρ _ => hmatched ρ
  have himages : Alike false _ _ := joinRows_images hrelays.flat hsiblings
  have hvars := varsOf_images (hsiblings.imp fun _ _ h => h.vars)
  -- both sides go through the rows below the construction one after the other
  rw [rows]
  refine (((joinRows_perm List.perm_middle).filter _).map _).trans ?_
  rw [joinRows, hchild.vars, hvars, Row.joinPairs, List.filter_flatMap, List.map_flatMap]
  refine .trans ?_ (((h.perm_constructed hchild).flatMap_right _).trans rows_join_children.symm)
  rw [List.flatMap_map, hlifted]
  exact List.Perm.flatMap_left _ fun ρ _ => (Source.matched_alike himages ρ).map _

end Prepared

-- ---------------------------------------------------------------------------
-- The nodes of the lifted tree
-- ---------------------------------------------------------------------------

namespace Ready

variable (h : l.Ready supply)
include h

/-- The construction passes its check above whatever has the variables that its bindings use. -/
theorem rootValid_construct (hprojected : l.projected ⊆ xs)
    (hcomputes : (l.renamedBindings supply).Computes xs child.vars) :
    (construct false xs (l.renamedBindings supply) child).RootValid := by
  obtain ⟨hdomain, hdisjoint, htarget, -⟩ := h.root
  refine ⟨Substitution.domain_subset_of_fixed hcomputes.fixed, ?_, fun x y hxy => ?_,
    requiredVars_subset hcomputes.fixed hcomputes.vars_subset⟩
  · exact (l.renames_hiddenNames supply).disjoint_mapTerms
      (fun x hx => h.projected x (hdomain x hx)) hdisjoint
  · obtain ⟨t, ht, hty⟩ := Substitution.exists_find?_of_mapTerms hxy
    cases t with
    | var z =>
      have hz := htarget x z ht
      rw [Substitution.apply_var, (l.renames_hiddenNames supply).applyVar_projected hz] at hty
      exact hprojected y (Term.var.inj hty ▸ hz)
    | const c => cases hty
    | app f args =>
      rw [Substitution.apply_app] at hty
      cases hty

/-- Both nodes of the lifted tree are built. -/
theorem exists_lifted (hroot : (join m' condition? (l.children m)).RootValid)
    (hlearns : parts.Learns (varsOf l.siblings) (l.renamedBindings supply).bindings)
    (hrelays : (l.renamedBindings supply).Relays l.projected (l.renamedScope supply)
      (varsOf l.siblings) (.ofList parts.descending) parts.equalities)
    (hchild : ReturnsImages D (l.hiddenNames supply).1 l.child child)
    (hsiblings : List.Forall₂ (ReturnsImages D (.ofList parts.descending)) l.siblings
      (before ++ after)) :
    ∃ joined u, σ.joinOf (l.liftedCondition supply condition? parts) (before ++ child :: after)
        = .ok joined ∧
      σ.construct (varsOf (l.children m)) (l.renamedBindings supply) joined = .ok u ∧
      u.IsLifted (varsOf (l.children m)) (l.renamedBindings supply) ∧
      u.HasBag D (varsOf (l.children m)) ((join m' condition? (l.children m)).rows D) := by
  obtain ⟨hlength, hcondition⟩ := hroot
  rw [vars_children] at hcondition ⊢
  have hvars : varsOf (before ++ child :: after) = l.renamedScope supply ∪
      (Substitution.ofList parts.descending).applyVars (varsOf l.siblings) := by
    rw [varsOf_middle, hchild.vars, varsOf_images (hsiblings.imp fun _ _ h => h.vars), renamedScope]
  have hjoined : (join false (l.liftedCondition supply condition? parts)
      (before ++ child :: after)).RootValid := by
    refine ⟨?_, hvars ▸ hlearns.conditionVars_lifted h.computes_renamed hcondition⟩
    have hsame := hsiblings.length_eq
    rw [LiftableChild.siblings, List.length_append, List.length_append] at hsame
    rw [children, List.length_append, List.length_cons] at hlength
    rw [List.length_append, List.length_cons]
    omega
  have hcomputes := hlearns.computes h.computes_renamed
  rw [← hvars] at hcomputes
  refine ⟨_, _, joinOf_eq_ok hjoined,
    build_eq_ok (h.rootValid_construct SortedSet.subset_union_left hcomputes), ⟨rfl, rfl⟩, rfl, ?_⟩
  rw [rows]
  exact h.map_constructed_join hcondition hrelays hchild hsiblings

end Ready

end LiftableChild

-- ---------------------------------------------------------------------------
-- The rule
-- ---------------------------------------------------------------------------

variable {l : LiftableChild} {supply : NameSupply}

/-- Lifting a construction above a valid join keeps the rows and the variables of the join, if what it
pushes returns the images of the rows that satisfy the equalities. The bindings of the construction, over
the new names of what it hides, then stand above the join. -/
theorem liftConstruction_rows (hvalid : (join m' condition? (l.children m)).validate = .ok ())
    (hpush : ∀ s t, l.Pushes (supply.register (knownVarsOf (l.children m))) s t →
      ∃ u, push.descend s none true t = .ok u ∧ ReturnsImages D s t u) :
    ∃ u left, liftConstruction σ push condition? (l.children m) l supply = .ok (u, left) ∧
      u.IsLifted (varsOf (l.children m))
        (l.renamedBindings (supply.register (knownVarsOf (l.children m)))) ∧
      u.vars = varsOf (l.children m) ∧
      (u.rows D).Perm ((join m' condition? (l.children m)).rows D) := by
  have hvalid := validate_eq_ok.1 hvalid
  have h := l.ready_register supply hvalid
  suffices hends : Ends (fun r => r.1.IsLifted (varsOf (l.children m))
        (l.renamedBindings (supply.register (knownVarsOf (l.children m)))) ∧
      r.1.HasBag D (varsOf (l.children m)) ((join m' condition? (l.children m)).rows D))
      (fun _ => False) (liftConstruction σ push condition? (l.children m) l supply) by
    obtain ⟨⟨u, left⟩, hu, hshape, hbag⟩ := Except.ends_false_iff.1 hends
    exact ⟨u, left, hu, hshape, hbag.vars, hbag.perm⟩
  generalize hsupply : supply.register (knownVarsOf (l.children m)) = known at h hpush ⊢
  have hpushed {s : Substitution} {t : Tree} (hst : l.Pushes known s t) :
      Ends (ReturnsImages D s t) (fun _ => False) (push.descend s none true t) :=
    Except.ends_false_iff.2 (hpush s t hst)
  obtain ⟨⟨parts?, rest⟩, hlearned, hnone, hparts⟩ := Except.ends_false_iff.1 h.relays_learned
  have hlearn : Ends (· = (parts?, rest)) (fun _ => False) (l.learned known) := hlearned ▸ rfl
  unfold liftConstruction
  refine Rewrite.ends_bind (P := (· = ((), known))) (congrArg _ hsupply) ?_
  rintro _ rfl
  refine Rewrite.ends_bind (P := (· = l.hiddenNames known)) rfl ?_
  rintro _ rfl
  refine Rewrite.ends_bind (Rewrite.ends_lift (hpushed .below) _) ?_
  rintro ⟨child, _⟩ ⟨hchild, rfl⟩
  refine Rewrite.ends_bind hlearn ?_
  rintro _ rfl
  cases parts? with
  | none =>
    obtain ⟨x, hx, hnull⟩ := hnone rfl
    exact ⟨rfl, rfl, h.rows_of_null hx hnull hchild ▸ .refl _⟩
  | some parts =>
    obtain ⟨hlearns, hrelays⟩ := hparts parts rfl
    have hsibling {t : Tree} (ht : t ∈ l.siblings) := hpushed (.sideways hlearned ht)
    refine Rewrite.ends_bind (Rewrite.Ends.mapM (fun t ht => .lift
      (hsibling (List.mem_append_left _ ht))) rest) fun r hbefore => ?_
    refine Rewrite.ends_bind (Rewrite.Ends.mapM (fun t ht => .lift
      (hsibling (List.mem_append_right _ ht))) r.2) fun r' hafter => ?_
    obtain ⟨joined, u, hjoined, hu, hlifted⟩ := h.exists_lifted (σ := σ) (valid_iff.1 hvalid).1
      hlearns hrelays hchild (List.rel_append hbefore hafter)
    have hjoin : Ends (· = joined) (fun _ => False)
        (σ.joinOf (l.liftedCondition known condition? parts) (r.1 ++ child :: r'.1)) := by
      rw [hjoined]
      rfl
    have hconstruct : Ends (· = u) (fun _ => False)
        (σ.construct (varsOf (l.children m)) (l.renamedBindings known) joined) := by
      rw [hu]
      rfl
    refine Rewrite.ends_bind (Rewrite.ends_lift hjoin _) ?_
    rintro ⟨_, _⟩ ⟨rfl, rfl⟩
    refine (Rewrite.ends_lift hconstruct _).imp ?_
    rintro ⟨_, _⟩ ⟨rfl, -⟩
    exact hlifted

/-- The sibling has a variable that is bound to a sum, and one by the name of a hidden variable. -/
theorem liftConstruction_rows_of_shared_sum :
    let r : Relation := ⟨"r", [⟨"a", .integer, false⟩, ⟨"b", .integer, true⟩], []⟩
    let D := Database.ofTable r [[.integer 1, .integer 2], [.integer 2, .null],
      [.integer 2, .integer 3], [.integer 3, .integer 2]] (by decide) (by decide) (by decide)
    let atom (x y : String) : Tree := .leaf false (.extensional ⟨r, [.var ⟨x⟩, .var ⟨y⟩]⟩)
    let sum := Term.app ⟨.add, 2⟩ [.var ⟨"y"⟩, .const (.integer 1)]
    let l : LiftableChild := ⟨[], .ofList [⟨"x"⟩], .ofList [(⟨"x"⟩, sum)], atom "y" "h", [atom "x" "h"]⟩
    let c : Expression := .eq (.var ⟨"x"⟩) (.const (.integer 3))
    let t := join false (some c) (l.children false)
    t.validate = .ok () ∧
      (∀ s u, l.Pushes ((NameSupply.ofKnown ∅).register (knownVarsOf (l.children false))) s u →
        ∃ v, (pushdown ⟨false⟩).descend s none true u = .ok v ∧ ReturnsImages D s u v) ∧
      ∃ u left, liftConstruction ⟨false⟩ (pushdown ⟨false⟩) (some c) (l.children false) l
          (.ofKnown ∅) = .ok (u, left) ∧
        u.IsLifted (varsOf (l.children false)) (.ofList [(⟨"x"⟩, .app ⟨.add, 2⟩
          [.var ⟨"y"⟩, .const (.integer 1)])]) ∧
        u.vars = t.vars ∧ (u.rows D).length = 2 := by
  intro r D atom sum l c t
  have hvalid : t.validate = .ok () := by rfl
  have hcore (x y : String) : (atom x y).Core .inner := core_leaf.2 rfl
  have hpush : ∀ s u, l.Pushes ((NameSupply.ofKnown ∅).register (knownVarsOf (l.children false))) s u →
      ∃ v, (pushdown ⟨false⟩).descend s none true u = .ok v ∧ ReturnsImages D s u v := by
    intro s u h
    cases h with
    | below =>
      exact returnsImages_pushdown (hcore "y" "h") (l.renames_hiddenNames _).flat (by decide +kernel)
    | @sideways parts _ _ h ht =>
      obtain rfl := List.mem_singleton.1 ht
      have hchecked : ((l.learned ((NameSupply.ofKnown ∅).register
          (knownVarsOf (l.children false)))).toOption.all fun learned => learned.1.all fun parts =>
            (Substitution.ofList parts.descending).isNonFunctional &&
              ((pushdown ⟨false⟩).descend (.ofList parts.descending) none true (atom "x" "h")).isOk) =
            true := by decide +kernel
      rw [h] at hchecked
      obtain ⟨hflat, hok⟩ := Bool.and_eq_true_iff.1 hchecked
      exact returnsImages_pushdown (hcore "x" "h")
        (Substitution.flat_of_isNonFunctional hflat) hok
  obtain ⟨u, left, hu, hshape, hvars, hperm⟩ :=
    liftConstruction_rows (σ := ⟨false⟩) (D := D) hvalid hpush
  refine ⟨hvalid, hpush, u, left, hu, hshape, hvars, hperm.length_eq.trans (by decide +kernel)⟩

end QueryAlgebra.Tree
