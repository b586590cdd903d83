import QueryAlgebra.Proofs.Rewriting
import QueryAlgebra.Proofs.Validity
import QueryAlgebra.Tree.Normalize

/-!
# Computations that mirror each other

Two runs of the same rewriting, under other settings or on trees with other marks, do the same step by
step (`Mirrors`): what the one builds is related to what the other builds, and they stop with the same
error, except that one of them may be cut short by an error of its own. For that the trees of the one
must be those of the other but for marks, node by node, and nodes must be built alike (`Tree.Mirroring`).

This module says so of the data that the rewritings read off trees, and of the nodes that they build.
-/

namespace QueryAlgebra

variable {Q : Error → Prop}

-- ---------------------------------------------------------------------------
-- Computations
-- ---------------------------------------------------------------------------

/-- The first computation ends as the second one does, in a value that is related to its value or in the
same error, or it is cut short by an error that satisfies `Q`. -/
inductive Mirrors {α β : Type} (R : α → β → Prop) (Q : Error → Prop) :
    Except Error α → Except Error β → Prop where
  | ok {a : α} {b : β} (h : R a b) : Mirrors R Q (.ok a) (.ok b)
  | error (e : Error) : Mirrors R Q (.error e) (.error e)
  | cut {e : Error} {y : Except Error β} (h : Q e) : Mirrors R Q (.error e) y

namespace Mirrors

variable {α β γ δ : Type} {R : α → β → Prop} {S : γ → δ → Prop} {x : Except Error α}
  {y : Except Error β}

theorem refl (x : Except Error α) : Mirrors Eq Q x x := by
  cases x with
  | error e => exact .error e
  | ok a => exact .ok rfl

theorem imp {S : α → β → Prop} (h : Mirrors R Q x y) (hRS : ∀ a b, R a b → S a b) :
    Mirrors S Q x y := by
  cases h with
  | ok h => exact .ok (hRS _ _ h)
  | error e => exact .error e
  | cut h => exact .cut h

theorem bind {f : α → Except Error γ} {g : β → Except Error δ} (h : Mirrors R Q x y)
    (hfg : ∀ a b, R a b → Mirrors S Q (f a) (g b)) : Mirrors S Q (x >>= f) (y >>= g) := by
  cases h with
  | ok h => exact hfg _ _ h
  | error e => exact .error e
  | cut h => exact .cut h

theorem ite {c c' : Prop} [Decidable c] [Decidable c'] {x' : Except Error α} {y' : Except Error β}
    (hc : c ↔ c') (h : c' → Mirrors R Q x y) (h' : ¬c' → Mirrors R Q x' y') :
    Mirrors R Q (if c then x else x') (if c' then y else y') := by
  by_cases hc' : c'
  · rw [if_pos hc', if_pos (hc.2 hc')]
    exact h hc'
  · rw [if_neg hc', if_neg (mt hc.1 hc')]
    exact h' hc'

theorem mapM {f : α → Except Error γ} {g : β → Except Error δ} {as : List α} {bs : List β}
    (hfg : ∀ a b, R a b → Mirrors S Q (f a) (g b)) (h : List.Forall₂ R as bs) :
    Mirrors (List.Forall₂ S) Q (as.mapM f) (bs.mapM g) := by
  induction h with
  | nil => exact .ok .nil
  | cons hab _ ih =>
    rw [List.mapM_cons, List.mapM_cons]
    exact (hfg _ _ hab).bind fun c d hcd => ih.bind fun cs ds hcds => .ok (.cons hcd hcds)

/-- What is found without being cut short is related to what the other computation finds. -/
theorem exists_ok {a : α} (h : Mirrors R Q x y) (hx : x = .ok a) : ∃ b, y = .ok b ∧ R a b := by
  cases h with
  | ok h =>
    cases hx
    exact ⟨_, rfl, h⟩
  | error e => cases hx
  | cut h => cases hx

end Mirrors

/-- From every supply on, the first rewriting mirrors the second one, and takes the same names. -/
def Rewrite.Mirrors {α β : Type} (R : α → β → Prop) (Q : Error → Prop) (x : Rewrite α)
    (y : Rewrite β) : Prop :=
  ∀ supply, QueryAlgebra.Mirrors (fun p q => R p.1 q.1 ∧ p.2 = q.2) Q (x supply) (y supply)

namespace Rewrite.Mirrors

variable {α β γ δ : Type} {R : α → β → Prop} {S : γ → δ → Prop} {x : Rewrite α} {y : Rewrite β}

theorem pure {a : α} {b : β} (h : R a b) :
    Rewrite.Mirrors R Q (Pure.pure a : Rewrite α) (Pure.pure b) := fun _ => .ok ⟨h, rfl⟩

theorem lift {x : Except Error α} {y : Except Error β} (h : QueryAlgebra.Mirrors R Q x y) :
    Rewrite.Mirrors R Q (liftM x) (liftM y) := fun _ => h.bind fun _ _ hab => .ok ⟨hab, rfl⟩

theorem bind {f : α → Rewrite γ} {g : β → Rewrite δ} (h : Rewrite.Mirrors R Q x y)
    (hfg : ∀ a b, R a b → Rewrite.Mirrors S Q (f a) (g b)) :
    Rewrite.Mirrors S Q (x >>= f) (y >>= g) := by
  intro supply
  refine (h supply).bind ?_
  rintro ⟨a, _⟩ ⟨b, known⟩ ⟨hab, rfl⟩
  exact hfg a b hab _

/-- After a step that both take. -/
theorem bind_same {x : Rewrite α} {f : α → Rewrite γ} {g : α → Rewrite δ}
    (hfg : ∀ a, Rewrite.Mirrors S Q (f a) (g a)) : Rewrite.Mirrors S Q (x >>= f) (x >>= g) := by
  refine bind (R := Eq) (fun supply => (QueryAlgebra.Mirrors.refl _).imp ?_) ?_
  · rintro _ _ rfl
    exact ⟨rfl, rfl⟩
  · rintro a _ rfl
    exact hfg a

theorem ite {c c' : Prop} [Decidable c] [Decidable c'] {x' : Rewrite α} {y' : Rewrite β}
    (hc : c ↔ c') (h : c' → Rewrite.Mirrors R Q x y) (h' : ¬c' → Rewrite.Mirrors R Q x' y') :
    Rewrite.Mirrors R Q (if c then x else x') (if c' then y else y') := by
  by_cases hc' : c'
  · rw [if_pos hc', if_pos (hc.2 hc')]
    exact h hc'
  · rw [if_neg hc', if_neg (mt hc.1 hc')]
    exact h' hc'

theorem mapM {f : α → Rewrite γ} {g : β → Rewrite δ} {as : List α} {bs : List β}
    (hfg : ∀ a b, R a b → Rewrite.Mirrors S Q (f a) (g b)) (h : List.Forall₂ R as bs) :
    Rewrite.Mirrors (List.Forall₂ S) Q (as.mapM f) (bs.mapM g) := by
  induction h with
  | nil => exact .pure .nil
  | cons hab _ ih =>
    rw [List.mapM_cons, List.mapM_cons]
    exact (hfg _ _ hab).bind fun c d hcd => ih.bind fun cs ds hcds => .pure (.cons hcd hcds)

end Rewrite.Mirrors

namespace Tree

-- ---------------------------------------------------------------------------
-- What marks do not change
-- ---------------------------------------------------------------------------

variable {α : Type} {f : Tree → α} {ts : List Tree}

theorem map_map_unmarked (h : ∀ t ∈ ts, f t.unmarked = f t) : (ts.map unmarked).map f = ts.map f := by
  rw [List.map_map]
  exact List.map_congr_left h

theorem label_unmarked (t : Tree) : t.unmarked.label = t.label := by
  cases t <;> rfl

theorem knownVars_unmarked (t : Tree) : t.unmarked.knownVars = t.knownVars := by
  have hall (ts : List Tree) (ih : ∀ t ∈ ts, t.unmarked.knownVars = t.knownVars) :
      knownVarsOf (ts.map unmarked) = knownVarsOf ts := by
    induction ts with
    | nil => rfl
    | cons t ts ihs =>
      rw [List.forall_mem_cons] at ih
      rw [List.map_cons, knownVarsOf, knownVarsOf, ih.1, ihs ih.2]
  induction t using inductionOn with
  | step t ih =>
    cases t with
    | join m condition? ts | union m projected ts =>
      have hts := hall ts ih
      simp only [unmarked, unmarkedAll_eq_map, knownVars, varsOf_map_unmarked, hts]
    | _ => simp_all [unmarked, knownVars, children, vars_unmarked]

theorem nullability_unmarked (t : Tree) : t.unmarked.nullability = t.nullability := by
  induction t using inductionOn with
  | step t ih =>
    cases t with
    | join m condition? ts | union m projected ts =>
      have hparts := map_map_unmarked ih
      have hscopes := map_map_unmarked fun t (_ : t ∈ ts) => vars_unmarked t
      simp only [children] at hparts
      simp only [unmarked, unmarkedAll_eq_map, nullability, nullabilities_eq_map, hparts, hscopes]
    | _ => simp_all [unmarked, nullability, children, vars_unmarked]

theorem uniqueness_unmarked (t : Tree) : t.unmarked.uniqueness = t.uniqueness := by
  induction t using inductionOn with
  | step t ih =>
    cases t with
    | join m condition? ts =>
      have hparts := map_map_unmarked ih
      simp only [children] at hparts
      simp only [unmarked, unmarkedAll_eq_map, uniqueness, uniquenesses_eq_map, hparts,
        List.zipWith_map_left, vars_unmarked]
    | union | leaf => rfl
    | _ => simp_all [unmarked, uniqueness, children, vars_unmarked]

theorem size_unmarked (t : Tree) : t.unmarked.size = t.size := by
  have hall (ts : List Tree) (ih : ∀ t ∈ ts, t.unmarked.size = t.size) :
      (marksOf (ts.map unmarked)).length = (marksOf ts).length := by
    induction ts with
    | nil => rfl
    | cons t ts ihs =>
      rw [List.forall_mem_cons] at ih
      have hhead : (marks t.unmarked).length = (marks t).length := ih.1
      rw [List.map_cons, marksOf, marksOf, List.length_append, List.length_append, ihs ih.2, hhead]
  induction t using inductionOn with
  | step t ih =>
    cases t with
    | join m condition? ts | union m projected ts =>
      have hts := hall ts ih
      simp only [size, unmarked, unmarkedAll_eq_map, marks, List.length_cons, hts]
    | _ => simp_all [size, unmarked, marks, children]

theorem growth_unmarked (t : Tree) : t.unmarked.growth = t.growth := by
  have hall (ts : List Tree) (ih : ∀ t ∈ ts, t.unmarked.growth = t.growth) :
      growthOf (ts.map unmarked) = growthOf ts := by
    induction ts with
    | nil => rfl
    | cons t ts ihs =>
      rw [List.forall_mem_cons] at ih
      rw [List.map_cons, growthOf, growthOf, ihs ih.2, ih.1]
  induction t using inductionOn with
  | step t ih =>
    cases t with
    | join m condition? ts | union m projected ts =>
      have hts := hall ts ih
      simp only [unmarked, unmarkedAll_eq_map, growth, hts, varsOf_map_unmarked]
    | _ => simp_all [unmarked, growth, children, vars_unmarked]

-- ---------------------------------------------------------------------------
-- Trees that differ in marks
-- ---------------------------------------------------------------------------

/-- The same node over related children. -/
inductive SameRoot (R : Tree → Tree → Prop) : Tree → Tree → Prop where
  | construct {m m' : Bool} {projected : VarSet} {bindings : Substitution} {t u : Tree} (h : R t u) :
    SameRoot R (construct m projected bindings t) (construct m' projected bindings u)
  | filter {m m' : Bool} {condition : Expression} {t u : Tree} (h : R t u) :
    SameRoot R (filter m condition t) (filter m' condition u)
  | join {m m' : Bool} {condition? : Option Expression} {ts us : List Tree}
    (h : List.Forall₂ R ts us) : SameRoot R (join m condition? ts) (join m' condition? us)
  | leftJoin {m m' : Bool} {condition? : Option Expression} {t t' u u' : Tree} (hleft : R t u)
    (hright : R t' u') : SameRoot R (leftJoin m condition? t t') (leftJoin m' condition? u u')
  | union {m m' : Bool} {projected : VarSet} {ts us : List Tree} (h : List.Forall₂ R ts us) :
    SameRoot R (union m projected ts) (union m' projected us)
  | distinct {m m' : Bool} {t u : Tree} (h : R t u) : SameRoot R (distinct m t) (distinct m' u)
  | slice {m m' : Bool} {window : Window} {t u : Tree} (h : R t u) :
    SameRoot R (slice m window t) (slice m' window u)
  | orderBy {m m' : Bool} {keys : List SortKey} {t u : Tree} (h : R t u) :
    SameRoot R (orderBy m keys t) (orderBy m' keys u)
  | aggregate {m m' : Bool} {grouping : VarSet} {bindings : Substitution} {t u : Tree} (h : R t u) :
    SameRoot R (aggregate m grouping bindings t) (aggregate m' grouping bindings u)
  | leaf {m m' : Bool} {l : Leaf} : SameRoot R (leaf m l) (leaf m' l)

/-- Trees that are related are the same but for their marks, node by node, and new nodes over related
children are built alike. -/
structure Mirroring (R : Tree → Tree → Prop) (Q : Error → Prop) (σ τ : BuildSettings) : Prop where
  root : ∀ {t u : Tree}, R t u → SameRoot R t u
  leaf : ∀ m l, R (leaf m l) (leaf m l)
  build : ∀ {t u : Tree}, SameRoot R t u → t.isNormalized = false → u.isNormalized = false →
    Mirrors R Q (σ.build t) (τ.build u)

variable {R : Tree → Tree → Prop} {σ τ : BuildSettings} {t t' u u' left right : Tree}
  {us : List Tree}

theorem map_eq_of_forall₂ (hf : ∀ t u, R t u → f t = f u) (h : List.Forall₂ R ts us) :
    ts.map f = us.map f := by
  induction h with
  | nil => rfl
  | cons h _ ih => rw [List.map_cons, List.map_cons, hf _ _ h, ih]

theorem any_eq_of_forall₂ {p : Tree → Bool} (hp : ∀ t u, R t u → p t = p u)
    (h : List.Forall₂ R ts us) : ts.any p = us.any p := by
  induction h with
  | nil => rfl
  | cons h _ ih => rw [List.any_cons, List.any_cons, hp _ _ h, ih]

theorem SameRoot.refl (h : ∀ c ∈ t.children, R c c) : SameRoot R t t := by
  cases t with
  | construct => exact .construct (h _ (.head _))
  | filter => exact .filter (h _ (.head _))
  | join => exact .join (List.forall₂_same.2 h)
  | leftJoin => exact .leftJoin (h _ (.head _)) (h _ (.tail _ (.head _)))
  | union => exact .union (List.forall₂_same.2 h)
  | distinct => exact .distinct (h _ (.head _))
  | slice => exact .slice (h _ (.head _))
  | orderBy => exact .orderBy (h _ (.head _))
  | aggregate => exact .aggregate (h _ (.head _))
  | leaf => exact .leaf

theorem SameRoot.children (h : SameRoot R t u) : List.Forall₂ R t.children u.children := by
  cases h with
  | join h | union h => exact h
  | leftJoin hleft hright => exact .cons hleft (.cons hright .nil)
  | leaf => exact .nil
  | construct h | filter h | distinct h | slice h | orderBy h | aggregate h => exact .cons h .nil

theorem SameRoot.unmarked_eq (h : SameRoot R t u)
    (hchildren : List.Forall₂ (fun c d => c.unmarked = d.unmarked) t.children u.children) :
    t.unmarked = u.unmarked := by
  have hall := map_eq_of_forall₂ (fun _ _ => id) hchildren
  cases h with
  | leaf => rfl
  | _ => simpa [unmarked, Tree.children] using hall

namespace Mirroring

variable (hR : Mirroring R Q σ τ)
include hR

theorem unmarked_eq (h : R t u) : t.unmarked = u.unmarked := by
  induction t using inductionOn generalizing u with
  | step t ih =>
    have hroot := hR.root h
    have hchildren := (List.forall₂_and_left _ _).2 ⟨@ih, hroot.children⟩
    exact hroot.unmarked_eq (hchildren.imp fun c d ⟨hc, h⟩ => hc h)

theorem vars_eq (h : R t u) : t.vars = u.vars := vars_of_unmarked_eq (hR.unmarked_eq h)

theorem knownVars_eq (h : R t u) : t.knownVars = u.knownVars := by
  rw [← knownVars_unmarked t, ← knownVars_unmarked u, hR.unmarked_eq h]

theorem nullability_eq (h : R t u) : t.nullability = u.nullability := by
  rw [← nullability_unmarked t, ← nullability_unmarked u, hR.unmarked_eq h]

theorem isDistinct_eq (h : R t u) : t.isDistinct = u.isDistinct := by
  rw [isDistinct, isDistinct, ← uniqueness_unmarked t, ← uniqueness_unmarked u, hR.unmarked_eq h]

theorem pushdownDepth_eq (h : R t u) : t.pushdownDepth = u.pushdownDepth := by
  rw [pushdownDepth, pushdownDepth, ← size_unmarked t, ← size_unmarked u, ← growth_unmarked t,
    ← growth_unmarked u, hR.unmarked_eq h]

theorem label_eq (h : R t u) : t.label = u.label := by
  rw [← label_unmarked t, ← label_unmarked u, hR.unmarked_eq h]

theorem isEmpty_eq (h : R t u) : t.isEmpty = u.isEmpty := by
  cases hR.root h with
  | @leaf _ _ l => cases l <;> rfl
  | _ => rfl

theorem isUnit_eq (h : R t u) : t.isUnit = u.isUnit := by
  cases hR.root h with
  | @leaf _ _ l => cases l <;> rfl
  | _ => rfl

theorem rightSpecific_eq (h : R t u) (h' : R t' u') : rightSpecific t t' = rightSpecific u u' := by
  rw [rightSpecific, rightSpecific, hR.vars_eq h, hR.vars_eq h']

theorem varsOf_eq (h : List.Forall₂ R ts us) : varsOf ts = varsOf us :=
  (varsOf_congr (h.imp fun _ _ h => (hR.vars_eq h).symm)).symm

theorem knownVarsOf_eq (h : List.Forall₂ R ts us) : knownVarsOf ts = knownVarsOf us := by
  induction h with
  | nil => rfl
  | cons h _ ih => rw [knownVarsOf, knownVarsOf, hR.knownVars_eq h, ih]

theorem joinedNullability_eq (h : List.Forall₂ R ts us) :
    joinedNullability ts = joinedNullability us := by
  rw [joinedNullability, joinedNullability, map_eq_of_forall₂ (fun _ _ h => hR.vars_eq h) h,
    map_eq_of_forall₂ (fun _ _ h => hR.nullability_eq h) h]

theorem keepAggregateEqualities_eq (c : SplitCondition) (h : List.Forall₂ R ts us) :
    keepAggregateEqualities c ts = keepAggregateEqualities c us := by
  have hvars (t u : Tree) (h : R t u) :
      constrainedVarsAt c.equalities t = constrainedVarsAt c.equalities u := by
    cases hR.root h <;> rfl
  rw [keepAggregateEqualities, keepAggregateEqualities, map_eq_of_forall₂ hvars h]

theorem sameAll_eq (h : List.Forall₂ R ts us) {ts' us' : List Tree} (h' : List.Forall₂ R ts' us') :
    sameAll ts ts' = sameAll us us' := by
  rw [Bool.eq_iff_iff, sameAll_eq_true, sameAll_eq_true,
    map_eq_of_forall₂ (fun _ _ h => hR.unmarked_eq h) h, map_eq_of_forall₂ (fun _ _ h => hR.unmarked_eq h) h']

-- ---------------------------------------------------------------------------
-- Building
-- ---------------------------------------------------------------------------

theorem filterOptional (condition? : Option Expression) (h : R t u) :
    Mirrors R Q (σ.filterOptional condition? t) (τ.filterOptional condition? u) := by
  cases condition? with
  | none => exact .ok h
  | some condition => exact hR.build (.filter h) rfl rfl

theorem restoreEqualities (xs : VarSet) (s : Substitution) (h : R t u) :
    Mirrors R Q (σ.restoreEqualities xs s t) (τ.restoreEqualities xs s u) :=
  .ite Iff.rfl (fun _ => .ok h) fun _ => hR.build (.construct h) rfl rfl

theorem joinOf (condition? : Option Expression) (h : List.Forall₂ R ts us) :
    Mirrors R Q (σ.joinOf condition? ts) (τ.joinOf condition? us) := by
  match h with
  | .nil => exact hR.filterOptional condition? (hR.leaf _ _)
  | .cons h .nil => exact hR.filterOptional condition? h
  | .cons h (.cons h' hs) => exact hR.build (.join (.cons h (.cons h' hs))) rfl rfl

theorem padWithNulls (xs : VarSet) (h : R t u) :
    Mirrors R Q (σ.padWithNulls t xs) (τ.padWithNulls u xs) := by
  unfold BuildSettings.padWithNulls
  rw [hR.vars_eq h]
  exact .ite Iff.rfl (fun _ => .ok h) fun _ => hR.build (.construct h) rfl rfl

/-- The construction of bindings, or the tree alone where they would compute and hide nothing. -/
theorem constructOver (projected : VarSet) (s : Substitution) (h : R t u) :
    Mirrors R Q
      (if s.isEmpty ∧ t.vars = projected then .ok t else σ.construct projected s t)
      (if s.isEmpty ∧ u.vars = projected then .ok u else τ.construct projected s u) :=
  .ite (by rw [hR.vars_eq h]) (fun _ => .ok h) fun _ => hR.build (.construct h) rfl rfl

theorem withChildren (h : R t u) (hs : List.Forall₂ R ts us) :
    Mirrors R Q (t.withChildren σ ts) (u.withChildren τ us) := by
  have hroot := hR.root h
  have hwrong : Mirrors R Q
      (.error (.wrongChildCount t.label (toString t.children.length) ts.length) : Except Error Tree)
      (.error (.wrongChildCount u.label (toString u.children.length) us.length)) := by
    rw [hR.label_eq h, hs.length_eq, hroot.children.length_eq]
    exact .error _
  cases hroot with
  | join h' =>
    exact .ite (by rw [hs.length_eq, h'.length_eq]) (fun _ => hR.build (.join hs) rfl rfl)
      fun _ => hwrong
  | union h' =>
    exact .ite (by rw [hs.length_eq, h'.length_eq]) (fun _ => hR.build (.union hs) rfl rfl)
      fun _ => hwrong
  | leftJoin =>
    rcases hs with _ | ⟨hleft, _ | ⟨hright, _ | _⟩⟩
    case cons.cons.nil => exact hR.build (.leftJoin hleft hright) rfl rfl
    all_goals exact hwrong
  | leaf =>
    cases hs with
    | nil => exact .ok (hR.leaf _ _)
    | cons => exact hwrong
  | _ =>
    rcases hs with _ | ⟨h, _ | _⟩
    case cons.nil => exact hR.build (by constructor; exact h) rfl rfl
    all_goals exact hwrong

end Mirroring

end Tree

end QueryAlgebra
