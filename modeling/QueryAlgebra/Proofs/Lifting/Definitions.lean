import QueryAlgebra.Proofs.Normalization
import QueryAlgebra.Tree.Lift

/-!
# Lifting unions with different definitions

A construction or a filter of a union is the union of what it makes of each branch, a join with a
union among its operands is the union of the joins with each branch, and a union within a union is
joined with it: `Tree.liftDefinitions` keeps the bag of rows, however deep the unions are and however
many operands of a join were lifted before. The union that takes the place of a join is normalized at
once, while the lifting goes on around it. `Tree.LiftNormalizes` tells which trees are normalized in the
course of a lifting, and from which supplies of names: lifting keeps the rows unless one of these
normalizations comes to a clash of names.

Main statement: `Tree.liftDefinitions_rows`. Where there is no join, nothing is normalized
(`Tree.LiftNormalizes.exists_join`), and lifting keeps the rows without further ado.
-/

namespace QueryAlgebra.Tree

open QueryAlgebra.Except (Returns)

variable {D : Database} {σ : BuildSettings} {x : Variable} {xs projected : VarSet} {m m' : Bool}
  {condition? : Option Expression} {t u : Tree} {ts us before branches after : List Tree}
  {supply : NameSupply}

/-- What computes the rows of a positive tree and is positive renders it. -/
theorem Computes.renders {rows : List Row} (h : u.Computes D .inner t.vars rows)
    (hrows : rows.Perm (t.rows D)) (hpositive : u.Positive) : Renders D t u :=
  ⟨h.restates hrows, hpositive⟩

theorem forall_positive_rendered (h : List.Forall₂ (Renders D) ts us) : ∀ u ∈ us, u.Positive := by
  intro u hu
  obtain ⟨_, -, htu⟩ := exists_of_mem_right h hu
  exact htu.positive

-- ---------------------------------------------------------------------------
-- Nodes over unions
-- ---------------------------------------------------------------------------

/-- The union of what is computed for each branch. -/
theorem returns_unionOf {f : Tree → List Row}
    (h : List.Forall₂ (fun t u => u.Computes D .inner xs (f t)) ts us) :
    Returns (Computes D .inner xs (ts.flatMap f)) (σ.union xs us) := by
  have hrows : unionRows D us = ts.flatMap f := by
    induction h with
    | nil => rfl
    | cons hu _ ih => rw [unionRows, List.flatMap_cons, hu.rows, ih]
  rw [← hrows]
  refine BuildSettings.returns_union (fun u hu => ?_) fun u hu => ?_
  · obtain ⟨_, -, hcomputes⟩ := exists_of_mem_right h hu
    exact hcomputes.core
  · obtain ⟨_, -, hcomputes⟩ := exists_of_mem_right h hu
    exact hcomputes.vars

/-- A tree with branches worth lifting is a union of them. -/
theorem eq_union_of_liftableBranches (h : liftableBranches? x t = some branches) :
    ∃ m xs, t = union m xs branches := by
  cases t with
  | union m xs ts =>
    obtain ⟨-, hts⟩ := Option.ite_none_right_eq_some.1 h
    exact ⟨m, xs, Option.some.inj hts ▸ rfl⟩
  | _ => cases h

theorem positive_distribute {node : Tree → Except Error Tree}
    (hnode : ∀ v : Tree, v.Positive → GivesPositive (node v)) (h : t.Positive) :
    GivesPositive (distribute σ x projected node t) := by
  unfold distribute
  split
  · next branches hbranches =>
    obtain ⟨m, ys, rfl⟩ := eq_union_of_liftableBranches hbranches
    exact (positive_mapM fun v hv => hnode v (h.children v hv)).bind fun _ =>
      BuildSettings.givesPositive_union
  · exact hnode t h

/-- A node that treats rows one by one gives, distributed over a union worth lifting, what it gives of
the union. -/
theorem returns_distribute {node : Tree → Except Error Tree} {f : List Row → List Row}
    (hf : ∀ ts : List Tree, f (ts.flatMap fun t => t.rows D) = ts.flatMap fun t => f (t.rows D))
    (hnode : ∀ v, v.Core .inner → v.vars = xs →
      Returns (Computes D .inner projected (f (v.rows D))) (node v))
    (hcore : t.Core .inner) (hvars : t.vars = xs) :
    Returns (Computes D .inner projected (f (t.rows D))) (distribute σ x projected node t) := by
  unfold distribute
  split
  · next branches hbranches =>
    obtain ⟨m, ys, rfl⟩ := eq_union_of_liftableBranches hbranches
    obtain ⟨hsame, hbranchesCore⟩ := core_union.1 hcore
    rw [rows_union hsame, unionRows_eq_flatMap, hf]
    have hnodes := Returns.mapM fun v hv => hnode v (hbranchesCore v hv) ((hsame v hv).trans hvars)
    exact hnodes.bind fun ws hws => returns_unionOf hws
  · exact hnode t hcore hvars

/-- The rows of a join with a union among its operands, branch by branch. -/
theorem joinRows_union (hvars : ∀ b ∈ branches, b.vars = xs) :
    (joinRows D (before ++ union m xs branches :: after)).Perm
      (branches.flatMap fun b => joinRows D (before ++ b :: after)) := by
  have hfirst : joinRows D (union m xs branches :: (before ++ after))
      = branches.flatMap fun b => joinRows D (b :: (before ++ after)) := by
    rw [joinRows, rows_union hvars, unionRows_eq_flatMap, Row.joinPairs, List.flatMap_assoc]
    refine List.flatMap_congr fun b hb => ?_
    rw [joinRows, hvars b hb, vars, Row.joinPairs]
  refine (joinRows_perm List.perm_middle).trans (hfirst ▸ ?_)
  exact List.Perm.flatMap_left _ fun b _ => joinRows_perm List.perm_middle.symm

-- ---------------------------------------------------------------------------
-- Normalizations in the course of a lifting
-- ---------------------------------------------------------------------------

/-- The union of joins that is normalized where one of the operands becomes a union worth lifting. -/
def JoinLifting.BuildsUnion (σ : BuildSettings) (condition? : Option Expression) (projected : VarSet) :
    JoinLifting → Tree → Prop
  | .whole _, _ => False
  | .split before branches after, u => ∃ joins,
    branches.mapM (fun branch => σ.join condition? (before ++ branch :: after)) = .ok joins ∧
      σ.union projected joins = .ok u

/-- Lifting the definitions of `x` within a tree without left joins, from the supply on, comes to
normalize `u`, and the names known by then are those of `known`. -/
inductive LiftNormalizes (σ : BuildSettings) (x : Variable) (u : Tree) (known : NameSupply) :
    Tree → NameSupply → Prop
  | construct {m : Bool} {projected : VarSet} {bindings : Substitution} {child : Tree}
      {supply : NameSupply} (hx : x ∈ requiredVars projected bindings)
      (h : LiftNormalizes σ x u known child supply) :
      LiftNormalizes σ x u known (.construct m projected bindings child) supply
  | filter {m : Bool} {condition : Expression} {child : Tree} {supply : NameSupply}
      (h : LiftNormalizes σ x u known child supply) :
      LiftNormalizes σ x u known (.filter m condition child) supply
  | operand {m : Bool} {condition? : Option Expression} {before after lifted : List Tree} {t : Tree}
      {supply supply' : NameSupply}
      (hbefore : liftJoined σ x before supply = .ok (.whole lifted, supply')) (hx : x ∈ t.vars)
      (h : LiftNormalizes σ x u known t supply') :
      LiftNormalizes σ x u known (.join m condition? (before ++ t :: after)) supply
  | join {m : Bool} {condition? : Option Expression} {children : List Tree} {l : JoinLifting}
      {supply : NameSupply} (hlifted : liftJoined σ x children supply = .ok (l, known))
      (hunion : l.BuildsUnion σ condition? (varsOf children) u) :
      LiftNormalizes σ x u known (.join m condition? children) supply
  | branch {m : Bool} {projected : VarSet} {before after lifted : List Tree} {t : Tree}
      {supply supply' : NameSupply}
      (hbefore : liftBranches σ x before supply = .ok (lifted, supply'))
      (h : LiftNormalizes σ x u known t supply') :
      LiftNormalizes σ x u known (.union m projected (before ++ t :: after)) supply

/-- Nothing is normalized where there is no join. -/
theorem LiftNormalizes.exists_join {known : NameSupply}
    (h : LiftNormalizes σ x u known t supply) : ∃ m condition? ts, .join m condition? ts ∈ t.nodes := by
  have hchild {t c v : Tree} (hc : c ∈ t.children) (hv : v ∈ c.nodes) : v ∈ t.nodes :=
    (forall_mem_nodes (p := (· ∈ t.nodes)).1 fun _ => id).2 c hc v hv
  induction h with
  | construct _ _ ih | filter _ ih =>
    obtain ⟨m, condition?, ts, hmem⟩ := ih
    exact ⟨m, condition?, ts, hchild (.head _) hmem⟩
  | operand _ _ _ ih | branch _ _ ih =>
    obtain ⟨m, condition?, ts, hmem⟩ := ih
    exact ⟨m, condition?, ts, hchild (List.mem_append_right _ (.head _)) hmem⟩
  | join => exact ⟨_, _, _, .head _⟩

theorem JoinLifting.BuildsUnion.unique {l : JoinLifting} {v : Tree}
    (h : l.BuildsUnion σ condition? projected u) (h' : l.BuildsUnion σ condition? projected v) :
    u = v := by
  cases l with
  | whole => exact h.elim
  | split before branches after =>
    obtain ⟨joins, hjoins, hu⟩ := h
    obtain ⟨joins', hjoins', hv⟩ := h'
    obtain rfl : joins = joins' := Except.ok.inj (hjoins.symm.trans hjoins')
    exact Except.ok.inj (hu.symm.trans hv)

/-- Over operands without joins, a join comes to one normalization at most. -/
theorem LiftNormalizes.of_join {l : JoinLifting} {known left : NameSupply} {v : Tree}
    (hts : ∀ t ∈ ts, ∀ m condition? us, .join m condition? us ∉ t.nodes)
    (hlifted : liftJoined σ x ts supply = .ok (l, left))
    (hv : l.BuildsUnion σ condition? (varsOf ts) v)
    (h : LiftNormalizes σ x u known (.join m condition? ts) supply) : u = v ∧ known = left := by
  cases h with
  | operand _ _ h =>
    obtain ⟨m, condition?, us, hmem⟩ := h.exists_join
    exact absurd hmem (hts _ (List.mem_append_right _ (.head _)) m condition? us)
  | join hlifted' hunion =>
    obtain ⟨rfl, rfl⟩ := Prod.mk.inj (Except.ok.inj (hlifted'.symm.trans hlifted))
    exact ⟨hunion.unique hv, rfl⟩

-- ---------------------------------------------------------------------------
-- Joins
-- ---------------------------------------------------------------------------

/-- The operands that a lifting stands for. -/
inductive JoinLifting.Shows : JoinLifting → List Tree → Prop
  | whole {ts : List Tree} : Shows (.whole ts) ts
  | split {before branches after : List Tree} {m : Bool} {xs : VarSet} :
      Shows (.split before branches after) (before ++ .union m xs branches :: after)

variable {l : JoinLifting} {known : NameSupply}

theorem JoinLifting.Shows.cons (h : l.Shows us) : (l.cons u).Shows (u :: us) := by
  cases h with
  | whole => exact .whole
  | split => exact @split (u :: _) _ _ _ _

/-- The union of the joins with each branch takes the place of the join. -/
theorem renders_union_joins {joins : List Tree} {xs : VarSet}
    (hus : List.Forall₂ (Renders D) ts (before ++ union m xs branches :: after))
    (hcondition : ∀ c ∈ condition?, c.AdmissibleOver (varsOf ts))
    (hjoins : branches.mapM (fun b => σ.join condition? (before ++ b :: after)) = .ok joins)
    (hu : σ.union (varsOf ts) joins = .ok u) : Renders D (join m' condition? ts) u := by
  have hrestates := hus.imp fun _ _ h => h.toRestates
  have hcore := forall_core_restated hrestates
  have hpositive := forall_positive_rendered hus
  have hmiddle : union m xs branches ∈ before ++ union m xs branches :: after :=
    List.mem_append_right _ (.head _)
  obtain ⟨hsame, hbranches⟩ := core_union.1 (hcore _ hmiddle)
  have hvars : ∀ b ∈ branches, varsOf (before ++ b :: after) = varsOf ts := by
    intro b hb
    rw [← varsOf_restated hrestates, varsOf_middle, varsOf_middle, hsame b hb, vars]
  have hoperands {p : Tree → Prop} (hall : ∀ t ∈ before ++ union m xs branches :: after, p t)
      (hp : ∀ b ∈ branches, p b) : ∀ b ∈ branches, ∀ t ∈ before ++ b :: after, p t := by
    intro b hb
    rw [List.forall_mem_append, List.forall_mem_cons] at hall ⊢
    exact ⟨hall.1, hp b hb, hall.2.2⟩
  have hcomputes : List.Forall₂ (fun b w => w.Computes D .inner (varsOf ts)
      ((joinRows D (before ++ b :: after)).filter fun ρ => D.HoldsOptional ρ condition?))
      branches joins := by
    refine Returns.mapM (fun b hb => ?_) joins hjoins
    rw [← hvars b hb] at hcondition ⊢
    exact BuildSettings.returns_join (hoperands hcore hbranches b hb) hcondition
  have hjoinsPositive : ∀ w ∈ joins, w.Positive :=
    (positive_mapM fun b hb => BuildSettings.givesPositive_build
      (.join (hoperands hpositive (hpositive _ hmiddle).children b hb))).returns joins hjoins
  refine (returns_unionOf hcomputes u hu).renders ?_
    ((BuildSettings.givesPositive_union hjoinsPositive).returns u hu)
  rw [← List.filter_flatMap, rows]
  exact ((joinRows_union hsame).symm.trans (joinRows_restated hrestates)).filter _

/-- The join of what the operands were lifted to, or the normalized union of the joins. -/
theorem returns_finish (hl : l.Shows us) (hus : List.Forall₂ (Renders D) ts us)
    (hcondition : ∀ c ∈ condition?, c.AdmissibleOver (varsOf ts))
    (hapart : ∀ u, l.BuildsUnion σ condition? (varsOf ts) u → NamesStayApart σ u supply) :
    Returns (fun r => Renders D (join m condition? ts) r.1)
      (l.finish σ condition? (varsOf ts) supply) := by
  intro r hr
  cases hl with
  | whole =>
    obtain ⟨u, hu, hr⟩ := Except.bind_eq_ok.1 hr
    obtain rfl : (u, supply) = r := Except.ok.inj hr
    have hrestates := hus.imp fun _ _ h => h.toRestates
    have hvars := varsOf_restated hrestates
    have hjoin := BuildSettings.returns_join (D := D) (forall_core_restated hrestates)
      (hvars ▸ hcondition) u hu
    have hpositive := (BuildSettings.givesPositive_build (σ := σ)
      (.join (forall_positive_rendered hus))).returns u hu
    have hrows : ((joinRows D us).filter fun ρ => D.HoldsOptional ρ condition?).Perm
        ((join m condition? ts).rows D) := by
      rw [rows]
      exact (joinRows_restated hrestates).filter _
    exact (hvars ▸ hjoin).renders hrows hpositive
  | @split before branches after m' ys =>
    obtain ⟨_, hlift, hr⟩ := Rewrite.bind_eq_ok.1 hr
    rw [Rewrite.mapM_lift] at hlift
    obtain ⟨joins, hjoins, rfl⟩ := Rewrite.lift_eq_ok.1 hlift
    obtain ⟨_, hlift, hr⟩ := Rewrite.bind_eq_ok.1 hr
    obtain ⟨u, hu, rfl⟩ := Rewrite.lift_eq_ok.1 hlift
    have hrenders : Renders D (join m condition? ts) u :=
      renders_union_joins hus hcondition hjoins hu
    have hnormalizes := normalizes_normalize (D := D) hrenders.core hrenders.positive
      (hapart u ⟨joins, hjoins, hu⟩) r hr
    exact (hrenders.trans_normalizes hnormalizes).toRenders

theorem liftJoined_cons_kept (hx : x ∉ t.vars) :
    liftJoined σ x (t :: ts) = do return (← liftJoined σ x ts).cons t := by
  rw [liftJoined, if_neg hx]

theorem liftJoined_cons_lifted (hx : x ∈ t.vars)
    (ht : t.liftDefinitions σ x supply = .ok (u, known)) (hu : liftableBranches? x u = none) :
    liftJoined σ x (t :: ts) supply
      = (do return (← liftJoined σ x ts).cons u : Rewrite JoinLifting) known := by
  rw [liftJoined, if_pos hx]
  simp only [bind, StateT.bind, Except.bind, ht, hu]

theorem liftJoined_cons_split (hx : x ∈ t.vars)
    (ht : t.liftDefinitions σ x supply = .ok (u, known)) (hu : liftableBranches? x u = some branches) :
    liftJoined σ x (t :: ts) supply = .ok (.split [] branches ts, known) := by
  rw [liftJoined, if_pos hx]
  simp only [bind, StateT.bind, Except.bind, ht, hu]
  rfl

/-- The operands of a join are lifted one by one, up to the first that becomes a union worth lifting. -/
theorem returns_liftJoined (hcore : ∀ t ∈ ts, t.Core .inner) (hpositive : ∀ t ∈ ts, t.Positive)
    (hlift : ∀ before t after lifted known, ts = before ++ t :: after →
      liftJoined σ x before supply = .ok (.whole lifted, known) → x ∈ t.vars →
      Returns (fun r => Renders D t r.1) (t.liftDefinitions σ x known)) :
    Returns (fun r => ∃ us, r.1.Shows us ∧ List.Forall₂ (Renders D) ts us)
      (liftJoined σ x ts supply) := by
  induction ts generalizing supply with
  | nil => exact .ok ⟨[], .whole, .nil⟩
  | cons t ts ih =>
    rw [List.forall_mem_cons] at hcore hpositive
    -- the operands after one that is kept or lifted to `u`, from the names known by then
    have hcons {u : Tree} {known : NameSupply} (hu : Renders D t u)
        (hrun : ∀ ts, liftJoined σ x (t :: ts) supply
          = (do return (← liftJoined σ x ts).cons u : Rewrite JoinLifting) known) :
        Returns (fun r => ∃ us, r.1.Shows us ∧ List.Forall₂ (Renders D) (t :: ts) us)
          (liftJoined σ x (t :: ts) supply) := by
      rw [hrun ts]
      refine Returns.bind (ih hcore.2 hpositive.2 fun before v after lifted known' hts hbefore hx => ?_) ?_
      · refine hlift (t :: before) v after (u :: lifted) known' (congrArg _ hts) ?_ hx
        rw [hrun before]
        exact Except.bind_eq_ok.2 ⟨_, hbefore, rfl⟩
      · rintro ⟨l, left⟩ ⟨us, hl, hus⟩
        exact .ok ⟨u :: us, hl.cons, .cons hu hus⟩
    by_cases hx : x ∈ t.vars
    · have ht := hlift [] t ts [] supply rfl rfl hx
      intro r hr
      obtain ⟨⟨u, known⟩, hrun⟩ : ∃ p, t.liftDefinitions σ x supply = .ok p := by
        rw [liftJoined, if_pos hx] at hr
        obtain ⟨p, hp, -⟩ := Rewrite.bind_eq_ok.1 hr
        exact ⟨p, hp⟩
      cases hbranches : liftableBranches? x u with
      | none => exact hcons (ht _ hrun) (fun ts => liftJoined_cons_lifted hx hrun hbranches) r hr
      | some branches =>
        obtain ⟨m, xs, rfl⟩ := eq_union_of_liftableBranches hbranches
        rw [liftJoined_cons_split hx hrun hbranches] at hr
        obtain rfl := Except.ok.inj hr
        have hrest := List.forall₂_same.2 fun v hv =>
          Renders.refl (D := D) (hcore.2 v hv) (hpositive.2 v hv)
        exact ⟨_, @JoinLifting.Shows.split [] _ _ _ _, .cons (ht _ hrun) hrest⟩
    · exact hcons (.refl hcore.1 hpositive.1) fun ts => congrFun (liftJoined_cons_kept hx) supply

-- ---------------------------------------------------------------------------
-- Unions
-- ---------------------------------------------------------------------------

/-- Positive core trees over `xs` that have the rows together. -/
structure ListRows (D : Database) (xs : VarSet) (rows : List Row) (ts : List Tree) : Prop where
  core : ∀ t ∈ ts, t.Core .inner
  positive : ∀ t ∈ ts, t.Positive
  vars : ∀ t ∈ ts, t.vars = xs
  perm : (unionRows D ts).Perm rows

theorem ListRows.singleton (h : Renders D t u) : ListRows D t.vars (t.rows D) [u] := by
  refine ⟨List.forall_mem_singleton.2 h.core, List.forall_mem_singleton.2 h.positive,
    List.forall_mem_singleton.2 h.bag.vars, ?_⟩
  rw [unionRows_eq_flatMap, List.flatMap_singleton]
  exact h.bag.perm

/-- The branches of a union within a union are as good as that union. -/
theorem listRows_splice (h : Renders D t u) : ListRows D t.vars (t.rows D) (splice u) := by
  cases u with
  | union m xs branches =>
    obtain ⟨hsame, hcore⟩ := core_union.1 h.core
    obtain rfl : xs = t.vars := h.bag.vars
    exact ⟨hcore, h.positive.children, hsame, rows_union hsame ▸ h.bag.perm⟩
  | _ => exact .singleton h

theorem ListRows.append {rows rows' : List Row} (h : ListRows D xs rows ts)
    (h' : ListRows D xs rows' us) : ListRows D xs (rows ++ rows') (ts ++ us) := by
  refine ⟨List.forall_mem_append.2 ⟨h.core, h'.core⟩,
    List.forall_mem_append.2 ⟨h.positive, h'.positive⟩,
    List.forall_mem_append.2 ⟨h.vars, h'.vars⟩, ?_⟩
  rw [unionRows_eq_flatMap, List.flatMap_append, ← unionRows_eq_flatMap, ← unionRows_eq_flatMap]
  exact h.perm.append h'.perm

/-- The branches of a union are lifted one by one, and what they become is put together. -/
theorem returns_liftBranches (hvars : ∀ t ∈ ts, t.vars = xs)
    (hlift : ∀ before t after lifted known, ts = before ++ t :: after →
      liftBranches σ x before supply = .ok (lifted, known) →
      Returns (fun r => Renders D t r.1) (t.liftDefinitions σ x known)) :
    Returns (fun r => ListRows D xs (unionRows D ts) r.1) (liftBranches σ x ts supply) := by
  induction ts generalizing supply with
  | nil => exact .ok ⟨nofun, nofun, nofun, .refl _⟩
  | cons t ts ih =>
    rw [List.forall_mem_cons] at hvars
    intro r hr
    rw [liftBranches] at hr
    obtain ⟨⟨u, known⟩, hrun, hr⟩ := Rewrite.bind_eq_ok.1 hr
    obtain ⟨⟨us, left⟩, hus, hr⟩ := Rewrite.bind_eq_ok.1 hr
    obtain rfl := Except.ok.inj hr
    have hsplice := listRows_splice (hlift [] t ts [] supply rfl rfl _ hrun)
    rw [hvars.1] at hsplice
    refine hsplice.append (ih hvars.2 (fun before v after lifted known' hts hbefore => ?_) _ hus)
    refine hlift (t :: before) v after (splice u ++ lifted) known' (congrArg _ hts) ?_
    rw [liftBranches]
    exact Rewrite.bind_eq_ok.2 ⟨_, hrun, Rewrite.bind_eq_ok.2 ⟨_, hbefore, rfl⟩⟩

-- ---------------------------------------------------------------------------
-- Nodes
-- ---------------------------------------------------------------------------

theorem returns_liftConstruct {bindings : Substitution}
    (hcore : (construct m projected bindings t).Core .inner) (hpositive : t.Positive)
    (hlift : x ∈ requiredVars projected bindings →
      Returns (fun r => Renders D t r.1) (t.liftDefinitions σ x supply)) :
    Returns (fun r => Renders D (construct m projected bindings t) r.1)
      ((construct m projected bindings t).liftDefinitions σ x supply) := by
  obtain ⟨hroot, hchild⟩ := core_construct.1 hcore
  have hnode (v : Tree) (hv : v.Core .inner) (hvars : v.vars = t.vars) :
      Returns (Computes D .inner projected ((v.rows D).map (D.constructed projected bindings)))
        (σ.construct projected bindings v) :=
    BuildSettings.returns_construct hroot.1 hroot.2.1 hroot.2.2 ⟨hv, hvars, rfl⟩
  have hnodePositive (v : Tree) (hv : v.Positive) :
      GivesPositive (σ.construct projected bindings v) := BuildSettings.givesPositive_construct hv
  intro r hr
  rw [liftDefinitions] at hr
  split at hr
  · next hx =>
    obtain ⟨⟨u, known⟩, hu, hr⟩ := Rewrite.bind_eq_ok.1 hr
    obtain ⟨v, hv, rfl⟩ := Rewrite.lift_eq_ok.1 hr
    have hlifted := hlift hx _ hu
    have hdistributed := returns_distribute (fun ts => List.map_flatMap) hnode hlifted.core
      hlifted.bag.vars v hv
    exact hdistributed.renders (hlifted.bag.perm.map _)
      ((positive_distribute hnodePositive hlifted.positive).returns v hv)
  · obtain ⟨v, hv, rfl⟩ := Rewrite.lift_eq_ok.1 hr
    exact (hnode t hchild rfl v hv).renders (.refl _) ((hnodePositive t hpositive).returns v hv)

theorem returns_liftFilter {condition : Expression} (hcore : (filter m condition t).Core .inner)
    (hlift : Returns (fun r => Renders D t r.1) (t.liftDefinitions σ x supply)) :
    Returns (fun r => Renders D (filter m condition t) r.1)
      ((filter m condition t).liftDefinitions σ x supply) := by
  obtain ⟨hcondition, -⟩ := core_filter.1 hcore
  intro r hr
  rw [liftDefinitions] at hr
  obtain ⟨⟨u, known⟩, hu, hr⟩ := Rewrite.bind_eq_ok.1 hr
  obtain ⟨v, hv, rfl⟩ := Rewrite.lift_eq_ok.1 hr
  have hlifted := hlift _ hu
  have hnode (v : Tree) (hv : v.Core .inner) (hvars : v.vars = u.vars) :
      Returns (Computes D .inner u.vars ((v.rows D).filter fun ρ => D.Holds ρ condition))
        (σ.filter condition v) :=
    BuildSettings.returns_filter (hlifted.bag.vars ▸ hcondition) ⟨hv, hvars, rfl⟩
  have hdistributed := returns_distribute (fun ts => List.filter_flatMap) hnode hlifted.core rfl v hv
  rw [hlifted.bag.vars] at hdistributed
  exact Computes.renders hdistributed (hlifted.bag.perm.filter _)
    ((positive_distribute (fun _ => BuildSettings.givesPositive_filter) hlifted.positive).returns v hv)

theorem returns_liftJoin (hcore : (join m condition? ts).Core .inner)
    (hpositive : ∀ t ∈ ts, t.Positive)
    (hlift : ∀ before t after lifted known, ts = before ++ t :: after →
      liftJoined σ x before supply = .ok (.whole lifted, known) → x ∈ t.vars →
      Returns (fun r => Renders D t r.1) (t.liftDefinitions σ x known))
    (hapart : ∀ l known u, liftJoined σ x ts supply = .ok (l, known) →
      l.BuildsUnion σ condition? (varsOf ts) u → NamesStayApart σ u known) :
    Returns (fun r => Renders D (join m condition? ts) r.1)
      ((join m condition? ts).liftDefinitions σ x supply) := by
  obtain ⟨hcondition, hts⟩ := core_join.1 hcore
  intro r hr
  rw [liftDefinitions] at hr
  obtain ⟨⟨l, known⟩, hl, hr⟩ := Rewrite.bind_eq_ok.1 hr
  obtain ⟨us, hshows, hus⟩ := returns_liftJoined hts hpositive hlift _ hl
  exact returns_finish hshows hus hcondition (fun u hu => hapart l known u hl hu) r hr

theorem returns_liftUnion (hcore : (union m xs ts).Core .inner)
    (hlift : ∀ before t after lifted known, ts = before ++ t :: after →
      liftBranches σ x before supply = .ok (lifted, known) →
      Returns (fun r => Renders D t r.1) (t.liftDefinitions σ x known)) :
    Returns (fun r => Renders D (union m xs ts) r.1)
      ((union m xs ts).liftDefinitions σ x supply) := by
  obtain ⟨hvars, -⟩ := core_union.1 hcore
  intro r hr
  rw [liftDefinitions] at hr
  obtain ⟨⟨us, known⟩, hus, hr⟩ := Rewrite.bind_eq_ok.1 hr
  obtain ⟨v, hv, rfl⟩ := Rewrite.lift_eq_ok.1 hr
  have hbranches := returns_liftBranches hvars hlift _ hus
  have hunion := BuildSettings.returns_union (D := D) hbranches.core hbranches.vars v hv
  exact hunion.renders (rows_union hvars ▸ hbranches.perm)
    ((BuildSettings.givesPositive_union hbranches.positive).returns v hv)

-- ---------------------------------------------------------------------------
-- Trees
-- ---------------------------------------------------------------------------

/-- Lifting renders a positive core tree unless one of the normalizations comes to a clash. -/
theorem renders_liftDefinitions (hcore : t.Core .inner) (hpositive : t.Positive)
    (hapart : ∀ u known, LiftNormalizes σ x u known t supply → NamesStayApart σ u known) :
    Returns (fun r => Renders D t r.1) (t.liftDefinitions σ x supply) := by
  induction hpositive generalizing supply with
  | construct hpositive ih =>
    refine returns_liftConstruct hcore hpositive fun hx => ?_
    exact ih (core_construct.1 hcore).2 fun u known h => hapart u known (.construct hx h)
  | filter _ ih =>
    refine returns_liftFilter hcore ?_
    exact ih (core_filter.1 hcore).2 fun u known h => hapart u known (.filter h)
  | join hpositive ih =>
    refine returns_liftJoin hcore hpositive ?_ fun l known u hl hu => hapart u known (.join hl hu)
    rintro before t after lifted known rfl hbefore hx
    have ht : t ∈ before ++ t :: after := List.mem_append_right _ (.head _)
    exact ih t ht ((core_join.1 hcore).2 t ht) fun u known' h =>
      hapart u known' (.operand hbefore hx h)
  | union hpositive ih =>
    refine returns_liftUnion hcore ?_
    rintro before t after lifted known rfl hbefore
    have ht : t ∈ before ++ t :: after := List.mem_append_right _ (.head _)
    exact ih t ht ((core_union.1 hcore).2 t ht) fun u known' h => hapart u known' (.branch hbefore h)
  | leaf => exact .ok (.refl hcore .leaf)

/-- Lifting the definitions of a variable keeps the variables and the bag of rows of a valid positive
tree, wherever unions are in it, unless one of the normalizations that it comes to gives a construction a
name which is there already. -/
theorem liftDefinitions_rows (hvalid : t.validate = .ok ()) (hnodes : ∀ u ∈ t.nodes, u.Relational)
    (hpositive : t.Positive)
    (hapart : ∀ u known, LiftNormalizes σ x u known t supply → NamesStayApart σ u known) :
    Returns (fun r => r.1.vars = t.vars ∧ (r.1.rows D).Perm (t.rows D))
      (t.liftDefinitions σ x supply) := by
  have hcore := core_of_valid (validate_eq_ok.1 hvalid) hnodes
  exact (renders_liftDefinitions hcore hpositive hapart).imp fun r hr => ⟨hr.bag.vars, hr.bag.perm⟩

/-- A filter over a join with a union that defines `v` twice: the union of joins is normalized, and the
filter sees both definitions. -/
theorem liftDefinitions_rows_of_join :
    let r : Relation := ⟨"r", [⟨"a", .integer, false⟩], []⟩
    let D := Database.ofTable r [[.integer 5], [.integer 6]] (by decide) (by decide) (by decide)
    let v : Variable := ⟨"v"⟩
    let x : Variable := ⟨"x"⟩
    let atom : Tree := leaf false (.extensional ⟨r, [.var x]⟩)
    let defined (k : Int) : Tree :=
      construct false (.singleton v) (.singleton v (.const (.integer k))) oneRow
    let t : Tree := filter false ⟨⟨.lt, 2⟩, [.var v, .const (.integer 2)], rfl⟩
      (join false none [union false (.singleton v) [defined 1, defined 2], atom])
    let supply : NameSupply := .ofKnown (.ofList [v, x])
    t.validate = .ok () ∧ t.Positive ∧ (∃ u known, LiftNormalizes ⟨false⟩ v u known t supply) ∧
      (∀ u known, LiftNormalizes ⟨false⟩ v u known t supply → NamesStayApart ⟨false⟩ u known) ∧
      ∃ u, t.liftDefinitions ⟨false⟩ v supply = .ok u ∧ u.1.vars = .ofList [v, x] ∧
        (u.1.rows D).length = 2 := by
  intro r D v x atom defined t supply
  have hvalid : t.validate = .ok () := by decide +kernel
  have hcondition : (⟨⟨.lt, 2⟩, [.var v, .const (.integer 2)], rfl⟩ : Expression).Admissible := by
    refine .app ⟨by decide, nofun⟩ ?_
    rw [List.forall_mem_cons, List.forall_mem_singleton]
    exact ⟨.var trivial, .const⟩
  have hnodes : ∀ u ∈ t.nodes, u.Relational := by
    simp only [t, atom, oneRow, nodes, nodesOf, defined, List.forall_mem_cons, List.forall_mem_append]
    simpa [Relational] using
      ⟨hcondition, admissible_of_singleton .const, admissible_of_singleton .const⟩
  have hpositive : t.Positive := by
    refine .filter (.join (List.forall_mem_cons.2 ⟨.union ?_, List.forall_mem_singleton.2 .leaf⟩))
    exact List.forall_mem_cons.2 ⟨.construct .leaf, List.forall_mem_singleton.2 (.construct .leaf)⟩
  -- the only normalization
  let joined : Tree := union false (.ofList [v, x])
    [join false none [defined 1, atom], join false none [defined 2, atom]]
  have hlifted : liftJoined ⟨false⟩ v [union false (.singleton v) [defined 1, defined 2], atom] supply
      = .ok (.split [] [defined 1, defined 2] [atom], supply) := by
    with_unfolding_all rfl
  have hbuilds : JoinLifting.BuildsUnion ⟨false⟩ none
      (varsOf [union false (.singleton v) [defined 1, defined 2], atom])
      (.split [] [defined 1, defined 2] [atom]) joined := ⟨_, rfl, rfl⟩
  have hoperands : ∀ c ∈ [union false (.singleton v) [defined 1, defined 2], atom],
      ∀ m condition? us, .join m condition? us ∉ c.nodes := by
    simp [defined, atom, oneRow, nodes, nodesOf]
  have hapart : ∀ u known, LiftNormalizes ⟨false⟩ v u known t supply →
      NamesStayApart ⟨false⟩ u known := by
    intro u known h
    change LiftNormalizes _ _ _ _ (.filter _ _ _) _ at h
    cases h with
    | filter h =>
      obtain ⟨rfl, rfl⟩ := h.of_join hoperands hlifted hbuilds
      obtain ⟨p, hp⟩ : ∃ p, normalizeTo ⟨false⟩ ((pushdown ⟨false⟩).confined ∅) joined.pushdownDepth
          joined supply = .ok p := by decide +kernel
      exact namesStayApart_of_confined (by decide +kernel) hp
  refine ⟨hvalid, hpositive, ⟨joined, _, .filter (.join hlifted hbuilds)⟩, hapart, ?_⟩
  have hrows := liftDefinitions_rows (D := D) hvalid hnodes hpositive hapart
  obtain ⟨u, hu⟩ : ∃ u, t.liftDefinitions ⟨false⟩ v supply = .ok u := by decide +kernel
  obtain ⟨hvars, hperm⟩ := hrows u hu
  exact ⟨u, hu, hvars, hperm.length_eq.trans (by decide +kernel)⟩

/-- A normalization that comes to a clash loses rows, as it does without any lifting. Here the union is
the first operand and the other one comes to a clash; in the first branch the supply hands out the name
that a renaming has brought in, and in the second it goes on to the next. -/
theorem not_liftDefinitions_rows :
    let r : Relation :=
      ⟨"r", [⟨"a", .integer, false⟩, ⟨"b", .integer, false⟩, ⟨"c", .integer, false⟩,
        ⟨"d", .integer, false⟩], []⟩
    let s : Relation := ⟨"s", [⟨"a", .integer, false⟩], []⟩
    let D := Database.ofTable r [[.integer 5, .integer 1, .integer 7, .integer 2]]
      (by decide) (by decide) (by decide)
    let v : Variable := ⟨"v"⟩
    let w : Variable := ⟨"w"⟩
    let y : Variable := ⟨"y"⟩
    let z : Variable := ⟨"z"⟩
    let shadowing : Variable := ⟨"y_f7"⟩
    let less (x : Variable) (k : Int) : Expression := ⟨⟨.lt, 2⟩, [.var x, .const (.integer k)], rfl⟩
    let kept : Tree := construct false (.ofList [w, z]) ∅
      (leaf false (.extensional ⟨r, [.var z, .var y, .var w, .var shadowing]⟩))
    let dropped : Tree := construct false (.ofList [w, z]) (.singleton z (.const (.integer 7)))
      (filter false (less w 3) (leaf false (.extensional ⟨s, [.var w]⟩)))
    let renamed : Tree := construct false (.ofList [w, y]) ∅
      (construct false (.ofList [w, y, z]) (.singleton y (.var z))
        (union false (.ofList [w, z]) [kept, dropped]))
    let operand : Tree := construct false (.singleton shadowing)
      (.singleton shadowing (.app ⟨.db "f", 1⟩ [.var w])) (filter false (less y 6) renamed)
    let defined (k : Int) : Tree :=
      construct false (.singleton v) (.singleton v (.const (.integer k))) oneRow
    let t : Tree := join false none [union false (.singleton v) [defined 1, defined 2], operand]
    t.validate = .ok () ∧ (∀ u ∈ t.nodes, u.Relational) ∧ t.Positive ∧ (t.rows D).length = 2 ∧
      ∃ p, t.liftDefinitions ⟨false⟩ v (.ofKnown t.knownVars) = .ok p ∧
        (p.1.rows D).length = 1 := by
  intro r s D v w y z shadowing less kept dropped renamed operand defined t
  have hvalid : ∀ u ∈ t.nodes, u.RootValid := by decide +kernel
  have hless (x : Variable) (k : Int) : (less x k).Admissible := by
    refine .app ⟨nofun, fun _ => rfl⟩ ?_
    rw [List.forall_mem_cons, List.forall_mem_singleton]
    exact ⟨.var trivial, .const⟩
  have hshadowing : (Term.app ⟨.db "f", 1⟩ [.var w]).AdmissibleOver (.singleton w) :=
    .app ⟨by decide, nofun⟩ (List.forall_mem_singleton.2 (.var (.head _)))
  have hrenaming : (Term.var z).AdmissibleOver (.singleton z) := .var (.head _)
  have hempty (x : Variable) (u : Term) (hu : (∅ : Substitution).find? x = some u) :
      u.AdmissibleOver u.vars := by
    cases hu
  have hnodes : ∀ u ∈ t.nodes, u.Relational := by
    simp only [t, operand, renamed, kept, dropped, defined, oneRow, nodes, nodesOf,
      List.forall_mem_cons, List.forall_mem_append]
    simpa [Relational] using ⟨⟨admissible_of_singleton .const, admissible_of_singleton .const⟩,
      admissible_of_singleton hshadowing, hless y 6, hempty, admissible_of_singleton hrenaming, hempty,
      admissible_of_singleton .const, hless w 3⟩
  have hpositive : t.Positive := by
    refine .join (List.forall_mem_cons.2 ⟨.union ?_, List.forall_mem_singleton.2
      (.construct (.filter (.construct (.construct (.union ?_)))))⟩)
    · exact List.forall_mem_cons.2 ⟨.construct .leaf, List.forall_mem_singleton.2 (.construct .leaf)⟩
    · exact List.forall_mem_cons.2 ⟨.construct .leaf, List.forall_mem_singleton.2
        (.construct (.filter .leaf))⟩
  exact ⟨validate_eq_ok.2 hvalid, hnodes, hpositive, by decide +kernel, by decide +kernel⟩

end QueryAlgebra.Tree
