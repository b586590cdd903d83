import QueryAlgebra.Proofs.Bags
import QueryAlgebra.Proofs.CoreTree

/-!
# Trees that take the place of others

A tree restates another one when it has the same variables and the same bag of rows, and is a core tree
that can be rewritten further (`Tree.Restates`). A node restates itself over other children as long as
these restate its own: constructions and filters look at the rows one by one, unions put them together,
and what joins does not depend on the order of the rows.
-/

namespace QueryAlgebra.Tree

variable {D : Database} {m m' : Bool} {projected : VarSet} {condition? : Option Expression}
  {t u : Tree} {ts us : List Tree}

/-- A core tree with the variables and the bag of rows of `t`. -/
structure Restates (D : Database) (t u : Tree) : Prop where
  core : u.Core .inner
  bag : u.HasBag D t.vars (t.rows D)

namespace Restates

theorem refl (h : t.Core .inner) : Restates D t t := ⟨h, rfl, .refl _⟩

theorem trans {v : Tree} (h : Restates D t u) (h' : Restates D u v) : Restates D t v :=
  ⟨h'.core, h'.bag.vars.trans h.bag.vars, h'.bag.perm.trans h.bag.perm⟩

/-- Marks do not matter. -/
theorem of_same {v : Tree} (h : Restates D t u) (hv : v.same u = true) : Restates D t v := by
  have heq := same_iff.1 hv
  refine ⟨?_, (vars_of_unmarked_eq heq).trans h.bag.vars, rows_of_unmarked_eq heq ▸ h.bag.perm⟩
  rw [← core_unmarked, heq, core_unmarked]
  exact h.core

theorem declareNormalized (h : Restates D t u) : Restates D t u.declareNormalized := by
  refine h.of_same (same_iff.2 ?_)
  cases u <;> rfl

end Restates

/-- What computes a permutation of the rows restates the tree. -/
theorem Computes.restates {rows : List Row} (h : u.Computes D .inner t.vars rows)
    (hrows : rows.Perm (t.rows D)) : Restates D t u :=
  ⟨h.core, h.vars, h.rows ▸ hrows⟩

theorem varsOf_restated (h : List.Forall₂ (Restates D) ts us) : varsOf us = varsOf ts :=
  varsOf_congr (h.imp fun _ _ htu => htu.bag.vars)

theorem joinRows_restated (h : List.Forall₂ (Restates D) ts us) :
    (joinRows D us).Perm (joinRows D ts) := by
  induction h with
  | nil => exact .refl _
  | cons htu hs ih =>
    rw [joinRows, joinRows, htu.bag.vars, varsOf_restated hs]
    exact Row.joinPairs_alike (b := false) htu.bag.perm ih

theorem unionRows_restated (h : List.Forall₂ (Restates D) ts us) :
    (unionRows D us).Perm (unionRows D ts) := by
  induction h with
  | nil => exact .refl _
  | cons htu _ ih => exact htu.bag.perm.append ih

theorem forall_core_restated (h : List.Forall₂ (Restates D) ts us) : ∀ u ∈ us, u.Core .inner := by
  intro u hu
  obtain ⟨_, -, htu⟩ := exists_of_mem_right h hu
  exact htu.core

-- ---------------------------------------------------------------------------
-- Nodes over restated children
-- ---------------------------------------------------------------------------

theorem Restates.construct {bindings : Substitution}
    (hroot : (construct m projected bindings t).RootCore .inner) (h : Restates D t u) :
    Restates D (construct m projected bindings t) (construct m' projected bindings u) := by
  refine ⟨core_construct.2 ⟨⟨hroot.1, ?_, hroot.2.2⟩, h.core⟩, rfl, ?_⟩
  · rw [h.bag.vars]
    exact hroot.2.1
  · rw [rows, rows]
    exact h.bag.perm.map _

theorem Restates.filter {condition : Expression} (hcondition : condition.AdmissibleOver t.vars)
    (h : Restates D t u) : Restates D (filter m condition t) (filter m' condition u) := by
  refine ⟨core_filter.2 ⟨?_, h.core⟩, h.bag.vars, ?_⟩
  · rwa [h.bag.vars]
  · rw [rows, rows]
    exact h.bag.perm.filter _

theorem Restates.join (hcondition : ∀ c ∈ condition?, c.AdmissibleOver (varsOf ts))
    (h : List.Forall₂ (Restates D) ts us) :
    Restates D (join m condition? ts) (join m' condition? us) := by
  refine ⟨core_join.2 ⟨?_, forall_core_restated h⟩, varsOf_restated h, ?_⟩
  · rwa [varsOf_restated h]
  · rw [rows, rows]
    exact (joinRows_restated h).filter _

theorem Restates.union (hvars : ∀ t ∈ ts, t.vars = projected)
    (h : List.Forall₂ (Restates D) ts us) :
    Restates D (union m projected ts) (union m' projected us) := by
  refine ⟨core_union.2 ⟨fun u hu => ?_, forall_core_restated h⟩, rfl, ?_⟩
  · obtain ⟨t, ht, htu⟩ := exists_of_mem_right h hu
    exact htu.bag.vars.trans (hvars t ht)
  · rw [rows, rows]
    exact (unionRows_restated h).map _

end QueryAlgebra.Tree
