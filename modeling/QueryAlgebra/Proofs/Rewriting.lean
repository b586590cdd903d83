import QueryAlgebra.Proofs.Outcome
import QueryAlgebra.Tree.Normal.Basic
import QueryAlgebra.Tree.Pushdown

/-!
# Rewritings that may fail

What is said of a rewriting from every supply of names on: `Rewrite.Ends` is `Except.Ends` of the
value, whatever names are left over. And what is pushed through a tree is pushed to some depth, which
depends on the tree alone (`Tree.exists_depth`).
-/

namespace QueryAlgebra

namespace Rewrite

open QueryAlgebra.Except (Ends)

variable {α β : Type}

/-- A rewriting succeeds where its first part does and the rest does from there. -/
theorem bind_eq_ok {x : Rewrite α} {f : α → Rewrite β} {supply : NameSupply}
    {r : β × NameSupply} :
    (x >>= f) supply = .ok r ↔
      ∃ p : α × NameSupply, x supply = .ok p ∧ f p.1 p.2 = .ok r :=
  Except.bind_eq_ok

theorem lift_eq_ok {e : Except Error α} {supply : NameSupply} {r : α × NameSupply} :
    (liftM e : Rewrite α) supply = .ok r ↔ ∃ a, e = .ok a ∧ r = (a, supply) := by
  cases e with
  | error e => exact iff_of_false nofun nofun
  | ok a =>
    constructor
    · rintro ⟨⟩
      exact ⟨a, rfl, rfl⟩
    · rintro ⟨_, ⟨⟩, rfl⟩
      rfl

/-- Steps that take no names take none one after the other. -/
theorem mapM_lift {f : α → Except Error β} {xs : List α} :
    xs.mapM (fun a => (liftM (f a) : Rewrite β)) = liftM (xs.mapM f) := by
  induction xs with
  | nil => simp only [List.mapM_nil, liftM_pure]
  | cons a xs ih => simp only [List.mapM_cons, ih, liftM_bind, liftM_pure]

/-- From one supply on, step by step. -/
theorem ends_bind {P : α × NameSupply → Prop} {R : β × NameSupply → Prop} {Q : Error → Prop}
    {x : Rewrite α} {f : α → Rewrite β} {supply : NameSupply} (h : Except.Ends P Q (x supply))
    (hf : ∀ r, P r → Except.Ends R Q (f r.1 r.2)) : Except.Ends R Q ((x >>= f) supply) :=
  h.bind hf

/-- What takes no names leaves the supply as it is. -/
theorem ends_lift {P : α → Prop} {Q : Error → Prop} {e : Except Error α} (h : Except.Ends P Q e)
    (supply : NameSupply) :
    Except.Ends (fun r => P r.1 ∧ r.2 = supply) Q ((liftM e : Rewrite α) supply) :=
  h.bind fun _ ha => ⟨ha, rfl⟩

/-- From one supply on, step by step, where nothing is said of errors. -/
theorem returns_bind {P : α × NameSupply → Prop} {R : β × NameSupply → Prop} {x : Rewrite α}
    {f : α → Rewrite β} {supply : NameSupply} (h : Except.Returns P (x supply))
    (hf : ∀ r, P r → Except.Returns R (f r.1 r.2)) : Except.Returns R ((x >>= f) supply) :=
  h.bind hf

theorem returns_lift {P : α → Prop} {e : Except Error α} (h : Except.Returns P e)
    (supply : NameSupply) :
    Except.Returns (fun r => P r.1 ∧ r.2 = supply) ((liftM e : Rewrite α) supply) :=
  h.bind fun _ ha => .ok ⟨ha, rfl⟩

/-- From every supply on, the rewriting gives a value that satisfies `P` or an error that satisfies
`Q`. -/
def Ends (P : α → Prop) (Q : Error → Prop) (x : Rewrite α) : Prop :=
  ∀ supply, Except.Ends (fun r => P r.1) Q (x supply)

namespace Ends

variable {P P' : α → Prop} {R : β → Prop} {Q : Error → Prop} {x y : Rewrite α}

theorem pure {a : α} (h : P a) : Ends P Q (Pure.pure a) := fun _ => h

/-- What takes names and never fails. -/
theorem modifyGet {f : NameSupply → α × NameSupply} (h : ∀ supply, P (f supply).1) :
    Ends P Q (MonadStateOf.modifyGet f : Rewrite α) := fun supply => h supply

theorem register (xs : VarSet) : Ends (fun _ => True) Q (Rewrite.register xs) := fun _ => trivial

/-- Nothing is said of the outcome. -/
theorem any (x : Rewrite α) : Ends (fun _ => True) (fun _ => True) x := fun _ => .any _

theorem lift {e : Except Error α} (h : Except.Ends P Q e) : Ends P Q (liftM e : Rewrite α) :=
  fun supply => (ends_lift h supply).imp fun _ hr => hr.1

theorem imp (h : Ends P Q x) (hPP' : ∀ a, P a → P' a) : Ends P' Q x :=
  fun supply => (h supply).imp fun _ => hPP' _

theorem bind {f : α → Rewrite β} (h : Ends P Q x) (hf : ∀ a, P a → Ends R Q (f a)) :
    Ends R Q (x >>= f) := fun supply => ends_bind (h supply) fun r hr => hf r.1 hr r.2

theorem ite {c : Prop} [Decidable c] (h : c → Ends P Q x) (h' : ¬c → Ends P Q y) :
    Ends P Q (if c then x else y) := by
  by_cases hc : c
  · rw [if_pos hc]
    exact h hc
  · rw [if_neg hc]
    exact h' hc

theorem mapM {S : α → β → Prop} {f : α → Rewrite β} {xs : List α}
    (h : ∀ x ∈ xs, Ends (S x) Q (f x)) : Ends (List.Forall₂ S xs) Q (xs.mapM f) := by
  induction xs with
  | nil => exact .pure .nil
  | cons x xs ih =>
    rw [List.forall_mem_cons] at h
    rw [List.mapM_cons]
    exact h.1.bind fun y hy => (ih h.2).bind fun ys hys => .pure (.cons hy hys)

end Ends

end Rewrite

/-- Pushing through a tree is pushing to a depth, whatever is pushed. -/
theorem Tree.exists_depth (t : Tree) : ∃ depth, ∀ σ,
    (∀ s constraint? optimize, (pushdown σ).descend s constraint? optimize t
      = descendTo σ depth s constraint? optimize t) ∧
    ∀ constraint, (pushdown σ).propagate constraint t = propagateTo σ depth constraint t := by
  refine ⟨t.pushdownDepth, fun σ => ?_⟩
  simp only [pushdown, descend, propagate, implies_true, and_self]

end QueryAlgebra
