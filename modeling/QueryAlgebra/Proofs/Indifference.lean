import QueryAlgebra.Proofs.Rewriting
import QueryAlgebra.Proofs.Watching

/-!
# Rewritings that take no name

What a rewriting gives depends on the supply of names only where it takes one
(`Rewrite.Indifferent`). The number of the next candidate tells: it never goes back, and whatever takes a
name raises it.

Main statement: `Tree.indifferent_rules`.
-/

namespace QueryAlgebra

variable {α β : Type}

/-- Unless it takes a name the rewriting gives the same from every supply on. -/
def Rewrite.Indifferent (x : Rewrite α) : Prop :=
  ∀ supply a supply', x supply = .ok (a, supply') → supply.next ≤ supply'.next ∧
    (supply'.next = supply.next → ∀ names, ∃ names', x names = .ok (a, names'))

namespace Rewrite.Indifferent

variable {x y : Rewrite α}

theorem pure (a : α) : Rewrite.Indifferent (Pure.pure a) := by
  rintro supply _ _ ⟨⟩
  exact ⟨Nat.le_refl _, fun _ names => ⟨names, rfl⟩⟩

theorem lift (e : Except Error α) : Rewrite.Indifferent (liftM e) := by
  intro supply a supply' h
  obtain ⟨b, rfl, hb⟩ := lift_eq_ok.1 h
  cases hb
  exact ⟨Nat.le_refl _, fun _ names => ⟨names, rfl⟩⟩

theorem register (xs : VarSet) : Rewrite.Indifferent (Rewrite.register xs) := by
  rintro supply _ _ ⟨⟩
  exact ⟨Nat.le_refl _, fun _ names => ⟨names.register xs, rfl⟩⟩

/-- What takes a name from every supply. -/
theorem of_taking {f : NameSupply → α × NameSupply} (h : ∀ supply, supply.next < (f supply).2.next) :
    Rewrite.Indifferent (MonadStateOf.modifyGet f) := by
  intro supply a supply' hf
  obtain rfl : (f supply).2 = supply' := congrArg Prod.snd (Except.ok.inj hf)
  exact ⟨Nat.le_of_lt (h supply), fun heq => absurd heq (Nat.ne_of_gt (h supply))⟩

/-- What takes a name from no supply. -/
theorem of_fixed {f : NameSupply → α × NameSupply} {a : α} (h : ∀ supply, f supply = (a, supply)) :
    Rewrite.Indifferent (MonadStateOf.modifyGet f) := by
  intro supply b supply' hf
  obtain ⟨rfl, rfl⟩ := Prod.mk.inj ((h supply).symm.trans (Except.ok.inj hf))
  exact ⟨Nat.le_refl _, fun _ names => ⟨names, congrArg Except.ok (h names)⟩⟩

theorem bind {f : α → Rewrite β} (h : x.Indifferent) (hf : ∀ a, (f a).Indifferent) :
    Rewrite.Indifferent (x >>= f) := by
  intro supply b supply' hb
  obtain ⟨⟨a, known⟩, ha, hfa⟩ := bind_eq_ok.1 hb
  obtain ⟨hle, hx⟩ := h _ _ _ ha
  obtain ⟨hle', hf⟩ := hf a _ _ _ hfa
  have hsame (heq : supply'.next = supply.next) : known.next = supply.next :=
    Nat.le_antisymm (heq ▸ hle') hle
  refine ⟨Nat.le_trans hle hle', fun heq names => ?_⟩
  obtain ⟨names', hnames⟩ := hx (hsame heq) names
  obtain ⟨names'', hnames'⟩ := hf (heq.trans (hsame heq).symm) names'
  exact ⟨names'', bind_eq_ok.2 ⟨_, hnames, hnames'⟩⟩

theorem ite {c : Prop} [Decidable c] (h : x.Indifferent) (h' : y.Indifferent) :
    Rewrite.Indifferent (if c then x else y) := by
  split
  · exact h
  · exact h'

end Rewrite.Indifferent

-- ---------------------------------------------------------------------------
-- Supplies
-- ---------------------------------------------------------------------------

namespace NameSupply

theorem le_firstFree (known : VarSet) (stem : String) (tries i : Nat) :
    i ≤ firstFree known stem tries i := by
  induction tries generalizing i with
  | zero => exact Nat.le_refl i
  | succ tries ih =>
    unfold firstFree
    split
    · exact Nat.le_trans (Nat.le_succ i) (ih (i + 1))
    · exact Nat.le_refl i

theorem next_lt_freshFrom (supply : NameSupply) (x : Variable) :
    supply.next < (supply.freshFrom x).2.next :=
  Nat.lt_succ_of_le (le_firstFree _ _ _ _)

/-- Names are taken unless there is nothing to name. -/
theorem next_lt_freshForEach (supply : NameSupply) {xs : List Variable} (h : xs ≠ []) :
    supply.next < (supply.freshForEach xs).2.next := by
  have hle (supply : NameSupply) (xs : List Variable) :
      supply.next ≤ (supply.freshForEach xs).2.next := by
    induction xs generalizing supply with
    | nil => exact Nat.le_refl _
    | cons x xs ih => exact Nat.le_trans (Nat.le_of_lt (supply.next_lt_freshFrom x)) (ih _)
  cases xs with
  | nil => exact absurd rfl h
  | cons x xs => exact Nat.lt_of_lt_of_le (supply.next_lt_freshFrom x) (hle _ xs)

end NameSupply

namespace Rewrite

open Rewrite (Indifferent)

theorem indifferent_freshFrom (x : Variable) : (freshFrom x).Indifferent :=
  .of_taking fun supply => supply.next_lt_freshFrom x

theorem indifferent_freshRenaming (xs : VarSet) : (freshRenaming xs).Indifferent := by
  by_cases hxs : xs.toList = []
  · refine .of_fixed (a := .renameEach []) fun supply => ?_
    simp only [NameSupply.freshRenaming, hxs, NameSupply.freshForEach]
  · exact .of_taking fun supply => supply.next_lt_freshForEach hxs

end Rewrite

namespace Tree

variable {σ : BuildSettings} {push : Pushdown} {projected : VarSet} {bindings : Substitution}
  {condition? : Option Expression} {child left right : Tree} {ts : List Tree}

theorem indifferent_normalBindings (bindings : Substitution) (projected xs : VarSet) :
    Rewrite.Indifferent (modifyGet (normalBindings bindings projected xs)) := by
  by_cases hxs : ((bindings.restrict projected).domain ∩ xs).toList = []
  · refine .of_fixed (a := (normalBindings bindings projected xs default).1) fun supply => ?_
    simp only [normalBindings, hxs, NameSupply.freshForEach]
  · exact .of_taking fun supply => supply.next_lt_freshForEach hxs

-- ---------------------------------------------------------------------------
-- Rules
-- ---------------------------------------------------------------------------

theorem indifferent_constructNormally :
    (constructNormally σ push projected bindings child).Indifferent :=
  (indifferent_normalBindings _ _ _).bind fun _ => (Rewrite.Indifferent.lift _).bind fun _ => .lift _

theorem indifferent_normalizeConstruct :
    (normalizeConstruct σ push projected bindings child).Indifferent := by
  unfold normalizeConstruct
  split
  · exact .pure _
  · exact indifferent_constructNormally
  · exact .ite (.pure _) indifferent_constructNormally

theorem indifferent_addThroughFresh (parts : LiftedBindings) (x : Variable) (t : Term) :
    (parts.addThroughFresh x t).Indifferent :=
  (Rewrite.indifferent_freshFrom x).bind fun _ => .pure _

theorem indifferent_bindingsForSiblings (xs : VarSet) (parts : LiftedBindings)
    (l : List (Variable × Term)) : (bindingsForSiblings xs parts l).Indifferent := by
  induction l generalizing parts with
  | nil => exact .pure _
  | cons b l ih =>
    refine .ite (ih _) (.ite (.pure _) (.ite ?_ (ih _)))
    exact (indifferent_addThroughFresh _ _ _).bind fun _ => ih _

theorem indifferent_bindingsForRight (xs : VarSet) (parts : LiftedBindings)
    (l : List (Variable × Term)) : (bindingsForRight xs parts l).Indifferent := by
  induction l generalizing parts with
  | nil => exact .pure _
  | cons b l ih =>
    exact .ite (ih _) (.ite ((indifferent_addThroughFresh _ _ _).bind fun _ => ih _) (ih _))

theorem indifferent_liftConstruction (l : LiftableChild) :
    (liftConstruction σ push condition? ts l).Indifferent := by
  refine (Rewrite.Indifferent.register _).bind fun _ => ?_
  refine (Rewrite.indifferent_freshRenaming _).bind fun names => ?_
  refine (Rewrite.Indifferent.lift _).bind fun child => ?_
  refine (indifferent_bindingsForSiblings _ _ _).bind fun parts? => ?_
  cases parts? with
  | none => exact .pure _
  | some parts =>
    dsimp only
    rw [Rewrite.mapM_lift, Rewrite.mapM_lift]
    exact (Rewrite.Indifferent.lift _).bind fun _ => (Rewrite.Indifferent.lift _).bind fun _ =>
      (Rewrite.Indifferent.lift _).bind fun _ => .lift _

theorem indifferent_normalizeJoin : (normalizeJoin σ push condition? ts).Indifferent := by
  refine .ite (.pure _) (.ite (.lift _) ?_)
  split
  · exact indifferent_liftConstruction _
  · exact .lift _

theorem indifferent_normalizeLeftJoin : (normalizeLeftJoin σ push condition? left right).Indifferent := by
  refine .ite (.pure _) (.ite (.lift _) (.ite (.pure _) ?_))
  split
  · refine .ite (.lift _) ?_
    refine (Rewrite.Indifferent.register _).bind fun _ => ?_
    refine (Rewrite.Indifferent.register _).bind fun _ => ?_
    refine (Rewrite.indifferent_freshRenaming _).bind fun names => ?_
    refine (Rewrite.Indifferent.lift _).bind fun left => ?_
    refine (indifferent_bindingsForRight _ _ _).bind fun parts => ?_
    exact (Rewrite.Indifferent.lift _).bind fun _ => (Rewrite.Indifferent.lift _).bind fun _ => .lift _
  · exact .lift _

/-- Unless they take a name the rules of a node give the same from every supply on. -/
theorem indifferent_rules (t : Tree) : (rules σ push t).Indifferent := by
  cases t with
  | construct => exact indifferent_normalizeConstruct
  | join => exact indifferent_normalizeJoin
  | leftJoin => exact indifferent_normalizeLeftJoin
  | leaf => exact .pure _
  | filter | union | distinct | slice | orderBy | aggregate => exact .lift _

end Tree

end QueryAlgebra
