import QueryAlgebra.Proofs.Mirrors.Rules

/-!
# Rewritings that are cut short

Two rewritings that differ in what they look at on the way give the same result, except that one of
them may be cut short by an error of its own (`CutShort`). Nothing looks at such an error, so the one
mirrors the other on equal trees (`Tree.mirroring_eq`), up to the rounds of normalization: it is enough
to know it of building a node, or of pushing something down.
-/

namespace QueryAlgebra

variable {Q : Error → Prop}

-- ---------------------------------------------------------------------------
-- Computations
-- ---------------------------------------------------------------------------

/-- The first computation is the second one, or is cut short by an error that satisfies `Q`. -/
def CutShort (Q : Error → Prop) {α : Type} (x y : Except Error α) : Prop :=
  x = y ∨ ∃ e, Q e ∧ x = .error e

namespace CutShort

variable {α β : Type} {x y : Except Error α}

theorem refl (x : Except Error α) : CutShort Q x x := .inl rfl

theorem bind {f g : α → Except Error β} (h : CutShort Q x y)
    (hfg : ∀ a, CutShort Q (f a) (g a)) : CutShort Q (x >>= f) (y >>= g) := by
  rcases h with rfl | ⟨e, he, rfl⟩
  · cases x with
    | error e => exact .refl _
    | ok a => exact hfg a
  · exact .inr ⟨e, he, rfl⟩

/-- What the computation gives when it is not cut short, the other one gives as well. -/
theorem eq_ok {a : α} (h : CutShort Q x y) (hx : x = .ok a) : y = .ok a := by
  rcases h with rfl | ⟨e, -, rfl⟩
  · exact hx
  · cases hx

theorem iff_mirrors : CutShort Q x y ↔ Mirrors Eq Q x y := by
  constructor
  · rintro (rfl | ⟨e, he, rfl⟩)
    · exact .refl _
    · exact .cut he
  · rintro (rfl | e | he)
    · exact .refl _
    · exact .refl _
    · exact .inr ⟨_, he, rfl⟩

end CutShort

/-- From every supply on, the first rewriting is the second one or is cut short. -/
def Rewrite.CutShort (Q : Error → Prop) {α : Type} (x y : Rewrite α) : Prop :=
  ∀ supply, QueryAlgebra.CutShort Q (x supply) (y supply)

namespace Rewrite.CutShort

variable {α β : Type} {x y : Rewrite α}

theorem refl (x : Rewrite α) : Rewrite.CutShort Q x x := fun _ => .refl _

theorem of_mirrors (h : Rewrite.Mirrors Eq Q x y) : Rewrite.CutShort Q x y := fun supply =>
  CutShort.iff_mirrors.2 ((h supply).imp fun _ _ h => Prod.ext h.1 h.2)

theorem bind {f g : α → Rewrite β} (h : Rewrite.CutShort Q x y)
    (hfg : ∀ a, Rewrite.CutShort Q (f a) (g a)) : Rewrite.CutShort Q (x >>= f) (y >>= g) :=
  fun supply => (h supply).bind fun r => hfg r.1 r.2

theorem ite {c : Prop} [Decidable c] {x' y' : Rewrite α} (h : c → Rewrite.CutShort Q x y)
    (h' : ¬c → Rewrite.CutShort Q x' y') :
    Rewrite.CutShort Q (if c then x else x') (if c then y else y') := by
  by_cases hc : c
  · rw [if_pos hc, if_pos hc]
    exact h hc
  · rw [if_neg hc, if_neg hc]
    exact h' hc

theorem mapM {f g : α → Rewrite β} (hfg : ∀ a, Rewrite.CutShort Q (f a) (g a))
    (as : List α) : Rewrite.CutShort Q (as.mapM f) (as.mapM g) := by
  induction as with
  | nil => exact .refl _
  | cons a as ih =>
    rw [List.mapM_cons, List.mapM_cons]
    exact (hfg a).bind fun b => ih.bind fun bs => .refl _

end Rewrite.CutShort

/-- What is pushed by the first pushdown is pushed as by the second one, or is cut short. -/
structure Pushdown.IsCutShort (Q : Error → Prop) (p q : Pushdown) : Prop where
  descend : ∀ s constraint? optimize t,
    CutShort Q (p.descend s constraint? optimize t) (q.descend s constraint? optimize t)
  propagate : ∀ constraint t, CutShort Q (p.propagate constraint t) (q.propagate constraint t)

namespace Tree

variable {σ τ : BuildSettings} {p q : Pushdown}

theorem eq_of_sameRoot {t u : Tree} (h : SameRoot Eq t u) (hmark : t.isNormalized = u.isNormalized) :
    t = u := by
  cases h with
  | join h | union h =>
    cases hmark
    rw [List.forall₂_eq_eq_eq] at h
    rw [h]
  | leftJoin hleft hright => cases hmark; rw [hleft, hright]
  | leaf => cases hmark; rfl
  | construct h | filter h | distinct h | slice h | orderBy h | aggregate h =>
    cases hmark
    rw [h]

/-- On equal trees one computation mirrors another where their nodes are built alike. -/
theorem mirroring_eq (hbuild : ∀ t, CutShort Q (σ.build t) (τ.build t)) : Mirroring Eq Q σ τ where
  root := by
    rintro t _ rfl
    exact .refl fun _ _ => rfl
  leaf _ _ := rfl
  build h ht hu := by
    obtain rfl := eq_of_sameRoot h (ht.trans hu.symm)
    exact CutShort.iff_mirrors.1 (hbuild _)

theorem cutShort_pushdown (hbuild : ∀ t, CutShort Q (σ.build t) (τ.build t)) :
    Pushdown.IsCutShort Q (pushdown σ) (pushdown τ) :=
  have hpushed := (mirroring_eq hbuild).pushdown
  ⟨fun _ _ _ _ => CutShort.iff_mirrors.2 (hpushed.descend _ _ _ rfl),
    fun _ _ => CutShort.iff_mirrors.2 (hpushed.propagate _ rfl)⟩

-- ---------------------------------------------------------------------------
-- Rounds
-- ---------------------------------------------------------------------------

theorem cutShort_normalizeChildren {recur recur' : Tree → Rewrite Tree}
    (hrecur : ∀ t, Rewrite.CutShort Q (recur t) (recur' t)) (t : Tree) :
    Rewrite.CutShort Q (normalizeChildren recur t) (normalizeChildren recur' t) := by
  cases t with
  | join m condition? ts | union m projected ts =>
    exact (Rewrite.CutShort.mapM hrecur ts).bind fun _ => .refl _
  | leftJoin m condition? left right =>
    exact (hrecur left).bind fun _ => (hrecur right).bind fun _ => .refl _
  | leaf m l => exact .refl _
  | construct _ _ _ child | filter _ _ child | distinct _ child | slice _ _ child
  | orderBy _ _ child | aggregate _ _ _ child => exact (hrecur child).bind fun _ => .refl _

theorem cutShort_settle {step step' : Tree → Rewrite Tree}
    (hstep : ∀ t, Rewrite.CutShort Q (step t) (step' t)) (rounds : Nat) (t : Tree) :
    Rewrite.CutShort Q (settle step rounds t) (settle step' rounds t) := by
  induction rounds generalizing t with
  | zero => exact .refl _
  | succ rounds ih =>
    refine .ite (fun _ => .refl _) fun _ => (hstep t).bind fun next => ?_
    exact .ite (fun _ => .refl _) fun _ => ih next

section Runs

variable (hbuild : ∀ t, CutShort Q (σ.build t) (τ.build t)) (hpq : p.IsCutShort Q q)
include hbuild hpq

theorem cutShort_rules (t : Tree) : Rewrite.CutShort Q (rules σ p t) (rules τ q t) := by
  have hR := mirroring_eq hbuild
  refine .of_mirrors (hR.rules ⟨?_, ?_⟩ (hR.root rfl))
  · rintro s constraint? optimize t _ rfl
    exact CutShort.iff_mirrors.1 (hpq.descend s constraint? optimize t)
  · rintro constraint t _ rfl
    exact CutShort.iff_mirrors.1 (hpq.propagate constraint t)

/-- The watches may differ in that one of them stops the run. -/
theorem cutShort_normalizeWatched {watch watch' : Tree → Rewrite Unit}
    (hwatch : ∀ t, Rewrite.CutShort Q (watch t) (watch' t)) (depth : Nat) (t : Tree) :
    Rewrite.CutShort Q (normalizeWatched σ p watch depth t)
      (normalizeWatched τ q watch' depth t) := by
  induction depth generalizing t with
  | zero => exact .refl _
  | succ depth ih =>
    have hround (t : Tree) : Rewrite.CutShort Q
        (roundWatched σ p watch (normalizeWatched σ p watch depth) t)
        (roundWatched τ q watch' (normalizeWatched τ q watch' depth) t) := by
      refine (hwatch t).bind fun _ => (cutShort_normalizeChildren ih t).bind fun inner => ?_
      exact (hwatch inner).bind fun _ => cutShort_rules hbuild hpq inner
    refine .ite (fun _ => .refl _) fun _ => (hround t).bind fun first => ?_
    exact cutShort_settle hround _ first

theorem cutShort_normalizeTo (depth : Nat) (t : Tree) :
    Rewrite.CutShort Q (normalizeTo σ p depth t) (normalizeTo τ q depth t) := by
  rw [← normalizeWatched_silent, ← normalizeWatched_silent]
  exact cutShort_normalizeWatched hbuild hpq (fun _ => .refl _) depth t

end Runs

end Tree

end QueryAlgebra
