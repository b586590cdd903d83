import QueryAlgebra.Proofs.Nodes
import QueryAlgebra.Proofs.Rewriting
import QueryAlgebra.Tree.Normalize

/-!
# Rounds of normalization

A root is rewritten in rounds, each of which changes it (`Tree.Rounds`), until a round returns it as it
was, it is marked already, or no round is left (`Tree.Stops`). However it stops, the result is marked, and
from then on normalization returns it as it is. So the mark tells of a tree that a round leaves alone only
where the rounds did not run out.

Main statement: `Tree.normalize_eq_ok`.
-/

namespace QueryAlgebra

namespace Tree

variable {σ : BuildSettings} {push : Pushdown} {step : Tree → Rewrite Tree} {t u : Tree}
  {supply : NameSupply} {rounds : Nat} {r : Tree × NameSupply}

-- ---------------------------------------------------------------------------
-- Marks
-- ---------------------------------------------------------------------------

@[simp] theorem isNormalized_declareNormalized (t : Tree) :
    t.declareNormalized.isNormalized = true := by
  cases t <;> rfl

theorem pred_pushdownDepth (t : Tree) : t.pushdownDepth - 1 + 1 = t.pushdownDepth :=
  Nat.sub_add_cancel (Nat.zero_lt_of_lt t.size_add_lt_pushdownDepth)

-- ---------------------------------------------------------------------------
-- Rounds that change something
-- ---------------------------------------------------------------------------

/-- So many rounds, from trees that are not marked to others. -/
inductive Rounds (step : Tree → Rewrite Tree) :
    Nat → Tree × NameSupply → Tree × NameSupply → Prop where
  | none {p : Tree × NameSupply} : Rounds step 0 p p
  | more {n : Nat} {p p' q : Tree × NameSupply} (hmark : p.1.isNormalized = false)
      (hstep : step p.1 p.2 = .ok p') (hchanged : p'.1.same p.1 = false)
      (hrest : Rounds step n p' q) : Rounds step (n + 1) p q

/-- How the rounds stop, with so many of them left. -/
inductive Stops (step : Tree → Rewrite Tree) :
    Nat → Tree × NameSupply → Tree × NameSupply → Prop where
  | capped {t : Tree} {supply : NameSupply} :
    Stops step 0 (t, supply) (t.declareNormalized, supply)
  | marked {n : Nat} {p : Tree × NameSupply} (hmark : p.1.isNormalized = true) :
    Stops step (n + 1) p p
  | unchanged {n : Nat} {p : Tree × NameSupply} {u : Tree} {supply : NameSupply}
      (hmark : p.1.isNormalized = false) (hstep : step p.1 p.2 = .ok (u, supply))
      (hsame : u.same p.1 = true) : Stops step (n + 1) p (u.declareNormalized, supply)

theorem Stops.isNormalized {n : Nat} {p q : Tree × NameSupply} (h : Stops step n p q) :
    q.1.isNormalized = true := by
  cases h with
  | capped => exact isNormalized_declareNormalized _
  | marked hmark => exact hmark
  | unchanged => exact isNormalized_declareNormalized _

/-- What a root settles to is found by rounds that change it and a reason to stop. -/
theorem settle_eq_ok : settle step rounds t supply = .ok r ↔
    ∃ k ≤ rounds, ∃ p, Rounds step k (t, supply) p ∧ Stops step (rounds - k) p r := by
  induction rounds generalizing t supply with
  | zero =>
    constructor
    · rintro ⟨⟩
      exact ⟨0, Nat.le_refl 0, _, .none, .capped⟩
    · rintro ⟨k, hk, p, hrounds, hstops⟩
      obtain rfl := Nat.le_zero.1 hk
      cases hrounds
      cases hstops
      rfl
  | succ rounds ih =>
    rw [settle]
    by_cases hmark : t.isNormalized = true
    · rw [if_pos hmark]
      constructor
      · rintro ⟨⟩
        exact ⟨0, Nat.zero_le _, _, .none, .marked hmark⟩
      · rintro ⟨k, hk, p, hrounds, hstops⟩
        cases hrounds with
        | none =>
          cases hstops with
          | marked => rfl
          | unchanged hunmarked => exact absurd hmark (Bool.eq_false_iff.1 hunmarked)
        | more hunmarked => exact absurd hmark (Bool.eq_false_iff.1 hunmarked)
    · have hunmarked : t.isNormalized = false := Bool.eq_false_iff.2 hmark
      rw [if_neg hmark, Rewrite.bind_eq_ok]
      constructor
      · rintro ⟨⟨next, supply'⟩, hstep, hnext⟩
        by_cases hsame : next.same t = true
        · rw [if_pos hsame] at hnext
          cases hnext
          exact ⟨0, Nat.zero_le _, _, .none, .unchanged hunmarked hstep hsame⟩
        · rw [if_neg hsame] at hnext
          obtain ⟨k, hk, p, hrounds, hstops⟩ := ih.1 hnext
          refine ⟨k + 1, Nat.succ_le_succ hk, p, ?_, ?_⟩
          · exact .more hunmarked hstep (Bool.eq_false_iff.2 hsame) hrounds
          · rwa [Nat.succ_sub_succ]
      · rintro ⟨k, hk, p, hrounds, hstops⟩
        cases hrounds with
        | none =>
          cases hstops with
          | marked hmark' => exact absurd hmark' hmark
          | unchanged _ hstep hsame => exact ⟨_, hstep, by rw [if_pos hsame]; rfl⟩
        | @more k _ p' _ _ hstep hchanged hrest =>
          refine ⟨p', hstep, ?_⟩
          rw [if_neg (Bool.eq_false_iff.1 hchanged)]
          rw [Nat.succ_sub_succ] at hstops
          exact ih.2 ⟨k, Nat.le_of_succ_le_succ hk, p, hrest, hstops⟩

-- ---------------------------------------------------------------------------
-- Normal forms
-- ---------------------------------------------------------------------------

/-- A round at the root of `t` when `t` is normalized. -/
def rootRound (σ : BuildSettings) (t : Tree) : Tree → Rewrite Tree :=
  round σ (pushdown σ) (normalizeTo σ (pushdown σ) (t.pushdownDepth - 1))

theorem normalize_of_isNormalized (h : t.isNormalized = true) (supply : NameSupply) :
    normalize σ t supply = .ok (t, supply) := by
  rw [normalize, ← pred_pushdownDepth, normalizeTo, if_pos h]
  rfl

/-- A tree that is not marked goes through one round, and then through rounds until these stop. -/
theorem normalize_eq_ok (h : t.isNormalized = false) :
    normalize σ t supply = .ok r ↔
      ∃ first, rootRound σ t t supply = .ok first ∧
        ∃ k ≤ maxRounds, ∃ p, Rounds (rootRound σ t) k first p ∧
          Stops (rootRound σ t) (maxRounds - k) p r := by
  rw [normalize, ← pred_pushdownDepth, normalizeTo, if_neg (Bool.eq_false_iff.1 h),
    Rewrite.bind_eq_ok]
  exact exists_congr fun first => and_congr_right fun _ => settle_eq_ok

end Tree

end QueryAlgebra
