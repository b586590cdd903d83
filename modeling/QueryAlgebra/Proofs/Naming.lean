import QueryAlgebra.Proofs.CutShort
import QueryAlgebra.Proofs.Naming.Rules

/-!
# Names during a run

A supply covers a tree when it knows all variables of the tree, projected or hidden, so that no name
that it hands out occurs there. A normalization that starts with a supply that covers its tree goes
on like that, from round to round and at every node: the rules lose no name. What is pushed down may,
because it takes names from supplies of its own. So the supply covers all trees of a run up to the
names that are brought in that way.

Main statement: `Tree.normalize_covers`.
-/

namespace QueryAlgebra

open Rewrite (Tracked)
open QueryAlgebra.Tree (UsesOnly)

variable {σ : BuildSettings} {push : Pushdown} {invented : VarSet} {supply : NameSupply}

-- ---------------------------------------------------------------------------
-- Covered trees
-- ---------------------------------------------------------------------------

/-- Up to names among `invented`, the supply knows all variables of the tree, and no name that it
hands out occurs there. -/
structure NameSupply.Covers (supply : NameSupply) (invented : VarSet) (t : Tree) : Prop where
  known : t.knownVars ⊆ supply.known ∪ invented
  fresh : ∀ bases, ∀ p ∈ (supply.freshForEach bases).1, p.2 ∈ t.knownVars → p.2 ∈ invented

theorem NameSupply.covers_iff {t : Tree} :
    supply.Covers invented t ↔ t.UsesOnly (supply.scope invented) :=
  ⟨Covers.known, fun h => ⟨h, fun _ _ hp hmem =>
    (SortedSet.mem_union.1 (h _ hmem)).resolve_left (not_known_of_mem_freshForEach hp)⟩⟩

-- ---------------------------------------------------------------------------
-- Runs that do the same
-- ---------------------------------------------------------------------------

namespace Rewrite

variable {α β : Type} {P : VarSet → α → Prop} {R : VarSet → β → Prop} {x y : Rewrite α}

/-- From the supply on, both rewritings do the same, and the names are tracked. -/
structure Follows (invented : VarSet) (P : VarSet → α → Prop) (x y : Rewrite α)
    (supply : NameSupply) : Prop where
  same : x supply = y supply
  tracked : Tracked invented P y supply

namespace Follows

theorem refl (h : Tracked invented P x supply) : Follows invented P x x supply := ⟨rfl, h⟩

theorem pure {a : α} (h : P (supply.scope invented) a) :
    Follows invented P (Pure.pure a) (Pure.pure a) supply := .refl (.pure h)

theorem bind {f g : α → Rewrite β} (h : Follows invented P x y supply)
    (hfg : ∀ a (supply' : NameSupply), supply.known ⊆ supply'.known →
      P (supply'.scope invented) a → Follows invented R (f a) (g a) supply') :
    Follows invented R (x >>= f) (y >>= g) supply where
  same := by
    show x supply >>= _ = y supply >>= _
    rw [h.same]
    cases hy : y supply with
    | error e => rfl
    | ok r =>
      obtain ⟨hgrows, hr⟩ := h.tracked r hy
      exact (hfg r.1 r.2 hgrows hr).same
  tracked := h.tracked.bind fun a supply' hgrows ha => (hfg a supply' hgrows ha).tracked

theorem ite {x' y' : Rewrite α} {c : Prop} [Decidable c] (h : c → Follows invented P x y supply)
    (h' : ¬c → Follows invented P x' y' supply) :
    Follows invented P (if c then x else x') (if c then y else y') supply := by
  by_cases hc : c
  · rw [if_pos hc, if_pos hc]
    exact h hc
  · rw [if_neg hc, if_neg hc]
    exact h' hc

theorem mapM {f g : Tree → Rewrite Tree}
    (hfg : ∀ t supply, t.UsesOnly (supply.scope invented) →
      Follows invented UsesOnly (f t) (g t) supply) {ts : List Tree}
    (hts : ∀ t ∈ ts, t.UsesOnly (supply.scope invented)) :
    Follows invented (fun names us => ∀ u ∈ us, u.UsesOnly names) (ts.mapM f) (ts.mapM g)
      supply := by
  induction ts generalizing supply with
  | nil => exact .pure nofun
  | cons t ts ih =>
    obtain ⟨ht, hts⟩ := List.forall_mem_cons.1 hts
    rw [List.mapM_cons, List.mapM_cons]
    refine (hfg t supply ht).bind fun u first hfirst hu => ?_
    refine (ih fun t ht => (hts t ht).mono (NameSupply.scope_subset invented hfirst)).bind
      fun us last hlast hus => .pure ?_
    exact List.forall_mem_cons.2 ⟨hu.mono (NameSupply.scope_subset invented hlast), hus⟩

end Follows

end Rewrite

open Rewrite (Follows)

-- ---------------------------------------------------------------------------
-- Rounds
-- ---------------------------------------------------------------------------

namespace Tree

variable {t : Tree}

theorem follows_normalizeChildren {recur recur' : Tree → Rewrite Tree}
    (hrecur : ∀ t supply, t.UsesOnly (supply.scope invented) →
      Follows invented UsesOnly (recur t) (recur' t) supply)
    (ht : t.UsesOnly (supply.scope invented)) :
    Follows invented UsesOnly (normalizeChildren recur t) (normalizeChildren recur' t) supply := by
  cases t with
  | construct m projected bindings child =>
    obtain ⟨hprojected, hbindings, hchild⟩ := usesOnly_construct.1 ht
    refine (hrecur child supply hchild).bind fun child' supply' hgrows hchild' => .pure ?_
    have hscope := NameSupply.scope_subset invented hgrows
    exact usesOnly_construct.2 ⟨fun x hx => hscope x (hprojected x hx),
      fun x hx => hscope x (hbindings x hx), hchild'⟩
  | filter m condition child =>
    obtain ⟨hcondition, hchild⟩ := usesOnly_filter.1 ht
    refine (hrecur child supply hchild).bind fun child' supply' hgrows hchild' => .pure ?_
    exact usesOnly_filter.2
      ⟨fun x hx => NameSupply.scope_subset invented hgrows x (hcondition x hx), hchild'⟩
  | join m condition? ts =>
    obtain ⟨hcondition, hts⟩ := usesOnly_join.1 ht
    refine (Follows.mapM hrecur hts).bind fun us supply' hgrows hus => .pure ?_
    exact usesOnly_join.2 ⟨fun x hx => NameSupply.scope_subset invented hgrows x (hcondition x hx), hus⟩
  | leftJoin m condition? left right =>
    obtain ⟨hcondition, hleft, hright⟩ := usesOnly_leftJoin.1 ht
    refine (hrecur left supply hleft).bind fun left' first hfirst hleft' => ?_
    have hscope := NameSupply.scope_subset invented hfirst
    refine (hrecur right first (hright.mono hscope)).bind fun right' last hlast hright' => .pure ?_
    have hscope' := NameSupply.scope_subset invented hlast
    exact usesOnly_leftJoin.2 ⟨fun x hx => hscope' x (hscope x (hcondition x hx)),
      hleft'.mono hscope', hright'⟩
  | union m projected ts =>
    obtain ⟨hprojected, hts⟩ := usesOnly_union.1 ht
    refine (Follows.mapM hrecur hts).bind fun us supply' hgrows hus => .pure ?_
    exact usesOnly_union.2 ⟨fun x hx => NameSupply.scope_subset invented hgrows x (hprojected x hx), hus⟩
  | distinct m child | slice m window child | orderBy m keys child =>
    exact (hrecur child supply ht).bind fun _ _ _ h => .pure h
  | aggregate m grouping bindings child =>
    obtain ⟨hgrouping, hdomain, hbindings, hchild⟩ := usesOnly_aggregate.1 ht
    refine (hrecur child supply hchild).bind fun child' supply' hgrows hchild' => .pure ?_
    have hscope := NameSupply.scope_subset invented hgrows
    exact usesOnly_aggregate.2 ⟨fun x hx => hscope x (hgrouping x hx),
      fun x hx => hscope x (hdomain x hx), fun x hx => hscope x (hbindings x hx), hchild'⟩
  | leaf m l => exact .pure ht

theorem follows_settle {step step' : Tree → Rewrite Tree}
    (hstep : ∀ t supply, t.UsesOnly (supply.scope invented) →
      Follows invented UsesOnly (step t) (step' t) supply)
    (ht : t.UsesOnly (supply.scope invented)) (rounds : Nat) :
    Follows invented UsesOnly (settle step rounds t) (settle step' rounds t) supply := by
  induction rounds generalizing t supply with
  | zero => exact .pure ht.withMark
  | succ rounds ih =>
    refine .ite (fun _ => .pure ht) fun _ => (hstep t supply ht).bind fun next supply' _ hnext => ?_
    exact .ite (fun _ => .pure hnext.withMark) fun _ => ih hnext

section Runs

variable (hpush : push.InventsOnly invented) {watch : Tree → Rewrite Unit}
  (hwatch : ∀ (u : Tree) (supply : NameSupply), supply.Covers invented u →
    watch u supply = .ok ((), supply))
include hpush hwatch

theorem follows_roundWatched {recur recur' : Tree → Rewrite Tree}
    (hrecur : ∀ t supply, t.UsesOnly (supply.scope invented) →
      Follows invented UsesOnly (recur t) (recur' t) supply)
    (ht : t.UsesOnly (supply.scope invented)) :
    Follows invented UsesOnly (roundWatched σ push watch recur t) (round σ push recur' t)
      supply := by
  have hsilent {t : Tree} {supply : NameSupply} (ht : t.UsesOnly (supply.scope invented))
      (next : Rewrite Tree) : (watch t >>= fun _ => next) supply = next supply := by
    show watch t supply >>= _ = _
    rw [hwatch t supply (NameSupply.covers_iff.2 ht)]
    rfl
  have hinner : Follows invented UsesOnly
      (do let inner ← normalizeChildren recur t; watch inner; rules σ push inner)
      (round σ push recur' t) supply := by
    rw [round_eq]
    refine (follows_normalizeChildren hrecur ht).bind fun inner supply' _ hinner => ?_
    exact ⟨hsilent hinner _, tracked_rules hpush hinner⟩
  exact ⟨(hsilent ht _).trans hinner.same, hinner.tracked⟩

theorem follows_normalizeWatched (depth : Nat) (ht : t.UsesOnly (supply.scope invented)) :
    Follows invented UsesOnly (normalizeWatched σ push watch depth t)
      (normalizeTo σ push depth t) supply := by
  induction depth generalizing t supply with
  | zero => exact .refl .error
  | succ depth ih =>
    have hround (t : Tree) (supply : NameSupply) (ht : t.UsesOnly (supply.scope invented)) :=
      follows_roundWatched (σ := σ) hpush hwatch (fun _ _ => ih) ht
    refine .ite (fun _ => .pure ht) fun _ => ?_
    exact (hround t supply ht).bind fun _ _ _ hfirst => follows_settle hround hfirst _

end Runs

/-- What is pushed down without other names than the invented ones is pushed down as ever. -/
theorem isCutShort_confined (push : Pushdown) (invented : VarSet) :
    (push.confined invented).IsCutShort (fun _ => True) push := by
  have hconfine (names : VarSet) (x : Except Error Tree) :
      CutShort (fun _ => True) (Pushdown.confine names x) x := by
    cases x with
    | error e => exact .refl _
    | ok u =>
      by_cases hu : u.knownVars ⊆ names
      · exact .inl (if_pos hu)
      · exact .inr ⟨_, trivial, if_neg hu⟩
  exact ⟨fun _ _ _ _ => hconfine _ _, fun _ _ => hconfine _ _⟩

/-- Let the supply know all variables of the tree that is normalized. Until something that is pushed
down brings in a name that is neither there nor invented, the supply covers every tree that a round
starts from and every tree that rules are applied to, up to the invented names: a watch that lets
covered trees pass never stops the run. If nothing that is pushed down does, this is true of the
whole run and of its result. -/
theorem normalize_covers (invented : VarSet) {t : Tree} (hknown : t.knownVars ⊆ supply.known) :
    (∀ watch : Tree → Rewrite Unit,
      (∀ v (names : NameSupply), names.Covers invented v → watch v names = .ok ((), names)) →
        normalizeWatched σ ((pushdown σ).confined invented) watch t.pushdownDepth t supply
          = normalizeTo σ ((pushdown σ).confined invented) t.pushdownDepth t supply) ∧
      ∀ u supply', normalizeTo σ ((pushdown σ).confined invented) t.pushdownDepth t supply
          = .ok (u, supply') →
        t.normalize σ supply = .ok (u, supply') ∧ supply.known ⊆ supply'.known ∧
          supply'.Covers invented u ∧
          ∀ watch : Tree → Rewrite Unit,
            (∀ v (names : NameSupply), names.Covers invented v → watch v names = .ok ((), names)) →
              normalizeWatched σ (pushdown σ) watch t.pushdownDepth t supply
                = .ok (u, supply') := by
  have hpush := (pushdown σ).inventsOnly_confined invented
  have hconfined := isCutShort_confined (pushdown σ) invented
  have ht : t.UsesOnly (supply.scope invented) := fun x hx =>
    SortedSet.mem_union.2 (.inl (hknown x hx))
  have hfollows (watch : Tree → Rewrite Unit) (hwatch : ∀ v (names : NameSupply),
      names.Covers invented v → watch v names = .ok ((), names)) :=
    follows_normalizeWatched (σ := σ) hpush hwatch t.pushdownDepth ht
  refine ⟨fun watch hwatch => (hfollows watch hwatch).same, fun u supply' hrun => ?_⟩
  refine ⟨(cutShort_normalizeTo (fun _ => .refl _) hconfined _ t supply).eq_ok hrun, ?_⟩
  obtain ⟨hgrows, hu⟩ := (hfollows (fun _ => pure ()) fun _ _ _ => rfl).tracked _ hrun
  refine ⟨hgrows, NameSupply.covers_iff.2 hu, fun watch hwatch => ?_⟩
  exact (cutShort_normalizeWatched (fun _ => .refl _) hconfined (fun _ => .refl _) _ t supply).eq_ok
    ((hfollows watch hwatch).same.trans hrun)

/-- A column that a binding shadows gets a fresh name, which is pushed into the atom. -/
theorem normalize_covers_of_shadowed :
    let r : Relation := ⟨"r", [⟨"a", .integer, false⟩, ⟨"b", .integer, false⟩], []⟩
    let x : Variable := ⟨"x"⟩
    let y : Variable := ⟨"y"⟩
    let t : Tree := construct false (.singleton x) (.singleton x (.app ⟨.db "f", 1⟩ [.var y]))
      (leaf false (.extensional ⟨r, [.var x, .var y]⟩))
    ∃ u names, t.normalize ⟨false⟩ (.ofKnown t.knownVars) = .ok (u, names) ∧
      names.Covers ∅ u ∧ (⟨"x_f0"⟩ : Variable) ∈ u.knownVars := by
  intro r x y t
  have hrun : ∃ p, normalizeTo ⟨false⟩ ((pushdown ⟨false⟩).confined ∅) t.pushdownDepth t
      (.ofKnown t.knownVars) = .ok p ∧ (⟨"x_f0"⟩ : Variable) ∈ p.1.knownVars := by decide +kernel
  obtain ⟨⟨u, names⟩, hrun, hfresh⟩ := hrun
  have hknown : t.knownVars ⊆ (NameSupply.ofKnown t.knownVars).known := fun _ => id
  obtain ⟨hnormal, -, hcovers, -⟩ := (normalize_covers ∅ hknown).2 u names hrun
  exact ⟨u, names, hnormal, hcovers, hfresh⟩

/-- What is pushed down does bring in other names. When `y` takes the name `x` below the inner
construction, the column `x` that is hidden there is renamed, and the supply of the run is not
asked. The next name that it hands out is the one that the column got. -/
theorem not_normalize_covers :
    let r : Relation := ⟨"r", [⟨"a", .integer, false⟩, ⟨"b", .integer, false⟩], []⟩
    let x : Variable := ⟨"x"⟩
    let y : Variable := ⟨"y"⟩
    let inner : Tree := distinct false
      (construct false (.singleton y) ∅ (leaf false (.extensional ⟨r, [.var x, .var y]⟩)))
    let t : Tree := construct false (.singleton x) ∅
      (construct false (.ofList [x, y]) (.singleton x (.var y)) inner)
    t.validate = .ok () ∧ ∃ p, t.normalize ⟨false⟩ (.ofKnown t.knownVars) = .ok p ∧
      (⟨"x_f0"⟩ : Variable) ∈ p.1.knownVars ∧ (⟨"x_f0"⟩ : Variable) ∉ p.2.known ∧
        (p.2.freshFrom x).1 = ⟨"x_f0"⟩ := by
  intro r x y inner t
  have hvalid : ∀ u ∈ t.nodes, u.RootValid := by decide +kernel
  exact ⟨validate_eq_ok.2 hvalid, by decide +kernel⟩

end Tree

end QueryAlgebra
