import QueryAlgebra.Proofs.CutShort
import QueryAlgebra.Proofs.Rounds
import QueryAlgebra.Proofs.WellNamed.Rules
import QueryAlgebra.Query

/-!
# Valid trees stay valid

Every rule of a valid node gives a valid tree over the same variables where the names that it takes fit
(`Tree.NamesFit`). A run consists of nothing else: normalization gives a valid tree, in test mode as
without checks, unless it comes to a node where they do not (`Tree.NamesKeepFitting`). Whatever it comes
to, the tree that it gives is in scope, and only the names of a construction can be wrong.

Main statements: `Tree.valid_normalize` and `Query.normalize_valid`.
-/

namespace QueryAlgebra

open QueryAlgebra.Except (Ends)

namespace Tree

variable {σ : BuildSettings} {push : Pushdown} {recur step : Tree → Rewrite Tree} {t : Tree}
  {xs : VarSet} {supply : NameSupply} {Q : Error → Prop}

-- ---------------------------------------------------------------------------
-- Tangles
-- ---------------------------------------------------------------------------

/-- A node over normalized children for which the names do not fit. -/
def Tangles (supply : NameSupply) (t : Tree) : Prop :=
  (∀ c ∈ t.children, c.isNormalized = true) ∧ ¬t.NamesFit supply

instance : Decidable (t.Tangles supply) := inferInstanceAs (Decidable (_ ∧ ¬_))

/-- The error of a run that is stopped at a tangle, which no rewriting gives. -/
def tangleError : Error := .custom .internal "names do not fit"

/-- Stops a run at a tangle. -/
def stopAtTangle (t : Tree) : Rewrite Unit := fun supply =>
  if t.Tangles supply then .error tangleError else .ok ((), supply)

/-- The normalization comes to no tangle: nothing stops it. -/
def NamesKeepFitting (σ : BuildSettings) (t : Tree) (supply : NameSupply) : Prop :=
  normalizeWatched σ (pushdown σ) stopAtTangle t.pushdownDepth t supply = t.normalize σ supply

/-- A run that is stopped at tangles does what it does otherwise, or is stopped. -/
theorem cutShort_stopAtTangle (t : Tree) :
    Rewrite.CutShort (· = tangleError)
      (normalizeWatched σ (pushdown σ) stopAtTangle t.pushdownDepth t) (t.normalize σ) := by
  unfold normalize
  rw [← normalizeWatched_silent]
  refine cutShort_normalizeWatched (fun _ => .refl _) ⟨fun _ _ _ _ => .refl _, fun _ _ => .refl _⟩
    (fun t supply => ?_) t.pushdownDepth t
  unfold stopAtTangle
  split
  · exact .inr ⟨_, rfl, rfl⟩
  · exact .refl _

/-- A run that is not stopped at a tangle is the run of normalization. -/
theorem normalize_of_watched {r : Tree × NameSupply}
    (h : normalizeWatched σ (pushdown σ) stopAtTangle t.pushdownDepth t supply = .ok r) :
    t.normalize σ supply = .ok r :=
  (cutShort_stopAtTangle t supply).eq_ok h

theorem namesKeepFitting_of_ok {r : Tree × NameSupply}
    (h : normalizeWatched σ (pushdown σ) stopAtTangle t.pushdownDepth t supply = .ok r) :
    NamesKeepFitting σ t supply :=
  h.trans (normalize_of_watched h).symm

-- ---------------------------------------------------------------------------
-- Rounds
-- ---------------------------------------------------------------------------

/-- The node over other children binds what it bound. -/
theorem wellNamed_normalizeChildren {P : Tree → Prop} (hroot : t.RootWellNamed)
    (hrecur : ∀ c ∈ t.children, Rewrite.Ends P Q (recur c)) :
    Rewrite.Ends (fun u => u.RootWellNamed ∧ ∀ c ∈ u.children, P c) Q (normalizeChildren recur t) := by
  refine (sameRoot_normalizeChildren (S := fun _ c => P c) hrecur).imp fun u ⟨hu, _⟩ =>
    ⟨?_, fun c hc => ?_⟩
  · cases hu <;> exact hroot
  · obtain ⟨-, -, hc⟩ := exists_of_mem_right hu.children hc
    exact hc

/-- A valid tree over `xs` that is marked as normalized. -/
structure ValidNormal (xs : VarSet) (t : Tree) : Prop where
  valid : t.Valid
  vars : t.vars = xs
  marked : t.isNormalized = true

theorem ValidNormal.of_valid (h : t.Valid) : t.declareNormalized.ValidNormal t.vars := by
  obtain ⟨hscope, hnamed⟩ := valid_iff_inScope.1 h
  have hover : t.declareNormalized.Over t.vars := hscope.over.withMark
  exact ⟨valid_iff_inScope.2 ⟨hover.inScope, hnamed.withMark⟩, hover.vars,
    isNormalized_declareNormalized t⟩

section Runs

variable (hnames : push.KeepsNames) (hscope : push.KeepsScope σ)
include hnames hscope

/-- A round that comes to no tangle keeps its tree valid. -/
theorem valid_roundWatched
    (hrecur : ∀ t : Tree, t.Valid →
      Rewrite.Ends (ValidNormal t.vars) (·.category = .internal) (recur t)) (ht : t.Valid) :
    Rewrite.Ends (fun u => u.Valid ∧ u.vars = t.vars) (·.category = .internal)
      (roundWatched σ push stopAtTangle recur t) := by
  have hstop (t : Tree) (supply : NameSupply) :
      Ends (fun r => r.2 = supply ∧ ¬t.Tangles supply) (·.category = .internal)
        (stopAtTangle t supply) :=
    .ite (fun _ => rfl) fun h => ⟨rfl, h⟩
  obtain ⟨hroot, hchildren⟩ := valid_iff.1 ht
  have hroot := rootValid_iff.1 hroot
  have hover := over_normalizeChildren (fun c hc =>
    (hrecur c (hchildren c hc)).imp fun _ h => ⟨h.valid.inScope, h.vars⟩) hroot.1
  have hinner := wellNamed_normalizeChildren hroot.2 (fun c hc =>
    (hrecur c (hchildren c hc)).imp fun _ h => And.intro h.valid.wellNamed h.marked)
  intro supply
  refine Rewrite.ends_bind (hstop t supply) fun _ _ => ?_
  refine Rewrite.ends_bind (((hover _).and (hinner _)).imp_error fun _ => And.left)
    fun p ⟨hover, hnamed, hmarked⟩ => ?_
  obtain ⟨inner, known⟩ := p
  have hvalid : inner.Valid := hover.valid (.of_children hnamed fun c hc => (hmarked c hc).1)
  refine Rewrite.ends_bind (hstop inner known) fun r ⟨hknown, htangles⟩ => ?_
  rw [hknown]
  have hfit : inner.NamesFit known :=
    not_not.1 fun hfit => htangles ⟨fun c hc => (hmarked c hc).2, hfit⟩
  have hrules := (builds_rules hscope hvalid.inScope known).and (wellNamed_rules hnames hvalid hfit)
  exact (hrules.imp fun _ ⟨hover', hnamed⟩ => ⟨hover'.valid hnamed, hover'.vars.trans hover.vars⟩).imp_error
    fun _ ⟨hstops, hclash⟩ => congrArg Error.category (hstops.eq_depthExceeded hclash)

omit hnames hscope in
/-- Rounds that keep their trees valid lead to a valid normal form. -/
theorem valid_settle
    (hstep : ∀ t : Tree, t.Valid →
      Rewrite.Ends (fun u => u.Valid ∧ u.vars = t.vars) (·.category = .internal) (step t))
    (ht : t.Valid) (rounds : Nat) :
    Rewrite.Ends (ValidNormal t.vars) (·.category = .internal) (settle step rounds t) := by
  induction rounds generalizing t with
  | zero => exact .pure (.of_valid ht)
  | succ rounds ih =>
    refine .ite (fun hmark => .pure ⟨ht, rfl, hmark⟩) fun _ =>
      (hstep t ht).bind fun next ⟨hnext, hvars⟩ => ?_
    rw [← hvars]
    exact .ite (fun _ => .pure (.of_valid hnext)) fun _ => ih hnext

/-- Unless it comes to a tangle, a run takes a valid tree to a valid normal form. -/
theorem valid_normalizeWatched (depth : Nat) (ht : t.Valid) :
    Rewrite.Ends (ValidNormal t.vars) (·.category = .internal)
      (normalizeWatched σ push stopAtTangle depth t) := by
  induction depth generalizing t with
  | zero => exact .lift (e := .error _) rfl
  | succ depth ih =>
    have hround (t : Tree) := valid_roundWatched (σ := σ) (t := t) hnames hscope fun _ => ih
    refine .ite (fun hmark => .pure ⟨ht, rfl, hmark⟩) fun _ =>
      (hround t ht).bind fun first ⟨hfirst, hvars⟩ => ?_
    rw [← hvars]
    exact valid_settle hround hfirst maxRounds

end Runs

/-- Unless it comes to a tangle, normalization of a valid tree gives a valid one over the same variables,
or goes too deep; also in test mode. -/
theorem valid_normalize (ht : t.Valid) (hfit : NamesKeepFitting σ t supply) :
    Ends (fun r => r.1.Valid ∧ r.1.vars = t.vars) (· = .depthExceeded) (t.normalize σ supply) := by
  have hruns := valid_normalizeWatched (keepsNames_pushdown σ) (keepsScope_pushdown σ)
    t.pushdownDepth ht supply
  rw [hfit] at hruns
  exact ((hruns.and (builds_normalize σ ht.inScope supply)).imp fun _ ⟨hr, _⟩ =>
    ⟨hr.valid, hr.vars⟩).imp_error fun _ ⟨hinternal, hstops⟩ =>
      hstops.eq_depthExceeded (Error.not_isNameClash_of_category hinternal)

end Tree

namespace Query

variable {σ : BuildSettings} {q : Query} {t : Tree}

/-- A tree over the same variables takes the signature. -/
theorem ends_withTree {Q : Error → Prop} (h : t.vars = q.tree.vars) :
    Ends (fun r : Query => r.signature = q.signature ∧ r.tree = t) Q (q.withTree t) := by
  unfold withTree make
  rw [dif_pos q.nodup, dif_pos (q.covers.trans h.symm)]
  exact ⟨rfl, rfl⟩

/-- Whatever names are to hand, a valid tree is normalized to one over the same variables, in whose
nodes nothing but the names of a construction can be wrong; and a query keeps its signature. The
rewriting fails at most beyond its depth or, in test mode, at a clash of names.

Where the names keep fitting, the result is valid, and there is no clash. -/
theorem normalize_valid (hvalid : q.tree.validate = .ok ()) :
    (∀ supply, Ends (fun r => r.1.vars = q.tree.vars ∧
        Ends (fun _ => True) Error.IsNameClash r.1.validate) σ.Stops (q.tree.normalize σ supply)) ∧
      Ends (fun r => r.signature = q.signature) σ.Stops (q.normalize σ) ∧
      (∀ supply, Tree.NamesKeepFitting σ q.tree supply →
        Ends (fun r => r.1.validate = .ok () ∧ r.1.vars = q.tree.vars) (· = .depthExceeded)
          (q.tree.normalize σ supply)) ∧
      (Tree.NamesKeepFitting σ q.tree q.nameSupply →
        Ends (fun r => r.tree.validate = .ok () ∧ r.signature = q.signature) (· = .depthExceeded)
          (q.normalize σ)) := by
  have hq := Tree.validate_eq_ok.1 hvalid
  have hnormal : Rewrite.Builds σ q.tree.vars (q.tree.normalize σ) :=
    Tree.builds_normalize σ hq.inScope
  have hfits (supply : NameSupply) (hfit : Tree.NamesKeepFitting σ q.tree supply) :=
    Tree.valid_normalize hq hfit
  unfold Query.normalize
  -- the run itself, and with it its depth, is of no concern any more
  generalize q.tree.normalize σ = run at hnormal hfits ⊢
  refine ⟨fun supply => (hnormal supply).imp fun r hr => ⟨hr.vars, hr.inScope.ends_validate⟩, ?_,
    fun supply hfit => (hfits supply hfit).imp fun r hr =>
      ⟨Tree.validate_eq_ok.2 hr.1, hr.2⟩, fun hfit => ?_⟩
  · exact (hnormal q.nameSupply).bind fun r hr => (ends_withTree hr.vars).imp fun _ => And.left
  · refine (hfits _ hfit).bind fun r ⟨hr, hvars⟩ => (ends_withTree hvars).imp fun q' hq' => ?_
    exact ⟨hq'.2 ▸ Tree.validate_eq_ok.2 hr, hq'.1⟩

/-- The binding of `x` shadows a column below the join, which gets another name; and both branches of
the union bind a column of that join. -/
theorem normalize_valid_of_shadowed :
    let r : Relation := ⟨"r", [⟨"a", .integer, false⟩, ⟨"b", .integer, false⟩], []⟩
    let x : Variable := ⟨"x"⟩
    let y : Variable := ⟨"y"⟩
    let only (k : Int) : Tree :=
      .construct false (.singleton y) (.singleton y (.const (.integer k))) .oneRow
    let t : Tree := .construct false (.singleton x) (.singleton x (.app ⟨.db "f", 1⟩ [.var y]))
      (.join false none [.leaf false (.extensional ⟨r, [.var x, .var y]⟩),
        .union false (.singleton y) [only 2, only 5]])
    ∃ q : Query, q.tree = t ∧ q.tree.validate = .ok () ∧
      Tree.NamesKeepFitting ⟨true⟩ q.tree q.nameSupply ∧
        ∃ q', q.normalize ⟨true⟩ = .ok q' ∧ q'.tree.validate = .ok () ∧
          q'.signature = q.signature := by
  intro r x y only t
  obtain ⟨q, hq, hsignature⟩ : ∃ q : Query, q.tree = t ∧ q.signature = [x] :=
    ⟨⟨[x], t, by decide, by decide +kernel⟩, rfl, rfl⟩
  have hsupply : q.nameSupply = .ofKnown (t.knownVars ∪ .ofList [x]) := by
    rw [nameSupply, hq, hsignature]
  have hvalid : q.tree.validate = .ok () := by
    rw [hq]
    decide +kernel
  obtain ⟨p, hwatched⟩ : ∃ p, Tree.normalizeWatched ⟨true⟩ (Tree.pushdown ⟨true⟩)
      Tree.stopAtTangle q.tree.pushdownDepth q.tree q.nameSupply = .ok p := by
    rw [hq, hsupply]
    decide +kernel
  have hfit := Tree.namesKeepFitting_of_ok hwatched
  obtain ⟨-, -, hfits, hquery⟩ := normalize_valid (σ := ⟨true⟩) hvalid
  have hrun := Tree.normalize_of_watched hwatched
  obtain ⟨-, hvars⟩ := (hfits _ hfit).returns p hrun
  obtain ⟨q', hq', -⟩ := (ends_withTree (Q := fun _ => False) hvars).exists_ok fun _ => id
  have hresult : q.normalize ⟨true⟩ = .ok q' := by
    rw [Query.normalize, hrun]
    exact hq'
  obtain ⟨hok, hsame⟩ := (hquery hfit).returns q' hresult
  exact ⟨q, hq, hvalid, hfit, q', hresult, hok, hsame⟩

end Query

end QueryAlgebra
