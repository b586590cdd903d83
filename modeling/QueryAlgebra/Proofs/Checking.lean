import QueryAlgebra.Proofs.WellNamed

/-!
# Checking nodes as they are built

Test mode checks every node that a rewriting builds. It changes no result: a rewriting under checks
does what it does without them, or is cut short by the error of a node that does not pass. On a valid
tree that is a construction with a clash of names; and there is none in a run that comes to no tangle
(`Tree.NamesKeepFitting`), so that both modes give the same valid tree.

Main statement: `Tree.normalize_checked`.
-/

namespace QueryAlgebra

open QueryAlgebra.Except (Ends)

/-- The node has bindings that are not well named, and fails its check because of that. -/
structure Tree.FailsByNames (u : Tree) (e : Error) : Prop where
  tangled : ¬u.RootWellNamed
  checked : u.checkNode = .error e
  clash : e.IsNameClash

/-- The error of some node that does not pass its check. -/
def Error.IsFailedCheck (e : Error) : Prop := ∃ t : Tree, t.checkNode = .error e

theorem Error.IsFailedCheck.category_ne {e : Error} (h : e.IsFailedCheck) :
    e.category ≠ .internal := by
  obtain ⟨t, ht⟩ := h
  have hnode := t.ends_checkNode_category
  rwa [ht] at hnode

/-- A check that fails because of names fails at a node whose bindings are not well named. -/
theorem Error.IsFailedCheck.failsByNames {e : Error} (h : e.IsFailedCheck) (hclash : e.IsNameClash) :
    ∃ t : Tree, t.FailsByNames e := by
  obtain ⟨t, ht⟩ := h
  refine ⟨t, fun hnamed => ?_, ht, hclash⟩
  have hnode := Tree.ends_checkNode_wellNamed hnamed
  rw [ht] at hnode
  exact hnode hclash

/-- A node that is built under checks does not pass, or is built as without them. -/
theorem BuildSettings.cutShort_build {σ τ : BuildSettings} (hτ : τ.testMode = false) (t : Tree) :
    CutShort Error.IsFailedCheck (σ.build t) (τ.build t) := by
  have hplain : τ.build t = .ok t := by
    rw [build, hτ]
    rfl
  rw [hplain]
  unfold build
  split
  · cases ht : t.checkNode with
    | ok _ => exact .refl _
    | error e => exact .inr ⟨e, ⟨t, ht⟩, rfl⟩
  · exact .refl _

namespace Tree

variable {σ τ : BuildSettings} {t : Tree}

/-- A run under checks and a watch is the run without checks, but for a node that does not pass. -/
theorem checked_normalizeWatched (hτ : τ.testMode = false) (watch : Tree → Rewrite Unit) (depth : Nat)
    (t : Tree) : Rewrite.CutShort Error.IsFailedCheck (normalizeWatched σ (pushdown σ) watch depth t)
      (normalizeWatched τ (pushdown τ) watch depth t) :=
  have hbuild := BuildSettings.cutShort_build (σ := σ) hτ
  cutShort_normalizeWatched hbuild (cutShort_pushdown hbuild) (fun _ => .refl _) depth t

/-- Under checks a run that comes to no tangle does what it does without them. -/
theorem normalize_eq_of_fitting {supply : NameSupply} (ht : t.Valid) (hτ : τ.testMode = false)
    (hfit : NamesKeepFitting τ t supply) : t.normalize σ supply = t.normalize τ supply := by
  have hkeeps := valid_normalizeWatched (keepsNames_pushdown σ) (keepsScope_pushdown σ)
    t.pushdownDepth ht supply
  have hsame : normalizeWatched σ (pushdown σ) stopAtTangle t.pushdownDepth t supply =
      t.normalize τ supply := by
    rcases checked_normalizeWatched (σ := σ) hτ stopAtTangle t.pushdownDepth t supply with
      hsame | ⟨e, hcheck, he⟩
    · exact hsame.trans hfit
    · rw [he] at hkeeps
      exact absurd hkeeps hcheck.category_ne
  rcases cutShort_stopAtTangle (σ := σ) t supply with hrun | ⟨e, htangle, he⟩
  · exact hrun.symm.trans hsame
  · -- the run without checks would give the error of a tangle itself
    have hends := valid_normalize ht hfit
    rw [← hsame, he, htangle] at hends
    cases hends

/-- Where the names keep fitting, normalization of a valid tree in test mode is normalization without
checks, and gives a valid tree over the same variables unless it goes too deep.

A run that comes to a tangle is the same in test mode too, or it stops at a construction with a clash of
names. -/
theorem normalize_checked (hvalid : t.validate = .ok ()) (supply : NameSupply) :
    (NamesKeepFitting ⟨false⟩ t supply →
      normalize ⟨true⟩ t supply = normalize ⟨false⟩ t supply ∧
        Ends (fun r => r.1.validate = .ok () ∧ r.1.vars = t.vars) (· = .depthExceeded)
          (normalize ⟨true⟩ t supply)) ∧
      (normalize ⟨true⟩ t supply = normalize ⟨false⟩ t supply ∨
        ¬NamesKeepFitting ⟨false⟩ t supply ∧
          ∃ u e, FailsByNames u e ∧ normalize ⟨true⟩ t supply = .error e) := by
  have ht := validate_eq_ok.1 hvalid
  have hfitting (hfit : NamesKeepFitting ⟨false⟩ t supply) :
      normalize ⟨true⟩ t supply = normalize ⟨false⟩ t supply := normalize_eq_of_fitting ht rfl hfit
  refine ⟨fun hfit => ⟨hfitting hfit, ?_⟩, ?_⟩
  · rw [hfitting hfit]
    exact (valid_normalize ht hfit).imp fun _ ⟨hresult, hvars⟩ => ⟨validate_eq_ok.2 hresult, hvars⟩
  · have hchecked := checked_normalizeWatched (σ := ⟨true⟩) (τ := ⟨false⟩) rfl (fun _ => pure ())
      t.pushdownDepth t supply
    rw [normalizeWatched_silent, normalizeWatched_silent] at hchecked
    refine hchecked.imp id fun ⟨e, hcheck, he⟩ => ?_
    have he : normalize ⟨true⟩ t supply = .error e := he
    have hstops := builds_normalize ⟨true⟩ ht.inScope supply
    rw [he] at hstops
    have hclash : e.IsNameClash :=
      (hstops.resolve_left fun hdepth => hcheck.category_ne (congrArg Error.category hdepth)).2
    obtain ⟨u, hu⟩ := hcheck.failsByNames hclash
    refine ⟨fun hfit => ?_, u, e, hu, he⟩
    -- without checks there is no error but that of the depth
    have hends := valid_normalize ht hfit
    rw [← hfitting hfit, he] at hends
    exact hcheck.category_ne (congrArg Error.category hends)

/-- A column that a binding shadows gets another name, also where two constructions are merged. -/
theorem normalize_checked_of_merged :
    let r : Relation := ⟨"r", [⟨"a", .integer, false⟩], []⟩
    let x : Variable := ⟨"x"⟩
    let y : Variable := ⟨"y"⟩
    let t : Tree := construct false (.ofList [x, y]) (.ofList [(y, .app ⟨.db "f", 1⟩ [.var x])])
      (construct false (.singleton x) (.singleton x (.app ⟨.db "g", 1⟩ [.var y]))
        (leaf false (.extensional ⟨r, [.var y]⟩)))
    let supply : NameSupply := .ofKnown t.knownVars
    t.validate = .ok () ∧ NamesKeepFitting ⟨false⟩ t supply ∧
      ∃ p, normalize ⟨false⟩ t supply = .ok p ∧ p.1.validate = .ok () ∧
        normalize ⟨true⟩ t supply = .ok p := by
  intro r x y t supply
  have hvalid : t.validate = .ok () := by decide +kernel
  obtain ⟨p, hwatched⟩ : ∃ p, normalizeWatched ⟨false⟩ (pushdown ⟨false⟩) stopAtTangle
      t.pushdownDepth t supply = .ok p := by decide +kernel
  -- what is left holds of any tree that is normalized like this one
  clear_value supply t
  have hfit := namesKeepFitting_of_ok hwatched
  have hrun := normalize_of_watched hwatched
  obtain ⟨hsame, hends⟩ := (normalize_checked hvalid supply).1 hfit
  have hchecked := hsame.trans hrun
  exact ⟨hvalid, hfit, p, hrun, (hends.returns p hchecked).1, hchecked⟩

/-- Test mode does stop at times, also on trees that are valid: merging the two constructions leaves a
binding to a column that is renamed because the other binding has its name. -/
theorem not_normalize_unchecked :
    let r : Relation := ⟨"r", [⟨"a", .integer, false⟩], []⟩
    let v : Variable := ⟨"v"⟩
    let y : Variable := ⟨"y"⟩
    let t : Tree := construct false (.ofList [v, y]) (.ofList [(y, .const (.integer 5))])
      (construct false (.ofList [v, y]) (.ofList [(v, .var y)])
        (leaf false (.extensional ⟨r, [.var y]⟩)))
    t.validate = .ok () ∧ (normalize ⟨false⟩ t (.ofKnown t.knownVars)).isOk = true ∧
      (normalize ⟨true⟩ t (.ofKnown t.knownVars)).isOk = false := by
  intro r v y t
  have hvalid : ∀ u ∈ t.nodes, u.RootValid := by decide +kernel
  exact ⟨validate_eq_ok.2 hvalid, by decide +kernel, by decide +kernel⟩

end Tree

end QueryAlgebra
