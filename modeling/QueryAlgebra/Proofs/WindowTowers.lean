import QueryAlgebra.Proofs.Constructions
import QueryAlgebra.Proofs.Pushdown.Windows
import QueryAlgebra.Tree.Normalize

/-!
# Towers of windows

Windows and constructions stacked over an atom of a table or over the single row. Normalization moves
the constructions up and merges them, and merges the windows below; of their sums and differences it
keeps what fits a word. This loses nothing as long as there are no more rows than an offset can skip
(`Window.clip_clip`).

What comes out of a round is a construction over windows, or windows alone (`Tree.Collapsed`), and
further rounds keep it so. Only the construction ever renames anything, and the windows below take
every renaming that keeps columns apart (`Tree.Windows.descends`), without new names of their own.
Therefore the supply of names knows all variables throughout.

Main statement: `Tree.normalize_tower_rows`. Where every node is checked as it is built, two of the
constructions can keep the tower from being normalized (`Tree.not_normalize_tower`).
-/

namespace QueryAlgebra

open QueryAlgebra.Except (Ends)

-- ---------------------------------------------------------------------------
-- Windows of windows
-- ---------------------------------------------------------------------------

namespace Window

variable {α : Type} {as : List α}

theorem drop_min_maxOffset (h : as.length ≤ maxOffset) (k : Nat) :
    as.drop (min k maxOffset) = as.drop k := by
  rcases Nat.le_total k maxOffset with hk | hk
  · rw [Nat.min_eq_left hk]
  · rw [Nat.min_eq_right hk, List.drop_of_length_le h, List.drop_of_length_le (h.trans hk)]

/-- A window of a window is one window, whose offset may stop at the greatest one. -/
theorem clip_clip (outer inner : Window) (h : as.length ≤ maxOffset) :
    outer.clip (inner.clip as) = (outer.within inner).clip as := by
  have hoffset : as.drop (min (inner.offset + outer.offset) maxOffset)
      = (as.drop inner.offset).drop outer.offset := by
    rw [drop_min_maxOffset h, List.drop_drop]
  obtain ⟨i, inner?⟩ := inner
  obtain ⟨o, outer?⟩ := outer
  simp only [clip, within] at hoffset ⊢
  cases inner? with
  | none => cases outer? <;> simp [hoffset]
  | some r =>
    cases outer? with
    | none => simp [hoffset, List.drop_take]
    | some l =>
      show (((as.drop i).take r).drop o).take l
        = (as.drop (min (i + o) maxOffset)).take (min (r - o) l)
      rw [hoffset, List.drop_take, List.take_take, Nat.min_comm]

theorem clip_nil (window : Window) : window.clip ([] : List α) = [] :=
  List.sublist_nil.1 (window.clip_sublist [])

/-- The window of a single row has it unless the row is skipped or no row is asked for. -/
theorem clip_singleton {window : Window} (hlimit : window.limit? ≠ some 0) (a : α) :
    window.clip [a] = if 0 < window.offset then [] else [a] := by
  obtain ⟨offset, limit?⟩ := window
  cases offset with
  | succ k => cases limit? <;> simp [clip]
  | zero =>
    cases limit? with
    | none => rfl
    | some l =>
      have hl : l ≠ 0 := fun h => hlimit (congrArg some h)
      obtain ⟨l, rfl⟩ := Nat.exists_eq_succ_of_ne_zero hl
      simp [clip]

theorem clip_of_all {window : Window} (hoffset : window.offset = 0) (hlimit : window.limit? = none) :
    window.clip as = as := by
  rw [clip, hlimit, hoffset]
  rfl

end Window

-- ---------------------------------------------------------------------------
-- Renaming windows
-- ---------------------------------------------------------------------------

namespace Tree

variable {D : Database} {σ : BuildSettings} {s : Substitution} {n k depth : Nat} {t : Tree}
  {optimize : Bool} {P P' : Leaf → Prop} {xs : VarSet}

/-- A leaf that reads a table or nothing, with no more rows than an offset can skip. -/
def Bottom (D : Database) (l : Leaf) : Prop :=
  (D.leafRows l).length ≤ Window.maxOffset ∧ match l with
    | .extensional atom => atom.isWellFormed = true
    | .empty _ | .unit => True
    | _ => False

/-- At most `n` windows, one on the other, over a leaf that satisfies `P`. -/
inductive Windows (P : Leaf → Prop) : Nat → Tree → Prop
  | leaf {n : Nat} {m : Bool} {l : Leaf} (h : P l) : Windows P n (.leaf m l)
  | slice {n : Nat} {m : Bool} {window : Window} {child : Tree} (h : Windows P n child) :
      Windows P (n + 1) (.slice m window child)

/-- The computation gives such windows, which return the rows in this order. -/
def GivesWindows (D : Database) (n : Nat) (xs : VarSet) (rows : List Row) (x : Except Error Tree) :
    Prop :=
  ∃ u, x = .ok u ∧ u.Windows (Bottom D) n ∧ u.HasRows D xs rows

namespace Windows

theorem succ (h : t.Windows P n) : t.Windows P (n + 1) := by
  induction h with
  | leaf h => exact .leaf h
  | slice _ ih => exact .slice ih

theorem imp (h : t.Windows P n) (hP : ∀ l, P l → P' l) : t.Windows P' n := by
  induction h with
  | leaf h => exact .leaf (hP _ h)
  | slice _ ih => exact .slice ih

/-- There are no more windows than nodes. -/
theorem size (h : t.Windows P n) : t.Windows P t.size := by
  induction h with
  | leaf h => exact .leaf h
  | slice _ ih => exact .slice ih

theorem withMark {mark : Bool} (h : t.Windows P n) : (t.withMark mark).Windows P n := by
  cases h with
  | leaf h => exact .leaf h
  | slice h => exact .slice h

theorem knownVars_eq (h : t.Windows P n) : t.knownVars = t.vars := by
  induction h with
  | leaf _ => rfl
  | slice _ ih => exact ih

theorem length_rows_le (h : t.Windows (Bottom D) n) : (t.rows D).length ≤ Window.maxOffset := by
  induction h with
  | leaf h => exact h.1
  | @slice _ _ window child _ ih => exact (window.clip_sublist (child.rows D)).length_le.trans ih

theorem nullabilityHolds (h : t.Windows (Bottom D) n) : t.NullabilityHolds D := by
  induction h with
  | @leaf _ m l h =>
    refine nullabilityHolds_leaf ?_ fun _ => ?_
    · rintro q rfl
      exact h.2.elim
    · cases l with
      | extensional atom => exact h.2
      | empty _ | unit => trivial
      | _ => exact h.2.elim
  | @slice _ _ window child _ ih =>
    exact ⟨ih.scope, ih.groups, fun ρ hρ => ih.admits ρ (Window.mem_of_mem_clip hρ)⟩

/-- Where columns are renamed apart, the windows are of the renamed rows. -/
theorem descends (h : t.Windows (Bottom D) n) (hs : s.Distinguishes t.vars) (hdepth : t.size ≤ depth) :
    GivesWindows D n (s.applyVars t.vars) (Row.renamed D.toInterpretation s t.vars (t.rows D))
      (descendTo σ depth s none optimize t) := by
  have hflat := hs.flat
  have hvariable {xs : VarSet} {x : Variable} (hs : s.Distinguishes xs) (hx : x ∈ xs) :
      s.applyVar x ≠ .const .null := by
    intro hnull
    have hvariable := hs.isVariable x hx
    rw [hnull] at hvariable
    cases hvariable
  have hkept {n : Nat} {t : Tree} (h : t.Windows (Bottom D) n)
      (hfixed : ∀ x ∈ t.vars, s.applyVar x = .var x) :
      GivesWindows D n (s.applyVars t.vars) (Row.renamed D.toInterpretation s t.vars (t.rows D))
        (.ok t) := by
    obtain ⟨hvars, hrows⟩ := renamed_of_fixed (D := D) hfixed hflat
    exact ⟨t, rfl, h, hvars.symm, hrows.symm⟩
  induction h generalizing depth with
  | @leaf n m l h =>
    obtain ⟨depth, rfl⟩ := Nat.exists_eq_succ_of_ne_zero (Nat.ne_zero_of_lt hdepth)
    refine descendNode_rule hflat ?_ (fun x hx hnull => absurd hnull (hvariable hs hx))
      (hkept (.leaf h)) (fun _ _ => nofun) fun hmoved => ?_
    · rintro m q ⟨⟩
      exact h.2.elim
    · cases l with
      | extensional atom =>
        have himages := computes_extensional (D := D) (f := .inner) (m := m)
          (hflat.restrict atom.vars) h.2
        have hlength : (D.leafRows (.extensional (atom.substitute (s.restrict atom.vars)))).length
            ≤ (D.leafRows (.extensional atom)).length := by
          have hrows : D.leafRows (.extensional (atom.substitute (s.restrict atom.vars))) = _ :=
            himages.rows
          rw [hrows]
          exact List.length_filterMap_le _ _
        refine ⟨_, rfl, .leaf ⟨hlength.trans h.1, core_leaf.1 himages.core⟩, ?_, ?_⟩
        · exact himages.vars.trans (Substitution.applyVars_restrict ..)
        · exact himages.rows.trans (Row.renamed_restrict hflat ..)
      | empty xs =>
        exact ⟨_, rfl, .leaf h, Substitution.applyVars_restrict .., rfl⟩
      | unit => exact absurd (fun x hx => absurd hx (SortedSet.not_mem_empty x)) hmoved
      | _ => exact h.2.elim
  | @slice n m window child h ih =>
    obtain ⟨depth, rfl⟩ := Nat.exists_eq_succ_of_ne_zero (Nat.ne_zero_of_lt hdepth)
    have hs : s.Distinguishes child.vars := hs
    refine descendNode_rule hflat (fun _ _ => nofun)
      (fun x hx hnull => absurd hnull (hvariable hs hx)) (hkept (.slice h)) (fun _ _ => nofun)
      fun _ => ?_
    obtain ⟨child', hok, hwindows, hchild'⟩ := ih hs (Nat.le_of_succ_le_succ hdepth)
    have hbelow : descendTo σ depth (s.restrict child.vars) none optimize child = .ok child' :=
      (descendTo_restrict s child).trans hok
    refine ⟨Tree.slice false window child', ?_, .slice hwindows, hchild'.vars, ?_⟩
    · show (descendTo σ depth (s.restrict child.vars) none optimize child >>= σ.slice window) = _
      rw [hbelow]
      exact build_eq_ok trivial
    · have hrenamed (rows : List Row) : Row.renamed D.toInterpretation s child.vars rows
          = rows.map (Row.image s child.vars) :=
        Row.renamed_of_injective hflat hs.isVariable hs.injective rows
      show window.clip (child'.rows D)
        = Row.renamed D.toInterpretation s child.vars (window.clip (child.rows D))
      rw [hchild'.rows, hrenamed, hrenamed, Window.clip_map]

end Windows

-- ---------------------------------------------------------------------------
-- Collapsed towers
-- ---------------------------------------------------------------------------

/-- At most `n` windows over a leaf, and at most one construction above them. -/
inductive Collapsed (D : Database) (n : Nat) : Tree → Prop
  | windows {t : Tree} (h : t.Windows (Bottom D) n) : Collapsed D n t
  | construct {m : Bool} {projected : VarSet} {bindings : Substitution} {child : Tree}
      (h : child.Windows (Bottom D) n) (hbindings : bindings.Computes projected child.vars)
      (happlied : ∀ x, (bindings.applyVar x).WellApplied) :
      Collapsed D n (.construct m projected bindings child)

theorem Collapsed.succ (h : t.Collapsed D n) : t.Collapsed D (n + 1) := by
  cases h with
  | windows h => exact .windows h.succ
  | construct h hbindings happlied => exact .construct h.succ hbindings happlied

theorem Collapsed.withMark {mark : Bool} (h : t.Collapsed D n) : (t.withMark mark).Collapsed D n := by
  cases h with
  | windows h => exact .windows h.withMark
  | construct h hbindings happlied => exact .construct h hbindings happlied

theorem windows_noRow : (noRow xs).Windows (Bottom D) n := .leaf ⟨Nat.zero_le _, trivial⟩

/-- A tree of a certain shape over `xs` that returns the rows in this order, and a supply that knows its
variables and all that were known before. -/
structure Outcome (D : Database) (S : Tree → Prop) (xs : VarSet) (rows : List Row) (known : VarSet)
    (r : Tree × NameSupply) : Prop where
  shape : S r.1
  vars : r.1.vars = xs
  rows : r.1.rows D = rows
  covers : r.1.knownVars ⊆ r.2.known
  grows : known ⊆ r.2.known

end Tree

/-- The errors of a check that stops at a clash of names. -/
def BuildSettings.Rejects (σ : BuildSettings) (e : Error) : Prop :=
  σ.testMode = true ∧ e.IsNameClash

/-- Only the names of a construction in scope can be rejected. -/
theorem BuildSettings.ends_construct {σ : BuildSettings} {projected : VarSet}
    {bindings : Substitution} {child : Tree} (h : bindings.Computes projected child.vars) :
    Ends (· = .construct false projected bindings child) σ.Rejects
      (σ.construct projected bindings child) := by
  refine ends_build rfl fun htest e he => ⟨htest, ?_⟩
  have hnode := Tree.ends_checkNode (t := .construct false projected bindings child) h
  rwa [he] at hnode

namespace Tree

variable {D : Database} {σ : BuildSettings} {bindings inner : Substitution} {n k depth : Nat}
  {window : Window} {child t u : Tree} {m : Bool} {P : Leaf → Prop} {xs projected known : VarSet}
  {rows : List Row} {supply : NameSupply}

/-- The variables of a construction over windows. -/
theorem knownVars_construct_subset (hchild : child.Windows P n)
    (hbindings : bindings.Computes projected child.vars) (hprojected : projected ⊆ known)
    (hvars : child.vars ⊆ known) : (construct m projected bindings child).knownVars ⊆ known := by
  have hrange : bindings.rangeVars ⊆ known := by
    intro y hy
    obtain ⟨x, t, hx, hyt⟩ := Substitution.mem_rangeVars.1 hy
    have hxp := Substitution.domain_subset_of_fixed hbindings.fixed x
      (Substitution.mem_domain.2 ⟨t, hx⟩)
    exact hvars y (hbindings.vars_subset x hxp y (Substitution.applyVar_of_find? hx ▸ hyt))
  rw [knownVars, hchild.knownVars_eq]
  exact SortedSet.union_subset_iff.2 ⟨SortedSet.union_subset_iff.2 ⟨hprojected, hrange⟩, hvars⟩

-- ---------------------------------------------------------------------------
-- Constructions over windows
-- ---------------------------------------------------------------------------

theorem outcome_noRow (hxs : xs ⊆ supply.known) :
    Outcome D (Collapsed D n) xs [] supply.known (noRow xs, supply) :=
  ⟨.windows windows_noRow, rfl, rfl, hxs, fun _ => id⟩

/-- The new names of the child. -/
theorem ends_renameChild {nb : NormalBindings} (hchild : child.Windows (Bottom D) n)
    (hnames : nb.childNames.Distinguishes child.vars) :
    Ends (fun u => u.Windows (Bottom D) n ∧ u.HasRows D (nb.childNames.applyVars child.vars)
        (Row.renamed D.toInterpretation nb.childNames child.vars (child.rows D)))
      σ.Rejects (nb.renameChild (pushdown σ) child) := by
  refine .ite (fun hempty => ?_) fun _ => ?_
  · obtain ⟨hvars, hrows⟩ := renamed_of_isEmpty (D := D) hempty child
    exact ⟨hchild, hvars.symm, hrows.symm⟩
  · have hdepth : child.size ≤ child.pushdownDepth :=
      (Nat.le_add_right child.size 10).trans child.size_add_lt_pushdownDepth.le
    show Ends _ _ (descendTo σ child.pushdownDepth nb.childNames none true child)
    obtain ⟨u, hdescends, hu⟩ : GivesWindows D n _ _
        (descendTo σ child.pushdownDepth nb.childNames none true child) :=
      hchild.descends hnames hdepth
    rw [hdescends]
    exact hu

/-- A construction over windows, or the windows alone where it would compute and hide nothing. -/
theorem ends_constructOver {nb : NormalBindings} (hchild : child.Windows (Bottom D) n)
    (hcomputes : nb.bindings.Computes projected child.vars)
    (happlied : ∀ x, (nb.bindings.applyVar x).WellApplied) :
    Ends (fun u => u.Collapsed D n ∧
        u.HasRows D projected ((child.rows D).map (D.constructed projected nb.bindings)) ∧
        ∀ known, projected ⊆ known → child.vars ⊆ known → u.knownVars ⊆ known)
      σ.Rejects (nb.constructOver σ projected child) := by
  refine .ite (fun hnothing => ?_) fun _ => (BuildSettings.ends_construct hcomputes).imp ?_
  · obtain ⟨hempty, hvars⟩ := hnothing
    exact ⟨.windows hchild, ⟨hvars, (map_constructed_of_isEmpty hempty hvars).symm⟩,
      fun _ _ h => hchild.knownVars_eq ▸ h⟩
  · rintro _ rfl
    exact ⟨.construct hchild hcomputes happlied, ⟨rfl, rfl⟩,
      fun _ hprojected hvars => knownVars_construct_subset hchild hcomputes hprojected hvars⟩

theorem ends_constructNormally (hchild : child.Windows (Bottom D) n)
    (hbindings : ∀ x ∈ projected, (bindings.applyVar x).vars ⊆ child.vars)
    (happlied : ∀ x, (bindings.applyVar x).WellApplied) (hprojected : projected ⊆ supply.known)
    (hvars : child.vars ⊆ supply.known) :
    Ends (Outcome D (Collapsed D n) projected
        ((child.rows D).map (D.constructed projected bindings)) supply.known)
      σ.Rejects (constructNormally σ (pushdown σ) projected bindings child supply) := by
  have hterms : ∀ x ∈ projected, ((bindings.mapTerms (·.simplify child.nullability)).applyVar x).All
      (· ∈ child.vars) fun f n => f.operation.isArithmetic = true → n = 2 :=
    fun x hx => all_simplified introducible_binary ((happlied x).over (hbindings x hx)) _
  have hnormal := normalized_normalBindings (D := D) (fun x hx => (hterms x hx).vars_mem)
    (namesApart_of_known hprojected hvars)
  refine Rewrite.ends_bind (P := fun r => Normalized D projected child.vars _ r.1 ∧
    r.1.childNames.applyVars child.vars ⊆ r.2.known ∧ supply.known ⊆ r.2.known)
    ⟨hnormal, applyVars_childNames_known hprojected hvars, (supply.known_freshForEach _).1⟩ ?_
  rintro ⟨nb, supply'⟩ ⟨hnormal, hcovers, hgrows⟩
  refine Rewrite.ends_bind (Rewrite.ends_lift (ends_renameChild hchild hnormal.distinguishes) supply') ?_
  rintro ⟨child', _⟩ ⟨⟨hwindows, hchild'⟩, rfl⟩
  dsimp only at hwindows hchild' hnormal hcovers hgrows
  have hcomputes : nb.bindings.Computes projected child'.vars := hchild'.vars ▸ hnormal.computes
  have hnormalApplied (x : Variable) : (nb.bindings.applyVar x).WellApplied := by
    by_cases hx : x ∈ projected
    · exact (hnormal.all hx (hterms x hx)).mono (fun _ _ => trivial) fun _ _ hf => hf
    · rw [hnormal.computes.fixed x hx]
      exact .var trivial
  rw [← hchild'.vars] at hcovers
  refine (Rewrite.ends_lift (ends_constructOver hwindows hcomputes hnormalApplied) _).imp ?_
  rintro ⟨u, _⟩ ⟨⟨hcollapsed, hu, hknown⟩, rfl⟩
  refine ⟨hcollapsed, hu.vars, ?_, ?_, hgrows⟩
  · rw [hu.rows, hchild'.rows, hnormal.rows, map_constructed_simplified hchild.nullabilityHolds
      fun x _ => happlied x]
  · exact hknown _ (fun x hx => hgrows x (hprojected x hx)) hcovers

theorem ends_normalizeConstruct (hchild : child.Collapsed D n)
    (hbindings : bindings.Computes projected child.vars)
    (happlied : ∀ x, (bindings.applyVar x).WellApplied) (hprojected : projected ⊆ supply.known)
    (hknown : child.knownVars ⊆ supply.known) :
    Ends (Outcome D (Collapsed D n) projected
        ((child.rows D).map (D.constructed projected bindings)) supply.known)
      σ.Rejects (normalizeConstruct σ (pushdown σ) projected bindings child supply) := by
  unfold normalizeConstruct
  split
  · exact outcome_noRow hprojected
  · next m xs inner grandchild =>
    cases hchild with
    | windows h => cases h
    | construct h hinner hinnerApplied =>
      have hbindings : ∀ x ∈ projected, (bindings.applyVar x).vars ⊆ xs := hbindings.vars_subset
      have hgrandchild : grandchild.vars ⊆ supply.known := fun x hx =>
        hknown x (SortedSet.subset_union_right x (h.knownVars_eq ▸ hx))
      have hboth : ∀ x ∈ projected,
          ((inner.compose bindings).applyVar x).vars ⊆ grandchild.vars := fun x hx => by
        rw [Substitution.applyVar_compose]
        exact Substitution.vars_apply_subset fun y hy => hinner.vars_subset y (hbindings x hx y hy)
      have hbothApplied (x : Variable) : ((inner.compose bindings).applyVar x).WellApplied := by
        rw [Substitution.applyVar_compose]
        exact (happlied x).apply fun y _ => hinnerApplied y
      rw [rows, ← map_constructed_compose hbindings]
      exact ends_constructNormally h hboth hbothApplied hprojected hgrandchild
  · next hempty hconstruct =>
    cases hchild with
    | construct _ _ _ => exact absurd rfl (hconstruct _ _ _ _)
    | windows h =>
      have hvars : child.vars ⊆ supply.known := h.knownVars_eq ▸ hknown
      split
      · next hnothing =>
        rw [map_constructed_of_isEmpty hnothing.1 hnothing.2]
        exact ⟨.windows h, hnothing.2, rfl, hknown, fun _ => id⟩
      · exact ends_constructNormally h hbindings.vars_subset happlied hprojected hvars

-- ---------------------------------------------------------------------------
-- Windows over windows
-- ---------------------------------------------------------------------------

/-- A window over others: they merge, unless one of them keeps no row or all rows. -/
theorem ends_normalizeSlice_windows (hchild : child.Windows (Bottom D) n) :
    Ends (fun u => u.Windows (Bottom D) (n + 1) ∧
        u.HasRows D child.vars (window.clip (child.rows D))) σ.Rejects
      (normalizeSlice σ window child) := by
  have hslice (window : Window) (t : Tree) : σ.slice window t = .ok (.slice false window t) :=
    build_eq_ok trivial
  refine .ite (fun hzero => ?_) fun hzero => ?_
  · have hnone : window.clip (child.rows D) = [] := by
      rw [Window.clip, hzero]
      exact List.take_zero
    exact ⟨windows_noRow, rfl, hnone.symm⟩
  · split
    · exact ⟨hchild.succ, rfl, window.clip_nil.symm⟩
    · next m inner grandchild =>
      cases hchild with
      | @slice n _ _ _ h =>
        rw [hslice]
        exact ⟨.slice h.succ, rfl, (Window.clip_clip window inner h.length_rows_le).symm⟩
    · cases hchild
    · next m =>
      have hrows : window.clip (rows D (.leaf m .unit))
          = if 0 < window.offset then [] else [Row.blank] := Window.clip_singleton hzero _
      rw [hrows]
      show Ends _ _ (.ok _)
      split
      · exact ⟨windows_noRow, rfl, rfl⟩
      · exact ⟨hchild.succ, rfl, rfl⟩
    · refine .ite (fun hall => ?_) fun _ => ?_
      · exact ⟨hchild.succ, rfl, (Window.clip_of_all hall.1 hall.2).symm⟩
      · rw [hslice]
        exact ⟨.slice hchild, rfl, rfl⟩

/-- A window over a collapsed tree moves below the construction. -/
theorem ends_normalizeSlice (hchild : child.Collapsed D n) (hknown : child.knownVars ⊆ known) :
    Ends (fun u => u.Collapsed D (n + 1) ∧ u.HasRows D child.vars (window.clip (child.rows D)) ∧
        u.knownVars ⊆ known) σ.Rejects
      (normalizeSlice σ window child) := by
  cases hchild with
  | windows h =>
    refine (ends_normalizeSlice_windows h).imp fun u hu => ⟨.windows hu.1, hu.2, ?_⟩
    rw [hu.1.knownVars_eq, hu.2.vars, ← h.knownVars_eq]
    exact hknown
  | @construct m projected bindings grandchild h hbindings happlied =>
    have hslice : σ.slice window grandchild = .ok (.slice false window grandchild) :=
      build_eq_ok trivial
    refine .ite (fun hzero => ?_) fun _ => ?_
    · have hnone : window.clip (rows D (construct m projected bindings grandchild)) = [] := by
        rw [Window.clip, hzero]
        exact List.take_zero
      refine ⟨.windows windows_noRow, ⟨rfl, hnone.symm⟩, fun x hx => hknown x ?_⟩
      exact SortedSet.subset_union_left x (SortedSet.subset_union_left x hx)
    · show Ends _ _ (σ.slice window grandchild >>= σ.construct projected bindings)
      rw [hslice]
      have hcomputes : bindings.Computes projected (slice false window grandchild).vars := hbindings
      refine (BuildSettings.ends_construct hcomputes).imp ?_
      rintro _ rfl
      exact ⟨.construct (.slice h) hbindings happlied, ⟨rfl, (Window.clip_map _).symm⟩, hknown⟩

-- ---------------------------------------------------------------------------
-- Rounds
-- ---------------------------------------------------------------------------

section Rounds

variable {S : Tree → Prop} {step recur : Tree → Rewrite Tree} {push : Pushdown}

/-- The mark of the root is no part of the query. -/
theorem declareNormalized_same (t : Tree) : t.declareNormalized.vars = t.vars ∧
    t.declareNormalized.rows D = t.rows D ∧ t.declareNormalized.knownVars = t.knownVars := by
  cases t <;> exact ⟨rfl, rfl, rfl⟩

theorem Outcome.of_same (h : S t) (hknown : t.knownVars ⊆ supply.known) :
    Outcome D S t.vars (t.rows D) supply.known (t, supply) :=
  ⟨h, rfl, rfl, hknown, fun _ => id⟩

theorem Outcome.declareNormalized {r : Tree × NameSupply} (hmark : ∀ t, S t → S t.declareNormalized)
    (h : Outcome D S xs rows known r) : Outcome D S xs rows known (r.1.declareNormalized, r.2) := by
  obtain ⟨hvars, hrows, hknown⟩ := declareNormalized_same (D := D) r.1
  exact ⟨hmark _ h.shape, hvars.trans h.vars, hrows.trans h.rows, hknown ▸ h.covers, h.grows⟩

theorem Outcome.trans {r r' : Tree × NameSupply} (h : Outcome D S xs rows known r)
    (h' : Outcome D S r.1.vars (r.1.rows D) r.2.known r') : Outcome D S xs rows known r' :=
  ⟨h'.shape, h'.vars.trans h.vars, h'.rows.trans h.rows, h'.covers,
    fun x hx => h'.grows x (h.grows x hx)⟩

/-- Rounds that keep a shape keep it until they settle. -/
theorem ends_settle {Q : Error → Prop} (hmark : ∀ t, S t → S t.declareNormalized)
    (hstep : ∀ t supply, S t → t.knownVars ⊆ supply.known →
      Ends (Outcome D S t.vars (t.rows D) supply.known) Q (step t supply))
    {rounds : Nat} {t : Tree} {supply : NameSupply} (h : S t) (hknown : t.knownVars ⊆ supply.known) :
    Ends (Outcome D S t.vars (t.rows D) supply.known) Q (settle step rounds t supply) := by
  induction rounds generalizing t supply with
  | zero => exact (Outcome.of_same h hknown).declareNormalized hmark
  | succ rounds ih =>
    unfold settle
    split
    · exact .of_same h hknown
    · refine Rewrite.ends_bind (hstep t supply h hknown) fun r hr => ?_
      split
      · exact hr.declareNormalized hmark
      · exact (ih hr.shape hr.covers).imp fun _ hr' => hr.trans hr'

/-- One more level of depth: a first round that comes to a shape, and rounds that keep it. -/
theorem ends_normalizeTo_succ {Q : Error → Prop} (hmark : ∀ t, S t → S t.declareNormalized)
    (hmarked : t.isNormalized = true → S t) (hknown : t.knownVars ⊆ supply.known)
    (hfirst : Ends (Outcome D S t.vars (t.rows D) supply.known) Q
      (round σ push (normalizeTo σ push depth) t supply))
    (hstep : ∀ t supply, S t → t.knownVars ⊆ supply.known →
      Ends (Outcome D S t.vars (t.rows D) supply.known) Q
        (round σ push (normalizeTo σ push depth) t supply)) :
    Ends (Outcome D S t.vars (t.rows D) supply.known) Q (normalizeTo σ push (depth + 1) t supply) := by
  unfold normalizeTo
  split
  · next hnormalized => exact .of_same (hmarked hnormalized) hknown
  · refine Rewrite.ends_bind hfirst fun r hr => ?_
    exact (ends_settle hmark hstep hr.shape hr.covers).imp fun _ hr' => hr.trans hr'

/-- A round over windows, given what becomes of the windows below. -/
theorem ends_round_windows (h : t.Windows (Bottom D) n) (hknown : t.knownVars ⊆ supply.known)
    (hrecur : ∀ k t supply, k < n → t.Windows (Bottom D) k → t.knownVars ⊆ supply.known →
      Ends (Outcome D (Windows (Bottom D) k) t.vars (t.rows D) supply.known) σ.Rejects
        (recur t supply)) :
    Ends (Outcome D (Windows (Bottom D) n) t.vars (t.rows D) supply.known) σ.Rejects
      (round σ push recur t supply) := by
  cases h with
  | leaf h => exact (Outcome.of_same (.leaf h) hknown).declareNormalized fun _ h => h.withMark
  | @slice n m window child h =>
    refine Rewrite.ends_bind (hrecur n child supply (Nat.lt_succ_self n) h hknown) fun r hr => ?_
    refine (Rewrite.ends_lift (ends_normalizeSlice_windows hr.shape) r.2).imp ?_
    rintro ⟨u, _⟩ ⟨⟨hwindows, hu⟩, rfl⟩
    refine ⟨hwindows, hu.vars.trans hr.vars, ?_, ?_, hr.grows⟩
    · rw [hu.rows, hr.rows, rows]
    · rw [hwindows.knownVars_eq, hu.vars, ← hr.shape.knownVars_eq]
      exact hr.covers

theorem ends_normalizeTo_windows (h : t.Windows (Bottom D) n) (hdepth : n < depth)
    (hknown : t.knownVars ⊆ supply.known) :
    Ends (Outcome D (Windows (Bottom D) n) t.vars (t.rows D) supply.known) σ.Rejects
      (normalizeTo σ push depth t supply) := by
  induction depth generalizing n t supply with
  | zero => exact absurd hdepth (Nat.not_lt_zero n)
  | succ depth ih =>
    have hround : ∀ t supply, t.Windows (Bottom D) n → t.knownVars ⊆ supply.known →
        Ends (Outcome D (Windows (Bottom D) n) t.vars (t.rows D) supply.known) σ.Rejects
          (round σ push (normalizeTo σ push depth) t supply) := fun t supply h hknown =>
      ends_round_windows h hknown fun k t supply hk h hknown => ih h (by omega) hknown
    exact ends_normalizeTo_succ (fun _ h => h.withMark) (fun _ => h) hknown
      (hround t supply h hknown) hround

/-- A round over a collapsed tree. -/
theorem ends_round_collapsed (h : t.Collapsed D n) (hdepth : n < depth)
    (hknown : t.knownVars ⊆ supply.known) :
    Ends (Outcome D (Collapsed D n) t.vars (t.rows D) supply.known) σ.Rejects
      (round σ (pushdown σ) (normalizeTo σ (pushdown σ) depth) t supply) := by
  cases h with
  | windows h =>
    have hwindows : Ends (Outcome D (Windows (Bottom D) n) t.vars (t.rows D) supply.known) σ.Rejects
        (round σ (pushdown σ) (normalizeTo σ (pushdown σ) depth) t supply) :=
      ends_round_windows h hknown fun k t supply hk h hknown =>
        ends_normalizeTo_windows h (hk.trans hdepth) hknown
    exact hwindows.imp fun r hr => ⟨.windows hr.shape, hr.vars, hr.rows, hr.covers, hr.grows⟩
  | @construct m projected bindings child h hbindings happlied =>
    obtain ⟨hprojected, hchild⟩ := SortedSet.union_subset_iff.1 hknown
    have hprojected := (SortedSet.union_subset_iff.1 hprojected).1
    refine Rewrite.ends_bind (ends_normalizeTo_windows h hdepth hchild) fun r hr => ?_
    have hconstruct := ends_normalizeConstruct (σ := σ) (.windows hr.shape)
      (hr.vars ▸ hbindings) happlied (fun x hx => hr.grows x (hprojected x hx)) hr.covers
    refine hconstruct.imp fun r' hr' => ⟨hr'.shape, hr'.vars, ?_, hr'.covers, ?_⟩
    · rw [hr'.rows, hr.rows, rows]
    · exact fun x hx => hr'.grows x (hr.grows x hx)

end Rounds

-- ---------------------------------------------------------------------------
-- Towers
-- ---------------------------------------------------------------------------

/-- Windows and constructions over a leaf. Arithmetic within bindings is between two arguments; and
below a node that is marked as normalized there are only windows, as normalization leaves it. -/
inductive TowerOver (l : Leaf) : Tree → Prop
  | leaf {m : Bool} : TowerOver l (.leaf m l)
  | slice {m : Bool} {window : Window} {child : Tree} (h : TowerOver l child)
      (hmark : m = true → ∃ n, child.Windows (· = l) n) : TowerOver l (.slice m window child)
  | construct {m : Bool} {projected : VarSet} {bindings : Substitution} {child : Tree}
      (h : TowerOver l child) (happlied : ∀ x, (bindings.applyVar x).WellApplied)
      (hmark : m = true → ∃ n, child.Windows (· = l) n) :
      TowerOver l (.construct m projected bindings child)

theorem wellApplied_singleton {u : Term} (x : Variable) (hu : u.WellApplied) (z : Variable) :
    ((Substitution.singleton x u).applyVar z).WellApplied := by
  rw [Substitution.applyVar_singleton]
  split
  · exact hu
  · exact .var trivial

variable {l : Leaf}

theorem Windows.bottom (h : t.Windows (· = l) n) (hl : Bottom D l) : t.Windows (Bottom D) t.size :=
  (h.imp fun _ he => he ▸ hl).size

theorem TowerOver.inScope_leaf (h : t.TowerOver l) (hscope : t.InScope) :
    ∃ m, (Tree.leaf m l).RootValid := by
  induction h with
  | leaf => exact ⟨_, Tree.inScope_leaf.1 hscope⟩
  | slice _ _ ih => exact ih (inScope_slice.1 hscope)
  | construct _ _ _ ih => exact ih (inScope_construct.1 hscope).2

/-- A tower collapses, and has the rows that it had. -/
theorem ends_normalizeTo_tower (h : t.TowerOver l) (hl : Bottom D l) (hscope : t.InScope)
    (hdepth : t.size + 2 ≤ depth) (hknown : t.knownVars ⊆ supply.known) :
    Ends (Outcome D (Collapsed D t.size) t.vars (t.rows D) supply.known) σ.Rejects
      (normalizeTo σ (pushdown σ) depth t supply) := by
  induction h generalizing depth supply with
  | leaf =>
    have hdepth := Nat.lt_of_lt_of_le (Nat.succ_pos _) hdepth
    have hwindows : Ends (Outcome D (Windows (Bottom D) 0) _ _ supply.known) σ.Rejects
        (normalizeTo σ (pushdown σ) depth (leaf _ l) supply) :=
      ends_normalizeTo_windows (.leaf hl) hdepth hknown
    exact hwindows.imp fun r hr => ⟨.windows hr.shape.succ, hr.vars, hr.rows, hr.covers, hr.grows⟩
  | @slice m window child _ hmark ih =>
    obtain ⟨depth, rfl⟩ := Nat.exists_eq_succ_of_ne_zero (Nat.ne_zero_of_lt hdepth)
    have hchild := ih (inScope_slice.1 hscope) (Nat.le_of_succ_le_succ hdepth) hknown
    refine ends_normalizeTo_succ (fun _ h => h.withMark) (fun hm => ?_) hknown ?_
      fun t supply h hknown => ends_round_collapsed h (Nat.lt_of_succ_le ?_) hknown
    · obtain ⟨n, hwindows⟩ := hmark hm
      exact .windows (.slice (hwindows.bottom hl))
    · refine Rewrite.ends_bind hchild fun r hr => ?_
      refine (Rewrite.ends_lift (ends_normalizeSlice hr.shape hr.covers) r.2).imp ?_
      rintro ⟨u, _⟩ ⟨⟨hcollapsed, hu, hcovers⟩, rfl⟩
      exact ⟨hcollapsed, hu.vars.trans hr.vars, by rw [hu.rows, hr.rows, rows], hcovers, hr.grows⟩
    · exact Nat.le_of_succ_le_succ hdepth
  | @construct m projected bindings child _ happlied hmark ih =>
    obtain ⟨depth, rfl⟩ := Nat.exists_eq_succ_of_ne_zero (Nat.ne_zero_of_lt hdepth)
    obtain ⟨hbindings, hscope⟩ := inScope_construct.1 hscope
    obtain ⟨hprojected, hchildKnown⟩ := SortedSet.union_subset_iff.1 hknown
    have hprojected := (SortedSet.union_subset_iff.1 hprojected).1
    have hchild := ih hscope (Nat.le_of_succ_le_succ hdepth) hchildKnown
    refine ends_normalizeTo_succ (fun _ h => h.withMark) (fun hm => ?_) hknown ?_
      fun t supply h hknown => ends_round_collapsed h (Nat.lt_of_succ_le ?_) hknown
    · obtain ⟨n, hwindows⟩ := hmark hm
      exact .construct (hwindows.bottom hl).succ hbindings happlied
    · refine Rewrite.ends_bind hchild fun r hr => ?_
      have hconstruct := ends_normalizeConstruct (σ := σ) hr.shape (hr.vars ▸ hbindings) happlied
        (fun x hx => hr.grows x (hprojected x hx)) hr.covers
      refine hconstruct.imp fun r' hr' => ⟨hr'.shape.succ, hr'.vars, ?_, hr'.covers, ?_⟩
      · rw [hr'.rows, hr.rows, rows]
      · exact fun x hx => hr'.grows x (hr.grows x hx)
    · exact Nat.le_of_succ_le_succ hdepth

/-- A tower of windows and constructions over an atom or the single row is normalized to a tree that
returns its rows in their order, whatever the offsets and limits are, as long as no more rows are read
than an offset can skip. In test mode a clash of names may be reported instead. -/
theorem normalize_tower_rows (h : t.TowerOver l) (hl : l = .unit ∨ ∃ atom, l = .extensional atom)
    (hvalid : t.validate = .ok ()) (hrows : (D.leafRows l).length < UInt64.size)
    (hknown : t.knownVars ⊆ supply.known) :
    Ends (fun r => r.1.vars = t.vars ∧ r.1.rows D = t.rows D)
      (fun e => σ.testMode = true ∧ e.IsNameClash) (t.normalize σ supply) := by
  have hscope := (validate_eq_ok.1 hvalid).inScope
  have hbottom : Bottom D l := by
    refine ⟨Nat.le_pred_of_lt hrows, ?_⟩
    obtain ⟨m, hleaf⟩ := h.inScope_leaf hscope
    rcases hl with rfl | ⟨atom, rfl⟩
    · trivial
    · exact hleaf
  have hdepth : t.size + 2 ≤ t.pushdownDepth :=
    (Nat.add_le_add_left (by decide) t.size).trans t.size_add_lt_pushdownDepth.le
  exact (ends_normalizeTo_tower h hbottom hscope hdepth hknown).imp fun r hr => ⟨hr.vars, hr.rows⟩

/-- Two windows that meet below a construction, which hides the column that it is computed from. -/
theorem normalize_tower_rows_of_construct :
    let r : Relation := ⟨"r", [⟨"a", .integer, false⟩], []⟩
    let D := Database.ofTable r [[.integer 1], [.integer 2], [.integer 3], [.integer 4], [.integer 5]]
      (by decide) (by decide) (by decide)
    let y : Variable := ⟨"y"⟩
    let t : Tree := .slice false ⟨1, some 7⟩ (.construct false (.singleton y)
      (.singleton y (.app ⟨.db "f", 1⟩ [.var ⟨"x"⟩])) (.slice false ⟨1, some 3⟩
        (.leaf false (.extensional ⟨r, [.var ⟨"x"⟩]⟩))))
    t.validate = .ok () ∧ ∃ u, t.normalize ⟨false⟩ (.ofKnown t.knownVars) = .ok u ∧
      (u.1.rows D).length = 2 := by
  intro r D y t
  have hvalid : t.validate = .ok () := by decide +kernel
  have happlied : (Term.app ⟨.db "f", 1⟩ [.var ⟨"x"⟩]).WellApplied :=
    .app nofun (List.forall_mem_singleton.2 (.var trivial))
  have htower : t.TowerOver (.extensional ⟨r, [.var ⟨"x"⟩]⟩) :=
    .slice (.construct (.slice .leaf nofun) (wellApplied_singleton y happlied) nofun) nofun
  have hlength : (t.rows D).length = 2 := by decide +kernel
  have hfew : (D.leafRows (.extensional ⟨r, [.var ⟨"x"⟩]⟩)).length < UInt64.size := by decide +kernel
  refine ⟨hvalid, ?_⟩
  -- from here on the tree is any one with these properties
  clear_value t
  have hknown : t.knownVars ⊆ (NameSupply.ofKnown t.knownVars).known := fun _ => id
  obtain ⟨u, hu, -, hrows⟩ := (normalize_tower_rows (σ := ⟨false⟩) htower (.inr ⟨_, rfl⟩) hvalid hfew
    hknown).exists_ok fun _ he => Bool.false_ne_true he.1
  exact ⟨u, hu, hrows ▸ hlength⟩

/-- In test mode the names of two constructions that meet do clash at times: while they are merged, one
is built that binds `v` to the new name of a column that the other one hides. -/
theorem not_normalize_tower :
    let r : Relation := ⟨"r", [⟨"a", .integer, false⟩], []⟩
    let v : Variable := ⟨"v"⟩
    let y : Variable := ⟨"y"⟩
    let atom : Atom Relation := ⟨r, [.var y]⟩
    let t : Tree := .slice false ⟨1, some 3⟩ (.construct false (.ofList [v, y])
      (.singleton y (.const (.integer 5))) (.construct false (.ofList [v, y])
        (.singleton v (.var y)) (.slice false ⟨1, some 5⟩ (.leaf false (.extensional atom)))))
    t.TowerOver (.extensional atom) ∧ t.validate = .ok () ∧
      (t.normalize ⟨true⟩ (.ofKnown t.knownVars)).isOk = false := by
  intro r v y atom t
  have htower : t.TowerOver (.extensional atom) :=
    .slice (.construct (.construct (.slice .leaf nofun) (wellApplied_singleton v (.var trivial)) nofun)
      (wellApplied_singleton y .const) nofun) nofun
  exact ⟨htower, by decide +kernel, by decide +kernel⟩

end Tree

end QueryAlgebra
