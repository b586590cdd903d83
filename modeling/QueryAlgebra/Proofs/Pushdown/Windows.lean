import QueryAlgebra.Proofs.Pushdown
import QueryAlgebra.Tree.Normal.Join
import QueryAlgebra.Tree.Normal.Modifiers

/-!
# Pushing into windows

A substitution that is pushed into a window goes on into what the window is taken of, and so selects
rows before they are counted off. What comes out is the window of the selected rows, in their order
(`Tree.DescendsInOrder`). The selected rows of the window are the same where the substitution
rejects none of the rows that the window reaches: then none moves up into the place of another one
(`Window.clip_filter_of_reached`). Renaming columns rejects no row, so it may always go on.

A filter and a join split equalities off their conditions and push them in the same way. What they keep
has the images of the selected rows, put back above (`Tree.gives_restored`).

Main statements: `Tree.descend_slice_rows` — what a substitution makes of a window, and what a filter and
a join above it return;
`Tree.not_descend_slice_rows` — a row beyond the window that takes the place of a rejected one.
-/

namespace QueryAlgebra

-- ---------------------------------------------------------------------------
-- Selecting within a window
-- ---------------------------------------------------------------------------

namespace Window

variable {α β : Type} {window : Window} {as : List α}

/-- The elements up to the end of a window; where it has no end, those that it skips. -/
def reached (window : Window) (as : List α) : List α :=
  as.take (window.offset + window.limit?.getD 0)

theorem clip_map (f : α → β) : window.clip (as.map f) = (window.clip as).map f := by
  unfold clip
  split
  · rw [List.map_drop]
  · rw [List.map_take, List.map_drop]

/-- What a window makes of a list that goes on, once it is full. -/
theorem clip_append_of_full {bs : List α}
    (h : window.offset + window.limit?.getD 0 ≤ as.length) :
    window.clip (as ++ bs)
      = window.clip as ++ if window.limit?.isSome then [] else bs := by
  obtain ⟨offset, limit?⟩ := window
  cases limit? with
  | none =>
    simp only [Option.getD_none, Nat.add_zero] at h
    simp [clip, List.drop_append_of_le_length h]
  | some limit =>
    simp only [Option.getD_some] at h
    have hdropped : limit ≤ (as.drop offset).length := by
      rw [List.length_drop]
      omega
    simp [clip, List.drop_append_of_le_length (show offset ≤ as.length by omega),
      List.take_append_of_le_length hdropped]

/-- Where none of the elements that a window reaches is rejected, selecting before the window is
taken and selecting after it come to the same. -/
theorem clip_filter_of_reached {p : α → Bool} (h : ∀ a ∈ window.reached as, p a = true) :
    window.clip (as.filter p) = (window.clip as).filter p := by
  have hreached : (window.reached as).filter p = window.reached as := List.filter_eq_self.2 h
  have hclipped : (window.clip (window.reached as)).filter p = window.clip (window.reached as) :=
    List.filter_eq_self.2 fun a ha => h a (mem_of_mem_clip ha)
  have hsplit : window.reached as ++ as.drop (window.offset + window.limit?.getD 0) = as :=
    List.take_append_drop _ _
  by_cases hfull : window.offset + window.limit?.getD 0 ≤ as.length
  · have hlength : window.offset + window.limit?.getD 0 ≤ (window.reached as).length := by
      rw [reached, List.length_take]
      omega
    have hkept : (as.filter p)
        = window.reached as
          ++ (as.drop (window.offset + window.limit?.getD 0)).filter p := by
      conv_lhs => rw [← hsplit, List.filter_append, hreached]
    conv_rhs => rw [← hsplit]
    rw [hkept, clip_append_of_full hlength, clip_append_of_full hlength, List.filter_append,
      hclipped]
    cases window.limit? <;> rfl
  · have hall : window.reached as = as := List.take_of_length_le (by omega)
    rw [hall] at hreached hclipped
    rw [hreached, hclipped]

end Window

-- ---------------------------------------------------------------------------
-- Windows of trees
-- ---------------------------------------------------------------------------

namespace Tree

variable {D : Database} {σ : BuildSettings} {s : Substitution} {window : Window} {child t : Tree}
  {ts us : List Tree} {constraint? : Option Expression} {optimize m : Bool} {depth : Nat}

/-- The computation gives a tree over `xs` that returns the rows in this order. -/
def Gives (D : Database) (xs : VarSet) (rows : List Row) (x : Except Error Tree) : Prop :=
  ∃ u, x = .ok u ∧ u.HasRows D xs rows

/-- What a substitution makes of the tree returns the images of its rows, in their order. -/
def DescendsInOrder (D : Database) (σ : BuildSettings) (depth : Nat) (s : Substitution)
    (optimize : Bool) (t : Tree) : Prop :=
  Gives D (s.applyVars t.vars)
    (((t.rows D).filter fun ρ => ρ.Meets s t.vars).map (Row.image s t.vars))
    (descendTo σ depth s none optimize t)

/-- A node that lets no constraint through gives rows in the order in which its kind gives them. -/
theorem gives_descendNode {below : Pushdown} {rows : List Row} (hs : s.Flat)
    (hnative : ∀ m q, t ≠ leaf m (.native q))
    (hpropagate : ∀ constraint, below.propagate constraint t = .ok t)
    (hnull : ∀ x ∈ t.vars, s.applyVar x = .const .null → rows = [])
    (hfixed : (∀ x ∈ t.vars, s.applyVar x = .var x) → rows = t.rows D)
    (hroot : Gives D (s.applyVars t.vars) rows
      (descendRoot σ below (s.restrict t.vars) constraint? optimize t)) :
    Gives D (s.applyVars t.vars) rows (descendNode σ below s constraint? optimize t) := by
  have hsame (h : ∀ x ∈ t.vars, s.applyVar x = .var x) :
      Gives D (s.applyVars t.vars) rows (.ok t) :=
    ⟨t, rfl, (Substitution.applyVars_of_fixed h).symm, (hfixed h).symm⟩
  refine descendNode_rule hs hnative (fun x hx h => ?_) hsame (fun h constraint _ => ?_)
    fun _ => hroot
  · exact ⟨noRow _, rfl, rfl, (hnull x hx h).symm⟩
  · rw [hpropagate]
    exact hsame h

/-- A well-formed atom of the database matches the images of its rows in their order. -/
theorem gives_descend_extensional {atom : Atom Relation} (m : Bool) (constraint? : Option Expression)
    (hs : s.Flat) (h : atom.isWellFormed = true) :
    Gives D (s.applyVars atom.vars)
      ((((leaf m (.extensional atom)).rows D).filter fun ρ => ρ.Meets s atom.vars).map
        (Row.image s atom.vars))
      (descendTo σ (depth + 2) s constraint? optimize (leaf m (.extensional atom))) := by
  rw [← Row.renamed_eq (I := D.toInterpretation) hs]
  refine gives_descendNode hs nofun (fun _ => rfl) (fun x hx hnull => ?_) (fun hfixed => ?_) ?_
  · exact Row.renamed_of_null hs hx hnull _
  · exact (renamed_of_fixed hfixed hs).2
  · rw [← Substitution.applyVars_restrict, ← Row.renamed_restrict hs]
    have himages := computes_extensional (D := D) (f := .inner) (m := m) (hs.restrict atom.vars) h
    exact ⟨_, rfl, himages.vars, himages.rows⟩

theorem descendsInOrder_extensional {atom : Atom Relation} (hs : s.Flat)
    (h : atom.isWellFormed = true) :
    (leaf m (.extensional atom)).DescendsInOrder D σ (depth + 2) s optimize :=
  gives_descend_extensional m none hs h

/-- What is pushed into a tree only matters on the variables of the tree. -/
theorem descendTo_restrict (s : Substitution) (t : Tree) :
    descendTo σ depth (s.restrict t.vars) constraint? optimize t
      = descendTo σ depth s constraint? optimize t := by
  cases depth with
  | zero => rfl
  | succ depth =>
    have hsame : (s.restrict t.vars).restrict t.vars = s.restrict t.vars :=
      Substitution.ext_applyVar fun x => by
        rw [Substitution.applyVar_restrict]
        split
        · rfl
        · next hx => rw [Substitution.applyVar_restrict, if_neg hx]
    unfold descendTo descendNode
    rw [hsame]

/-- What is pushed into a window goes on into what the window is taken of. -/
theorem gives_descend_slice (m : Bool) (window : Window) (constraint? : Option Expression)
    (hs : s.Flat)
    (hchild : child.DescendsInOrder D σ (depth + 1) s optimize) :
    Gives D (s.applyVars child.vars)
      ((window.clip ((child.rows D).filter fun ρ => ρ.Meets s child.vars)).map
        (Row.image s child.vars))
      (descendTo σ (depth + 2) s constraint? optimize (slice m window child)) := by
  have himages : Row.renamed D.toInterpretation s child.vars (child.rows D)
      = ((child.rows D).filter fun ρ => ρ.Meets s child.vars).map (Row.image s child.vars) :=
    Row.renamed_eq hs _
  rw [← Window.clip_map, ← himages]
  refine gives_descendNode hs nofun (fun _ => rfl) (fun x hx hnull => ?_) (fun hfixed => ?_) ?_
  · have hx : x ∈ child.vars := hx
    rw [Row.renamed_of_null hs hx hnull]
    exact List.sublist_nil.1 (window.clip_sublist [])
  · have hfixed : ∀ x ∈ child.vars, s.applyVar x = .var x := hfixed
    rw [(renamed_of_fixed hfixed hs).2, rows]
  · obtain ⟨child', hok, hchild'⟩ := hchild
    have hbelow : descendTo σ (depth + 1) (s.restrict child.vars) none optimize child = .ok child' :=
      (descendTo_restrict s child).trans hok
    refine ⟨slice false window child', ?_, hchild'.vars, ?_⟩
    · show (descendTo σ (depth + 1) (s.restrict child.vars) none optimize child >>= σ.slice window) = _
      rw [hbelow]
      exact build_eq_ok trivial
    · rw [rows, hchild'.rows, himages]

-- ---------------------------------------------------------------------------
-- Selected rows
-- ---------------------------------------------------------------------------

/-- The window at the root; what is not a window is taken whole. -/
def rootWindow : Tree → Window
  | slice _ window _ => window
  | _ => ⟨0, none⟩

/-- What the window at the root is taken of. -/
def belowWindow : Tree → Tree
  | slice _ _ child => child
  | t => t

@[simp] theorem vars_belowWindow (t : Tree) : t.belowWindow.vars = t.vars := by
  cases t <;> rfl

@[simp] theorem nullability_belowWindow (t : Tree) : t.belowWindow.nullability = t.nullability := by
  cases t <;> rfl

theorem rows_eq_clip (t : Tree) : t.rows D = t.rootWindow.clip (t.belowWindow.rows D) := by
  cases t with
  | slice m window child => rw [rows]; rfl
  | _ => rfl

/-- The rows of a window once a substitution has selected among those that it is taken of. -/
def selectedRows (D : Database) (s : Substitution) (t : Tree) : List Row :=
  t.rootWindow.clip ((t.belowWindow.rows D).filter fun ρ => ρ.Meets s t.vars)

/-- The substitution rejects none of the rows that the window at the root reaches. -/
def ReachesSelected (D : Database) (s : Substitution) (t : Tree) : Prop :=
  ∀ ρ ∈ t.rootWindow.reached (t.belowWindow.rows D), ρ.Meets s t.vars

instance : Decidable (t.ReachesSelected D s) :=
  inferInstanceAs (Decidable (∀ ρ ∈ t.rootWindow.reached (t.belowWindow.rows D), ρ.Meets s t.vars))

theorem ReachesSelected.selectedRows_eq (h : t.ReachesSelected D s) :
    t.selectedRows D s = (t.rows D).filter fun ρ => ρ.Meets s t.vars := by
  rw [selectedRows, Window.clip_filter_of_reached fun ρ hρ => decide_eq_true (h ρ hρ), ← rows_eq_clip]

theorem mem_belowWindow_of_selected {ρ : Row} (h : ρ ∈ t.selectedRows D s) :
    ρ ∈ t.belowWindow.rows D ∧ ρ.Meets s t.vars := by
  have hmem := List.mem_filter.1 (Window.mem_of_mem_clip h)
  exact ⟨hmem.1, of_decide_eq_true hmem.2⟩

/-- Each selected row has an image. -/
theorem renamed_selectedRows (hs : s.Flat) :
    Row.renamed D.toInterpretation s t.vars (t.selectedRows D s)
      = (t.selectedRows D s).map (Row.image s t.vars) := by
  have hall : (t.selectedRows D s).filter (fun ρ => ρ.Meets s t.vars) = t.selectedRows D s :=
    List.filter_eq_self.2 fun ρ hρ => decide_eq_true (mem_belowWindow_of_selected hρ).2
  rw [Row.renamed_eq hs, hall]

theorem nullabilityHolds_of_belowWindow (h : t.belowWindow.NullabilityHolds D) :
    t.NullabilityHolds D where
  scope := by simpa using h.scope
  groups := by simpa using h.groups
  admits ρ hρ := by
    rw [rows_eq_clip] at hρ
    simpa using h.admits ρ (Window.mem_of_mem_clip hρ)

theorem supported_and_admits_of_rows (h : t.belowWindow.NullabilityHolds D) {ρ : Row}
    (hρ : ρ ∈ t.rows D) : ρ.Supported t.vars ∧ t.nullability.Admits ρ :=
  ⟨rows_supported t ρ hρ, (nullabilityHolds_of_belowWindow h).admits ρ hρ⟩

theorem supported_and_admits_of_selected (h : t.belowWindow.NullabilityHolds D) {ρ : Row}
    (hρ : ρ ∈ t.selectedRows D s) : ρ.Supported t.vars ∧ t.nullability.Admits ρ := by
  obtain ⟨hbelow, -⟩ := mem_belowWindow_of_selected hρ
  rw [← vars_belowWindow, ← nullability_belowWindow]
  exact ⟨rows_supported _ ρ hbelow, h.admits ρ hbelow⟩

/-- The joined selected rows. -/
def selectedJoinRows (D : Database) (s : Substitution) : List Tree → List Row
  | [] => [.blank]
  | t :: ts => Row.joinPairs t.vars (varsOf ts) (t.selectedRows D s) (selectedJoinRows D s ts)

/-- They are among the rows that are joined without the windows. -/
theorem mem_joinRows_of_selected {ρ : Row} (h : ρ ∈ selectedJoinRows D s ts) :
    ρ ∈ joinRows D (ts.map belowWindow) := by
  induction ts generalizing ρ with
  | nil => exact h
  | cons t ts ih =>
    obtain ⟨ν, hν, τ, hτ, hjoins, rfl⟩ := Row.mem_joinPairs.1 h
    have hvars : varsOf (ts.map belowWindow) = varsOf ts :=
      varsOf_congr (List.forall₂_map_right_iff.2 (List.forall₂_same.2 fun u _ => vars_belowWindow u))
    rw [List.map_cons, joinRows, vars_belowWindow, hvars]
    exact Row.mem_joinPairs.2 ⟨ν, (mem_belowWindow_of_selected hν).1, τ, ih hτ, hjoins, rfl⟩

theorem supported_selectedJoinRows {ρ : Row} (h : ρ ∈ selectedJoinRows D s ts) :
    ρ.Supported (varsOf ts) := by
  have hvars : varsOf (ts.map belowWindow) = varsOf ts :=
    varsOf_congr (List.forall₂_map_right_iff.2 (List.forall₂_same.2 fun u _ => vars_belowWindow u))
  exact hvars ▸ supported_joinRows _ ρ (mem_joinRows_of_selected h)

theorem admits_selectedJoinRows (hts : ∀ t ∈ ts, t.belowWindow.NullabilityHolds D) {ρ : Row}
    (h : ρ ∈ selectedJoinRows D s ts) : (joinedNullability ts).Admits ρ := by
  have hsame : joinedNullability (ts.map belowWindow) = joinedNullability ts := by
    simp [joinedNullability, Function.comp_def]
  rw [← hsame]
  exact admits_joined (List.forall_mem_map.2 hts) (mem_joinRows_of_selected h)

/-- Joined images of selected rows are the images of the joined selected rows. -/
theorem joinRows_selected_images (hs : s.Flat)
    (h : List.Forall₂ (fun t u => u.HasRows D (s.applyVars t.vars)
      ((t.selectedRows D s).map (Row.image s t.vars))) ts us) :
    joinRows D us
      = Row.renamed D.toInterpretation s (varsOf ts) (selectedJoinRows D s ts) := by
  induction h with
  | nil => exact (renamed_joinRows_nil hs).symm
  | cons htu hrest ih =>
    rw [joinRows, selectedJoinRows, varsOf, Row.renamed_joinPairs hs, htu.vars, htu.rows,
      varsOf_images (hrest.imp fun _ _ h => h.vars), renamed_selectedRows hs, ih]

/-- Where every row that the window reaches is selected, the selected rows have the images of all. -/
theorem ReachesSelected.renamed_eq (h : t.ReachesSelected D s) (hs : s.Flat) :
    Row.renamed D.toInterpretation s t.vars (t.selectedRows D s)
      = Row.renamed D.toInterpretation s t.vars (t.rows D) := by
  rw [renamed_selectedRows hs, h.selectedRows_eq, Row.renamed_eq hs]

theorem renamed_selectedJoinRows (hs : s.Flat) (h : ∀ t ∈ ts, t.ReachesSelected D s) :
    Row.renamed D.toInterpretation s (varsOf ts) (selectedJoinRows D s ts)
      = Row.renamed D.toInterpretation s (varsOf ts) (joinRows D ts) := by
  induction ts with
  | nil => rfl
  | cons t ts ih =>
    rw [List.forall_mem_cons] at h
    rw [joinRows, selectedJoinRows, varsOf, Row.renamed_joinPairs hs, Row.renamed_joinPairs hs,
      h.1.renamed_eq hs, ih h.2]

-- ---------------------------------------------------------------------------
-- Conditions above windows
-- ---------------------------------------------------------------------------

/-- A tree that no constraint gets into only learns the equalities. -/
theorem pushSplit_eq_descend (own : SplitCondition) (told? : Option Expression)
    (hnative : ∀ m q, t ≠ leaf m (.native q))
    (hpropagate : ∀ depth constraint, propagateTo σ (depth + 1) constraint t = .ok t) :
    Pushdown.pushSplit ⟨descendTo σ (depth + 2), propagateTo σ (depth + 2)⟩ own told? t
      = descendTo σ (depth + 2) own.equalities told? true t := by
  by_cases hempty : own.equalities.isEmpty = true
  · have hsame : Pushdown.pushSplit ⟨descendTo σ (depth + 2), propagateTo σ (depth + 2)⟩ own told? t
        = .ok t := by
      unfold Pushdown.pushSplit
      rw [hempty]
      cases told? with
      | none => rfl
      | some told => exact hpropagate (depth + 1) told
    have hfixed := Substitution.applyVar_of_isEmpty hempty
    have hflat : own.equalities.Flat := fun x => by
      rw [hfixed x]
      rfl
    refine descendNode_rule hflat hnative (fun x _ hnull => ?_) (fun _ => hsame)
      (fun _ constraint _ => hsame.trans (hpropagate depth constraint).symm)
      fun hbinds => absurd (fun x _ => hfixed x) hbinds
    rw [hfixed x] at hnull
    cases hnull
  · exact if_pos (by simpa using hempty)

/-- What a split condition pushes into the tree returns the images of the selected rows, in order. -/
def PushesInOrder (D : Database) (σ : BuildSettings) (depth : Nat) (own : SplitCondition) (t : Tree) :
    Prop :=
  Gives D (own.equalities.applyVars t.vars)
    ((t.selectedRows D own.equalities).map (Row.image own.equalities t.vars))
    (Pushdown.pushSplit ⟨descendTo σ (depth + 2), propagateTo σ (depth + 2)⟩ own own.residual? t)

theorem pushesInOrder_slice {own : SplitCondition} (m : Bool) (window : Window) (hs : own.equalities.Flat)
    (hchild : child.DescendsInOrder D σ (depth + 1) own.equalities true) :
    (slice m window child).PushesInOrder D σ depth own := by
  unfold PushesInOrder
  rw [pushSplit_eq_descend (t := slice m window child) own _ nofun fun _ _ => rfl]
  exact gives_descend_slice m window own.residual? hs hchild

/-- A well-formed atom of the database matches the images of its rows, whatever it is told. -/
theorem pushesInOrder_extensional {own : SplitCondition} {atom : Atom Relation}
    (hs : own.equalities.Flat) (h : atom.isWellFormed = true) :
    (leaf m (.extensional atom)).PushesInOrder D σ depth own := by
  unfold PushesInOrder
  rw [pushSplit_eq_descend (t := leaf m (.extensional atom)) own _ nofun fun _ _ => rfl]
  exact gives_descend_extensional m own.residual? hs h

variable {own : SplitCondition} {n : Nullability} {xs : VarSet} {rows : List Row}
  {condition? : Option Expression}

/-- Equalities that were pushed below a condition come back above what the rest of it selects. -/
theorem gives_restored (hsplits : own.Splits D.toInterpretation n xs condition?)
    (hrows : ∀ ρ ∈ rows, ρ.Supported xs) (hadmits : ∀ ρ ∈ rows, n.Admits ρ)
    (ht : t.HasRows D (own.equalities.applyVars xs)
      ((Row.renamed D.toInterpretation own.equalities xs rows).filter
        fun ρ => D.HoldsOptional ρ own.residual?)) :
    Gives D xs (rows.filter fun ρ => D.HoldsOptional ρ condition?)
      (σ.restoreEqualities xs own.equalities t) := by
  have hsolved := hsplits.solved
  have hok : ∃ u, σ.restoreEqualities xs own.equalities t = .ok u := by
    unfold BuildSettings.restoreEqualities
    split
    · exact ⟨t, rfl⟩
    · refine ⟨_, build_eq_ok ⟨?_, hsolved.disjoint, ?_, ?_⟩⟩
      · exact Substitution.domain_subset_of_fixed hsolved.fixed
      · exact fun x y hxy => hsolved.range x
          (Substitution.domain_subset_of_fixed hsolved.fixed x (Substitution.mem_domain.2 ⟨_, hxy⟩)) y
          (Substitution.applyVar_of_find? hxy)
      · rw [ht.vars]
        exact requiredVars_subset hsolved.fixed fun x hx y hy =>
          Substitution.mem_applyVars.2 ⟨x, hx, hy⟩
  obtain ⟨u, hu⟩ := hok
  refine ⟨u, hu, ?_⟩
  rw [hsplits.filter_eq hrows hadmits]
  exact BuildSettings.hasRows_restoreEqualities ht u hu

theorem splits_of_split (hcondition : ∀ c ∈ condition?, c.AdmissibleOver xs)
    (hsplit : Condition.split condition? n = .ok own) :
    own.Splits D.toInterpretation n xs condition? := by
  have hspec := Condition.split_spec (I := D.toInterpretation) (n := n) hcondition
  rwa [hsplit] at hspec

theorem gives_filterOptional (hcondition : ∀ c ∈ condition?, c.AdmissibleOver xs)
    (ht : t.HasRows D xs rows) :
    Gives D xs (rows.filter fun ρ => D.HoldsOptional ρ condition?) (σ.filterOptional condition? t) := by
  have hok : ∃ u, σ.filterOptional condition? t = .ok u := by
    cases condition? with
    | none => exact ⟨t, rfl⟩
    | some condition =>
      have hvalid : (filter false condition t).RootValid := by
        rw [RootValid, ht.vars]
        exact (hcondition condition rfl).vars_subset
      exact ⟨_, build_eq_ok hvalid⟩
  obtain ⟨u, hu⟩ := hok
  exact ⟨u, hu, BuildSettings.hasRows_filterOptional ht u hu⟩

/-- A filter above a window pushes the equalities of its condition below the window: it keeps the
rows that satisfy the condition within the window of the rows that satisfy the equalities. -/
theorem gives_normalizeFilter_slice {condition : Expression} (m : Bool) (window : Window)
    (hcondition : condition.AdmissibleOver child.vars) (hadmits : child.NullabilityHolds D)
    (hsplit : Condition.split (some condition) child.nullability = .ok own)
    (hchild : child.DescendsInOrder D σ (depth + 1) own.equalities true) :
    Gives D child.vars
      (((slice m window child).selectedRows D own.equalities).filter
        fun ρ => D.HoldsOptional ρ (some condition))
      (normalizeFilter σ ⟨descendTo σ (depth + 2), propagateTo σ (depth + 2)⟩ condition
        (slice m window child)) := by
  have hsplits : own.Splits D.toInterpretation child.nullability child.vars (some condition) :=
    splits_of_split (by rintro _ ⟨⟩; exact hcondition) hsplit
  have hflat := hsplits.solved.flat
  obtain ⟨child', hpush, hchild'⟩ := pushesInOrder_slice m window hflat hchild
  rw [← renamed_selectedRows hflat] at hchild'
  obtain ⟨filtered, hfilter, hfiltered⟩ := gives_filterOptional (σ := σ) hsplits.residual hchild'
  have hnull : (slice m window child).nullability = child.nullability := rfl
  show Gives D child.vars _ (propagateFilter _ _ none condition (slice m window child))
  unfold propagateFilter
  dsimp only
  rw [hnull, hsplit]
  show Gives D child.vars _ (Pushdown.pushSplit _ own own.residual? (slice m window child) >>=
    fun child' => σ.filterOptional own.residual? child' >>=
      σ.restoreEqualities child.vars own.equalities)
  rw [hpush]
  show Gives D child.vars _ (σ.filterOptional own.residual? child' >>= _)
  rw [hfilter]
  refine gives_restored hsplits (fun ρ hρ => ?_) (fun ρ hρ => ?_) hfiltered
  · exact rows_supported child ρ (mem_belowWindow_of_selected hρ).1
  · exact hadmits.admits ρ (mem_belowWindow_of_selected hρ).1

/-- A join of these trees has nothing left to do but to split its condition. -/
structure JoinsPlainly (ts : List Tree) : Prop where
  several : 2 ≤ ts.length
  plain : ∀ t ∈ ts, t.isEmpty = false ∧ t.isAbsorbed = false ∧ t.isAggregation = false
  lifted : liftable? ts = none

theorem JoinsPlainly.normalizeJoin_eq (h : JoinsPlainly ts) (push : Pushdown) :
    normalizeJoin σ push condition? ts = liftM (propagateJoin σ push none condition? ts) := by
  have hempty : ¬ts.any isEmpty = true := by
    simpa using fun t ht => (h.plain t ht).1
  have habsorbed : ¬ts.any isAbsorbed = true := by
    simpa using fun t ht => (h.plain t ht).2.1
  rw [normalizeJoin, if_neg hempty, if_neg habsorbed, h.lifted]

/-- A join above windows pushes the equalities of its condition below the windows: it joins the rows
within the windows of those that satisfy the equalities. -/
theorem gives_propagateJoin (hjoin : JoinsPlainly ts)
    (hcondition : ∀ c ∈ condition?, c.AdmissibleOver (varsOf ts))
    (hadmits : ∀ t ∈ ts, t.belowWindow.NullabilityHolds D)
    (hsplit : Condition.split condition? (joinedNullability ts) = .ok own)
    (hts : ∀ t ∈ ts, t.PushesInOrder D σ depth own) :
    Gives D (varsOf ts)
      ((selectedJoinRows D own.equalities ts).filter fun ρ => D.HoldsOptional ρ condition?)
      (propagateJoin σ ⟨descendTo σ (depth + 2), propagateTo σ (depth + 2)⟩ none condition? ts) := by
  have hsplits := splits_of_split (D := D) hcondition hsplit
  have hflat := hsplits.solved.flat
  have hpushed := Except.Ends.mapM fun t ht => Except.ends_false_iff.2 (hts t ht)
  obtain ⟨us, hpush, hus⟩ := Except.ends_false_iff.1 hpushed
  have hvars : varsOf us = own.equalities.applyVars (varsOf ts) :=
    varsOf_images (hus.imp fun _ _ h => h.vars)
  have hvalid : (join false own.residual? us).RootValid := by
    refine ⟨hus.length_eq ▸ hjoin.several, ?_⟩
    rw [hvars]
    cases hresidual : own.residual? with
    | none => exact fun x hx => absurd hx (SortedSet.not_mem_empty x)
    | some e => exact (hsplits.residual e hresidual).vars_subset
  have hjoined : (join false own.residual? us).HasRows D (own.equalities.applyVars (varsOf ts))
      ((Row.renamed D.toInterpretation own.equalities (varsOf ts)
        (selectedJoinRows D own.equalities ts)).filter fun ρ => D.HoldsOptional ρ own.residual?) := by
    refine ⟨hvars, ?_⟩
    rw [rows, joinRows_selected_images hflat hus]
  unfold propagateJoin
  simp only [hsplit, keepAggregateEqualities_of_none fun t ht => (hjoin.plain t ht).2.2]
  show Gives D (varsOf ts) _ (ts.mapM (Pushdown.pushSplit _ own own.residual?) >>= fun us =>
    σ.joinOf own.residual? us >>= σ.restoreEqualities (varsOf ts) own.equalities)
  rw [hpush]
  show Gives D (varsOf ts) _ (σ.joinOf own.residual? us >>= _)
  rw [joinOf_eq_ok hvalid]
  exact gives_restored hsplits (fun ρ => supported_selectedJoinRows)
    (fun ρ => admits_selectedJoinRows hadmits) hjoined

/-- A condition selects the same of rows that have the same images under its equalities. -/
theorem filter_eq_of_renamed {rows' : List Row} (hsplits : own.Splits D.toInterpretation n xs condition?)
    (hrows : ∀ ρ ∈ rows, ρ.Supported xs ∧ n.Admits ρ) (hrows' : ∀ ρ ∈ rows', ρ.Supported xs ∧ n.Admits ρ)
    (h : Row.renamed D.toInterpretation own.equalities xs rows
      = Row.renamed D.toInterpretation own.equalities xs rows') :
    (rows.filter fun ρ => D.HoldsOptional ρ condition?)
      = rows'.filter fun ρ => D.HoldsOptional ρ condition? := by
  rw [hsplits.filter_eq (fun ρ hρ => (hrows ρ hρ).1) fun ρ hρ => (hrows ρ hρ).2, h,
    ← hsplits.filter_eq (fun ρ hρ => (hrows' ρ hρ).1) fun ρ hρ => (hrows' ρ hρ).2]

-- ---------------------------------------------------------------------------
-- Selecting above windows
-- ---------------------------------------------------------------------------

/-- A substitution that is pushed into a window selects among the rows that the window is taken of:
out come, in their order, the images of those within the window of the selected rows. A filter and a
join above the window push the equalities of their conditions there, and keep what satisfies the
condition within the window of the selected rows. In all three cases this is what the window itself has
to offer if every row that it reaches is selected. -/
theorem descend_slice_rows (m : Bool) (window : Window) :
    (∀ (s : Substitution) (constraint? : Option Expression) (optimize : Bool),
      s.isNonFunctional = true → child.DescendsInOrder D σ (depth + 1) s optimize →
      ∃ u, descendTo σ (depth + 2) s constraint? optimize (slice m window child) = .ok u ∧
        u.vars = s.applyVars child.vars ∧
        u.rows D = (window.clip ((child.rows D).filter fun ρ => ρ.Meets s child.vars)).map
          (Row.image s child.vars) ∧
        ((∀ ρ ∈ window.reached (child.rows D), ρ.Meets s child.vars) →
          u.rows D = (((slice m window child).rows D).filter fun ρ => ρ.Meets s child.vars).map
            (Row.image s child.vars))) ∧
    (∀ (condition : Expression) (own : SplitCondition), condition.AdmissibleOver child.vars →
      child.NullabilityHolds D → Condition.split (some condition) child.nullability = .ok own →
      child.DescendsInOrder D σ (depth + 1) own.equalities true →
      ∃ u, normalizeFilter σ ⟨descendTo σ (depth + 2), propagateTo σ (depth + 2)⟩ condition
          (slice m window child) = .ok u ∧
        u.vars = child.vars ∧
        u.rows D = ((slice m window child).selectedRows D own.equalities).filter
          (fun ρ => D.Holds ρ condition) ∧
        ((slice m window child).ReachesSelected D own.equalities →
          u.rows D = (filter m condition (slice m window child)).rows D)) ∧
    ∀ (ts : List Tree) (condition? : Option Expression) (own : SplitCondition) (supply : NameSupply),
      JoinsPlainly ts → (∀ c ∈ condition?, c.AdmissibleOver (varsOf ts)) →
      (∀ t ∈ ts, t.belowWindow.NullabilityHolds D) →
      Condition.split condition? (joinedNullability ts) = .ok own →
      child.DescendsInOrder D σ (depth + 1) own.equalities true →
      (∀ t ∈ ts, t = slice m window child ∨ t.PushesInOrder D σ depth own) →
      ∃ u, normalizeJoin σ ⟨descendTo σ (depth + 2), propagateTo σ (depth + 2)⟩ condition? ts supply
          = .ok (u, supply) ∧
        u.vars = varsOf ts ∧
        u.rows D = (selectedJoinRows D own.equalities ts).filter
          (fun ρ => D.HoldsOptional ρ condition?) ∧
        ((∀ t ∈ ts, t.ReachesSelected D own.equalities) →
          u.rows D = (join m condition? ts).rows D) := by
  refine ⟨fun s constraint? optimize hs hchild => ?_,
    fun condition own hcondition hadmits hsplit hchild => ?_,
    fun ts condition? own supply hjoin hcondition hadmits hsplit hchild hts => ?_⟩
  · obtain ⟨u, hok, hu⟩ := gives_descend_slice m window constraint?
      (Substitution.flat_of_isNonFunctional hs) hchild
    refine ⟨u, hok, hu.vars, hu.rows, fun hreached => ?_⟩
    rw [hu.rows, rows, Window.clip_filter_of_reached fun ρ hρ => decide_eq_true (hreached ρ hρ)]
  · obtain ⟨u, hok, hu⟩ := gives_normalizeFilter_slice m window hcondition hadmits hsplit hchild
    have hrows := hu.rows
    simp only [Interpretation.holdsOptional_some] at hrows
    have hsplits : own.Splits D.toInterpretation (slice m window child).nullability
        (slice m window child).vars (some condition) :=
      splits_of_split (by rintro _ ⟨⟩; exact hcondition) hsplit
    have hbelow : (slice m window child).belowWindow.NullabilityHolds D := hadmits
    refine ⟨u, hok, hu.vars, hrows, fun hreached => ?_⟩
    have hsame := filter_eq_of_renamed hsplits
      (fun ρ hρ => supported_and_admits_of_selected hbelow hρ)
      (fun ρ hρ => supported_and_admits_of_rows hbelow hρ)
      (hreached.renamed_eq hsplits.solved.flat)
    simp only [Interpretation.holdsOptional_some] at hsame
    rw [hrows, hsame, rows]
  · have hsplits := splits_of_split (D := D) hcondition hsplit
    have hflat := hsplits.solved.flat
    have hpushed : ∀ t ∈ ts, t.PushesInOrder D σ depth own := by
      intro t ht
      rcases hts t ht with rfl | hpush
      · exact pushesInOrder_slice m window hflat hchild
      · exact hpush
    obtain ⟨u, hok, hu⟩ := gives_propagateJoin hjoin hcondition hadmits hsplit hpushed
    refine ⟨u, ?_, hu.vars, hu.rows, fun hreached => ?_⟩
    · rw [hjoin.normalizeJoin_eq, hok]
      rfl
    · rw [hu.rows, rows]
      exact filter_eq_of_renamed hsplits
        (fun ρ hρ => ⟨supported_selectedJoinRows hρ, admits_selectedJoinRows hadmits hρ⟩)
        (fun ρ hρ => ⟨supported_joinRows ts ρ hρ,
          admits_joined (fun t ht => nullabilityHolds_of_belowWindow (hadmits t ht)) hρ⟩)
        (renamed_selectedJoinRows hflat hreached)

/-- A window over a table, under a constant that all rows up to its end have; beyond the window they have
another one. A condition selects the constant, above the window or above a join of the window with a
table. -/
theorem descend_slice_rows_of_atom :
    let r : Relation := ⟨"r", [⟨"a", .integer, true⟩], []⟩
    let D := Database.ofTable r [[.integer 5], [.integer 5], [.integer 3], [.null]] (by decide)
      (by decide) (by decide)
    let child : Tree := .leaf false (.extensional ⟨r, [.var ⟨"x"⟩]⟩)
    let window : Window := ⟨1, some 1⟩
    let ts := [slice false window child, child]
    let s : Substitution := .singleton ⟨"x"⟩ (.const (.integer 5))
    let c : Expression := .eq (.var ⟨"x"⟩) (.const (.integer 5))
    s.isNonFunctional = true ∧ child.DescendsInOrder D ⟨false⟩ 2 s true ∧
      (∃ u, descendTo ⟨false⟩ 3 s none true (slice false window child) = .ok u ∧
        (u.rows D).length = 1) ∧
      child.NullabilityHolds D ∧ JoinsPlainly ts ∧ c.AdmissibleOver child.vars ∧
      Condition.split (some c) child.nullability = .ok { equalities := s } ∧
      Condition.split (some c) (joinedNullability ts) = .ok { equalities := s } ∧
      (∃ u, normalizeFilter ⟨false⟩ ⟨descendTo ⟨false⟩ 3, propagateTo ⟨false⟩ 3⟩ c
          (slice false window child) = .ok u ∧ (u.rows D).length = 1) ∧
      ∃ u, normalizeJoin ⟨false⟩ ⟨descendTo ⟨false⟩ 3, propagateTo ⟨false⟩ 3⟩ (some c) ts (.ofKnown ∅)
          = .ok (u, .ofKnown ∅) ∧ (u.rows D).length = 2 := by
  intro r D child window ts s c
  have hs : s.isNonFunctional = true := by decide +kernel
  have hflat := Substitution.flat_of_isNonFunctional hs
  have hformed : (⟨r, [.var ⟨"x"⟩]⟩ : Atom Relation).isWellFormed = true := by decide +kernel
  have hchild : child.DescendsInOrder D ⟨false⟩ 2 s true := descendsInOrder_extensional hflat hformed
  have hcore : child.Core .inner := core_leaf.2 hformed
  have hadmits : child.NullabilityHolds D := nullabilityHolds_of_core hcore
  have hc : c.AdmissibleOver child.vars :=
    Expression.all_eq introducible_admissible (.var (by decide +kernel)) .const
  have hsplit (n : Nullability) (h : Condition.residualOf (some c) n = .ok (some c)) :
      Condition.split (some c) n = .ok { equalities := s } := by
    have hequations : c.conjuncts.filterMap Condition.equation?
        = [⟨.var ⟨"x"⟩, .const (.integer 5)⟩] := by decide +kernel
    exact Condition.split_of_equations h hequations
      (Substitution.unify?_singleton (by decide) rfl (by decide)) rfl rfl
  have hjoin : JoinsPlainly ts := ⟨by decide, by decide, rfl⟩
  have hfilter := hsplit child.nullability (by decide +kernel)
  have hsplitJoin := hsplit (joinedNullability ts) (by decide +kernel)
  obtain ⟨hdescends, hfilters, hjoins⟩ := @descend_slice_rows D ⟨false⟩ child 1 false window
  obtain ⟨u, hu, -, -, hu'⟩ := hdescends s none true hs hchild
  obtain ⟨v, hv, -, -, hv'⟩ := hfilters c _ hc hadmits hfilter hchild
  obtain ⟨w, hw, -, -, hw'⟩ := hjoins ts (some c) _ (.ofKnown ∅) hjoin (by rintro _ ⟨⟩; exact hc)
    (List.forall_mem_cons.2 ⟨hadmits, List.forall_mem_singleton.2 hadmits⟩) hsplitJoin hchild
    (List.forall_mem_cons.2 ⟨.inl rfl,
      List.forall_mem_singleton.2 (.inr (pushesInOrder_extensional hflat hformed))⟩)
  refine ⟨hs, hchild, ⟨u, hu, ?_⟩, hadmits, hjoin, hc, hfilter, hsplitJoin, ⟨v, hv, ?_⟩, w, hw, ?_⟩
  · rw [hu' (by decide +kernel)]
    decide +kernel
  · rw [hv' (by decide +kernel)]
    decide +kernel
  · rw [hw' (by decide +kernel)]
    decide +kernel

/-- The row within the window is rejected, and the one beyond it takes its place. -/
theorem not_descend_slice_rows :
    let r : Relation := ⟨"r", [⟨"a", .integer, false⟩], []⟩
    let D := Database.ofTable r [[.integer 3], [.integer 5]] (by decide) (by decide) (by decide)
    let t : Tree := slice false ⟨0, some 1⟩ (.leaf false (.extensional ⟨r, [.var ⟨"x"⟩]⟩))
    let s : Substitution := .singleton ⟨"x"⟩ (.const (.integer 5))
    t.validate = .ok () ∧ s.isNonFunctional = true ∧
      ((t.rows D).filter fun ρ => ρ.Meets s t.vars) = [] ∧
      ∃ u, descendTo ⟨false⟩ 3 s none true t = .ok u ∧ (u.rows D).length = 1 := by
  intro r D t s
  exact ⟨rfl, by decide +kernel, List.isEmpty_iff.1 (by decide +kernel), by decide +kernel⟩

end Tree

end QueryAlgebra
