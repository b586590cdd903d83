import QueryAlgebra.Proofs.Bags
import QueryAlgebra.Proofs.RedundantAtoms

/-!
# Rows under a substitution

A substitution that sends variables to variables and constants makes of the rows over `xs` those rows
over `s.applyVars xs` that give the images of the variables the values that the variables had
(`Row.Corresponds`). A constant has to be what was there. Variables that are sent to the same one are
compared as SQL compares: they have to be equal and not NULL.

Each row has at most one image (`Row.renamed?`), so the images of a list are a list of their own
(`Row.renamed`).

Main statements: `Row.renamed?_compose` — substitutions one after the other;
`Row.renamed_joinPairs` — the images of joined rows are the joined images;
`Source.matching_apply` — the rows of an atom under a substitution are the images of its rows.
-/

namespace QueryAlgebra

-- ---------------------------------------------------------------------------
-- Flat substitutions
-- ---------------------------------------------------------------------------

namespace Substitution

variable {s e : Substitution} {xs ys : VarSet} {x y : Variable}

/-- Every variable is sent to a variable or a constant. -/
def Flat (s : Substitution) : Prop := ∀ x, (s.applyVar x).isFunctional = false

/-- A variable that something is sent to is sent nowhere itself. -/
def Settled (s : Substitution) : Prop := ∀ x y, s.applyVar x = .var y → s.applyVar y = .var y

/-- `x` is sent to a variable to which no other one of `xs` is sent. -/
def KeepsApart (s : Substitution) (xs : VarSet) (x : Variable) : Prop :=
  (s.applyVar x).isVariable = true ∧ ∀ x' ∈ xs.toList, s.applyVar x' = s.applyVar x → x' = x

instance : Decidable (s.KeepsApart xs x) := inferInstanceAs (Decidable (_ ∧ _))

theorem mem_applyVars : y ∈ s.applyVars xs ↔ ∃ x ∈ xs, y ∈ (s.applyVar x).vars := by
  simp only [applyVars, SortedSet.mem_unions, List.mem_map, SortedSet.mem_toList]
  constructor
  · rintro ⟨_, ⟨x, hx, rfl⟩, hy⟩
    exact ⟨x, hx, hy⟩
  · rintro ⟨x, hx, hy⟩
    exact ⟨_, ⟨x, hx, rfl⟩, hy⟩

theorem Flat.mem_vars_applyVar (hs : s.Flat) :
    y ∈ (s.applyVar x).vars ↔ s.applyVar x = .var y := by
  rcases Term.eq_var_or_const (hs x) with ⟨z, hz⟩ | ⟨c, hc⟩
  · rw [hz, Term.mem_vars_var, Term.var.injEq]
    exact eq_comm
  · simp [hc]

theorem Flat.mem_applyVars (hs : s.Flat) :
    y ∈ s.applyVars xs ↔ ∃ x ∈ xs, s.applyVar x = .var y := by
  rw [Substitution.mem_applyVars]
  exact exists_congr fun x => and_congr_right fun _ => hs.mem_vars_applyVar

theorem Flat.wellApplied_applyVar (hs : s.Flat) (x : Variable) : (s.applyVar x).WellApplied := by
  rcases Term.eq_var_or_const (hs x) with ⟨y, hy⟩ | ⟨c, hc⟩
  · rw [hy]
    exact .var trivial
  · rw [hc]
    exact .const

theorem applyVars_union : s.applyVars (xs ∪ ys) = s.applyVars xs ∪ s.applyVars ys := by
  ext y
  simp only [mem_applyVars, SortedSet.mem_union]
  constructor
  · rintro ⟨x, hx | hx, hy⟩
    · exact .inl ⟨x, hx, hy⟩
    · exact .inr ⟨x, hx, hy⟩
  · rintro (⟨x, hx, hy⟩ | ⟨x, hx, hy⟩)
    · exact ⟨x, .inl hx, hy⟩
    · exact ⟨x, .inr hx, hy⟩

theorem mem_applyVars_insert :
    y ∈ s.applyVars (xs.insert x) ↔ y ∈ (s.applyVar x).vars ∨ y ∈ s.applyVars xs := by
  simp only [mem_applyVars, SortedSet.mem_insert]
  constructor
  · rintro ⟨z, rfl | hz, hy⟩
    · exact .inl hy
    · exact .inr ⟨z, hz, hy⟩
  · rintro (hy | ⟨z, hz, hy⟩)
    · exact ⟨x, .inl rfl, hy⟩
    · exact ⟨z, .inr hz, hy⟩

theorem applyVars_congr (h : ∀ x ∈ xs, s.applyVar x = e.applyVar x) :
    s.applyVars xs = e.applyVars xs := by
  ext y
  simp only [mem_applyVars]
  refine exists_congr fun x => and_congr_right fun hx => ?_
  rw [h x hx]

theorem applyVars_mono (h : xs ⊆ ys) : s.applyVars xs ⊆ s.applyVars ys := by
  intro y hy
  obtain ⟨x, hx, hxy⟩ := mem_applyVars.1 hy
  exact mem_applyVars.2 ⟨x, h x hx, hxy⟩

theorem applyVars_of_fixed (h : ∀ x ∈ xs, s.applyVar x = .var x) : s.applyVars xs = xs := by
  ext y
  rw [mem_applyVars]
  constructor
  · rintro ⟨x, hx, hy⟩
    rw [h x hx, Term.mem_vars_var] at hy
    exact hy ▸ hx
  · intro hy
    exact ⟨y, hy, by rw [h y hy]; exact Term.mem_vars_var.2 rfl⟩

theorem applyVars_of_isEmpty (h : s.isEmpty = true) : s.applyVars xs = xs :=
  applyVars_of_fixed fun x _ => applyVar_of_isEmpty h x

theorem applyVars_compose : (e.compose s).applyVars xs = e.applyVars (s.applyVars xs) := by
  ext z
  simp only [mem_applyVars, applyVar_compose, mem_vars_apply]
  constructor
  · rintro ⟨x, hx, y, hy, hz⟩
    exact ⟨y, ⟨x, hx, hy⟩, hz⟩
  · rintro ⟨y, ⟨x, hx, hy⟩, hz⟩
    exact ⟨x, hx, y, hy, hz⟩

theorem Flat.compose (he : e.Flat) (hs : s.Flat) : (e.compose s).Flat := by
  intro x
  rw [applyVar_compose]
  rcases Term.eq_var_or_const (hs x) with ⟨y, hy⟩ | ⟨c, hc⟩
  · rw [hy]
    exact he y
  · rw [hc]
    rfl

theorem flat_empty : (∅ : Substitution).Flat := fun _ => rfl

theorem flat_of_isNonFunctional (h : s.isNonFunctional = true) : s.Flat := by
  intro x
  cases hfind : s.find? x with
  | none => rw [applyVar_of_not_binds hfind]; rfl
  | some t =>
    rw [applyVar_of_find? hfind]
    rw [isNonFunctional, List.all_eq_true] at h
    have ht := h t (List.mem_map.2 ⟨(x, t), SortedMap.find?_eq_some_iff.1 hfind, rfl⟩)
    simpa using ht

theorem isNonFunctional_of_flat (hs : s.Flat) : s.isNonFunctional = true := by
  rw [isNonFunctional, List.all_eq_true]
  intro t ht
  obtain ⟨⟨x, _⟩, hmem, rfl⟩ := List.mem_map.1 ht
  have hx := hs x
  rw [applyVar_of_find? (mem_bindings.1 hmem)] at hx
  rw [hx]
  rfl

theorem applyVar_filter {p : Variable → Term → Bool} :
    (s.filter p).applyVar x = ((s.find? x).filter (p x)).getD (.var x) := by
  rw [applyVar, find?_filter]

theorem applyVar_restrict : (s.restrict xs).applyVar x = if x ∈ xs then s.applyVar x else .var x := by
  rw [restrict, applyVar_filter]
  cases hfind : s.find? x with
  | none =>
    rw [applyVar_of_not_binds hfind]
    split <;> rfl
  | some t =>
    rw [applyVar_of_find? hfind]
    by_cases hx : x ∈ xs <;> simp [hx, Option.filter]

theorem applyVar_without : (s.without xs).applyVar x = if x ∈ xs then .var x else s.applyVar x := by
  rw [without, applyVar_filter]
  cases hfind : s.find? x with
  | none =>
    rw [applyVar_of_not_binds hfind]
    split <;> rfl
  | some t =>
    rw [applyVar_of_find? hfind]
    by_cases hx : x ∈ xs <;> simp [hx, Option.filter]

/-- A substitution acts on `xs` as its part on them does. -/
theorem applyVars_restrict (s : Substitution) (xs : VarSet) :
    (s.restrict xs).applyVars xs = s.applyVars xs :=
  applyVars_congr fun x hx => by rw [applyVar_restrict, if_pos hx]

theorem Flat.restrict (hs : s.Flat) (xs : VarSet) : (s.restrict xs).Flat := by
  intro x
  rw [applyVar_restrict]
  split
  · exact hs x
  · rfl

theorem Settled.restrict (hs : s.Settled) (xs : VarSet) : (s.restrict xs).Settled := by
  intro x y hxy
  rw [applyVar_restrict] at hxy ⊢
  split at hxy
  · rw [hs x y hxy, ite_self]
  · obtain rfl := Term.var.inj hxy
    rw [if_neg ‹_›]

theorem Flat.without (hs : s.Flat) (xs : VarSet) : (s.without xs).Flat := by
  intro x
  rw [applyVar_without]
  split
  · rfl
  · exact hs x

/-- Where the values are variables and constants, the range is what variables are moved to. -/
theorem Flat.rangeVars_subset_iff (hs : s.Flat) :
    s.rangeVars ⊆ ys ↔ ∀ x y, s.applyVar x = .var y → y = x ∨ y ∈ ys := by
  constructor
  · intro h x y hxy
    cases hfind : s.find? x with
    | none => exact .inl (Term.var.inj (hxy.symm.trans (applyVar_of_not_binds hfind)))
    | some t =>
      obtain rfl : t = .var y := (applyVar_of_find? hfind).symm.trans hxy
      exact .inr (h y (mem_rangeVars.2 ⟨x, _, hfind, Term.mem_vars_var.2 rfl⟩))
  · intro h y hy
    obtain ⟨x, t, hfind, hyt⟩ := mem_rangeVars.1 hy
    have hxt := applyVar_of_find? hfind
    have hxy : s.applyVar x = .var y := hs.mem_vars_applyVar.1 (hxt ▸ hyt)
    obtain rfl : t = .var y := hxt.symm.trans hxy
    refine (h x y hxy).resolve_left ?_
    rintro rfl
    exact s.proper y hfind

theorem Flat.applyVars_subset (hs : s.Flat) (h : s.rangeVars ⊆ ys) (hxs : xs ⊆ ys) :
    s.applyVars xs ⊆ ys := by
  intro y hy
  obtain ⟨x, hx, hxy⟩ := hs.mem_applyVars.1 hy
  rcases hs.rangeVars_subset_iff.1 h x y hxy with rfl | hy
  · exact hxs y hx
  · exact hy

end Substitution

-- ---------------------------------------------------------------------------
-- Corresponding rows
-- ---------------------------------------------------------------------------

namespace Row

variable {I : Interpretation} {s e : Substitution} {xs ys : VarSet} {ρ ρ' σ τ ν : Row}
  {x y : Variable}

/-- `σ` gives the images of `xs` the values that `ρ` gives `xs`, and NULL only to the image of one
variable. -/
def Corresponds (I : Interpretation) (s : Substitution) (xs : VarSet) (σ ρ : Row) : Prop :=
  ∀ x ∈ xs.toList, I.eval σ (s.applyVar x) = ρ x ∧
    (ρ x = .null → (s.applyVar x).isVariable = true ∧
      ∀ x' ∈ xs.toList, s.applyVar x' = s.applyVar x → x' = x)

instance : Decidable (Corresponds I s xs σ ρ) :=
  inferInstanceAs (Decidable (∀ x ∈ xs.toList, _ ∧ _))

/-- The row that gives every image of a variable the value of the first such variable. -/
def image (s : Substitution) (xs : VarSet) (ρ : Row) : Row := fun y =>
  match xs.toList.find? fun x => s.applyVar x = .var y with
  | some x => ρ x
  | none => .null

/-- The image of a row, if it has one. -/
def renamed? (I : Interpretation) (s : Substitution) (xs : VarSet) (ρ : Row) : Option Row :=
  if Corresponds I s xs (image s xs ρ) ρ then some (image s xs ρ) else none

/-- The equalities that a substitution by variables and constants implies: what is sent to a constant
has that value, and variables that are sent to the same one are equal and not NULL. -/
def Meets (s : Substitution) (xs : VarSet) (ρ : Row) : Prop :=
  ∀ x ∈ xs.toList,
    ((s.applyVar x).isVariable = true ∨ s.applyVar x = .const (ρ x) ∧ ρ x ≠ .null) ∧
      ∀ x' ∈ xs.toList, s.applyVar x' = s.applyVar x → x' ≠ x → ρ x' = ρ x ∧ ρ x ≠ .null

instance : Decidable (Meets s xs ρ) :=
  inferInstanceAs (Decidable (∀ x ∈ xs.toList, _ ∧ _))

/-- The images of the rows. -/
def renamed (I : Interpretation) (s : Substitution) (xs : VarSet) (rows : List Row) : List Row :=
  rows.filterMap (renamed? I s xs)

/-- Only the images are looked at. -/
theorem Corresponds.congr (h : Corresponds I s xs σ ρ) (hσ : AgreeOn (s.applyVars xs) σ τ)
    (hρ : AgreeOn xs ρ ρ') : Corresponds I s xs τ ρ' := by
  intro x hx
  obtain ⟨he, hnull⟩ := h x hx
  rw [← hρ x hx]
  refine ⟨?_, hnull⟩
  rw [← he]
  exact (Interpretation.eval_congr fun y hy =>
    hσ y (Substitution.mem_applyVars.2 ⟨x, hx, hy⟩)).symm

theorem image_supported : (image s xs ρ).Supported (s.applyVars xs) := by
  intro y hy
  unfold image
  split
  · next x hx =>
    refine absurd (Substitution.mem_applyVars.2 ⟨x, List.mem_of_find?_eq_some hx, ?_⟩) hy
    have he : s.applyVar x = .var y := by simpa using List.find?_some hx
    rw [he]
    exact Term.mem_vars_var.2 rfl
  · rfl

/-- Corresponding rows over the right variables are images. -/
theorem Corresponds.image_eq (hs : s.Flat) (h : Corresponds I s xs σ ρ)
    (hσ : σ.Supported (s.applyVars xs)) : image s xs ρ = σ := by
  refine image_supported.ext hσ fun y hy => ?_
  obtain ⟨x, hx, he⟩ := hs.mem_applyVars.1 hy
  unfold image
  split
  · next x' hx' =>
    have he' : s.applyVar x' = .var y := by simpa using List.find?_some hx'
    rw [← (h x' (List.mem_of_find?_eq_some hx')).1, he']
    rfl
  · next hnone =>
    rw [List.find?_eq_none] at hnone
    exact absurd he (by simpa using hnone x hx)

theorem renamed?_eq_some (hs : s.Flat) :
    renamed? I s xs ρ = some σ ↔ σ.Supported (s.applyVars xs) ∧ Corresponds I s xs σ ρ := by
  unfold renamed?
  constructor
  · intro h
    split at h
    · next hcorresponds =>
      cases h
      exact ⟨image_supported, hcorresponds⟩
    · cases h
  · rintro ⟨hσ, h⟩
    have himage := h.image_eq hs hσ
    rw [himage, if_pos h]

/-- A row has an image exactly if it satisfies the equalities. -/
theorem corresponds_image (hs : s.Flat) :
    Corresponds I s xs (image s xs ρ) ρ ↔ Meets s xs ρ := by
  constructor
  · intro h x hx
    obtain ⟨hvalue, hnull⟩ := h x hx
    refine ⟨?_, fun x' hx' hsame hne => ⟨?_, fun hρ => hne ((hnull hρ).2 x' hx' hsame)⟩⟩
    · rcases Term.eq_var_or_const (hs x) with ⟨w, hw⟩ | ⟨c, hc⟩
      · exact .inl (by rw [hw]; rfl)
      · rw [hc] at hvalue hnull ⊢
        exact .inr ⟨congrArg _ hvalue, fun hρ => by cases (hnull hρ).1⟩
    · rw [← (h x' hx').1, hsame, hvalue]
  · intro h x hx
    obtain ⟨hvalue, hshared⟩ := h x hx
    refine ⟨?_, fun hρ => ⟨hvalue.resolve_right fun hc => hc.2 hρ, fun x' hx' hsame => ?_⟩⟩
    · rcases hvalue with hvariable | ⟨hc, -⟩
      · obtain ⟨w, hw⟩ := Term.exists_eq_var hvariable
        rw [hw, Interpretation.eval_var, image]
        split
        · next x' hx' =>
          have hsame : s.applyVar x' = .var w := by simpa using List.find?_some hx'
          by_cases hne : x' = x
          · rw [hne]
          · exact (hshared x' (List.mem_of_find?_eq_some hx') (hsame.trans hw.symm) hne).1
        · next hnone =>
          rw [List.find?_eq_none] at hnone
          exact absurd hw (by simpa using hnone x hx)
      · rw [hc]
        rfl
    · by_contra hne
      exact (hshared x' hx' hsame hne).2 hρ

theorem renamed_eq (hs : s.Flat) (rows : List Row) :
    renamed I s xs rows = (rows.filter fun ρ => Meets s xs ρ).map (image s xs) := by
  rw [renamed, ← List.filterMap_eq_map', List.filterMap_filter]
  refine List.filterMap_congr fun ρ _ => ?_
  simp only [renamed?, corresponds_image hs, decide_eq_true_eq]

theorem renamed?_eq_none (hs : s.Flat) : renamed? I s xs ρ = none ↔ ¬Meets s xs ρ := by
  rw [← corresponds_image (I := I) hs, renamed?, ite_eq_right_iff]
  exact forall_congr' fun _ => iff_of_false nofun id

/-- The equalities are about the values of `xs`. -/
theorem meets_congr (h : AgreeOn xs ρ ρ') : Meets s xs ρ ↔ Meets s xs ρ' := by
  refine forall₂_congr fun x hx => ?_
  rw [h x hx]
  refine and_congr_right fun _ => forall₂_congr fun x' hx' => ?_
  rw [h x' hx']

theorem Meets.mono (h : Meets s xs ρ) (hys : ys ⊆ xs) : Meets s ys ρ := fun x hx =>
  ⟨(h x (hys x hx)).1, fun x' hx' => (h x (hys x hx)).2 x' (hys x' hx')⟩

theorem mem_renamed (hs : s.Flat) {rows : List Row} :
    σ ∈ renamed I s xs rows ↔
      ∃ ρ ∈ rows, σ.Supported (s.applyVars xs) ∧ Corresponds I s xs σ ρ := by
  simp only [renamed, List.mem_filterMap, renamed?_eq_some hs]

theorem renamed_supported (hs : s.Flat) (rows : List Row) :
    ∀ σ ∈ renamed I s xs rows, σ.Supported (s.applyVars xs) := by
  intro σ hσ
  obtain ⟨_, _, hsupported, _⟩ := (mem_renamed hs).1 hσ
  exact hsupported

theorem meets_congr_applyVar (h : ∀ x ∈ xs, s.applyVar x = e.applyVar x) :
    Meets s xs ρ ↔ Meets e xs ρ := by
  refine forall₂_congr fun x hx => ?_
  rw [h x hx]
  refine and_congr_right fun _ => forall₂_congr fun x' hx' => ?_
  rw [h x' hx']

theorem corresponds_congr_applyVar (h : ∀ x ∈ xs, s.applyVar x = e.applyVar x) :
    Corresponds I s xs σ ρ ↔ Corresponds I e xs σ ρ := by
  refine forall₂_congr fun x hx => ?_
  rw [h x hx]
  refine and_congr_right fun _ => imp_congr_right fun _ => and_congr_right fun _ => ?_
  refine forall₂_congr fun x' hx' => ?_
  rw [h x' hx']

theorem renamed?_congr (h : ∀ x ∈ xs, s.applyVar x = e.applyVar x) (hs : s.Flat) (he : e.Flat) :
    renamed? I s xs ρ = renamed? I e xs ρ := by
  ext σ
  rw [renamed?_eq_some hs, renamed?_eq_some he, Substitution.applyVars_congr h,
    corresponds_congr_applyVar h]

theorem renamed_restrict (hs : s.Flat) (xs : VarSet) (rows : List Row) :
    renamed I (s.restrict xs) xs rows = renamed I s xs rows := by
  have happly : ∀ x ∈ xs, (s.restrict xs).applyVar x = s.applyVar x := fun x hx => by
    rw [Substitution.applyVar_restrict, if_pos hx]
  exact List.filterMap_congr fun ρ _ => renamed?_congr happly (hs.restrict xs) hs

/-- Where nothing is renamed, every row is its own image. -/
theorem renamed?_of_fixed (h : ∀ x ∈ xs, s.applyVar x = .var x) (hs : s.Flat)
    (hρ : ρ.Supported xs) : renamed? I s xs ρ = some ρ := by
  rw [renamed?_eq_some hs, Substitution.applyVars_of_fixed h]
  refine ⟨hρ, fun x hx => ?_⟩
  rw [h x hx]
  refine ⟨rfl, fun _ => ⟨rfl, fun x' hx' he => ?_⟩⟩
  rw [h x' hx'] at he
  exact Term.var.inj he

theorem renamed_of_fixed (h : ∀ x ∈ xs, s.applyVar x = .var x) (hs : s.Flat) {rows : List Row}
    (hrows : ∀ ρ ∈ rows, ρ.Supported xs) : renamed I s xs rows = rows := by
  have hsome : rows.filterMap (renamed? I s xs) = rows.filterMap some :=
    List.filterMap_congr fun ρ hρ => renamed?_of_fixed h hs (hrows ρ hρ)
  rw [renamed, hsome, List.filterMap_some]

/-- A term has on a row the value that the term under the substitution has on its image. -/
theorem Corresponds.eval_apply (h : Corresponds I s xs σ ρ) {t : Term} (ht : t.vars ⊆ xs) :
    I.eval σ (s.apply t) = I.eval ρ t := by
  rw [Interpretation.eval_apply]
  exact Interpretation.eval_congr fun x hx => (h x (ht x hx)).1

theorem Corresponds.mono (h : Corresponds I s xs σ ρ) (hys : ys ⊆ xs) : Corresponds I s ys σ ρ := by
  intro x hx
  obtain ⟨hvalue, hnull⟩ := h x (hys x hx)
  exact ⟨hvalue, fun hρ => ⟨(hnull hρ).1, fun x' hx' => (hnull hρ).2 x' (hys x' hx')⟩⟩

/-- A condition says of a row what the condition under the substitution says of its image. -/
theorem Corresponds.holds (h : Corresponds I s xs σ ρ) {c : Expression} (hc : c.vars ⊆ xs) :
    I.Holds σ (s.applyExpression c) ↔ I.Holds ρ c := by
  rw [Interpretation.holds_applyExpression]
  exact Interpretation.holds_congr fun x hx => (h x (hc x hx)).1

-- ---------------------------------------------------------------------------
-- One substitution after the other
-- ---------------------------------------------------------------------------

theorem corresponds_compose (hs : s.Flat) :
    Corresponds I (e.compose s) xs ν ρ ↔ ∃ σ : Row, σ.Supported (s.applyVars xs) ∧
      Corresponds I s xs σ ρ ∧ Corresponds I e (s.applyVars xs) ν σ := by
  constructor
  · intro h
    refine ⟨cut (s.applyVars xs) fun y => I.eval ν (e.applyVar y), supported_cut, ?_, ?_⟩
    · intro x hx
      obtain ⟨hvalue, hnull⟩ := h x hx
      rw [Substitution.applyVar_compose] at hvalue hnull
      rcases Term.eq_var_or_const (hs x) with ⟨y, hy⟩ | ⟨c, hc⟩
      · have hmem : y ∈ s.applyVars xs := hs.mem_applyVars.2 ⟨x, hx, hy⟩
        rw [hy] at hvalue hnull ⊢
        refine ⟨(if_pos hmem).trans hvalue, fun hρ => ⟨rfl, fun x' hx' hsame => ?_⟩⟩
        refine (hnull hρ).2 x' hx' ?_
        rw [Substitution.applyVar_compose, hsame]
      · rw [hc] at hvalue hnull ⊢
        refine ⟨hvalue, fun hρ => ?_⟩
        cases (hnull hρ).1
    · intro y hy
      obtain ⟨x, hx, hsx⟩ := hs.mem_applyVars.1 hy
      obtain ⟨hvalue, hnull⟩ := h x hx
      rw [Substitution.applyVar_compose, hsx] at hvalue hnull
      have hcut : cut (s.applyVars xs) (fun y => I.eval ν (e.applyVar y)) y = ρ x :=
        (if_pos hy).trans hvalue
      rw [hcut]
      refine ⟨hvalue, fun hρ => ⟨(hnull hρ).1, fun y' hy' hsame => ?_⟩⟩
      obtain ⟨x', hx', hsx'⟩ := hs.mem_applyVars.1 hy'
      have hxx : x' = x := (hnull hρ).2 x' hx' (by
        rw [Substitution.applyVar_compose, hsx']
        exact hsame)
      rw [hxx, hsx] at hsx'
      exact (Term.var.inj hsx').symm
  · rintro ⟨σ, -, hσ, hν⟩ x hx
    obtain ⟨hvalue, hnull⟩ := hσ x hx
    rw [Substitution.applyVar_compose]
    rcases Term.eq_var_or_const (hs x) with ⟨y, hy⟩ | ⟨c, hc⟩
    · have hmem : y ∈ s.applyVars xs := hs.mem_applyVars.2 ⟨x, hx, hy⟩
      obtain ⟨hvalue', hnull'⟩ := hν y hmem
      rw [hy] at hvalue hnull ⊢
      have hσy : σ y = ρ x := hvalue
      refine ⟨hvalue'.trans hσy, fun hρ => ?_⟩
      obtain ⟨hvar, hone⟩ := hnull' (hσy.trans hρ)
      refine ⟨hvar, fun x' hx' hsame => ?_⟩
      rw [Substitution.applyVar_compose] at hsame
      obtain ⟨z, hz⟩ := Term.exists_eq_var hvar
      rcases Term.eq_var_or_const (hs x') with ⟨y', hy'⟩ | ⟨c, hc⟩
      · rw [hy'] at hsame
        have hyy : y' = y := hone y' (hs.mem_applyVars.2 ⟨x', hx', hy'⟩) hsame
        exact (hnull hρ).2 x' hx' (hyy ▸ hy')
      · rw [hc] at hsame
        have hcontra : (Term.const c) = .var z := hsame.trans hz
        cases hcontra
    · rw [hc] at hvalue hnull ⊢
      refine ⟨hvalue, fun hρ => ?_⟩
      cases (hnull hρ).1

theorem renamed?_compose (he : e.Flat) (hs : s.Flat) :
    renamed? I (e.compose s) xs ρ = (renamed? I s xs ρ).bind (renamed? I e (s.applyVars xs)) := by
  ext ν
  rw [renamed?_eq_some (he.compose hs), Substitution.applyVars_compose, Option.bind_eq_some_iff,
    corresponds_compose hs]
  simp only [renamed?_eq_some hs, renamed?_eq_some he]
  constructor
  · rintro ⟨hν, σ, hσ, hs, he⟩
    exact ⟨σ, ⟨hσ, hs⟩, hν, he⟩
  · rintro ⟨σ, ⟨hσ, hs⟩, hν, he⟩
    exact ⟨hν, σ, hσ, hs, he⟩

theorem renamed_compose (he : e.Flat) (hs : s.Flat) (rows : List Row) :
    renamed I (e.compose s) xs rows = renamed I e (s.applyVars xs) (renamed I s xs rows) := by
  rw [renamed, renamed, renamed, List.filterMap_filterMap]
  exact List.filterMap_congr fun ρ _ => renamed?_compose he hs

-- ---------------------------------------------------------------------------
-- Joins and unions
-- ---------------------------------------------------------------------------

/-- A row over `xs` with one over `ys`, if they join. -/
def joined? (xs ys : VarSet) (ρ ρ' : Row) : Option Row :=
  if Joins xs ys ρ ρ' then some (merge xs ρ ρ') else none

theorem joined?_eq_some : joined? xs ys ρ ρ' = some τ ↔ Joins xs ys ρ ρ' ∧ merge xs ρ ρ' = τ := by
  unfold joined?
  split
  · next h => simp [h]
  · next h => simp [h]

theorem joinedWith_eq_filterMap (rows : List Row) :
    joinedWith xs ys rows ρ = rows.filterMap (joined? xs ys ρ) := by
  rw [joinedWith, ← List.filterMap_eq_map', List.filterMap_filter]
  simp only [decide_eq_true_iff]
  rfl

/-- To join with the row without columns makes no difference. -/
theorem joinPairs_blank {rows : List Row} (hrows : ∀ ρ ∈ rows, ρ.Supported xs) :
    joinPairs xs ∅ rows [.blank] = rows := by
  have hone : ∀ ρ ∈ rows, joinedWith xs ∅ [.blank] ρ = [ρ] := by
    intro ρ hρ
    have hjoins : Joins xs ∅ ρ .blank := fun x _ hx => absurd hx (SortedSet.not_mem_empty x)
    have hmerge : merge xs ρ .blank = ρ := by
      funext x
      by_cases hx : x ∈ xs
      · exact if_pos hx
      · rw [merge, if_neg hx, hrows ρ hρ x hx]
        rfl
    simp only [joinedWith, List.filter_cons, hjoins, decide_true, if_true, List.filter_nil,
      List.map_singleton, hmerge]
  rw [joinPairs, List.flatMap_congr hone, List.flatMap_singleton']

/-- Two sets of variables at once: where variables of both have one image, it is not NULL. -/
theorem corresponds_union : Corresponds I s (xs ∪ ys) ν τ ↔
    Corresponds I s xs ν τ ∧ Corresponds I s ys ν τ ∧
      ∀ x ∈ xs, ∀ x' ∈ ys, x' ≠ x → s.applyVar x' = s.applyVar x → τ x ≠ .null := by
  constructor
  · intro h
    refine ⟨h.mono SortedSet.subset_union_left,
      h.mono SortedSet.subset_union_right, fun x hx x' hx' hne hsame hnull => ?_⟩
    exact hne (((h x (SortedSet.mem_union.2 (.inl hx))).2 hnull).2 x'
      (SortedSet.mem_union.2 (.inr hx')) hsame)
  · rintro ⟨hleft, hright, hshared⟩ x hx
    rcases SortedSet.mem_union.1 hx with hx | hx
    · obtain ⟨hvalue, hnull⟩ := hleft x hx
      refine ⟨hvalue, fun hτ => ⟨(hnull hτ).1, fun x' hx' hsame => ?_⟩⟩
      rcases SortedSet.mem_union.1 hx' with hx' | hx'
      · exact (hnull hτ).2 x' hx' hsame
      · by_contra hne
        exact hshared x hx x' hx' hne hsame hτ
    · obtain ⟨hvalue, hnull⟩ := hright x hx
      refine ⟨hvalue, fun hτ => ⟨(hnull hτ).1, fun x' hx' hsame => ?_⟩⟩
      rcases SortedSet.mem_union.1 hx' with hx' | hx'
      · by_contra hne
        -- the other variable has the same image, so it is NULL as well
        have hτ' : τ x' = .null := by rw [← (hleft x' hx').1, hsame, hvalue, hτ]
        exact hshared x' hx' x hx (fun he => hne he.symm) hsame.symm hτ'
      · exact (hnull hτ).2 x' hx' hsame

/-- Rows join where their images do. -/
theorem Corresponds.joins (hs : s.Flat) (hleft : Corresponds I s xs σ ρ)
    (hright : Corresponds I s ys τ ρ') (hjoins : Joins (s.applyVars xs) (s.applyVars ys) σ τ) :
    Joins xs ys ρ ρ' := by
  intro x hx hx'
  obtain ⟨hvalue, hnull⟩ := hleft x hx
  have hvalue' := (hright x hx').1
  rcases Term.eq_var_or_const (hs x) with ⟨y, hy⟩ | ⟨c, hc⟩
  · rw [hy, Interpretation.eval_var] at hvalue hvalue'
    rw [← hvalue, ← hvalue']
    exact hjoins y (hs.mem_applyVars.2 ⟨x, hx, hy⟩) (hs.mem_applyVars.2 ⟨x, hx', hy⟩)
  · rw [hc] at hvalue hnull hvalue'
    refine ⟨hvalue.symm.trans hvalue', fun h => ?_⟩
    cases (hnull h).1

/-- The joined images are the image of the joined row. -/
theorem Corresponds.merged (hleft : Corresponds I s xs σ ρ) (hright : Corresponds I s ys τ ρ')
    (himages : Joins (s.applyVars xs) (s.applyVars ys) σ τ) (hrows : Joins xs ys ρ ρ') :
    Corresponds I s (xs ∪ ys) (merge (s.applyVars xs) σ τ) (merge xs ρ ρ') := by
  have hxs : Corresponds I s xs (merge (s.applyVars xs) σ τ) (merge xs ρ ρ') :=
    hleft.congr (fun y hy => (merge_left hy).symm) fun x hx => (merge_left hx).symm
  have hys : Corresponds I s ys (merge (s.applyVars xs) σ τ) (merge xs ρ ρ') :=
    hright.congr (fun y hy => (himages.merge_right hy).symm) fun x hx => (hrows.merge_right hx).symm
  refine corresponds_union.2 ⟨hxs, hys, fun x hx x' hx' _ hsame hnull => ?_⟩
  obtain ⟨y, hy⟩ := Term.exists_eq_var ((hxs x hx).2 hnull).1
  have hyleft : y ∈ s.applyVars xs :=
    Substitution.mem_applyVars.2 ⟨x, hx, hy ▸ Term.mem_vars_var.2 rfl⟩
  have hyright : y ∈ s.applyVars ys :=
    Substitution.mem_applyVars.2 ⟨x', hx', hsame ▸ hy ▸ Term.mem_vars_var.2 rfl⟩
  refine (himages y hyleft hyright).2 ?_
  rw [merge_left hx, ← (hleft x hx).1, hy] at hnull
  exact hnull

/-- The image of a joined row joins with itself: its parts are the images of the parts. -/
theorem Corresponds.joins_images (hs : s.Flat)
    (h : Corresponds I s (xs ∪ ys) ν (merge xs ρ ρ')) (hrows : Joins xs ys ρ ρ') :
    Joins (s.applyVars xs) (s.applyVars ys) ν ν := by
  obtain ⟨hxs, -, hshared⟩ := corresponds_union.1 h
  intro y hy hy'
  obtain ⟨x, hx, hsx⟩ := hs.mem_applyVars.1 hy
  obtain ⟨x', hx', hsx'⟩ := hs.mem_applyVars.1 hy'
  have hvalue : ν y = merge xs ρ ρ' x := by
    rw [← (hxs x hx).1, hsx]
    rfl
  refine ⟨rfl, fun hnull => ?_⟩
  by_cases hne : x' = x
  · rw [hvalue, merge_left hx] at hnull
    exact (hrows x hx (hne ▸ hx')).2 hnull
  · exact hshared x hx x' hx' hne (hsx'.trans hsx.symm) (hvalue.symm.trans hnull)

theorem merge_cut (hν : ν.Supported (xs ∪ ys)) : merge xs (cut xs ν) (cut ys ν) = ν := by
  funext y
  by_cases hy : y ∈ xs
  · rw [merge_left hy]
    exact agreeOn_cut y hy
  · rw [merge, if_neg hy]
    by_cases hy' : y ∈ ys
    · exact agreeOn_cut y hy'
    · rw [cut, if_neg hy', hν y fun hmem => (SortedSet.mem_union.1 hmem).elim hy hy']

/-- The image of a joined row joins the images of its parts, and only such images join. -/
theorem joined?_bind_renamed? (hs : s.Flat) :
    (joined? xs ys ρ ρ').bind (renamed? I s (xs ∪ ys)) = (renamed? I s xs ρ).bind fun σ =>
      (renamed? I s ys ρ').bind (joined? (s.applyVars xs) (s.applyVars ys) σ) := by
  ext ν
  simp only [Option.bind_eq_some_iff, joined?_eq_some, renamed?_eq_some hs,
    Substitution.applyVars_union]
  constructor
  · rintro ⟨_, ⟨hrows, rfl⟩, hν, h⟩
    obtain ⟨hxs, hys, -⟩ := corresponds_union.1 h
    have hleft : Corresponds I s xs (cut (s.applyVars xs) ν) ρ :=
      hxs.congr agreeOn_cut.symm fun x hx => merge_left hx
    have hright : Corresponds I s ys (cut (s.applyVars ys) ν) ρ' :=
      hys.congr agreeOn_cut.symm fun x hx => hrows.merge_right hx
    refine ⟨_, ⟨supported_cut, hleft⟩, _, ⟨supported_cut, hright⟩, ?_, merge_cut hν⟩
    intro y hy hy'
    rw [agreeOn_cut y hy, agreeOn_cut y hy']
    exact h.joins_images hs hrows y hy hy'
  · rintro ⟨σ, ⟨-, hleft⟩, σ', ⟨hσ', hright⟩, himages, rfl⟩
    have hrows : Joins xs ys ρ ρ' := hleft.joins hs hright himages
    exact ⟨_, ⟨hrows, rfl⟩, supported_merge hσ', hleft.merged hright himages hrows⟩

/-- The images of the rows that a row joins are those that its image joins. -/
theorem filterMap_joinedWith (hs : s.Flat) (rows : List Row) (ρ : Row) :
    (joinedWith xs ys rows ρ).filterMap (renamed? I s (xs ∪ ys))
      = (renamed? I s xs ρ).toList.flatMap
          (joinedWith (s.applyVars xs) (s.applyVars ys) (renamed I s ys rows)) := by
  rw [joinedWith_eq_filterMap, List.filterMap_filterMap,
    List.filterMap_congr fun ρ' _ => joined?_bind_renamed? hs]
  cases renamed? I s xs ρ with
  | none => simp
  | some σ =>
    rw [Option.toList_some, List.flatMap_singleton, joinedWith_eq_filterMap, renamed,
      List.filterMap_filterMap]
    rfl

theorem renamed_eq_flatMap (rows : List Row) :
    renamed I s xs rows = rows.flatMap fun ρ => (renamed? I s xs ρ).toList :=
  List.filterMap_eq_flatMap_toList _ _

/-- The images of joined rows are the joined images. -/
theorem renamed_joinPairs (hs : s.Flat) (rows rows' : List Row) :
    renamed I s (xs ∪ ys) (joinPairs xs ys rows rows')
      = joinPairs (s.applyVars xs) (s.applyVars ys) (renamed I s xs rows) (renamed I s ys rows') := by
  rw [joinPairs, joinPairs, renamed_eq_flatMap rows, List.flatMap_assoc,
    ← List.flatMap_congr fun ρ _ => filterMap_joinedWith hs rows' ρ]
  exact List.filterMap_flatMap

theorem renamed_append (rows rows' : List Row) :
    renamed I s xs (rows ++ rows') = renamed I s xs rows ++ renamed I s xs rows' :=
  List.filterMap_append

/-- The images of the rows that pass a condition are the images that pass it under the
substitution. -/
theorem renamed_filter (hs : s.Flat) {c? : Option Expression} (hc : ∀ c ∈ c?, c.vars ⊆ xs)
    (rows : List Row) :
    renamed I s xs (rows.filter fun ρ => I.HoldsOptional ρ c?)
      = (renamed I s xs rows).filter fun σ => I.HoldsOptional σ (c?.map s.applyExpression) := by
  rw [renamed, renamed, List.filterMap_filter, List.filter_filterMap]
  apply List.filterMap_congr
  intro ρ _
  cases hrenamed : renamed? I s xs ρ with
  | none => split <;> rfl
  | some σ =>
    have hcorresponds := ((renamed?_eq_some hs).1 hrenamed).2
    have hiff : I.HoldsOptional ρ c? ↔ I.HoldsOptional σ (c?.map s.applyExpression) := by
      cases c? with
      | none => simp
      | some c => simpa using (hcorresponds.holds (hc c rfl)).symm
    by_cases h : I.HoldsOptional ρ c?
    · simp [h, hiff.1 h, Option.filter]
    · simp [h, mt hiff.2 h, Option.filter]

/-- Different rows have different images. -/
theorem Corresponds.agreeOn (h : Corresponds I s xs σ ρ) (h' : Corresponds I s xs σ ρ') :
    AgreeOn xs ρ ρ' := fun x hx => (h x hx).1.symm.trans (h' x hx).1

/-- The images of what is left once are left once. -/
theorem renamed_distinct (hs : s.Flat) {rows : List Row} (hrows : ∀ ρ ∈ rows, ρ.Supported xs) :
    (renamed I s xs (distinct xs rows)).Perm
      (distinct (s.applyVars xs) (renamed I s xs rows)) := by
  have hnodup : (renamed I s xs (distinct xs rows)).Nodup := by
    refine List.pairwise_filterMap.2 ((List.pairwise_pwFilter rows).imp ?_)
    rintro ρ ρ' hdiffer σ hσ _ hσ' rfl
    exact hdiffer (((renamed?_eq_some hs).1 hσ).2.agreeOn ((renamed?_eq_some hs).1 hσ').2)
  rw [List.perm_ext_iff_of_nodup hnodup (nodup_distinct _)]
  intro σ
  rw [mem_distinct (renamed_supported hs rows), mem_renamed hs, mem_renamed hs]
  exact exists_congr fun ρ => and_congr_left fun _ => mem_distinct hrows

-- ---------------------------------------------------------------------------
-- Renamings
-- ---------------------------------------------------------------------------

/-- Variables that are kept apart are compared with nothing. -/
theorem meets_of_keepsApart (hys : ys ⊆ xs) (h : ∀ x ∈ xs, x ∉ ys → s.KeepsApart xs x) :
    Meets s xs ρ ↔ Meets s ys ρ := by
  constructor
  · intro hmeets x hx
    obtain ⟨hvalue, hshared⟩ := hmeets x (hys x hx)
    exact ⟨hvalue, fun x' hx' => hshared x' (hys x' hx')⟩
  · intro hmeets x hx
    by_cases hxys : x ∈ ys
    · obtain ⟨hvalue, hshared⟩ := hmeets x hxys
      refine ⟨hvalue, fun x' hx' hsame hne => ?_⟩
      by_cases hxys' : x' ∈ ys
      · exact hshared x' hxys' hsame hne
      · exact absurd ((h x' hx' hxys').2 x hx hsame.symm).symm hne
    · obtain ⟨hvariable, hapart⟩ := h x hx hxys
      exact ⟨.inl hvariable, fun x' hx' hsame hne => absurd (hapart x' hx' hsame) hne⟩

/-- Variables that are kept apart and NULL make no difference to the image of a row. -/
theorem renamed?_of_keepsApart (hs : s.Flat) (hys : ys ⊆ xs)
    (h : ∀ x ∈ xs, x ∉ ys → s.KeepsApart xs x) (hρ : ρ.Supported ys) :
    renamed? I s xs ρ = renamed? I s ys ρ := by
  ext σ
  rw [renamed?_eq_some hs, renamed?_eq_some hs]
  constructor
  · rintro ⟨hσ, hcorresponds⟩
    refine ⟨fun y hy => ?_, hcorresponds.mono hys⟩
    by_cases hyxs : y ∈ s.applyVars xs
    · obtain ⟨x, hx, hxy⟩ := hs.mem_applyVars.1 hyxs
      have hvalue := (hcorresponds x hx).1
      rw [hxy, Interpretation.eval_var] at hvalue
      rw [hvalue]
      exact hρ x fun hxys => hy (hs.mem_applyVars.2 ⟨x, hxys, hxy⟩)
    · exact hσ y hyxs
  · rintro ⟨hσ, hcorresponds⟩
    refine ⟨hσ.mono (Substitution.applyVars_mono hys), fun x hx => ?_⟩
    by_cases hxys : x ∈ ys
    · obtain ⟨hvalue, hnull⟩ := hcorresponds x hxys
      refine ⟨hvalue, fun hρx => ⟨(hnull hρx).1, fun x' hx' hsame => ?_⟩⟩
      by_cases hxys' : x' ∈ ys
      · exact (hnull hρx).2 x' hxys' hsame
      · exact ((h x' hx' hxys').2 x hx hsame.symm).symm
    · have hapart := h x hx hxys
      obtain ⟨y, hy⟩ := Term.exists_eq_var hapart.1
      refine ⟨?_, fun _ => hapart⟩
      rw [hy, Interpretation.eval_var, hρ x hxys]
      refine hσ y fun hmem => ?_
      obtain ⟨x', hx', hsame⟩ := hs.mem_applyVars.1 hmem
      exact hxys (hapart.2 x' (hys x' hx') (hsame.trans hy.symm) ▸ hx')

/-- Where distinct variables get distinct names, every row has an image, which gives the names the
old values. -/
theorem renamed?_of_injective (hs : s.Flat) (hvar : ∀ x ∈ xs, (s.applyVar x).isVariable = true)
    (hinjective : ∀ x ∈ xs, ∀ x' ∈ xs, s.applyVar x' = s.applyVar x → x' = x) :
    renamed? I s xs ρ = some (image s xs ρ) := by
  have hmeets : Meets s xs ρ := fun x hx =>
    ⟨.inl (hvar x hx), fun x' hx' hsame hne => absurd (hinjective x hx x' hx' hsame) hne⟩
  rw [renamed?, if_pos ((corresponds_image hs).2 hmeets)]

theorem renamed_of_injective (hs : s.Flat) (hvar : ∀ x ∈ xs, (s.applyVar x).isVariable = true)
    (hinjective : ∀ x ∈ xs, ∀ x' ∈ xs, s.applyVar x' = s.applyVar x → x' = x) (rows : List Row) :
    renamed I s xs rows = rows.map (image s xs) := by
  rw [renamed, List.filterMap_congr fun ρ _ => renamed?_of_injective hs hvar hinjective,
    List.filterMap_eq_map']

end Row

/-- Trees over the images of the variables of others have together the images of all of them. -/
theorem Tree.varsOf_images {s : Substitution} {ts us : List Tree}
    (h : List.Forall₂ (fun t u => u.vars = s.applyVars t.vars) ts us) :
    varsOf us = s.applyVars (varsOf ts) := by
  induction h with
  | nil => rfl
  | cons hu _ ih => rw [varsOf, varsOf, hu, ih, Substitution.applyVars_union]

-- ---------------------------------------------------------------------------
-- Atoms
-- ---------------------------------------------------------------------------

theorem Substitution.applyVars_varsOf {s : Substitution} {args : List Term} :
    s.applyVars (Term.varsOf args) = Term.varsOf (args.map s.apply) := by
  ext y
  simp only [mem_applyVars, Term.mem_varsOf, List.mem_map]
  constructor
  · rintro ⟨x, ⟨t, ht, hx⟩, hy⟩
    exact ⟨_, ⟨t, ht, rfl⟩, mem_vars_apply.2 ⟨x, hx, hy⟩⟩
  · rintro ⟨_, ⟨t, ht, rfl⟩, hy⟩
    obtain ⟨x, hx, hy⟩ := mem_vars_apply.1 hy
    exact ⟨x, ⟨t, ht, hx⟩, hy⟩

namespace Source

variable {D : Source} {s : Substitution} {args : List Term} {tuple : List Constant} {σ ν : Row}

theorem count_eq_one_iff {t : Term} {p : Nat} (hp : args[p]? = some t) :
    args.count t = 1 ↔ ∀ q : Nat, args[q]? = some t → q = p := by
  rw [← Atom.length_positions, List.length_eq_one_iff]
  have hmem (q : Nat) : q ∈ (List.range args.length).filter (fun p => args[p]? = some t) ↔
      args[q]? = some t := by
    rw [List.mem_filter, List.mem_range, decide_eq_true_iff]
    exact and_iff_right_of_imp fun h => (List.getElem?_eq_some_iff.1 h).1
  constructor
  · rintro ⟨r, hr⟩ q hq
    have hq' := (hmem q).2 hq
    have hp' := (hmem p).2 hp
    rw [hr, List.mem_singleton] at hq' hp'
    rw [hq', hp']
  · intro hall
    refine ⟨p, List.perm_singleton.1 ?_⟩
    refine (List.perm_ext_iff_of_nodup (List.nodup_range.filter _) (List.nodup_singleton p)).2 ?_
    intro q
    rw [hmem, List.mem_singleton]
    exact ⟨hall q, fun hq => hq ▸ hp⟩

/-- A row is the one that a tuple gives the arguments. -/
def Assigns (D : Source) (args : List Term) (tuple : List Constant) (σ : Row) : Prop :=
  σ.Supported (Term.varsOf args) ∧ args.length = tuple.length ∧
    ∀ (p : Nat) (t : Term) (v : Constant), args[p]? = some t → tuple[p]? = some v →
      D.eval σ t = v ∧ (v = .null → t.isVariable = true ∧ ∀ q : Nat, args[q]? = some t → q = p)

theorem fits_and_assign_eq_iff (hargs : ∀ t ∈ args, t.isVariable = true ∨ t.isGround = true) :
    (D.Fits args tuple ∧ assign args tuple = σ) ↔ D.Assigns args tuple σ := by
  constructor
  · rintro ⟨⟨hlength, hfits⟩, rfl⟩
    refine ⟨assign_supported args tuple, hlength, fun p t v ht hv => ?_⟩
    have hmem : (t, v) ∈ args.zip tuple :=
      List.mem_iff_getElem?.2 ⟨p, List.getElem?_zip_eq_some.2 ⟨ht, hv⟩⟩
    obtain ⟨heval, hnull⟩ := hfits _ hmem
    exact ⟨heval, fun h => (hnull h).imp_right fun hcount => (count_eq_one_iff ht).1 hcount⟩
  · rintro ⟨hσ, hlength, hplaces⟩
    have hassign : assign args tuple = σ := by
      refine (assign_supported args tuple).ext hσ fun x hx => ?_
      obtain ⟨q, hq, hvalue⟩ := exists_place hlength (Term.var_mem_of_mem_varsOf hargs hx)
      exact ((hplaces q _ _ hq hvalue).1).symm
    refine ⟨⟨hlength, fun pair hpair => ?_⟩, hassign⟩
    obtain ⟨p, hp⟩ := List.mem_iff_getElem?.1 hpair
    obtain ⟨ht, hv⟩ := List.getElem?_zip_eq_some.1 hp
    obtain ⟨heval, hnull⟩ := hplaces p pair.1 pair.2 ht hv
    rw [hassign]
    exact ⟨heval, fun h => (hnull h).imp_right fun hone => (count_eq_one_iff ht).2 hone⟩

theorem isVariable_of_isVariable_apply {t : Term} (ht : t.isVariable = true ∨ t.isGround = true)
    (h : (s.apply t).isVariable = true) : t.isVariable = true := by
  cases t with
  | var => rfl
  | const => exact h
  | app => rw [Substitution.apply_app] at h; cases h

theorem apply_of_isGround {t : Term} (h : t.isGround = true) : s.apply t = t := by
  have hnone : ∀ x ∈ t.vars, s.applyVar x = .var x :=
    fun x hx => absurd hx (Term.not_mem_vars_of_isGround h)
  exact Substitution.apply_of_fixed hnone

theorem apply_isVariable_or_isGround (hs : s.Flat) {t : Term}
    (ht : t.isVariable = true ∨ t.isGround = true) :
    (s.apply t).isVariable = true ∨ (s.apply t).isGround = true := by
  rcases ht with hvar | hground
  · obtain ⟨x, rfl⟩ := Term.exists_eq_var hvar
    rcases Term.eq_var_or_const (hs x) with ⟨y, hy⟩ | ⟨c, hc⟩
    · exact .inl (by rw [Substitution.apply_var, hy]; rfl)
    · exact .inr (by rw [Substitution.apply_var, hc]; rfl)
  · exact .inr (by rwa [apply_of_isGround hground])

/-- What a tuple gives the arguments under a substitution is the image of what it gives the
arguments. -/
theorem assigns_map_apply (hs : s.Flat)
    (hargs : ∀ t ∈ args, t.isVariable = true ∨ t.isGround = true) :
    D.Assigns (args.map s.apply) tuple ν ↔ ∃ σ, D.Assigns args tuple σ ∧
      Row.renamed? D.toInterpretation s (Term.varsOf args) σ = some ν := by
  simp only [Row.renamed?_eq_some hs]
  have hvar (x : Variable) (hx : x ∈ Term.varsOf args) : ∃ p : Nat, args[p]? = some (.var x) :=
    List.mem_iff_getElem?.1 (Term.var_mem_of_mem_varsOf hargs hx)
  constructor
  · rintro ⟨hν, hlength, hplaces⟩
    rw [List.length_map] at hlength
    let σ : Row := Row.cut (Term.varsOf args) fun x => D.eval ν (s.applyVar x)
    have hplace : ∀ (p : Nat) (t : Term) (v : Constant), args[p]? = some t → tuple[p]? = some v →
        D.eval ν (s.apply t) = v ∧ (v = .null → (s.apply t).isVariable = true ∧
          ∀ (q : Nat) (u : Term), args[q]? = some u → s.apply u = s.apply t → q = p) := by
      intro p t v ht hv
      obtain ⟨heval, hnull⟩ := hplaces p (s.apply t) v (by rw [List.getElem?_map, ht]; rfl) hv
      refine ⟨heval, fun h => ⟨(hnull h).1, fun q u hu hsame => (hnull h).2 q ?_⟩⟩
      rw [List.getElem?_map, hu, Option.map_some, hsame]
    refine ⟨σ, ⟨Row.supported_cut, hlength, fun p t v ht hv => ?_⟩, ?_, fun x hx => ?_⟩
    · obtain ⟨heval, hnull⟩ := hplace p t v ht hv
      have hmem : t ∈ args := List.mem_of_getElem? ht
      refine ⟨?_, fun h => ⟨?_, fun q hq => (hnull h).2 q t hq rfl⟩⟩
      · rw [← heval, Interpretation.eval_apply]
        exact Interpretation.eval_congr fun x hx => if_pos (Term.mem_varsOf.2 ⟨t, hmem, hx⟩)
      · exact isVariable_of_isVariable_apply (hargs t hmem) (hnull h).1
    · rwa [Substitution.applyVars_varsOf]
    · obtain ⟨p, hp⟩ := hvar x hx
      have hlt : p < tuple.length := hlength ▸ (List.getElem?_eq_some_iff.1 hp).1
      obtain ⟨heval, hnull⟩ := hplace p _ _ hp (List.getElem?_eq_getElem hlt)
      have hσ : σ x = D.eval ν (s.applyVar x) := if_pos hx
      refine ⟨hσ.symm, fun h => ?_⟩
      obtain ⟨hvariable, hone⟩ := hnull (heval.symm.trans (hσ.symm.trans h))
      refine ⟨hvariable, fun x' hx' hsame => ?_⟩
      obtain ⟨q, hq⟩ := hvar x' hx'
      have hpq : q = p := hone q _ hq hsame
      rw [hpq, hp] at hq
      exact (Term.var.inj (Option.some.inj hq)).symm
  · rintro ⟨σ, ⟨-, hlength, hplaces⟩, hν, hcorresponds⟩
    refine ⟨?_, by rw [List.length_map, hlength], fun p t' v ht' hv => ?_⟩
    · rwa [Substitution.applyVars_varsOf] at hν
    · rw [List.getElem?_map, Option.map_eq_some_iff] at ht'
      obtain ⟨t, ht, rfl⟩ := ht'
      have hmem : t ∈ args := List.mem_of_getElem? ht
      obtain ⟨heval, hnull⟩ := hplaces p t v ht hv
      refine ⟨?_, fun h => ?_⟩
      · rw [← heval, Interpretation.eval_apply]
        exact Interpretation.eval_congr fun x hx =>
          (hcorresponds x (Term.mem_varsOf.2 ⟨t, hmem, hx⟩)).1
      · obtain ⟨hvariable, hone⟩ := hnull h
        obtain ⟨x, rfl⟩ := Term.exists_eq_var hvariable
        have hx : x ∈ Term.varsOf args := Term.mem_varsOf.2 ⟨_, hmem, Term.mem_vars_var.2 rfl⟩
        obtain ⟨hvariable', hone'⟩ := (hcorresponds x hx).2 (heval.trans h)
        refine ⟨hvariable', fun q hq => ?_⟩
        rw [List.getElem?_map, Option.map_eq_some_iff] at hq
        obtain ⟨u, hu, hsame⟩ := hq
        have hmem' : u ∈ args := List.mem_of_getElem? hu
        have hu' : u.isVariable = true :=
          isVariable_of_isVariable_apply (s := s) (hargs u hmem') (hsame ▸ hvariable')
        obtain ⟨x', rfl⟩ := Term.exists_eq_var hu'
        have hx' : x' = x :=
          hone' x' (Term.mem_varsOf.2 ⟨_, hmem', Term.mem_vars_var.2 rfl⟩) hsame
        exact hone q (hx' ▸ hu)

theorem matching_eq_filterMap (tuples : List (List Constant)) :
    D.matching args tuples = tuples.filterMap fun tuple =>
      if D.Fits args tuple then some (assign args tuple) else none := by
  rw [matching, ← List.filterMap_eq_map', List.filterMap_filter]
  simp only [decide_eq_true_iff]

/-- The rows of an atom under a substitution are the images of its rows. -/
theorem matching_apply (hs : s.Flat)
    (hargs : ∀ t ∈ args, t.isVariable = true ∨ t.isGround = true) (tuples : List (List Constant)) :
    D.matching (args.map s.apply) tuples
      = Row.renamed D.toInterpretation s (Term.varsOf args) (D.matching args tuples) := by
  have hargs' : ∀ t ∈ args.map s.apply, t.isVariable = true ∨ t.isGround = true := by
    intro u hu
    obtain ⟨t, ht, rfl⟩ := List.mem_map.1 hu
    exact apply_isVariable_or_isGround hs (hargs t ht)
  have hone : ∀ tuple : List Constant,
      (if D.Fits (args.map s.apply) tuple then some (assign (args.map s.apply) tuple) else none)
        = (if D.Fits args tuple then some (assign args tuple) else none).bind
            (Row.renamed? D.toInterpretation s (Term.varsOf args)) := by
    intro tuple
    ext ν
    have hsome (as : List Term) (σ : Row) :
        (if D.Fits as tuple then some (assign as tuple) else none) = some σ ↔
          D.Fits as tuple ∧ assign as tuple = σ := by
      split <;> simp_all
    rw [hsome, fits_and_assign_eq_iff hargs', assigns_map_apply hs hargs, Option.bind_eq_some_iff]
    refine exists_congr fun σ => and_congr_left fun _ => ?_
    rw [hsome, fits_and_assign_eq_iff hargs]
  rw [matching_eq_filterMap, matching_eq_filterMap, Row.renamed, List.filterMap_filterMap]
  exact List.filterMap_congr fun tuple _ => hone tuple

end Source

end QueryAlgebra
