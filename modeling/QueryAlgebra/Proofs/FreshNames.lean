import QueryAlgebra.Proofs.CoreTree
import QueryAlgebra.Tree.Bindings

/-!
# Renaming to fresh names

Names handed out in turn differ from each other and from all that was known. So renaming to them is
injective, also on variables that keep their names, as long as these are known
(`Substitution.Renames`); and rows renamed so are as many as before, each with the same values.
-/

namespace QueryAlgebra

-- ---------------------------------------------------------------------------
-- Names handed out in turn
-- ---------------------------------------------------------------------------

namespace NameSupply

variable {supply : NameSupply} {bases : List Variable} {p : Variable × Variable}

theorem map_fst_freshForEach (supply : NameSupply) (bases : List Variable) :
    (supply.freshForEach bases).1.map Prod.fst = bases := by
  induction bases generalizing supply with
  | nil => rfl
  | cons base bases ih =>
    rw [freshForEach, List.map_cons, ih]

theorem not_known_of_mem_freshForEach (h : p ∈ (supply.freshForEach bases).1) :
    p.2 ∉ supply.known := by
  induction bases generalizing supply with
  | nil => cases h
  | cons base bases ih =>
    rcases List.mem_cons.1 h with rfl | h
    · exact fresh_not_known supply _
    · exact fun hknown => ih h (known_subset_fresh supply _ _ hknown)

theorem nodup_freshForEach (supply : NameSupply) (bases : List Variable) :
    ((supply.freshForEach bases).1.map Prod.snd).Nodup := by
  induction bases generalizing supply with
  | nil => exact List.nodup_nil
  | cons base bases ih =>
    rw [freshForEach, List.map_cons, List.nodup_cons]
    refine ⟨fun hmem => ?_, ih _⟩
    obtain ⟨p, hp, hsame⟩ := List.mem_map.1 hmem
    have hfresh := not_known_of_mem_freshForEach hp
    rw [hsame] at hfresh
    exact hfresh (fresh_known supply _)

/-- What was known stays known, and what is handed out is known from then on. -/
theorem known_freshForEach (supply : NameSupply) (bases : List Variable) :
    supply.known ⊆ (supply.freshForEach bases).2.known ∧
      ∀ p ∈ (supply.freshForEach bases).1, p.2 ∈ (supply.freshForEach bases).2.known := by
  induction bases generalizing supply with
  | nil => exact ⟨fun _ => id, List.forall_mem_nil _⟩
  | cons base bases ih =>
    obtain ⟨hkept, hnew⟩ := ih (supply.freshFrom base).2
    rw [freshForEach, List.forall_mem_cons]
    exact ⟨fun x hx => hkept x (known_subset_fresh supply _ x hx),
      hkept _ (fresh_known supply _), hnew⟩

end NameSupply

-- ---------------------------------------------------------------------------
-- Renamings
-- ---------------------------------------------------------------------------

namespace Substitution

variable {I : Interpretation} {names : Substitution} {xs ys known : VarSet} {x y : Variable}
  {ρ : Row}

/-- The variables of `xs` get different names that are not known; other variables keep theirs. -/
structure Renames (xs known : VarSet) (names : Substitution) : Prop where
  fixed : ∀ x, x ∉ xs → names.applyVar x = .var x
  fresh : ∀ x ∈ xs, ∃ y, names.applyVar x = .var y ∧ y ∉ known
  injective : ∀ x ∈ xs, ∀ x' ∈ xs, names.applyVar x' = names.applyVar x → x' = x

namespace Renames

variable (h : names.Renames xs known)
include h

theorem exists_eq_var (x : Variable) : ∃ y, names.applyVar x = .var y := by
  by_cases hx : x ∈ xs
  · obtain ⟨y, hy, -⟩ := h.fresh x hx
    exact ⟨y, hy⟩
  · exact ⟨x, h.fixed x hx⟩

theorem flat : names.Flat := by
  intro x
  obtain ⟨y, hy⟩ := h.exists_eq_var x
  rw [hy]
  rfl

/-- A known name is only what it was before. -/
theorem eq_of_known (hy : y ∈ known) (hxy : names.applyVar x = .var y) : x = y ∧ x ∉ xs := by
  by_cases hx : x ∈ xs
  · obtain ⟨z, hz, hzknown⟩ := h.fresh x hx
    rw [hz] at hxy
    exact absurd (Term.var.inj hxy ▸ hy) hzknown
  · rw [h.fixed x hx] at hxy
    exact ⟨Term.var.inj hxy, hx⟩

/-- Known variables keep different names. -/
theorem injective_of_known (hys : ys ⊆ known) :
    ∀ x ∈ ys, ∀ x' ∈ ys, names.applyVar x' = names.applyVar x → x' = x := by
  intro x hx x' hx' hsame
  by_cases hmem : x ∈ xs
  · by_cases hmem' : x' ∈ xs
    · exact h.injective x hmem x' hmem' hsame
    · rw [h.fixed x' hmem'] at hsame
      exact absurd hmem (h.eq_of_known (hys x' hx') hsame.symm).2
  · rw [h.fixed x hmem] at hsame
    exact (h.eq_of_known (hys x hx) hsame).1

theorem of_mem_applyVars (hy : y ∈ names.applyVars ys) : (y ∈ ys ∧ y ∉ xs) ∨ y ∉ known := by
  by_cases hknown : y ∈ known
  · obtain ⟨x, hx, hxy⟩ := h.flat.mem_applyVars.1 hy
    obtain ⟨rfl, hxs⟩ := h.eq_of_known hknown hxy
    exact .inl ⟨hx, hxs⟩
  · exact .inr hknown

theorem isVariable (x : Variable) : (names.applyVar x).isVariable = true := by
  obtain ⟨y, hy⟩ := h.exists_eq_var x
  rw [hy]
  rfl

/-- The new names are not renamed in turn. -/
theorem settled (hxs : xs ⊆ known) : names.Settled := by
  intro x y hxy
  by_cases hx : x ∈ xs
  · obtain ⟨z, hz, hfresh⟩ := h.fresh x hx
    rw [hz] at hxy
    obtain rfl := Term.var.inj hxy
    exact h.fixed z fun hmem => hfresh (hxs z hmem)
  · obtain rfl := Term.var.inj ((h.fixed x hx).symm.trans hxy)
    exact hxy

/-- Every row over known variables has an image. -/
theorem renamed_eq_map (hys : ys ⊆ known) (rows : List Row) :
    Row.renamed I names ys rows = rows.map (Row.image names ys) :=
  Row.renamed_of_injective h.flat (fun x _ => h.isVariable x) (h.injective_of_known hys) rows

/-- The image has the values that the row had. -/
theorem corresponds_image (hys : ys ⊆ known) (ρ : Row) :
    Row.Corresponds I names ys (Row.image names ys ρ) ρ :=
  ((Row.renamed?_eq_some h.flat).1 (Row.renamed?_of_injective h.flat (fun x _ => h.isVariable x)
    (h.injective_of_known hys))).2

/-- No term becomes a known variable that is bound to it. -/
theorem apply_ne_var {s : Substitution} {t : Term} (hx : x ∈ known) (hfind : s.find? x = some t) :
    names.apply t ≠ .var x := by
  intro hsame
  cases t with
  | var v =>
    obtain ⟨rfl, -⟩ := h.eq_of_known hx hsame
    exact s.proper v hfind
  | const c => cases hsame
  | app f args =>
    rw [apply_app] at hsame
    cases hsame

theorem domain_mapTerms {s : Substitution} (hs : s.domain ⊆ known) :
    (s.mapTerms names.apply).domain = s.domain :=
  Substitution.domain_mapTerms fun x t ht => h.apply_ne_var (hs x (mem_domain.2 ⟨t, ht⟩)) ht

/-- Bound variables that are known are used in a binding as little as before. -/
theorem disjoint_mapTerms {s : Substitution} (hs : s.domain ⊆ known)
    (hdisjoint : s.domain.Disjoint s.rangeVars) :
    (s.mapTerms names.apply).domain.Disjoint (s.mapTerms names.apply).rangeVars := by
  intro y hy hrange
  have hy : y ∈ s.domain := h.domain_mapTerms hs ▸ hy
  obtain ⟨x, u, hx, hyu⟩ := mem_rangeVars.1 hrange
  obtain ⟨t, ht, rfl⟩ := exists_find?_of_mapTerms hx
  obtain ⟨v, hv, hyv⟩ := mem_vars_apply.1 hyu
  -- no other variable was renamed to a known one
  obtain ⟨rfl, -⟩ := h.eq_of_known (hs y hy) (h.flat.mem_vars_applyVar.1 hyv)
  exact hdisjoint v hy (mem_rangeVars.2 ⟨x, t, ht, hv⟩)

end Renames

variable {pairs : List (Variable × Variable)}

theorem applyVar_renameEach (hnodup : (pairs.map Prod.fst).Nodup) (h : (x, y) ∈ pairs) :
    (renameEach pairs).applyVar x = .var y := by
  refine applyVar_ofList (List.mem_map.2 ⟨(x, y), h, rfl⟩) fun t ht => ?_
  obtain ⟨p, hp, he⟩ := List.mem_map.1 ht
  have hfst : p.1 = x := congrArg Prod.fst he
  have hsame : p = (x, y) := List.inj_on_of_nodup_map hnodup hp h hfst
  rw [hsame] at he
  exact (congrArg Prod.snd he).symm

theorem applyVar_renameEach_of_not_mem (h : x ∉ pairs.map Prod.fst) :
    (renameEach pairs).applyVar x = .var x := by
  refine applyVar_ofList_of_not_mem fun t ht => h ?_
  obtain ⟨p, hp, he⟩ := List.mem_map.1 ht
  exact List.mem_map.2 ⟨p, hp, congrArg Prod.fst he⟩

theorem flat_renameEach : (renameEach pairs).Flat := by
  intro x
  cases hfind : (renameEach pairs).find? x with
  | none =>
    rw [applyVar_of_not_binds hfind]
    rfl
  | some t =>
    obtain ⟨p, -, he⟩ := List.mem_map.1 (mem_of_find?_ofList hfind)
    cases he
    rw [applyVar_of_find? hfind]
    rfl

end Substitution

theorem NameSupply.applyVars_freshRenaming {supply : NameSupply} {xs ys : VarSet}
    (hys : ys ⊆ supply.known) :
    (supply.freshRenaming xs).1.applyVars ys ⊆ (supply.freshRenaming xs).2.known := by
  obtain ⟨hkept, hnew⟩ := supply.known_freshForEach xs.toList
  intro y hy
  obtain ⟨x, hx, hxy⟩ := Substitution.flat_renameEach.mem_applyVars.1 hy
  cases hfind : (supply.freshRenaming xs).1.find? x with
  | none =>
    obtain rfl := Term.var.inj (hxy.symm.trans (Substitution.applyVar_of_not_binds hfind))
    exact hkept y (hys y hx)
  | some t =>
    obtain ⟨p, hp, he⟩ := List.mem_map.1 (Substitution.mem_of_find?_ofList hfind)
    cases he
    obtain rfl := Term.var.inj ((Substitution.applyVar_of_find? hfind).symm.trans hxy)
    exact hnew p hp

/-- Each of the variables is renamed to the name that was handed out for it. -/
theorem NameSupply.exists_freshRenaming (supply : NameSupply) {xs : VarSet} {x : Variable}
    (hx : x ∈ xs) : ∃ y, (x, y) ∈ (supply.freshForEach xs.toList).1 ∧
      (supply.freshRenaming xs).1.applyVar x = .var y := by
  have hfst := supply.map_fst_freshForEach xs.toList
  have hmem : x ∈ (supply.freshForEach xs.toList).1.map Prod.fst := by
    rw [hfst]
    exact hx
  have hnodup : ((supply.freshForEach xs.toList).1.map Prod.fst).Nodup := by
    rw [hfst]
    exact xs.nodup
  obtain ⟨⟨_, y⟩, hp, rfl⟩ := List.mem_map.1 hmem
  exact ⟨y, hp, Substitution.applyVar_renameEach hnodup hp⟩

theorem NameSupply.renames_freshRenaming (supply : NameSupply) (xs : VarSet) :
    (supply.freshRenaming xs).1.Renames xs supply.known := by
  refine ⟨fun x hx => ?_, fun x hx => ?_, fun x hx x' hx' hsame => ?_⟩
  · apply Substitution.applyVar_renameEach_of_not_mem
    rw [supply.map_fst_freshForEach]
    exact hx
  · obtain ⟨y, hy, happly⟩ := supply.exists_freshRenaming hx
    exact ⟨y, happly, not_known_of_mem_freshForEach hy⟩
  · obtain ⟨y, hy, happly⟩ := supply.exists_freshRenaming hx
    obtain ⟨y', hy', happly'⟩ := supply.exists_freshRenaming hx'
    have hyy : y' = y := Term.var.inj (happly'.symm.trans (hsame.trans happly))
    have hpairs := List.inj_on_of_nodup_map (supply.nodup_freshForEach xs.toList) hy' hy hyy
    exact congrArg Prod.fst hpairs

-- ---------------------------------------------------------------------------
-- Constructions over renamed children
-- ---------------------------------------------------------------------------

namespace Tree

variable {D : Database} {f : Fragment} {m m' : Bool} {projected clashes known : VarSet}
  {bindings names : Substitution} {child child' : Tree}

/-- Only projected variables are bound. -/
theorem domain_subset_of_core (h : (construct m projected bindings child).RootCore f) :
    bindings.domain ⊆ projected := Substitution.domain_subset_of_fixed h.1

/-- The renamed bindings compute the renamed terms, provided that what is passed through keeps its
name. -/
theorem applyVar_mapTerms_names {x : Variable} (hnames : names.Renames clashes known)
    (hpassed : ∀ x ∈ projected, x ∉ bindings.domain → x ∉ clashes) (hx : x ∈ projected) :
    (bindings.mapTerms names.apply).applyVar x = names.apply (bindings.applyVar x) := by
  rw [Substitution.applyVar_mapTerms]
  cases hfind : bindings.find? x with
  | some t =>
    rw [Substitution.applyVar_of_find? hfind]
    rfl
  | none =>
    have hunbound : x ∉ bindings.domain := by
      intro hmem
      obtain ⟨t, ht⟩ := Substitution.mem_domain.1 hmem
      rw [hfind] at ht
      cases ht
    rw [Substitution.applyVar_of_not_binds hfind, Substitution.apply_var,
      hnames.fixed x (hpassed x hx hunbound)]
    rfl

section Renamed

variable (h : (construct m projected bindings child).RootCore f)
  (hnames : names.Renames clashes known) (hprojected : projected ⊆ known)
  (hpassed : ∀ x ∈ projected, x ∉ bindings.domain → x ∉ clashes)
include h hnames hpassed

include hprojected in
theorem rootCore_of_renamed (hvars : child'.vars = names.applyVars child.vars) :
    (construct m' projected (bindings.mapTerms names.apply) child').RootCore f := by
  have hadmissible := h.2.1
  have hdomain : (bindings.mapTerms names.apply).domain = bindings.domain :=
    hnames.domain_mapTerms fun x hx => hprojected x (domain_subset_of_core h x hx)
  have hknown : bindings.domain ⊆ known := fun x hx => hprojected x (domain_subset_of_core h x hx)
  refine ⟨fun x hx => ?_, fun x hx => ?_, hnames.disjoint_mapTerms hknown h.2.2⟩
  · have hunbound : x ∉ (bindings.mapTerms names.apply).domain := fun hmem =>
      hx (domain_subset_of_core h x (hdomain ▸ hmem))
    exact Substitution.applyVar_of_not_binds (Substitution.find?_of_not_mem_domain hunbound)
  · rw [applyVar_mapTerms_names hnames hpassed hx, hvars]
    refine (hadmissible x hx).apply fun v hv => ?_
    obtain ⟨w, hw⟩ := hnames.exists_eq_var v
    rw [hw]
    exact .var (hnames.flat.mem_applyVars.2 ⟨v, hv, hw⟩)

omit h in
/-- Renamed bindings compute from renamed rows what the bindings compute from the rows. -/
theorem map_constructed_renamed {scope : VarSet}
    (hvars : ∀ x ∈ projected, (bindings.applyVar x).vars ⊆ scope) (hscope : scope ⊆ known)
    (rows : List Row) :
    (Row.renamed D.toInterpretation names scope rows).map
        (D.constructed projected (bindings.mapTerms names.apply))
      = rows.map (D.constructed projected bindings) := by
  rw [hnames.renamed_eq_map hscope, List.map_map]
  refine List.map_congr_left fun ρ _ => funext fun x => ?_
  rw [Function.comp_apply, Source.constructed, Source.constructed]
  split
  · next hx =>
    rw [applyVar_mapTerms_names hnames hpassed hx,
      (hnames.corresponds_image hscope ρ).eval_apply (hvars x hx)]
  · rfl

end Renamed

end Tree

end QueryAlgebra
