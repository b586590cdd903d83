import QueryAlgebra.Proofs.Pushdown.Padding
import QueryAlgebra.Proofs.Scope.Lifting

/-!
# Rows over lifted bindings

A construction below a join moves above it: the join then reads what the construction computes from
its child, and the other side of the join has to compare with that. Where the construction binds a
variable that the other side has as well, the other side gets the bound variable or constant in its
place, or a fresh variable that the condition of the join sets equal to the bound term.

All that matters of what the other side takes in is a correspondence between its variables and terms
over the child (`Substitution.Relays`). It makes a row of the construction match a row of the other
side exactly if the row below the construction matches its image, and then the construction above the
join computes the joined row (`Source.matched_constructed`). So a left row matches nothing exactly if
it matched nothing before (`Source.leftJoined_constructed`).

For that, what the construction hides must not meet the other side by name. New names for it keep
that from happening and change nothing about what is computed (`Substitution.Renames.map_constructed`).
-/

namespace QueryAlgebra

open QueryAlgebra.Except (Ends)

variable {D : Database} {s bindings : Substitution} {projected scope ys : VarSet}
  {es : List Expression} {condition? : Option Expression} {rows : List Row} {ρ τ τ' : Row}
  {x y : Variable} {t u : Term}

-- ---------------------------------------------------------------------------
-- What is learned of the bindings
-- ---------------------------------------------------------------------------

/-- A substitution and equalities that tell a side over `ys` of bindings that compute `projected` from
`scope`: what both sides have is replaced by what it is bound to, or by a variable of its own that is
equal to that. -/
structure Substitution.Relays (bindings : Substitution) (projected scope ys : VarSet)
    (s : Substitution) (es : List Expression) : Prop where
  flat : s.Flat
  own : ∀ x ∈ ys, x ∉ projected → s.applyVar x = .var x
  shared : ∀ x ∈ ys, x ∈ projected →
    (s.applyVar x = bindings.applyVar x ∧ bindings.applyVar x ≠ .const .null) ∨
      ∃ y, s.applyVar x = .var y ∧ y ∉ scope ∧ y ∉ ys ∧ .eq (.var y) (bindings.applyVar x) ∈ es ∧
        ∀ x' ∈ ys, s.applyVar x' = .var y → x' = x
  equality : ∀ e ∈ es, ∃ x ∈ ys, x ∈ projected ∧ ∃ y, s.applyVar x = .var y ∧ y ∉ scope ∧
    e = .eq (.var y) (bindings.applyVar x)

theorem Tree.LiftedBindings.Takes.relays {known : VarSet} {ds : List (Variable × Term)}
    (h : Takes ys known bindings.bindings ds es) (hbindings : bindings.Computes projected scope)
    (hscope : scope ⊆ known) (hys : ys ⊆ known) :
    bindings.Relays projected scope ys (.ofList ds) es := by
  have hnodup : (ds.map Prod.fst).Nodup := h.sublist.nodup bindings.domain.nodup
  have happly {x : Variable} {u : Term} (hu : (x, u) ∈ ds) :
      (Substitution.ofList ds).applyVar x = u :=
    Substitution.applyVar_ofList hu fun u' hu' =>
      congrArg Prod.snd (List.inj_on_of_nodup_map hnodup hu' hu rfl)
  have hbound {x : Variable} {t : Term} (ht : (x, t) ∈ bindings.bindings) :
      x ∈ projected ∧ bindings.applyVar x = t ∧ t.vars ⊆ scope := by
    have hfind := Substitution.mem_bindings.1 ht
    have hx := Substitution.domain_subset_of_fixed hbindings.fixed x
      (Substitution.mem_domain.2 ⟨t, hfind⟩)
    have hterm := Substitution.applyVar_of_find? hfind
    exact ⟨hx, hterm, hterm ▸ hbindings.vars_subset x hx⟩
  have hvars : ∀ b ∈ bindings.bindings, b.2.vars ⊆ known :=
    fun b hb x hx => hscope x ((hbound hb).2.2 x hx)
  -- a variable is replaced by what stands for its binding, or not bound
  have hcases (x : Variable) : (∃ u, (x, u) ∈ ds) ∨ (Substitution.ofList ds).applyVar x = .var x := by
    by_cases hx : ∃ u, (x, u) ∈ ds
    · exact .inl hx
    · exact .inr (Substitution.applyVar_ofList_of_not_mem fun u hu => hx ⟨u, hu⟩)
  refine ⟨fun x => ?_, fun x _ hx => ?_, fun x hx hxp => ?_, fun e he => ?_⟩
  · rcases hcases x with ⟨u, hu⟩ | hsame
    · rw [happly hu]
      obtain ⟨-, t, -, ⟨rfl, ht, -⟩ | ⟨y, rfl, -⟩⟩ := h.exists_binding hu
      · exact ht
      · rfl
    · rw [hsame]
      rfl
  · rcases hcases x with ⟨u, hu⟩ | hsame
    · obtain ⟨-, t, ht, -⟩ := h.exists_binding hu
      exact absurd (hbound ht).1 hx
    · exact hsame
  · cases hfind : bindings.find? x with
    | none =>
      rw [Substitution.applyVar_of_not_binds hfind]
      refine .inl ⟨(hcases x).resolve_left ?_, nofun⟩
      rintro ⟨u, hu⟩
      obtain ⟨-, t, ht, -⟩ := h.exists_binding hu
      rw [Substitution.mem_bindings.1 ht] at hfind
      cases hfind
    | some t =>
      have ht := Substitution.mem_bindings.2 hfind
      obtain ⟨u, hu⟩ := h.exists_replacement ht hx
      obtain ⟨-, t', ht', hstands⟩ := h.exists_binding hu
      obtain rfl : t' = t :=
        Option.some.inj ((Substitution.mem_bindings.1 ht').symm.trans hfind)
      rw [happly hu, Substitution.applyVar_of_find? hfind]
      refine hstands.imp (fun hdirect => ⟨hdirect.1, hdirect.2.2⟩) ?_
      rintro ⟨y, rfl, hy, he⟩
      refine ⟨y, rfl, fun hmem => hy (hscope y hmem), fun hmem => hy (hys y hmem), he,
        fun x' hx' hsame => ?_⟩
      rcases hcases x' with ⟨u, hu'⟩ | hfixed
      · rw [happly hu'] at hsame
        exact h.eq_of_fresh hvars hy hu (hsame ▸ hu')
      · obtain rfl := Term.var.inj (hfixed.symm.trans hsame)
        exact absurd (hys x' hx') hy
  · obtain ⟨x, hx, y, t, ht, hu, hy, rfl⟩ := h.of_mem_equalities he
    obtain ⟨hxp, hterm, -⟩ := hbound ht
    exact ⟨x, hx, hxp, y, happly hu, fun hmem => hy (hscope y hmem), by rw [hterm]⟩

-- ---------------------------------------------------------------------------
-- Rows that match
-- ---------------------------------------------------------------------------

/-- Bindings only look at what they compute from. -/
theorem Substitution.Computes.eval_merge (h : bindings.Computes projected scope)
    (hx : x ∈ projected) :
    D.eval (Row.merge scope ρ τ) (bindings.applyVar x) = D.constructed projected bindings ρ x := by
  rw [Source.constructed, if_pos hx]
  exact Interpretation.eval_congr fun y hy => Row.merge_left (h.vars_subset x hx y hy)

namespace Substitution.Relays

variable (h : bindings.Relays projected scope ys s es)
  (hbindings : bindings.Computes projected scope) (hhidden : ∀ x ∈ ys, x ∈ scope → x ∈ projected)
include h hbindings hhidden

/-- Only variables that both sides have are sent to where another one is. -/
theorem mem_projected {x' : Variable} (hx : x ∈ ys) (hx' : x' ∈ ys)
    (hsame : s.applyVar x' = s.applyVar x) (hne : x' ≠ x) : x ∈ projected := by
  by_contra hxp
  rw [h.own x hx hxp] at hsame
  by_cases hxp' : x' ∈ projected
  · rcases h.shared x' hx' hxp' with ⟨hbound, -⟩ | ⟨y, hy, -, hys, -⟩
    · refine hxp (hhidden x hx (hbindings.vars_subset x' hxp' x ?_))
      rw [← hbound, hsame]
      exact Term.mem_vars_var.2 rfl
    · exact hys (Term.var.inj (hy.symm.trans hsame) ▸ hx)
  · exact hne (Term.var.inj ((h.own x' hx' hxp').symm.trans hsame))

/-- A row that joins a computed one has an image. -/
theorem meets (hjoins : Row.Joins projected ys (D.constructed projected bindings ρ) τ) :
    τ.Meets s ys := by
  have hvalue {x : Variable} (hx : x ∈ ys) (hxp : x ∈ projected) :
      D.eval ρ (bindings.applyVar x) = τ x ∧ τ x ≠ .null := by
    obtain ⟨he, hne⟩ := hjoins x hxp hx
    rw [Source.constructed, if_pos hxp] at he hne
    exact ⟨he, he ▸ hne⟩
  refine fun x hx => ⟨?_, fun x' hx' hsame hne => ?_⟩
  · by_cases hxp : x ∈ projected
    · rcases h.shared x hx hxp with ⟨hbound, -⟩ | ⟨y, hy, -⟩
      · obtain ⟨hτ, hne⟩ := hvalue hx hxp
        rcases Term.eq_var_or_const (h.flat x) with ⟨z, hz⟩ | ⟨c, hc⟩
        · exact .inl (by rw [hz]; rfl)
        · rw [← hbound, hc] at hτ
          exact .inr ⟨hc.trans (congrArg _ hτ), hne⟩
      · exact .inl (by rw [hy]; rfl)
    · exact .inl (by rw [h.own x hx hxp]; rfl)
  · have hxp := h.mem_projected hbindings hhidden hx hx' hsame hne
    have hxp' := h.mem_projected hbindings hhidden hx' hx hsame.symm (Ne.symm hne)
    refine ⟨?_, (hvalue hx hxp).2⟩
    rcases h.shared x hx hxp with ⟨hbound, -⟩ | ⟨y, hy, -, -, -, hone⟩
    · rcases h.shared x' hx' hxp' with ⟨hbound', -⟩ | ⟨y, hy, -, -, -, hone⟩
      · rw [← (hvalue hx hxp).1, ← (hvalue hx' hxp').1, ← hbound, ← hbound', hsame]
      · exact absurd (hone x hx (hsame.symm.trans hy)).symm hne
    · exact absurd (hone x' hx' (hsame.trans hy)) hne

/-- A row joins a computed one exactly if its image joins what that is computed from and passes the
equalities. -/
theorem joins_iff (hτ : Row.Corresponds D.toInterpretation s ys τ' τ) :
    Row.Joins projected ys (D.constructed projected bindings ρ) τ ↔
      Row.Joins scope (s.applyVars ys) ρ τ' ∧ ∀ e ∈ es, D.Holds (Row.merge scope ρ τ') e := by
  have himage {x z : Variable} (hx : x ∈ ys) (hz : s.applyVar x = .var z) : τ' z = τ x := by
    have hvalue := (hτ x hx).1
    rwa [hz] at hvalue
  constructor
  · refine fun hjoins => ⟨fun z hz hzys => ?_, fun e he => ?_⟩
    · obtain ⟨x, hx, hxz⟩ := h.flat.mem_applyVars.1 hzys
      by_cases hxp : x ∈ projected
      · rcases h.shared x hx hxp with ⟨hbound, -⟩ | ⟨y, hy, hscope, -⟩
        · have hρ := hjoins x hxp hx
          rw [Source.constructed, if_pos hxp, ← hbound, hxz, Interpretation.eval_var] at hρ
          rwa [himage hx hxz]
        · exact absurd (Term.var.inj (hxz.symm.trans hy) ▸ hz) hscope
      · obtain rfl := Term.var.inj (hxz.symm.trans (h.own x hx hxp))
        exact absurd (hhidden z hx hz) hxp
    · obtain ⟨x, hx, hxp, y, hxy, hy, rfl⟩ := h.equality e he
      have hvalue : Row.merge scope ρ τ' y = τ x := (if_neg hy).trans (himage hx hxy)
      obtain ⟨hsame, hne⟩ := hjoins x hxp hx
      rw [Interpretation.holds_eq, Interpretation.eval_var, hvalue, hbindings.eval_merge hxp]
      exact ⟨hsame.symm, hsame ▸ hne⟩
  · rintro ⟨hjoins, hequalities⟩ x (hxp : x ∈ projected) hx
    rcases h.shared x hx hxp with ⟨hbound, hnull⟩ | ⟨y, hy, hscope, -, he, -⟩
    · rw [Source.constructed, if_pos hxp]
      rcases Term.eq_var_or_const (h.flat x) with ⟨z, hz⟩ | ⟨c, hc⟩
      · have hzs : z ∈ scope := hbindings.vars_subset x hxp z
          (hbound ▸ hz ▸ Term.mem_vars_var.2 rfl)
        rw [← hbound, hz, Interpretation.eval_var, ← himage hx hz]
        exact hjoins z hzs (h.flat.mem_applyVars.2 ⟨x, hx, hz⟩)
      · have hvalue := (hτ x hx).1
        rw [hc] at hvalue
        rw [← hbound, hc] at hnull ⊢
        exact ⟨hvalue, fun hc => hnull (congrArg _ hc)⟩
    · have hvalue : Row.merge scope ρ τ' y = τ x := (if_neg hscope).trans (himage hx hy)
      obtain ⟨hsame, hne⟩ := Interpretation.holds_eq.1 (hequalities _ he)
      rw [Interpretation.eval_var, hvalue, hbindings.eval_merge hxp] at hsame
      rw [Interpretation.eval_var, hvalue] at hne
      exact ⟨hsame.symm, hsame ▸ hne⟩

/-- The lifted bindings compute the joined row. -/
theorem constructed_merge (hτ : Row.Corresponds D.toInterpretation s ys τ' τ)
    (hsupported : τ.Supported ys) :
    D.constructed (projected ∪ ys) bindings (Row.merge scope ρ τ')
      = Row.merge projected (D.constructed projected bindings ρ) τ := by
  funext x
  by_cases hxp : x ∈ projected
  · rw [Row.merge_left hxp, ← hbindings.eval_merge (τ := τ') hxp]
    exact if_pos (SortedSet.mem_union.2 (.inl hxp))
  · rw [Row.merge, if_neg hxp, Source.constructed]
    split
    · next hmem =>
      have hx := (SortedSet.mem_union.1 hmem).resolve_left hxp
      have hvalue := (hτ x hx).1
      rw [h.own x hx hxp] at hvalue
      rw [hbindings.fixed x hxp, Interpretation.eval_var, Row.merge,
        if_neg fun hscope => hxp (hhidden x hx hscope)]
      exact hvalue
    · next hmem => exact (hsupported x fun hx => hmem (SortedSet.mem_union.2 (.inr hx))).symm

end Substitution.Relays

namespace Source

/-- What a row matches, element by element. -/
theorem matched_eq_filterMap {xs : VarSet} : D.matched xs ys condition? rows ρ
    = rows.filterMap fun τ => (Row.joined? xs ys ρ τ).filter fun ν => D.HoldsOptional ν condition? := by
  rw [matched, Row.joinedWith_eq_filterMap, List.filter_filterMap]

/-- A shared variable that is bound to NULL matches nothing. -/
theorem matched_constructed_of_null (hx : x ∈ projected) (hxys : x ∈ ys)
    (hnull : bindings.applyVar x = .const .null) (ρ : Row) :
    D.matched projected ys condition? rows (D.constructed projected bindings ρ) = [] := by
  rw [List.eq_nil_iff_forall_not_mem]
  intro τ hτ
  obtain ⟨τ', -, hjoins, -⟩ := Row.mem_joinedWith.1 (List.mem_filter.1 hτ).1
  refine (hjoins x hx hxys).2 ?_
  rw [constructed, if_pos hx, hnull]
  rfl

variable (h : bindings.Relays projected scope ys s es)
  (hbindings : bindings.Computes projected scope) (hhidden : ∀ x ∈ ys, x ∈ scope → x ∈ projected)
  (hcondition : ∀ c ∈ condition?, c.vars ⊆ projected ∪ ys) (hrows : ∀ τ ∈ rows, τ.Supported ys)
include h hbindings hhidden hcondition hrows

/-- A computed row matches what the row that it is computed from matches under the lifted
condition. -/
theorem matched_constructed (ρ : Row) :
    D.matched projected ys condition? rows (D.constructed projected bindings ρ)
      = (D.matched scope (s.applyVars ys)
          (Expression.andOptional (condition?.map bindings.applyExpression)
            (Expression.conjunction es))
          (Row.renamed D.toInterpretation s ys rows) ρ).map
        (D.constructed (projected ∪ ys) bindings) := by
  rw [matched_eq_filterMap, matched_eq_filterMap, Row.renamed, List.filterMap_filterMap,
    List.map_filterMap]
  refine List.filterMap_congr fun τ hτ => Option.ext fun ν => ?_
  simp only [Option.filter_eq_some_iff, Option.map_eq_some_iff, Option.bind_eq_some_iff,
    Row.joined?_eq_some, Row.renamed?_eq_some h.flat, decide_eq_true_iff,
    Interpretation.holdsOptional_andOptional, Interpretation.holdsOptional_conjunction]
  constructor
  · rintro ⟨⟨hjoins, rfl⟩, hholds⟩
    have hmeets := h.meets hbindings hhidden hjoins
    have hcorresponds := (Row.corresponds_image (I := D.toInterpretation) h.flat).2 hmeets
    obtain ⟨hjoins', hequalities⟩ := (h.joins_iff hbindings hhidden hcorresponds).1 hjoins
    have hrow := h.constructed_merge hbindings hhidden (ρ := ρ) hcorresponds (hrows τ hτ)
    refine ⟨_, ⟨_, ⟨Row.image_supported, hcorresponds⟩, ⟨hjoins', rfl⟩, ?_, hequalities⟩, hrow⟩
    rwa [holdsOptional_constructed hcondition, hrow]
  · rintro ⟨_, ⟨τ', ⟨-, hcorresponds⟩, ⟨hjoins', rfl⟩, hholds, hequalities⟩, rfl⟩
    have hrow := h.constructed_merge hbindings hhidden (ρ := ρ) hcorresponds (hrows τ hτ)
    rw [holdsOptional_constructed hcondition, hrow] at hholds
    rw [hrow]
    exact ⟨⟨(h.joins_iff hbindings hhidden hcorresponds).2 ⟨hjoins', hequalities⟩, rfl⟩, hholds⟩

/-- A computed row is padded where the row that it is computed from is. -/
theorem leftJoined_constructed (hρ : ρ.Supported scope) :
    D.leftJoined projected ys condition? rows (D.constructed projected bindings ρ)
      = (D.leftJoined scope (s.applyVars ys)
          (Expression.andOptional (condition?.map bindings.applyExpression)
            (Expression.conjunction es))
          (Row.renamed D.toInterpretation s ys rows) ρ).map
        (D.constructed (projected ∪ ys) bindings) := by
  have hpadded : D.constructed (projected ∪ ys) bindings ρ = D.constructed projected bindings ρ := by
    funext x
    by_cases hxp : x ∈ projected
    · rw [constructed, constructed, if_pos hxp, if_pos (SortedSet.mem_union.2 (.inl hxp))]
    · rw [constructed, constructed, if_neg hxp]
      split
      · next hmem =>
        have hx := (SortedSet.mem_union.1 hmem).resolve_left hxp
        rw [hbindings.fixed x hxp]
        exact hρ x fun hscope => hxp (hhidden x hx hscope)
      · rfl
  rw [leftJoined_eq, leftJoined_eq,
    matched_constructed h hbindings hhidden hcondition hrows ρ, List.isEmpty_map]
  split
  · rw [List.map_singleton, hpadded]
  · rfl

end Source

-- ---------------------------------------------------------------------------
-- What a construction hides
-- ---------------------------------------------------------------------------

/-- The variables below a construction that need other names before a side over `ys` meets them. -/
def Tree.hiddenClashes (projected : VarSet) (bindings : Substitution) (scope ys : VarSet) : VarSet :=
  scope.filter fun x => x ∉ projected ∧ (x ∈ ys ∨ bindings.binds x)

section Renamed

variable {names : Substitution} {known : VarSet}
  (hnames : names.Renames (Tree.hiddenClashes projected bindings scope ys) known)
include hnames

/-- What is projected keeps its name. -/
theorem Substitution.Renames.applyVar_projected (hx : x ∈ projected) : names.applyVar x = .var x :=
  hnames.fixed x fun hclash => (of_decide_eq_true (SortedSet.mem_filter.1 hclash).2).1 hx

theorem Substitution.Renames.computes_mapTerms (hbindings : bindings.Computes projected scope) :
    (bindings.mapTerms names.apply).Computes projected (names.applyVars scope) :=
  hbindings.rename fun _ hx _ => hnames.applyVar_projected hx

/-- Under the new names, only what is projected is shared with the other side. -/
theorem Substitution.Renames.mem_projected_of_shared (hys : ys ⊆ known) (hx : x ∈ ys)
    (hscope : x ∈ names.applyVars scope) : x ∈ projected := by
  rcases hnames.of_mem_applyVars hscope with ⟨hmem, hclash⟩ | hfresh
  · by_contra hxp
    exact hclash (SortedSet.mem_filter.2 ⟨hmem, decide_eq_true ⟨hxp, .inl hx⟩⟩)
  · exact absurd (hys x hx) hfresh

theorem Substitution.Renames.map_constructed (hbindings : bindings.Computes projected scope)
    (hscope : scope ⊆ known) (rows : List Row) :
    (Row.renamed D.toInterpretation names scope rows).map
        (D.constructed projected (bindings.mapTerms names.apply))
      = rows.map (D.constructed projected bindings) :=
  Tree.map_constructed_renamed hnames
    (fun _ hx _ hclash => (of_decide_eq_true (SortedSet.mem_filter.1 hclash).2).1 hx)
    hbindings.vars_subset hscope rows

end Renamed

/-- All that a side learns, if it knew nothing before. -/
theorem Tree.LiftedBindings.Adds.relays {known : VarSet} {parts : LiftedBindings}
    (h : Adds ys known bindings.bindings {} parts) (hbindings : bindings.Computes projected scope)
    (hscope : scope ⊆ known) (hys : ys ⊆ known) :
    bindings.Relays projected scope ys (.ofList parts.descending) parts.equalities := by
  obtain ⟨ds, es, htakes, hdescending, hequalities⟩ := h
  rw [hdescending, hequalities]
  exact htakes.relays hbindings hscope hys

end QueryAlgebra
