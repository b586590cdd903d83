import QueryAlgebra.Proofs.FreshNames
import QueryAlgebra.Proofs.Scope.Conditions
import QueryAlgebra.Tree.Pushdown.Aggregate

/-!
# Pushing into aggregations keeps scope

An aggregated variable gets the name that the substitution gives it, or a fresh one and an equality
(`AggregateImage`). The image in such an equality is a grouping variable or another aggregate's new
name, so the filter above the aggregation finds it, and every image of a projected variable is there
to be projected in the end.
-/

namespace QueryAlgebra

open QueryAlgebra.Except (Ends)

-- ---------------------------------------------------------------------------
-- Images of aggregated variables
-- ---------------------------------------------------------------------------

namespace AggregateImage

variable {s : Substitution} {grouping taken : VarSet} {xs : List Variable} {x y : Variable}
  {t : Term}

theorem map_fst_assign : (assign s grouping taken xs).map Prod.fst = xs := by
  induction xs generalizing taken with
  | nil => rfl
  | cons x xs ih =>
    rw [assign]
    split
    · split
      · rw [List.map_cons, ih]
      · rw [List.map_cons, ih]
    · rw [List.map_cons, ih]

/-- A variable is renamed to its image, which is no grouping variable. -/
theorem of_mem_renamed (h : (x, renamed y) ∈ assign s grouping taken xs) :
    s.applyVar x = .var y ∧ y ∉ grouping := by
  induction xs generalizing taken with
  | nil => cases h
  | cons z xs ih =>
    rw [assign] at h
    split at h
    · next w hzw =>
      split at h
      · next hfree =>
        rcases List.mem_cons.1 h with he | h
        · cases he
          exact ⟨hzw, hfree.1⟩
        · exact ih h
      · rcases List.mem_cons.1 h with he | h
        · cases he
        · exact ih h
    · rcases List.mem_cons.1 h with he | h
      · cases he
      · exact ih h

/-- A variable is constrained to equal its image; if that is a variable, it is one of a grouping
variable, or taken by another variable. -/
theorem of_mem_constrained (h : (x, constrained t) ∈ assign s grouping taken xs) :
    s.applyVar x = t ∧ ∀ y, t = .var y →
      y ∈ grouping ∨ y ∈ taken ∨ ∃ z, (z, renamed y) ∈ assign s grouping taken xs := by
  induction xs generalizing taken with
  | nil => cases h
  | cons z xs ih =>
    have htail {taken : VarSet} (p : Variable × AggregateImage)
        (h : (x, constrained t) ∈ assign s grouping taken xs) :
        s.applyVar x = t ∧ ∀ y, t = .var y → y ∈ grouping ∨ y ∈ taken ∨
          ∃ v, (v, renamed y) ∈ p :: assign s grouping taken xs := by
      refine ⟨(ih h).1, fun y hy => ?_⟩
      rcases (ih h).2 y hy with hg | ht | ⟨v, hv⟩
      · exact .inl hg
      · exact .inr (.inl ht)
      · exact .inr (.inr ⟨v, .tail _ hv⟩)
    rw [assign] at h ⊢
    split at h
    · next w hzw =>
      split at h
      · next hfree =>
        rcases List.mem_cons.1 h with he | h
        · cases he
        · rw [if_pos hfree]
          obtain ⟨happly, himage⟩ := htail (z, renamed w) h
          refine ⟨happly, fun y hy => ?_⟩
          rcases himage y hy with hg | ht | hv
          · exact .inl hg
          · rcases SortedSet.mem_insert.1 ht with rfl | ht
            · exact .inr (.inr ⟨z, .head _⟩)
            · exact .inr (.inl ht)
          · exact .inr (.inr hv)
      · next hfree =>
        rw [if_neg hfree]
        rcases List.mem_cons.1 h with he | h
        · cases he
          refine ⟨hzw, fun y hy => ?_⟩
          cases hy
          by_cases hg : w ∈ grouping
          · exact .inl hg
          · exact .inr (.inl (by_contra fun ht => hfree ⟨hg, ht⟩))
        · exact htail _ h
    · next u hu =>
      rcases List.mem_cons.1 h with he | h
      · cases he
        exact ⟨rfl, fun y hy => absurd hy (hu y)⟩
      · exact htail _ h

section All

variable {bindings : Substitution}

/-- Grouping variables are not bound, so what is done to aggregated variables is not done to them. -/
theorem applyVars_without (hbound : ∀ x ∈ grouping, x ∉ bindings.domain) :
    (s.without bindings.domain).applyVars grouping = s.applyVars grouping :=
  Substitution.applyVars_congr fun x hx => by
    rw [Substitution.applyVar_without, if_neg (hbound x hx)]

theorem map_fst_all : (all s grouping bindings).map Prod.fst = bindings.domain.toList := map_fst_assign

theorem lookIn_all_iff {image : AggregateImage} :
    SortedMap.lookIn x (all s grouping bindings) = some image ↔
      (x, image) ∈ all s grouping bindings := by
  have hdistinct : (all s grouping bindings).Pairwise fun p q => p.1 ≠ q.1 := by
    rw [← List.pairwise_map (R := (· ≠ ·)), map_fst_all]
    exact bindings.domain.nodup
  exact ⟨SortedMap.mem_of_lookIn, SortedMap.lookIn_of_mem hdistinct⟩

/-- Only aggregated variables have an image. -/
theorem mem_domain_of_lookIn {image : AggregateImage}
    (h : SortedMap.lookIn x (all s grouping bindings) = some image) : x ∈ bindings.domain := by
  have hmem : x ∈ (all s grouping bindings).map Prod.fst :=
    List.mem_map.2 ⟨_, SortedMap.mem_of_lookIn h, rfl⟩
  rwa [map_fst_all] at hmem

theorem exists_lookIn_all (hx : x ∈ bindings.domain) :
    ∃ image, SortedMap.lookIn x (all s grouping bindings) = some image := by
  have hmem : x ∈ (all s grouping bindings).map Prod.fst := by
    rw [map_fst_all]
    exact hx
  obtain ⟨⟨_, image⟩, hb, rfl⟩ := List.mem_map.1 hmem
  exact SortedMap.exists_lookIn_of_mem hb

theorem of_lookIn_renamed
    (h : SortedMap.lookIn x (all s grouping bindings) = some (renamed y)) :
    s.applyVar x = .var y ∧ y ∉ (s.without bindings.domain).applyVars grouping :=
  of_mem_renamed (SortedMap.mem_of_lookIn h)

theorem of_lookIn_constrained
    (h : SortedMap.lookIn x (all s grouping bindings) = some (constrained t)) :
    s.applyVar x = t ∧ ∀ y, t = .var y →
      y ∈ (s.without bindings.domain).applyVars grouping ∨ ∃ z ∈ bindings.domain,
        SortedMap.lookIn z (all s grouping bindings) = some (renamed y) := by
  obtain ⟨happly, himage⟩ := of_mem_constrained (SortedMap.mem_of_lookIn h)
  refine ⟨happly, fun y hy => (himage y hy).imp_right fun htaken => ?_⟩
  obtain ⟨z, hz⟩ := htaken.resolve_left (SortedSet.not_mem_empty y)
  have hlook := lookIn_all_iff.2 hz
  exact ⟨z, mem_domain_of_lookIn hlook, hlook⟩

end All

end AggregateImage

namespace Tree

variable {σ : BuildSettings} {below : Pushdown} {s groupingPart bindings : Substitution}
  {grouping grouping' scope : VarSet} {done : List Variable}
  {images : List (Variable × AggregateImage)} {parts : AggregateParts} {child : Tree}
  {m optimize : Bool} {x : Variable} {t : Term}

-- ---------------------------------------------------------------------------
-- The parts of the aggregation
-- ---------------------------------------------------------------------------

/-- Once the variables `done` are taken in, the bindings are aggregates over the scope of the child
and not of grouping variables; each renamed variable is bound under its new name; an equality is
between a bound variable and the image of a constrained one, and without equalities all are bound
under their images. -/
structure AggregateParts.Collects (s : Substitution) (grouping' scope : VarSet)
    (images : List (Variable × AggregateImage)) (done : List Variable) (parts : AggregateParts) :
    Prop where
  known : grouping' ⊆ parts.supply.known
  binding : ∀ b ∈ parts.bindings,
    b.1 ∉ grouping' ∧ b.2.symbol?.any Symbol.isAggregate = true ∧ b.2.vars ⊆ scope
  renamed : ∀ x ∈ done, ∀ y, SortedMap.lookIn x images = some (.renamed y) →
    ∃ t, (y, t) ∈ parts.bindings
  equality : ∀ e ∈ parts.equalities, ∃ y t image, e = .eq (.var y) image ∧ (y, t) ∈ parts.bindings ∧
    ∃ x ∈ done, SortedMap.lookIn x images = some (.constrained image)
  exact : parts.equalities = [] → ∀ b ∈ parts.bindings, ∃ x ∈ done, s.applyVar x = .var b.1

/-- One more aggregate is taken in. -/
theorem AggregateParts.Collects.add (h : parts.Collects s grouping' scope images done)
    (himage : ∃ image, SortedMap.lookIn x images = some image)
    (hrenamed : ∀ y, SortedMap.lookIn x images = some (.renamed y) →
      s.applyVar x = .var y ∧ y ∉ grouping')
    (ht : t.symbol?.any Symbol.isAggregate = true) (hvars : t.vars ⊆ scope) :
    (parts.add x t (SortedMap.lookIn x images)).Collects s grouping' scope images
      (done ++ [x]) := by
  have hbinding {y : Variable} (hy : y ∉ grouping') : ∀ b ∈ parts.bindings ++ [(y, t)],
      b.1 ∉ grouping' ∧ b.2.symbol?.any Symbol.isAggregate = true ∧ b.2.vars ⊆ scope := by
    rw [List.forall_mem_append, List.forall_mem_singleton]
    exact ⟨h.binding, hy, ht, hvars⟩
  have hequality {b : Variable × Term} : ∀ e ∈ parts.equalities, ∃ y t image,
      e = .eq (.var y) image ∧ (y, t) ∈ parts.bindings ++ [b] ∧
        ∃ z ∈ done ++ [x], SortedMap.lookIn z images = some (.constrained image) := by
    intro e he
    obtain ⟨y, t, image, hey, hyt, z, hz, himage⟩ := h.equality e he
    exact ⟨y, t, image, hey, List.mem_append_left _ hyt, z, List.mem_append_left _ hz, himage⟩
  have hdone {z : Variable} (hz : z ∈ done ++ [x]) : z ∈ done ∨ z = x :=
    (List.mem_append.1 hz).imp_right List.mem_singleton.1
  obtain ⟨image, himage⟩ := himage
  cases image with
  | renamed y =>
    obtain ⟨hxy, hy⟩ := hrenamed y himage
    rw [himage]
    refine ⟨h.known, hbinding hy, fun z hz w hw => ?_, hequality, fun hnone b hb => ?_⟩
    · rcases hdone hz with hz | rfl
      · obtain ⟨u, hu⟩ := h.renamed z hz w hw
        exact ⟨u, List.mem_append_left _ hu⟩
      · rw [himage] at hw
        cases hw
        exact ⟨t, List.mem_append_right _ (.head _)⟩
    · rcases List.mem_append.1 hb with hb | hb
      · obtain ⟨z, hz, hzb⟩ := h.exact hnone b hb
        exact ⟨z, List.mem_append_left _ hz, hzb⟩
      · rw [List.mem_singleton.1 hb]
        exact ⟨x, List.mem_append_right _ (.head _), hxy⟩
  | constrained image =>
    have hfresh : (parts.supply.freshFrom x).1 ∉ grouping' := fun hmem =>
      NameSupply.fresh_not_known _ _ (h.known _ hmem)
    rw [himage]
    refine ⟨fun y hy => NameSupply.known_subset_fresh _ _ y (h.known y hy), hbinding hfresh,
      fun z hz w hw => ?_, ?_, fun hnone => ?_⟩
    · rcases hdone hz with hz | rfl
      · obtain ⟨u, hu⟩ := h.renamed z hz w hw
        exact ⟨u, List.mem_append_left _ hu⟩
      · rw [himage] at hw
        cases hw
    · rw [AggregateParts.add, List.forall_mem_append, List.forall_mem_singleton]
      refine ⟨hequality, _, t, image, rfl, List.mem_append_right _ (.head _), x,
        List.mem_append_right _ (.head _), himage⟩
    · exact absurd hnone (List.append_ne_nil_of_right_ne_nil _ nofun)

/-- All aggregates are taken in. -/
theorem AggregateParts.collects_foldl {bs : List (Variable × Term)} {f : Term → Term}
    (himage : ∀ b ∈ bs, ∃ image, SortedMap.lookIn b.1 images = some image)
    (hrenamed : ∀ x y, SortedMap.lookIn x images = some (.renamed y) →
      s.applyVar x = .var y ∧ y ∉ grouping')
    (hbs : ∀ b ∈ bs, (f b.2).symbol?.any Symbol.isAggregate = true ∧ (f b.2).vars ⊆ scope)
    (h : parts.Collects s grouping' scope images done) :
    (bs.foldl (fun parts b => parts.add b.1 (f b.2) (SortedMap.lookIn b.1 images))
      parts).Collects s grouping' scope images (done ++ bs.map Prod.fst) := by
  induction bs generalizing parts done with
  | nil => simpa using h
  | cons b bs ih =>
    rw [List.forall_mem_cons] at himage hbs
    rw [List.foldl_cons, List.map_cons, List.append_cons]
    exact ih himage.2 hbs.2 (h.add himage.1 (hrenamed b.1) hbs.1.1 hbs.1.2)

-- ---------------------------------------------------------------------------
-- Aggregations
-- ---------------------------------------------------------------------------

theorem isAggregate_apply (ht : t.symbol?.any Symbol.isAggregate = true) :
    (s.apply t).symbol?.any Symbol.isAggregate = true := by
  cases t with
  | app f args =>
    rw [Substitution.apply_app]
    exact ht
  | _ => cases ht

/-- An aggregate is no value function that its arguments could decide. -/
theorem simplifyValue_of_isAggregate {n : Nullability} {f : Symbol} {args : List Term}
    (hf : f.isAggregate = true) : Evaluation.simplifyValue n f args = .app f args := by
  obtain ⟨op, arity⟩ := f
  have hcoalesce : op ≠ .coalesce := by
    rintro rfl
    cases hf
  have hstrict : op.isStrict = false := by cases op <;> first | rfl | cases hf
  have hfold : Evaluation.foldArgs? op args = none := by
    have hnone (i j : Int) : Evaluation.fold? op i j = none := by
      cases op <;> first | rfl | cases hf
    unfold Evaluation.foldArgs?
    split
    · simp [hnone]
    · rfl
  simp [Evaluation.simplifyValue, Symbol.isStrict, hcoalesce, hstrict, hfold]

theorem isAggregate_simplify (ht : t.symbol?.any Symbol.isAggregate = true) (n : Nullability) :
    (t.simplify n).symbol?.any Symbol.isAggregate = true := by
  cases t with
  | app f args =>
    have hf : f.isAggregate = true := ht
    have hboolean : ¬f.isBoolean = true := by
      obtain ⟨op, arity⟩ := f
      cases op <;> first | exact Bool.false_ne_true | cases hf
    unfold Term.simplify Evaluation.depthFor
    rw [Evaluation.simplifyTo, dif_neg hboolean, simplifyValue_of_isAggregate hf]
    exact ht
  | _ => cases ht

theorem ne_var_of_isAggregate (ht : t.symbol?.any Symbol.isAggregate = true) : t ≠ .var x := by
  rintro rfl
  cases ht

/-- Equalities have a conjunction unless there is none of them. -/
theorem conjunction_eq_none {es : List Expression} (hes : ∀ e ∈ es, ∃ t u, e = .eq t u)
    (h : Expression.conjunction es = none) : es = [] := by
  cases es with
  | nil => rfl
  | cons e es =>
    obtain ⟨t, u, rfl⟩ := hes e (.head _)
    have hmem : Expression.eq t u ∈
        ((Expression.eq t u :: es).flatMap Expression.conjuncts).eraseDups :=
      List.mem_eraseDups.2 (List.mem_flatMap.2 ⟨_, .head _, .head _⟩)
    unfold Expression.conjunction at h
    split at h
    · next hnil =>
      rw [hnil] at hmem
      cases hmem
    · cases h
    · cases h

section Collected

variable (hs : s.Flat) (h : parts.Collects s ((s.without bindings.domain).applyVars grouping) scope
  (AggregateImage.all s grouping bindings) bindings.domain.toList)
include h

/-- What the aggregation binds. -/
theorem mem_domain_collected (hx : ∃ t, (x, t) ∈ parts.bindings) :
    x ∈ (Substitution.ofList parts.bindings).domain := by
  obtain ⟨t, ht⟩ := hx
  exact Substitution.mem_domain.2 (Substitution.exists_find?_ofList ht fun u hu =>
    ne_var_of_isAggregate (h.binding _ hu).2.1)

/-- The image of an aggregated variable is projected by the aggregation. -/
theorem mem_vars_of_image {y : Variable} (hx : x ∈ bindings.domain) (hxy : s.applyVar x = .var y) :
    y ∈ (s.without bindings.domain).applyVars grouping ∪
      (Substitution.ofList parts.bindings).domain := by
  have hnew {z : Variable} (hz : z ∈ bindings.domain)
      (hzy : SortedMap.lookIn z (AggregateImage.all s grouping bindings) = some (.renamed y)) :
      y ∈ (Substitution.ofList parts.bindings).domain :=
    mem_domain_collected h (h.renamed z hz y hzy)
  obtain ⟨image, himage⟩ : ∃ image,
      SortedMap.lookIn x (AggregateImage.all s grouping bindings) = some image :=
    AggregateImage.exists_lookIn_all hx
  cases image with
  | renamed w =>
    have hxw := (AggregateImage.of_lookIn_renamed himage).1
    obtain rfl : w = y := Term.var.inj (hxw.symm.trans hxy)
    exact SortedSet.mem_union.2 (.inr (hnew hx himage))
  | constrained t =>
    obtain ⟨hxt, hconstrained⟩ := AggregateImage.of_lookIn_constrained himage
    rcases hconstrained y (hxt.symm.trans hxy) with hy | ⟨z, hz, hzy⟩
    · exact SortedSet.mem_union.2 (.inl hy)
    · exact SortedSet.mem_union.2 (.inr (hnew hz hzy))

include hs

theorem conditionVars_collected : conditionVars (Expression.conjunction parts.equalities) ⊆
    (s.without bindings.domain).applyVars grouping
      ∪ (Substitution.ofList parts.bindings).domain := by
  refine conditionVars_conjunction fun e he => ?_
  obtain ⟨y, t, image, rfl, hyt, x, hx, himage⟩ := h.equality e he
  have hximage := (AggregateImage.of_lookIn_constrained himage).1
  refine Expression.vars_eq_subset (fun z hz => ?_) fun z hz => ?_
  · obtain rfl := Term.mem_vars_var.1 hz
    exact SortedSet.mem_union.2 (.inr (mem_domain_collected h ⟨t, hyt⟩))
  · rw [← hximage] at hz
    exact mem_vars_of_image h hx (hs.mem_vars_applyVar.1 hz)

theorem builds_collected (hgrouping : (s.without bindings.domain).applyVars grouping ⊆ scope)
    (hbound : ∀ x ∈ grouping, x ∉ bindings.domain) (hchild : child.Over scope) :
    Builds σ (s.applyVars (grouping ∪ bindings.domain)) (do
      let aggregation ← σ.aggregate ((s.without bindings.domain).applyVars grouping)
        (.ofList parts.bindings) child
      match Expression.conjunction parts.equalities with
      | none => return aggregation
      | some condition =>
        σ.project (s.applyVars (grouping ∪ bindings.domain))
          (← σ.filter condition aggregation)) := by
  have hsame : s.applyVars grouping = (s.without bindings.domain).applyVars grouping :=
    (AggregateImage.applyVars_without hbound).symm
  have hprojected : s.applyVars (grouping ∪ bindings.domain) ⊆
      (s.without bindings.domain).applyVars grouping ∪
        (Substitution.ofList parts.bindings).domain := by
    intro y hy
    rw [Substitution.applyVars_union, hsame] at hy
    rcases SortedSet.mem_union.1 hy with hy | hy
    · exact SortedSet.mem_union.2 (.inl hy)
    · obtain ⟨x, hx, hxy⟩ := hs.mem_applyVars.1 hy
      exact mem_vars_of_image h hx hxy
  have hbindings : ∀ x u, (Substitution.ofList parts.bindings).find? x = some u →
      x ∉ (s.without bindings.domain).applyVars grouping ∧
        u.symbol?.any Symbol.isAggregate = true ∧ u.vars ⊆ scope := fun x u hxu =>
    h.binding _ (Substitution.mem_of_find?_ofList hxu)
  refine (BuildSettings.builds_aggregate hgrouping hbindings hchild).bind
    fun aggregation haggregation => ?_
  have hcondition := conditionVars_collected hs h
  split
  · next hnone =>
    have hequalities : parts.equalities = [] := conjunction_eq_none (fun e he => by
      obtain ⟨y, t, image, he, -⟩ := h.equality e he
      exact ⟨_, _, he⟩) hnone
    refine haggregation.congr (SortedSet.ext fun y => ⟨fun hy => ?_, hprojected y⟩)
    rw [Substitution.applyVars_union, hsame]
    refine SortedSet.mem_union.2 ((SortedSet.mem_union.1 hy).imp_right fun hy => ?_)
    obtain ⟨t, ht⟩ := Substitution.mem_domain.1 hy
    obtain ⟨x, hx, hxy⟩ := h.exact hequalities _ (Substitution.mem_of_find?_ofList ht)
    exact hs.mem_applyVars.2 ⟨x, hx, hxy⟩
  · next condition hsome =>
    rw [hsome] at hcondition
    exact (BuildSettings.builds_filter hcondition haggregation).bind fun _ hfiltered =>
      BuildSettings.builds_project hprojected hfiltered

end Collected

section Root

variable (hroot : (aggregate m grouping bindings child).RootInScope)
include hroot

theorem unbound_of_rootInScope : ∀ x ∈ grouping, x ∉ bindings.domain := by
  intro x hx hxd
  obtain ⟨t, ht⟩ := Substitution.mem_domain.1 hxd
  exact (hroot.2 x t ht).1 hx

/-- A substitution of the arguments leaves the aggregates bound to their variables. -/
theorem map_fst_mapTerms (names : Substitution) :
    (bindings.mapTerms names.apply).bindings.map Prod.fst = bindings.domain.toList :=
  congrArg SortedSet.toList (Substitution.domain_mapTerms fun x t ht =>
    ne_var_of_isAggregate (isAggregate_apply (hroot.2 x t ht).2.1))

theorem mem_mapTerms_iff {names : Substitution} :
    (x, t) ∈ (bindings.mapTerms names.apply).bindings ↔
      ∃ u, bindings.find? x = some u ∧ names.apply u = t := by
  refine Substitution.mem_bindings.trans ⟨Substitution.exists_find?_of_mapTerms, ?_⟩
  rintro ⟨u, hu, rfl⟩
  rw [Substitution.find?_mapTerms, hu]
  exact Option.filter_some_pos (decide_eq_true
    (ne_var_of_isAggregate (isAggregate_apply (hroot.2 x u hu).2.1)))

theorem exists_lookIn_mapTerms {names : Substitution} :
    ∀ b ∈ (bindings.mapTerms names.apply).bindings, ∃ image,
      SortedMap.lookIn b.1 (AggregateImage.all s grouping bindings) = some image := by
  intro b hb
  have hmem : b.1 ∈ (bindings.mapTerms names.apply).bindings.map Prod.fst :=
    List.mem_map.2 ⟨b, hb, rfl⟩
  rw [map_fst_mapTerms hroot] at hmem
  exact AggregateImage.exists_lookIn_all hmem

end Root

theorem builds_descendAggregate (hbelow : below.KeepsScope σ) (hs : s.Flat)
    (hroot : (aggregate m grouping bindings child).RootInScope) (hchild : child.InScope) :
    Builds σ (s.applyVars (grouping ∪ bindings.domain))
      (descendAggregate σ below s optimize grouping bindings child) := by
  have ⟨hgrouping, hbindings⟩ := hroot
  have hnames := NameSupply.renames_freshRenaming
    (NameSupply.ofKnown (child.knownVars ∪ (grouping ∪ bindings.domain) ∪ s.rangeVars))
    (child.vars.filter fun x => x ∉ grouping ∧ x ∈ s.rangeVars)
  unfold descendAggregate
  dsimp only
  generalize (NameSupply.freshRenaming _ _).1 = names at hnames ⊢
  have hrenamed : grouping ⊆ names.applyVars child.vars := by
    intro x hx
    have hfixed : names.applyVar x = .var x := hnames.fixed x fun hclash =>
      (of_decide_eq_true (SortedSet.mem_filter.1 hclash).2).1 hx
    exact hnames.flat.mem_applyVars.2 ⟨x, hgrouping x hx, hfixed⟩
  have hflat := hs.without bindings.domain
  have hterms : ∀ b ∈ (bindings.mapTerms names.apply).bindings,
      ((s.without bindings.domain).apply b.2).symbol?.any Symbol.isAggregate = true ∧
        ((s.without bindings.domain).apply b.2).vars
          ⊆ (s.without bindings.domain).applyVars (names.applyVars child.vars) := by
    rintro ⟨x, u⟩ hb
    obtain ⟨t, ht, rfl⟩ := (mem_mapTerms_iff hroot).1 hb
    obtain ⟨-, haggregate, hvars⟩ := hbindings x t ht
    refine ⟨isAggregate_apply (isAggregate_apply haggregate), ?_⟩
    refine Substitution.vars_apply_subset fun y hy z hz => Substitution.mem_applyVars.2 ⟨y, ?_, hz⟩
    obtain ⟨w, hw, hwy⟩ := Substitution.mem_vars_apply.1 hy
    exact Substitution.mem_applyVars.2 ⟨w, hvars w hw, hwy⟩
  have hsame (hempty : (child.vars.filter fun x => x ∉ grouping ∧ x ∈ s.rangeVars).isEmpty = true) :
      Builds σ (names.applyVars child.vars) (.ok child) := by
    refine hchild.over.congr (Substitution.applyVars_of_fixed fun x _ => hnames.fixed x ?_).symm
    rw [SortedSet.isEmpty_iff.1 hempty]
    exact SortedSet.not_mem_empty x
  refine .ite (fun hempty => (hsame hempty).bind fun renamed hr => ?_) fun _ =>
    (hbelow.descend hchild hnames.flat).bind fun renamed hr => ?_
  all_goals
    refine (hbelow.descend hr.inScope hflat).bind fun child' hchild' => ?_
    rw [hr.vars] at hchild'
    have hscope : (s.without bindings.domain).applyVars grouping
        ⊆ (s.without bindings.domain).applyVars (names.applyVars child.vars) :=
      Substitution.applyVars_mono hrenamed
    have hstart : AggregateParts.Collects s ((s.without bindings.domain).applyVars grouping)
        ((s.without bindings.domain).applyVars (names.applyVars child.vars))
        (AggregateImage.all s grouping bindings) []
        ⟨[], [], .ofKnown (child'.knownVars ∪ (grouping ∪ bindings.domain) ∪ s.rangeVars)⟩ := by
      refine ⟨fun y hy => ?_, nofun, nofun, nofun, fun _ => nofun⟩
      have hy := hscope y hy
      rw [← hchild'.vars] at hy
      exact SortedSet.mem_union.2 (.inl (SortedSet.mem_union.2
        (.inl (vars_subset_knownVars child' y hy))))
    have hcollects := AggregateParts.collects_foldl (exists_lookIn_mapTerms hroot)
      (fun x y => AggregateImage.of_lookIn_renamed) hterms hstart
    rw [List.nil_append, map_fst_mapTerms hroot] at hcollects
    exact builds_collected hs hcollects hscope (unbound_of_rootInScope hroot) hchild'

end Tree

end QueryAlgebra
