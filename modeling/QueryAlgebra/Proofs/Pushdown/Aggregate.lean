import QueryAlgebra.Proofs.Descent
import QueryAlgebra.Proofs.Groups
import QueryAlgebra.Proofs.Pushdown

/-!
# Pushing into aggregations

A substitution selects and renames the groups of an aggregation by what it does to the grouping
variables: that part goes into the child, where hidden variables make way for the names that come in
(`Tree.keepsApart_hidden`). What it does to aggregated variables, a new name or an equality, is seen in
the row of a group (`AggregateImage.renamed?_eq_some_iff`). So the images of the rows are what the
aggregation of the images gives, once the equalities are checked
(`Tree.Regroups.renamed_aggregated`); the bindings and equalities that this takes are collected one
aggregate at a time (`Tree.AggregateParts.Binds`).

An aggregation without grouping variables returns a row even if there is nothing to aggregate. One
that loses all of its grouping variables, as they are sent to constants, becomes such an aggregation,
and returns a row where there is no group with these values.

Main statements: `Tree.descend_aggregate_rows` — what a substitution makes of an aggregation, if the
last grouping variable only goes where there are rows to aggregate;
`Tree.not_descend_aggregate_rows` — the row that comes up where there are none.
-/

namespace QueryAlgebra

open QueryAlgebra.Except (Returns)

-- ---------------------------------------------------------------------------
-- Rows of groups
-- ---------------------------------------------------------------------------

namespace AggregateImage

variable {I : Interpretation} {s bindings : Substitution} {grouping taken : VarSet}
  {xs : List Variable} {x x' y : Variable} {τ τ' ν : Row}

theorem not_mem_taken_of_mem_renamed (h : (x, renamed y) ∈ assign s grouping taken xs) :
    y ∉ taken := by
  induction xs generalizing taken with
  | nil => cases h
  | cons z xs ih =>
    rw [assign] at h
    split at h
    · split at h
      · next hfree =>
        rcases List.mem_cons.1 h with he | h
        · cases he
          exact hfree.2
        · exact fun hy => ih h (SortedSet.mem_insert.2 (.inr hy))
      · rcases List.mem_cons.1 h with he | h
        · cases he
        · exact ih h
    · rcases List.mem_cons.1 h with he | h
      · cases he
      · exact ih h

/-- A name is given to one variable only. -/
theorem pairwise_assign : (assign s grouping taken xs).Pairwise fun p q =>
    ∀ y, p.2 = renamed y → q.2 ≠ renamed y := by
  induction xs generalizing taken with
  | nil => exact .nil
  | cons x xs ih =>
    rw [assign]
    split
    · next w hw =>
      split
      · refine List.pairwise_cons.2 ⟨fun q hq y hy hqy => ?_, ih⟩
        obtain ⟨z, image⟩ := q
        cases hy
        cases hqy
        exact not_mem_taken_of_mem_renamed hq (SortedSet.mem_insert.2 (.inl rfl))
      · refine List.pairwise_cons.2 ⟨fun _ _ y hy => ?_, ih⟩
        cases hy
    · refine List.pairwise_cons.2 ⟨fun _ _ y hy => ?_, ih⟩
      cases hy

theorem eq_of_lookIn_renamed
    (h : SortedMap.lookIn x (all s grouping bindings) = some (renamed y))
    (h' : SortedMap.lookIn x' (all s grouping bindings) = some (renamed y)) : x' = x := by
  by_contra hne
  have hsymm : Std.Symm fun p q : Variable × AggregateImage =>
      ∀ y, p.2 = renamed y → q.2 ≠ renamed y := ⟨fun _ _ h y hy hy' => h y hy' hy⟩
  have hpairs := pairwise_assign.forall (SortedMap.mem_of_lookIn h) (SortedMap.mem_of_lookIn h')
  exact hpairs (fun he => hne (congrArg Prod.fst he).symm) y rfl rfl

/-- An aggregated variable gets a new name, or has to equal a term. -/
theorem renamed_or_constrained (s : Substitution) (grouping : VarSet) (hx : x ∈ bindings.domain) :
    (∃ y, SortedMap.lookIn x (all s grouping bindings) = some (renamed y)) ∨
      ∃ t, SortedMap.lookIn x (all s grouping bindings) = some (constrained t) := by
  obtain ⟨image, himage⟩ : ∃ image,
    SortedMap.lookIn x (all s grouping bindings) = some image := exists_lookIn_all hx
  cases image with
  | renamed y => exact .inl ⟨y, himage⟩
  | constrained t => exact .inr ⟨t, himage⟩

/-- What has to be checked of the row `τ` of a group, given the row `τ'` of the group of the images. -/
def Checked (I : Interpretation) (s : Substitution) (grouping : VarSet) (bindings : Substitution)
    (τ' τ : Row) : Prop :=
  ∀ x ∈ bindings.domain, ∀ t,
    SortedMap.lookIn x (all s grouping bindings) = some (constrained t) →
      I.eval τ' t = τ x ∧ τ x ≠ .null

section Group

variable (hs : s.Flat) (hbound : ∀ x ∈ grouping, x ∉ bindings.domain)
  (hgroup : Row.Corresponds I s grouping τ' τ)
  (hnew : ∀ x ∈ bindings.domain, ∀ y,
    SortedMap.lookIn x (all s grouping bindings) = some (renamed y) → τ' y = τ x)
include hs hbound hgroup hnew

/-- If all is as it has to be, the row of the images has the values of the row of the group. -/
theorem corresponds_of_checked (h : Checked I s grouping bindings τ' τ) :
    Row.Corresponds I s (grouping ∪ bindings.domain) τ' τ := by
  have hgrouping {x : Variable} (hx : x ∈ grouping) {y : Variable} (hy : s.applyVar x = .var y) :
      y ∈ (s.without bindings.domain).applyVars grouping := by
    rw [applyVars_without hbound]
    exact hs.mem_applyVars.2 ⟨x, hx, hy⟩
  -- a variable that is checked is not NULL, and so is no other one that is sent where it is
  have hshared {x x' : Variable} (hx' : x' ∈ bindings.domain) (hnull : τ x = .null)
      (hvalue : I.eval τ' (s.applyVar x) = τ x) (himage : s.applyVar x' = s.applyVar x) (t : Term)
      (ht : SortedMap.lookIn x' (all s grouping bindings) = some (constrained t)) : False := by
    obtain ⟨hchecked, hne⟩ := h x' hx' t ht
    rw [← (of_lookIn_constrained ht).1, himage, hvalue, hnull] at hchecked
    exact hne hchecked.symm
  intro x hx
  rcases SortedSet.mem_union.1 hx with hx | hx
  · obtain ⟨hvalue, hnull⟩ := hgroup x hx
    refine ⟨hvalue, fun hτ => ⟨(hnull hτ).1, fun x' hx' himage => ?_⟩⟩
    rcases SortedSet.mem_union.1 hx' with hx' | hx'
    · exact (hnull hτ).2 x' hx' himage
    · rcases renamed_or_constrained s grouping hx' with ⟨y, hlook⟩ | ⟨t, hlook⟩
      · obtain ⟨hy, hfree⟩ := of_lookIn_renamed hlook
        exact absurd (hgrouping hx (himage.symm.trans hy)) hfree
      · exact (hshared hx' hτ hvalue himage t hlook).elim
  · rcases renamed_or_constrained s grouping hx with ⟨y, hlook⟩ | ⟨t, hlook⟩
    · obtain ⟨hy, hfree⟩ := of_lookIn_renamed hlook
      have hvalue : I.eval τ' (s.applyVar x) = τ x := by
        rw [hy]
        exact hnew x hx y hlook
      refine ⟨hvalue, fun hτ => ⟨by rw [hy]; rfl, fun x' hx' himage => ?_⟩⟩
      rcases SortedSet.mem_union.1 hx' with hx' | hx'
      · exact absurd (hgrouping hx' (himage.trans hy)) hfree
      · rcases renamed_or_constrained s grouping hx' with
          ⟨y', hlook'⟩ | ⟨t, hlook'⟩
        · have hy' := (of_lookIn_renamed hlook').1
          obtain rfl : y' = y := Term.var.inj (hy'.symm.trans (himage.trans hy))
          exact eq_of_lookIn_renamed hlook hlook'
        · exact (hshared hx' hτ hvalue himage t hlook').elim
    · obtain ⟨hvalue, hne⟩ := h x hx t hlook
      rw [(of_lookIn_constrained hlook).1]
      exact ⟨hvalue, fun hτ => absurd hτ hne⟩

/-- The image of the row of a group has what the row of the images has, and then all is as it has to
be. -/
theorem checked_of_corresponds (h : Row.Corresponds I s (grouping ∪ bindings.domain) ν τ) :
    Row.AgreeOn (s.applyVars (grouping ∪ bindings.domain)) ν τ' ∧
      Checked I s grouping bindings τ' τ := by
  have hofGroup {x y : Variable} (hx : x ∈ grouping) (hy : s.applyVar x = .var y) : ν y = τ' y := by
    have hν := (h x (SortedSet.mem_union.2 (.inl hx))).1
    have hτ' := (hgroup x hx).1
    rw [hy, Interpretation.eval_var] at hν hτ'
    rw [hν, hτ']
  have hofRenamed {x y : Variable} (hx : x ∈ bindings.domain)
      (hlook : SortedMap.lookIn x (all s grouping bindings) = some (renamed y)) : ν y = τ' y := by
    have hν := (h x (SortedSet.mem_union.2 (.inr hx))).1
    rw [(of_lookIn_renamed hlook).1, Interpretation.eval_var] at hν
    rw [hν, hnew x hx y hlook]
  have hagree : Row.AgreeOn (s.applyVars (grouping ∪ bindings.domain)) ν τ' := by
    intro y hy
    obtain ⟨x, hx, hxy⟩ := hs.mem_applyVars.1 hy
    rcases SortedSet.mem_union.1 hx with hx | hx
    · exact hofGroup hx hxy
    · rcases renamed_or_constrained s grouping hx with ⟨y', hlook⟩ | ⟨t, hlook⟩
      · obtain rfl : y' = y := Term.var.inj ((of_lookIn_renamed hlook).1.symm.trans hxy)
        exact hofRenamed hx hlook
      · obtain ⟨ht, htaken⟩ := of_lookIn_constrained hlook
        rcases htaken y (ht.symm.trans hxy) with hy | ⟨z, hz, hlook'⟩
        · rw [applyVars_without hbound] at hy
          obtain ⟨z, hz, hzy⟩ := hs.mem_applyVars.1 hy
          exact hofGroup hz hzy
        · exact hofRenamed hz hlook'
  refine ⟨hagree, fun x hx t hlook => ?_⟩
  obtain ⟨ht, htaken⟩ := of_lookIn_constrained hlook
  obtain ⟨hvalue, hnull⟩ := h x (SortedSet.mem_union.2 (.inr hx))
  rw [ht] at hvalue hnull
  refine ⟨?_, fun hτ => ?_⟩
  · rw [← hvalue]
    refine (Interpretation.eval_congr fun y hy => hagree y ?_).symm
    exact Substitution.mem_applyVars.2 ⟨x, SortedSet.mem_union.2 (.inr hx), ht ▸ hy⟩
  · -- another variable is sent to the same name, so it is not NULL
    obtain ⟨hvariable, honly⟩ := hnull hτ
    obtain ⟨y, rfl⟩ := Term.exists_eq_var hvariable
    rcases htaken y rfl with hy | ⟨z, hz, hlook'⟩
    · rw [applyVars_without hbound] at hy
      obtain ⟨z, hz, hzy⟩ := hs.mem_applyVars.1 hy
      have hzx := honly z (SortedSet.mem_union.2 (.inl hz)) hzy
      exact hbound z hz (hzx ▸ hx)
    · have hzx := honly z (SortedSet.mem_union.2 (.inr hz)) (of_lookIn_renamed hlook').1
      rw [hzx, hlook] at hlook'
      cases hlook'

/-- The image of the row of a group is what the row of the group of the images has of the projected
columns, provided that the checks succeed. -/
theorem renamed?_eq_some_iff :
    Row.renamed? I s (grouping ∪ bindings.domain) τ = some ν ↔
      Checked I s grouping bindings τ' τ ∧
        Row.cut (s.applyVars (grouping ∪ bindings.domain)) τ' = ν := by
  rw [Row.renamed?_eq_some hs]
  constructor
  · rintro ⟨hν, h⟩
    obtain ⟨hagree, hchecked⟩ := checked_of_corresponds hs hbound hgroup hnew h
    exact ⟨hchecked, Row.supported_cut.ext hν (Row.agreeOn_cut.trans hagree.symm)⟩
  · rintro ⟨hchecked, rfl⟩
    exact ⟨Row.supported_cut, (corresponds_of_checked hs hbound hgroup hnew hchecked).congr
      Row.agreeOn_cut.symm fun _ _ => rfl⟩

end Group

end AggregateImage

-- ---------------------------------------------------------------------------
-- The parts of the aggregation
-- ---------------------------------------------------------------------------

namespace Tree

variable {D : Database} {σ : BuildSettings} {below : Pushdown}
  {s e bindings : Substitution} {grouping known scope : VarSet}
  {images : List (Variable × AggregateImage)} {done bs : List (Variable × Term)}
  {f : Term → Term} {parts : AggregateParts} {x y : Variable} {t : Term} {child : Tree}
  {m optimize : Bool} {depth : Nat}

namespace AggregateParts

/-- The variables that are bound so far. -/
def names (parts : AggregateParts) : List Variable := parts.bindings.map Prod.fst

/-- Once the variables `done` are taken in, the bound variables are different, and each is a new name of
one of `done` or a fresh one. -/
structure Names (images : List (Variable × AggregateImage)) (known : VarSet) (done : List Variable)
    (parts : AggregateParts) : Prop where
  knows : known ⊆ parts.supply.known
  taken : ∀ y ∈ parts.names, y ∈ parts.supply.known
  origin : ∀ y ∈ parts.names, y ∉ known ∨ ∃ x ∈ done, SortedMap.lookIn x images = some (.renamed y)
  nodup : parts.names.Nodup

theorem names_start (known : VarSet) :
    Names images known [] ⟨[], [], .ofKnown known⟩ :=
  ⟨fun _ hy => hy, List.forall_mem_nil _, List.forall_mem_nil _, .nil⟩

/-- One more variable is bound. -/
theorem Names.push {parts' : AggregateParts} {done : List Variable}
    (h : parts.Names images known done) (hnames : parts'.names = parts.names ++ [y])
    (hsupply : parts.supply.known ⊆ parts'.supply.known) (htaken : y ∈ parts'.supply.known)
    (hnew : y ∉ parts.names)
    (horigin : y ∉ known ∨ SortedMap.lookIn x images = some (.renamed y)) :
    parts'.Names images known (done ++ [x]) := by
  refine ⟨fun z hz => hsupply z (h.knows z hz), ?_, ?_, ?_⟩
  · rw [hnames, List.forall_mem_append, List.forall_mem_singleton]
    exact ⟨fun z hz => hsupply z (h.taken z hz), htaken⟩
  · rw [hnames, List.forall_mem_append, List.forall_mem_singleton]
    refine ⟨fun z hz => (h.origin z hz).imp_right ?_, horigin.imp_right fun hlook => ?_⟩
    · rintro ⟨x', hx', hlook⟩
      exact ⟨x', List.mem_append_left _ hx', hlook⟩
    · exact ⟨x, List.mem_append_right _ (.head _), hlook⟩
  · rw [hnames, List.nodup_append]
    refine ⟨h.nodup, List.nodup_singleton _, fun z hz w hw => ?_⟩
    rw [List.mem_singleton.1 hw]
    exact fun hzy => hnew (hzy ▸ hz)

theorem Names.add {done : List Variable} (h : parts.Names images known done) (hx : x ∉ done)
    (himage : ∃ image, SortedMap.lookIn x images = some image)
    (hknown : ∀ y, SortedMap.lookIn x images = some (.renamed y) → y ∈ known)
    (honce : ∀ x' y, SortedMap.lookIn x images = some (.renamed y) →
      SortedMap.lookIn x' images = some (.renamed y) → x' = x) :
    (parts.add x t (SortedMap.lookIn x images)).Names images known (done ++ [x]) := by
  obtain ⟨image, himage⟩ := himage
  cases image with
  | renamed y =>
    have hy := hknown y himage
    refine h.push (y := y) ?_ ?_ ?_ (fun hmem => ?_) (.inr himage)
    · simp [himage, AggregateParts.add, names]
    · rw [himage]
      exact fun _ hz => hz
    · rw [himage]
      exact h.knows y hy
    · -- the name is known, so it can only be the new name of a variable, and that is this one
      rcases h.origin y hmem with hfresh | ⟨x', hx', hlook⟩
      · exact hfresh hy
      · exact hx (honce x' y himage hlook ▸ hx')
  | constrained u =>
    have hfresh : (parts.supply.freshFrom x).1 ∉ parts.supply.known :=
      NameSupply.fresh_not_known _ _
    refine h.push (y := (parts.supply.freshFrom x).1) ?_ ?_ ?_
      (fun hmem => hfresh (h.taken _ hmem)) (.inl fun hmem => hfresh (h.knows _ hmem))
    · simp [himage, AggregateParts.add, names]
    · rw [himage]
      exact NameSupply.known_subset_fresh _ _
    · rw [himage]
      exact NameSupply.fresh_known _ _

/-- Once the bindings `done` are taken in, each has its term under the new name, or under one that an
equality compares with what it has to be; and there are no other equalities. -/
structure Binds (f : Term → Term) (images : List (Variable × AggregateImage))
    (done : List (Variable × Term)) (parts : AggregateParts) : Prop where
  renamed : ∀ b ∈ done, ∀ y, SortedMap.lookIn b.1 images = some (.renamed y) →
    (y, f b.2) ∈ parts.bindings
  constrained : ∀ b ∈ done, ∀ u, SortedMap.lookIn b.1 images = some (.constrained u) →
    ∃ y, (y, f b.2) ∈ parts.bindings ∧ .eq (.var y) u ∈ parts.equalities
  equality : ∀ c ∈ parts.equalities, ∃ b ∈ done, ∃ u y,
    SortedMap.lookIn b.1 images = some (.constrained u) ∧ c = .eq (.var y) u ∧
      (y, f b.2) ∈ parts.bindings

theorem binds_start (f : Term → Term) (known : VarSet) :
    Binds f images [] ⟨[], [], .ofKnown known⟩ :=
  ⟨List.forall_mem_nil _, List.forall_mem_nil _, List.forall_mem_nil _⟩

theorem Binds.add (h : parts.Binds f images done)
    (himage : ∃ image, SortedMap.lookIn x images = some image) :
    (parts.add x (f t) (SortedMap.lookIn x images)).Binds f images (done ++ [(x, t)]) := by
  have hold {b b' : Variable × Term} (hb : b ∈ parts.bindings) : b ∈ parts.bindings ++ [b'] :=
    List.mem_append_left _ hb
  have hnew {b : Variable × Term} : b ∈ parts.bindings ++ [b] := List.mem_append_right _ (.head _)
  have hequality {b' : Variable × Term} : ∀ c ∈ parts.equalities, ∃ b ∈ done ++ [(x, t)], ∃ u y,
      SortedMap.lookIn b.1 images = some (.constrained u) ∧ c = .eq (.var y) u ∧
        (y, f b.2) ∈ parts.bindings ++ [b'] := by
    intro c hc
    obtain ⟨b, hb, u, z, hu, hc, hz⟩ := h.equality c hc
    exact ⟨b, List.mem_append_left _ hb, u, z, hu, hc, hold hz⟩
  obtain ⟨image, himage⟩ := himage
  rw [himage]
  cases image with
  | renamed y =>
    refine ⟨?_, ?_, hequality⟩
    · rw [List.forall_mem_append, List.forall_mem_singleton, himage]
      refine ⟨fun b hb w hw => hold (h.renamed b hb w hw), fun w hw => ?_⟩
      cases hw
      exact hnew
    · rw [List.forall_mem_append, List.forall_mem_singleton, himage]
      refine ⟨fun b hb u hu => ?_, fun u hu => by cases hu⟩
      obtain ⟨z, hz, hc⟩ := h.constrained b hb u hu
      exact ⟨z, hold hz, hc⟩
  | constrained v =>
    refine ⟨?_, ?_, ?_⟩
    · rw [List.forall_mem_append, List.forall_mem_singleton, himage]
      exact ⟨fun b hb w hw => hold (h.renamed b hb w hw), fun w hw => by cases hw⟩
    · rw [List.forall_mem_append, List.forall_mem_singleton, himage]
      refine ⟨fun b hb u hu => ?_, fun u hu => ?_⟩
      · obtain ⟨z, hz, hc⟩ := h.constrained b hb u hu
        exact ⟨z, hold hz, List.mem_append_left _ hc⟩
      · cases hu
        exact ⟨_, hnew, List.mem_append_right _ (.head _)⟩
    · rw [AggregateParts.add, List.forall_mem_append, List.forall_mem_singleton]
      exact ⟨hequality, (x, t), List.mem_append_right _ (.head _), v, _, himage, rfl, hnew⟩

/-- All bindings are taken in. -/
theorem binds_foldl (bs : List (Variable × Term))
    (h : parts.Binds f images done) (hnames : parts.Names images known (done.map Prod.fst))
    (hdistinct : ((done ++ bs).map Prod.fst).Nodup)
    (himage : ∀ b ∈ bs, ∃ image, SortedMap.lookIn b.1 images = some image)
    (hknown : ∀ x y, SortedMap.lookIn x images = some (.renamed y) → y ∈ known)
    (honce : ∀ x x' y, SortedMap.lookIn x images = some (.renamed y) →
      SortedMap.lookIn x' images = some (.renamed y) → x' = x) :
    let all := bs.foldl (fun parts b => parts.add b.1 (f b.2) (SortedMap.lookIn b.1 images)) parts
    all.Names images known ((done ++ bs).map Prod.fst) ∧ all.Binds f images (done ++ bs) := by
  induction bs generalizing parts done with
  | nil => simpa using ⟨hnames, h⟩
  | cons b bs ih =>
    have hb : b.1 ∉ done.map Prod.fst := by
      intro hmem
      rw [List.map_append, List.nodup_append] at hdistinct
      exact hdistinct.2.2 _ hmem _ (.head _) rfl
    rw [List.forall_mem_cons] at himage
    rw [List.append_cons] at hdistinct ⊢
    rw [List.foldl_cons]
    refine ih (h.add himage.1) ?_ hdistinct himage.2
    rw [List.map_append]
    exact hnames.add hb himage.1 (hknown b.1) (honce b.1)

end AggregateParts

-- ---------------------------------------------------------------------------
-- Hidden variables
-- ---------------------------------------------------------------------------

/-- Hidden variables keep their names, or get new ones where their names come in. -/
theorem keepsApart_hidden {names : Substitution} (hs : s.Flat)
    (hdomain : ∀ x, x ∉ grouping ∪ bindings.domain → s.applyVar x = .var x)
    (hbound : ∀ x ∈ grouping, x ∉ bindings.domain)
    (hnames : names.Renames (scope.filter fun x => x ∉ grouping ∧ x ∈ s.rangeVars) known)
    (hscope : scope ⊆ known) (hprojected : grouping ∪ bindings.domain ⊆ known)
    (hrange : s.rangeVars ⊆ known) :
    ∀ x ∈ scope, x ∉ grouping → ((s.without bindings.domain).compose names).KeepsApart scope x := by
  -- the name that a hidden variable has in the end is its own or new, and does not come in
  have hhidden {x : Variable} (hx : x ∈ scope) (hxg : x ∉ grouping) :
      ∃ z, names.applyVar x = .var z ∧ (s.without bindings.domain).applyVar z = .var z ∧
        z ∉ s.rangeVars ∧ (z = x ∨ z ∉ known) := by
    by_cases hclash : x ∈ scope.filter fun x => x ∉ grouping ∧ x ∈ s.rangeVars
    · obtain ⟨z, hz, hfresh⟩ := hnames.fresh x hclash
      refine ⟨z, hz, ?_, fun hzr => hfresh (hrange z hzr), .inr hfresh⟩
      rw [Substitution.applyVar_without, hdomain z fun hzp => hfresh (hprojected z hzp), ite_self]
    · refine ⟨x, hnames.fixed x hclash, ?_, fun hxr => ?_, .inl rfl⟩
      · rw [Substitution.applyVar_without]
        split
        · rfl
        · next hxd => exact hdomain x fun hxp => (SortedSet.mem_union.1 hxp).elim hxg hxd
      · exact hclash (SortedSet.mem_filter.2 ⟨hx, decide_eq_true ⟨hxg, hxr⟩⟩)
  intro x hx hxg
  obtain ⟨z, hz, hzfixed, hzrange, hzknown⟩ := hhidden hx hxg
  have himage : ((s.without bindings.domain).compose names).applyVar x = .var z := by
    rw [Substitution.applyVar_compose, hz, Substitution.apply_var, hzfixed]
  refine ⟨by rw [himage]; rfl, fun x' hx' hsame => ?_⟩
  rw [himage, Substitution.applyVar_compose] at hsame
  by_cases hxg' : x' ∈ grouping
  · have hfixed : names.applyVar x' = .var x' := hnames.fixed x' fun hclash =>
      (of_decide_eq_true (SortedSet.mem_filter.1 hclash).2).1 hxg'
    rw [hfixed, Substitution.apply_var, Substitution.applyVar_without,
      if_neg (hbound x' hxg')] at hsame
    rcases hs.rangeVars_subset_iff.1 (fun _ hy => hy) x' z hsame with rfl | hz
    · exact hzknown.resolve_right fun hzknown => hzknown (hscope _ hx')
    · exact absurd hz hzrange
  · obtain ⟨z', hz', hzfixed', -⟩ := hhidden hx' hxg'
    rw [hz', Substitution.apply_var, hzfixed'] at hsame
    exact hnames.injective_of_known hscope x hx x' hx' (hz'.trans (hsame.trans hz.symm))

-- ---------------------------------------------------------------------------
-- Groups under a substitution
-- ---------------------------------------------------------------------------

/-- The row of an aggregation, cut down to `xs` if it passes the condition. -/
def finishGroup (D : Database) (condition? : Option Expression) (xs : VarSet) (τ : Row) :
    Option Row :=
  if D.HoldsOptional τ condition? then some (Row.cut xs τ) else none

/-- The substitution `e` acts on the rows of the child as `s` does on the grouping variables and keeps
all others apart; and the parts bind the aggregates under `e`. -/
structure Regroups (D : Database) (s e : Substitution) (grouping scope : VarSet)
    (bindings : Substitution) (parts : AggregateParts) : Prop where
  flat : s.Flat
  flat_child : e.Flat
  grouping_subset : grouping ⊆ scope
  unbound : ∀ x ∈ grouping, x ∉ bindings.domain
  same : ∀ x ∈ grouping, e.applyVar x = s.applyVar x
  apart : ∀ x ∈ scope, x ∉ grouping → e.KeepsApart scope x
  aggregate : ∀ x t, bindings.find? x = some t →
    t.symbol?.any Symbol.isAggregate = true ∧ t.vars ⊆ scope
  free : ∀ b ∈ parts.bindings, b.1 ∉ s.applyVars grouping
  nodup : parts.names.Nodup
  renamed : ∀ x t, bindings.find? x = some t → ∀ y,
    SortedMap.lookIn x (AggregateImage.all s grouping bindings) = some (.renamed y) →
      (y, e.apply t) ∈ parts.bindings
  constrained : ∀ x t, bindings.find? x = some t → ∀ u,
    SortedMap.lookIn x (AggregateImage.all s grouping bindings) = some (.constrained u) →
      ∃ y, (y, e.apply t) ∈ parts.bindings ∧ .eq (.var y) u ∈ parts.equalities
  equality : ∀ c ∈ parts.equalities, ∃ x t u y, bindings.find? x = some t ∧
    SortedMap.lookIn x (AggregateImage.all s grouping bindings) = some (.constrained u) ∧
      c = .eq (.var y) u ∧ (y, e.apply t) ∈ parts.bindings

namespace Regroups

variable {ρ σ : Row} {members rows : List Row} (h : Regroups D s e grouping scope bindings parts)
include h

/-- The row of a group has an image if the row of the group of the images passes the equalities: the
projected columns of that. -/
theorem renamed?_groupRow (hρ : Row.Corresponds D.toInterpretation s grouping σ ρ)
    (hmembers : ∀ ρ ∈ members, ρ.Meets e scope) :
    Row.renamed? D.toInterpretation s (grouping ∪ bindings.domain)
        (D.groupRow grouping bindings ρ members)
      = finishGroup D (Expression.conjunction parts.equalities)
          (s.applyVars (grouping ∪ bindings.domain))
          (D.groupRow (s.applyVars grouping) (.ofList parts.bindings) σ
            (Row.renamed D.toInterpretation e scope members)) := by
  have himages := Row.forall₂_renamed (I := D.toInterpretation) h.flat_child hmembers
  have hvalue {x y : Variable} {t : Term} (hx : bindings.find? x = some t)
      (hy : (y, e.apply t) ∈ parts.bindings) :
      D.groupRow (s.applyVars grouping) (.ofList parts.bindings) σ
          (Row.renamed D.toInterpretation e scope members) y
        = D.groupRow grouping bindings ρ members x := by
    obtain ⟨haggregate, hvars⟩ := h.aggregate x t hx
    refine Source.groupRow_image himages (fun hxg => ?_) (h.free _ hy) ?_ hvars hx
      (Substitution.find?_ofList_of_nodup h.nodup hy
        (ne_var_of_isAggregate (isAggregate_apply haggregate)))
    · exact h.unbound x hxg (Substitution.mem_domain.2 ⟨t, hx⟩)
    · cases t with
      | app f args => rfl
      | _ => cases haggregate
  have hgroup : Row.Corresponds D.toInterpretation s grouping
      (D.groupRow (s.applyVars grouping) (.ofList parts.bindings) σ
        (Row.renamed D.toInterpretation e scope members))
      (D.groupRow grouping bindings ρ members) :=
    hρ.congr (fun y hy => (if_pos hy).symm) fun x hx => (if_pos hx).symm
  ext ν
  rw [AggregateImage.renamed?_eq_some_iff h.flat h.unbound hgroup fun x hx y hlook => ?_]
  · rw [finishGroup, Option.ite_none_right_eq_some, Option.some.injEq,
      Interpretation.holdsOptional_conjunction]
    refine and_congr_left fun _ => ⟨fun hchecked c hc => ?_, fun hall x hx u hlook => ?_⟩
    · obtain ⟨x, t, u, y, hx, hlook, rfl, hy⟩ := h.equality c hc
      obtain ⟨hu, hne⟩ := hchecked x (Substitution.mem_domain.2 ⟨t, hx⟩) u hlook
      rw [Interpretation.holds_eq, Interpretation.eval_var, hvalue hx hy]
      exact ⟨hu.symm, hne⟩
    · obtain ⟨t, ht⟩ := Substitution.mem_domain.1 hx
      obtain ⟨y, hy, hc⟩ := h.constrained x t ht u hlook
      have hholds := hall _ hc
      rw [Interpretation.holds_eq, Interpretation.eval_var, hvalue ht hy] at hholds
      exact ⟨hholds.1.symm, hholds.2⟩
  · obtain ⟨t, ht⟩ := Substitution.mem_domain.1 hx
    exact hvalue ht (h.renamed x t ht y hlook)

/-- The grouping variables decide whether a row of the child has an image. -/
theorem meets_iff : ρ.Meets e scope ↔ ρ.Meets s grouping := by
  rw [Row.meets_of_keepsApart h.grouping_subset h.apart]
  exact Row.meets_congr_applyVar h.same

/-- The rows of a group are those whose images are in the group of the images. -/
theorem agreeOn_iff {ρ' : Row} (hσ : Row.renamed? D.toInterpretation e scope ρ = some σ) :
    Row.AgreeOn grouping ρ ρ' ↔ ∃ σ', Row.renamed? D.toInterpretation e scope ρ' = some σ' ∧
      Row.AgreeOn (s.applyVars grouping) σ σ' := by
  rw [← Substitution.applyVars_congr h.same]
  exact Row.agreeOn_iff_renamed? h.flat_child h.grouping_subset h.apart hσ

/-- A group has an image if its rows have, and if the row of the group of the images passes the
equalities. -/
theorem renamed?_group (hmembers : ∀ ρ' ∈ members, Row.AgreeOn grouping ρ ρ') :
    Row.renamed? D.toInterpretation s (grouping ∪ bindings.domain)
        (D.groupRow grouping bindings ρ members)
      = (Row.renamed? D.toInterpretation e scope ρ).bind fun σ =>
          finishGroup D (Expression.conjunction parts.equalities)
            (s.applyVars (grouping ∪ bindings.domain))
            (D.groupRow (s.applyVars grouping) (.ofList parts.bindings) σ
              (Row.renamed D.toInterpretation e scope members)) := by
  cases hσ : Row.renamed? D.toInterpretation e scope ρ with
  | none =>
    have hnot : ¬ρ.Meets s grouping := mt h.meets_iff.2 ((Row.renamed?_eq_none h.flat_child).1 hσ)
    rw [Option.bind_none, Row.renamed?_eq_none h.flat]
    refine fun hgroup => hnot ?_
    refine (Row.meets_congr fun x hx => if_pos hx).1 (Row.Meets.mono hgroup fun x hx => ?_)
    exact SortedSet.mem_union.2 (.inl hx)
  | some σ =>
    refine h.renamed?_groupRow ?_ fun ρ' hρ' => ?_
    · have hcorresponds := ((Row.renamed?_eq_some h.flat_child).1 hσ).2
      exact (Row.corresponds_congr_applyVar h.same).1 (hcorresponds.mono h.grouping_subset)
    · by_contra hnot
      obtain ⟨σ', hσ', -⟩ := (h.agreeOn_iff hσ).1 (hmembers ρ' hρ')
      rw [(Row.renamed?_eq_none h.flat_child).2 hnot] at hσ'
      cases hσ'

/-- The images of the rows of an aggregation, as the aggregation of the images gives them. -/
theorem renamed_aggregated
    (hgroups : grouping ≠ ∅ → s.applyVars grouping = ∅ → ∃ ρ ∈ rows, ρ.Meets s grouping) :
    Row.renamed D.toInterpretation s (grouping ∪ bindings.domain)
        (D.aggregated grouping bindings rows)
      = (D.aggregated (s.applyVars grouping) (.ofList parts.bindings)
          (Row.renamed D.toInterpretation e scope rows)).filterMap
            (finishGroup D (Expression.conjunction parts.equalities)
              (s.applyVars (grouping ∪ bindings.domain))) := by
  by_cases hnone : grouping = ∅
  · -- there is one row, whatever there is to aggregate
    have hfree {P : Variable → Prop} : ∀ x ∈ grouping, P x := fun x hx =>
      absurd (hnone ▸ hx) (SortedSet.not_mem_empty x)
    have hempty : s.applyVars grouping = ∅ := by
      rw [hnone]
      rfl
    have hone := h.renamed?_groupRow (ρ := .blank) (σ := .blank) hfree
      fun ρ (_ : ρ ∈ rows) => h.meets_iff.2 hfree
    rw [Source.aggregated, Source.aggregated, if_pos (SortedSet.isEmpty_iff.2 hnone),
      if_pos (SortedSet.isEmpty_iff.2 hempty), Row.renamed, List.filterMap_cons,
      List.filterMap_cons, hone]
    rfl
  · have himages : s.applyVars grouping = ∅ → Row.renamed D.toInterpretation e scope rows ≠ [] := by
      intro hempty hnil
      obtain ⟨ρ, hρ, hmeets⟩ := hgroups hnone hempty
      exact (Row.renamed?_eq_none h.flat_child).1 (List.filterMap_eq_nil_iff.1 hnil ρ hρ)
        (h.meets_iff.2 hmeets)
    rw [Source.aggregated_eq_grouped fun hempty => absurd hempty hnone,
      Source.aggregated_eq_grouped himages]
    exact Source.renamed_grouped (fun _ _ _ hσ => h.agreeOn_iff hσ)
      fun _ _ _ hmembers => h.renamed?_group hmembers

end Regroups

-- ---------------------------------------------------------------------------
-- Building the aggregation
-- ---------------------------------------------------------------------------

/-- What is built makes groups of the rows of the child as the substitution does. -/
theorem regroups_foldl {names : Substitution} (known : VarSet) (hs : s.Flat)
    (hdomain : ∀ x, x ∉ grouping ∪ bindings.domain → s.applyVar x = .var x)
    (hroot : (aggregate m grouping bindings child).RootInScope)
    (hnames : names.Renames (child.vars.filter fun x => x ∉ grouping ∧ x ∈ s.rangeVars)
      (child.knownVars ∪ (grouping ∪ bindings.domain) ∪ s.rangeVars))
    (hprojected : grouping ∪ bindings.domain ⊆ known) (hrange : s.rangeVars ⊆ known) :
    Regroups D s ((s.without bindings.domain).compose names) grouping child.vars bindings
      ((bindings.mapTerms names.apply).bindings.foldl (fun parts b =>
        parts.add b.1 ((s.without bindings.domain).apply b.2)
          (SortedMap.lookIn b.1 (AggregateImage.all s grouping bindings)))
        ⟨[], [], .ofKnown known⟩) := by
  have hbound := unbound_of_rootInScope hroot
  have hknown (x y : Variable)
      (h : SortedMap.lookIn x (AggregateImage.all s grouping bindings) = some (.renamed y)) :
      y ∈ known := by
    obtain ⟨hxy, -⟩ := AggregateImage.of_lookIn_renamed h
    refine (hs.rangeVars_subset_iff.1 hrange x y hxy).elim (fun hyx => ?_) id
    exact hyx ▸ hprojected x (SortedSet.mem_union.2 (.inr (AggregateImage.mem_domain_of_lookIn h)))
  have hdistinct : ((bindings.mapTerms names.apply).bindings.map Prod.fst).Nodup := by
    rw [map_fst_mapTerms hroot]
    exact bindings.domain.nodup
  obtain ⟨hnamed, hbinds⟩ := AggregateParts.binds_foldl (bindings.mapTerms names.apply).bindings
    (AggregateParts.binds_start (s.without bindings.domain).apply known)
    (AggregateParts.names_start known) hdistinct (exists_lookIn_mapTerms hroot) hknown
    fun _ _ _ => AggregateImage.eq_of_lookIn_renamed
  rw [List.nil_append] at hnamed hbinds
  have hflat := hs.without bindings.domain
  refine ⟨hs, hflat.compose hnames.flat, hroot.1, hbound, fun x hx => ?_, ?_, fun x t ht => ?_,
    fun b hb => ?_, hnamed.nodup, fun x t ht y hlook => ?_, fun x t ht u hlook => ?_,
    fun c hc => ?_⟩
  · have hfixed : names.applyVar x = .var x := hnames.fixed x fun hclash =>
      (of_decide_eq_true (SortedSet.mem_filter.1 hclash).2).1 hx
    rw [Substitution.applyVar_compose, hfixed, Substitution.apply_var,
      Substitution.applyVar_without, if_neg (hbound x hx)]
  · exact keepsApart_hidden hs hdomain hbound hnames
      (fun x hx => SortedSet.mem_union.2 (.inl (SortedSet.mem_union.2
        (.inl (vars_subset_knownVars child x hx)))))
      (fun x hx => SortedSet.mem_union.2 (.inl (SortedSet.mem_union.2 (.inr hx))))
      SortedSet.subset_union_right
  · exact (hroot.2 x t ht).2
  · rcases hnamed.origin b.1 (List.mem_map.2 ⟨b, hb, rfl⟩) with hfresh | ⟨x, -, hlook⟩
    · refine fun hmem => hfresh (hs.applyVars_subset hrange (fun x hx => ?_) _ hmem)
      exact hprojected x (SortedSet.mem_union.2 (.inl hx))
    · rw [← AggregateImage.applyVars_without hbound]
      exact (AggregateImage.of_lookIn_renamed hlook).2
  · rw [Substitution.apply_compose]
    exact hbinds.renamed _ ((mem_mapTerms_iff hroot).2 ⟨t, ht, rfl⟩) y hlook
  · rw [Substitution.apply_compose]
    exact hbinds.constrained _ ((mem_mapTerms_iff hroot).2 ⟨t, ht, rfl⟩) u hlook
  · obtain ⟨⟨x, v⟩, hb, u, y, hlook, hc, hy⟩ := hbinds.equality c hc
    obtain ⟨t, ht, rfl⟩ := (mem_mapTerms_iff hroot).1 hb
    rw [← Substitution.apply_compose] at hy
    exact ⟨x, t, u, y, ht, hlook, hc, hy⟩

/-- The rows of the aggregation, checked and cut down, provided that the variables are as intended. -/
theorem returns_checkedAggregate {projected grouping' : VarSet} {bindings' : Substitution}
    {condition? : Option Expression} :
    Returns (fun u => u.vars = projected → u.rows D =
        (D.aggregated grouping' bindings' (child.rows D)).filterMap
          (finishGroup D condition? projected))
      (do
        let aggregation ← σ.aggregate grouping' bindings' child
        match condition? with
        | none => return aggregation
        | some condition => σ.project projected (← σ.filter condition aggregation)) := by
  have hbuild : Returns (HasRows D (grouping' ∪ bindings'.domain)
      (D.aggregated grouping' bindings' (child.rows D))) (σ.aggregate grouping' bindings' child) :=
    BuildSettings.returns_build ⟨rfl, by rw [rows]⟩
  refine hbuild.bind fun aggregation haggregation => ?_
  cases condition? with
  | none =>
    refine .ok fun hvars => ?_
    have hone : ∀ τ ∈ aggregation.rows D, finishGroup D none projected τ = some τ := by
      intro τ hτ
      rw [finishGroup, if_pos Interpretation.holdsOptional_none,
        Row.cut_of_supported (rows_supported aggregation τ hτ) fun x hx => hvars ▸ hx]
    rw [← haggregation.rows, List.filterMap_congr hone, List.filterMap_some]
  | some condition =>
    refine (BuildSettings.hasRows_filter haggregation).bind fun filtered hfiltered => ?_
    refine (BuildSettings.hasRows_construct hfiltered).imp fun u hu _ => ?_
    rw [hu.rows, ← List.filterMap_eq_map', List.filterMap_filter]
    refine List.filterMap_congr fun τ _ => ?_
    simp only [finishGroup, Interpretation.holdsOptional_some, decide_eq_true_eq]
    rfl

/-- An aggregation returns the images of its rows if it keeps a grouping variable or has a row of the
group that the substitution selects. -/
theorem returns_descendAggregate (hbelow : below.Sound D .inner) (hscope : below.KeepsScope σ)
    (hs : s.Flat) (hdomain : ∀ x, x ∉ grouping ∪ bindings.domain → s.applyVar x = .var x)
    (hroot : (aggregate m grouping bindings child).RootInScope) (hchild : child.Core .inner)
    (hinScope : child.InScope)
    (hgroups : grouping ≠ ∅ → s.applyVars grouping = ∅ →
      ∃ ρ ∈ child.rows D, ρ.Meets s grouping) :
    Returns (HasBag D (s.applyVars (grouping ∪ bindings.domain))
        (Row.renamed D.toInterpretation s (grouping ∪ bindings.domain)
          ((aggregate m grouping bindings child).rows D)))
      (descendAggregate σ below s optimize grouping bindings child) := by
  have hvars : Returns (Over (s.applyVars (grouping ∪ bindings.domain)))
      (descendAggregate σ below s optimize grouping bindings child) :=
    Except.Ends.returns (builds_descendAggregate hscope hs hroot hinScope)
  suffices hrows : Returns (fun u => u.vars = s.applyVars (grouping ∪ bindings.domain) →
      (u.rows D).Perm (Row.renamed D.toInterpretation s (grouping ∪ bindings.domain)
        ((aggregate m grouping bindings child).rows D)))
      (descendAggregate σ below s optimize grouping bindings child) from
    fun u hu => ⟨(hvars u hu).vars, hrows u hu (hvars u hu).vars⟩
  have hnames := NameSupply.renames_freshRenaming
    (NameSupply.ofKnown (child.knownVars ∪ (grouping ∪ bindings.domain) ∪ s.rangeVars))
    (child.vars.filter fun x => x ∉ grouping ∧ x ∈ s.rangeVars)
  unfold descendAggregate
  dsimp only
  generalize (NameSupply.freshRenaming _ _).1 = names at hnames ⊢
  have hsame (hempty : (child.vars.filter fun x => x ∉ grouping ∧ x ∈ s.rangeVars).isEmpty = true) :
      Narrows D .inner (names.applyVars child.vars) none
        (Row.renamed D.toInterpretation names child.vars (child.rows D)) child := by
    obtain ⟨hvars, himages⟩ := renamed_of_fixed (D := D) (t := child)
      (fun x _ => hnames.fixed x (SortedSet.isEmpty_iff.1 hempty ▸ SortedSet.not_mem_empty x))
      hnames.flat
    rw [hvars, himages]
    exact hchild.narrows
  have hflat := hs.without bindings.domain
  refine .ite (fun hempty => (Returns.ok (hsame hempty)).bind fun renamed hrenamed => ?_) fun _ =>
    (hbelow.descend_none hchild hnames.flat.suits).bind fun renamed hrenamed => ?_
  all_goals
    refine (hbelow.descend_none hrenamed.core hflat.suits).bind fun child' hchild' => ?_
    rw [hrenamed.vars] at hchild'
    -- the rows of the new child are the images of those of the old one
    have himages : (child'.rows D).Perm (Row.renamed D.toInterpretation
        ((s.without bindings.domain).compose names) child.vars (child.rows D)) := by
      rw [Row.renamed_compose hflat hnames.flat]
      exact hchild'.perm.trans (hrenamed.perm.filterMap _)
    have hregroups := regroups_foldl (D := D)
      (child'.knownVars ∪ (grouping ∪ bindings.domain) ∪ s.rangeVars) hs hdomain hroot hnames
      (fun x hx => SortedSet.mem_union.2 (.inl (SortedSet.mem_union.2 (.inr hx))))
      SortedSet.subset_union_right
    rw [AggregateImage.applyVars_without (unbound_of_rootInScope hroot)]
    refine (returns_checkedAggregate (D := D)).imp fun u hu hvars => ?_
    rw [hu hvars, rows, hregroups.renamed_aggregated hgroups]
    refine (Source.aggregated_perm SortedSet.subset_union_left
      SortedSet.subset_union_right (himages.map _)).filterMap _

/-- A substitution makes of an aggregation the images of those of its rows that satisfy the equalities
that it implies. Where all of the grouping variables are sent to constants, there has to be a row with
these values to be aggregated: otherwise an aggregation of no rows comes up, which has a row. A
constraint does not matter. There is a result, unless test mode finds a fault with names. -/
theorem descend_aggregate_rows (hvalid : (aggregate m grouping bindings child).validate = .ok ())
    (hchild : ∀ u ∈ child.nodes, u.Relational) (hs : s.isNonFunctional = true)
    (hgroups : grouping ≠ ∅ → s.applyVars grouping = ∅ → ∃ ρ ∈ child.rows D, ρ.Meets s grouping)
    (constraint? : Option Expression) (optimize : Bool) :
    (∀ depth u, descendTo σ depth s constraint? optimize (aggregate m grouping bindings child) = .ok u →
      u.vars = s.applyVars (grouping ∪ bindings.domain) ∧
        (u.rows D).Perm
          ((((aggregate m grouping bindings child).rows D).filter
            fun ρ => ρ.Meets s (grouping ∪ bindings.domain)).map
              (Row.image s (grouping ∪ bindings.domain)))) ∧
    (σ.testMode = false →
      ∃ u, (aggregate m grouping bindings child).descend σ s constraint? optimize = .ok u) := by
  have hvalid := validate_eq_ok.1 hvalid
  obtain ⟨hroot, hchildren⟩ := valid_iff.1 hvalid
  have hcore := core_of_valid (hchildren child (.head _)) hchild
  have hs := Substitution.flat_of_isNonFunctional hs
  have hsame : ∀ x ∈ grouping,
      (s.restrict (aggregate m grouping bindings child).vars).applyVar x = s.applyVar x :=
    fun x hx => Substitution.applyVar_restrict.trans (if_pos (SortedSet.mem_union.2 (.inl hx)))
  have hbag (depth : Nat) : Returns (HasBag D (s.applyVars (grouping ∪ bindings.domain))
        (Row.renamed D.toInterpretation s (grouping ∪ bindings.domain)
          ((aggregate m grouping bindings child).rows D)))
      (descendTo σ depth s constraint? optimize (aggregate m grouping bindings child)) := by
    cases depth with
    | zero => exact .error
    | succ depth =>
      refine returns_descendNode_bag hs nofun (fun constraint _ => ?_) ?_
      · cases depth with
        | zero => exact .error
        | succ depth => exact .ok ⟨rfl, .refl _⟩
      · refine returns_descendAggregate (sound_descendTo depth) (keepsScope_descendTo σ depth)
          (hs.restrict _) (fun x hx => ?_) (rootInScope_of_rootValid hroot) hcore
          (hchildren child (.head _)).inScope fun hgrouping hnone => ?_
        · rw [Substitution.applyVar_restrict]
          exact if_neg hx
        · rw [Substitution.applyVars_congr hsame] at hnone
          obtain ⟨ρ, hρ, hmeets⟩ := hgroups hgrouping hnone
          exact ⟨ρ, hρ, (Row.meets_congr_applyVar hsame).2 hmeets⟩
  rw [← Row.renamed_eq (I := D.toInterpretation) hs]
  refine ⟨fun depth u hu => ⟨(hbag depth u hu).vars, (hbag depth u hu).perm⟩, fun htest => ?_⟩
  have hsafe := renamesSafely_of_children (t := aggregate m grouping bindings child)
    (List.forall_mem_singleton.2 hcore.aggregateFree) s.rangeVars
  exact exists_descend_eq_ok hvalid.inScope hs (.inr hsafe) htest

/-- One grouping variable is sent to a constant; the other one, and the count, to the name that is
counted. What is left are the groups of the constant that are named like their size, among them one
in which there is only NULL to be counted. Without the other grouping variable the group of the
constant is left. -/
theorem descend_aggregate_rows_of_groups :
    let r : Relation :=
      ⟨"r", [⟨"g", .integer, false⟩, ⟨"h", .integer, false⟩, ⟨"a", .integer, true⟩], []⟩
    let D := Database.ofTable r [[.integer 5, .integer 1, .integer 7],
      [.integer 5, .integer 2, .integer 7], [.integer 4, .integer 1, .integer 7],
      [.integer 5, .integer 0, .null]] (by decide) (by decide) (by decide)
    let child : Tree := .leaf false (.extensional ⟨r, [.var ⟨"g"⟩, .var ⟨"h"⟩, .var ⟨"a"⟩]⟩)
    let counts : Substitution := .singleton ⟨"n"⟩ (.app ⟨.count, 1⟩ [.var ⟨"a"⟩])
    let five := Term.const (.integer 5)
    let s : Substitution :=
      .ofList [(⟨"g"⟩, five), (⟨"h"⟩, .var ⟨"a"⟩), (⟨"n"⟩, .var ⟨"a"⟩)]
    let t := aggregate false (.ofList [⟨"g"⟩, ⟨"h"⟩]) counts child
    let t' := aggregate false (.singleton ⟨"g"⟩) counts child
    t.validate = .ok () ∧ t'.validate = .ok () ∧ (∀ u ∈ child.nodes, u.Relational) ∧
      (t.rows D).length = 4 ∧ (t'.rows D).length = 2 ∧ ∀ optimize,
        (∃ u, descendTo ⟨false⟩ 2 s none optimize t = .ok u ∧ (u.rows D).length = 2) ∧
        ∃ u, descendTo ⟨false⟩ 2 (.singleton ⟨"g"⟩ five) none optimize t' = .ok u ∧
          (u.rows D).length = 1 := by
  intro r D child counts five s t t'
  have hvalid : t.validate = .ok () := by rfl
  have hvalid' : t'.validate = .ok () := by rfl
  have hchild : ∀ u ∈ child.nodes, u.Relational := by simp [child, nodes, Relational]
  refine ⟨hvalid, hvalid', hchild, by decide +kernel, by decide +kernel, fun optimize => ⟨?_, ?_⟩⟩
  · obtain ⟨u, hu⟩ : ∃ u, descendTo ⟨false⟩ 2 s none optimize t = .ok u := by
      cases optimize <;> decide +kernel
    have hrows := (descend_aggregate_rows (D := D) hvalid hchild (by decide +kernel)
      (fun _ hnone => absurd hnone (by decide +kernel)) none optimize).1 2 u hu
    refine ⟨u, hu, ?_⟩
    rw [hrows.2.length_eq]
    decide +kernel
  · obtain ⟨u, hu⟩ : ∃ u, descendTo ⟨false⟩ 2 (.singleton ⟨"g"⟩ five) none optimize t' = .ok u := by
      cases optimize <;> decide +kernel
    have hrows := (descend_aggregate_rows (D := D) hvalid' hchild (by decide +kernel)
      (fun _ _ => by decide +kernel) none optimize).1 2 u hu
    refine ⟨u, hu, ?_⟩
    rw [hrows.2.length_eq]
    decide +kernel

/-- There is no row with the value of the constant and so no group, but the aggregation that has lost
its grouping variable returns a row. -/
theorem not_descend_aggregate_rows :
    let r : Relation := ⟨"r", [⟨"g", .integer, false⟩, ⟨"a", .integer, false⟩], []⟩
    let D := Database.ofTable r [[.integer 4, .integer 7]] (by decide) (by decide) (by decide)
    let t := aggregate false (.singleton ⟨"g"⟩)
      (.singleton ⟨"n"⟩ (.app ⟨.count, 1⟩ [.var ⟨"a"⟩]))
      (.leaf false (.extensional ⟨r, [.var ⟨"g"⟩, .var ⟨"a"⟩]⟩))
    let s : Substitution := .singleton ⟨"g"⟩ (.const (.integer 5))
    t.validate = .ok () ∧ s.isNonFunctional = true ∧
      ((t.rows D).filter fun ρ => ρ.Meets s t.vars) = [] ∧
      ∀ optimize, ∃ u, descendTo ⟨false⟩ 2 s none optimize t = .ok u ∧ (u.rows D).length = 1 := by
  intro r D t s
  refine ⟨rfl, by decide +kernel, List.isEmpty_iff.1 (by decide +kernel), fun optimize => ?_⟩
  cases optimize <;> decide +kernel

end Tree

end QueryAlgebra
