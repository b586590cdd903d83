import QueryAlgebra.Proofs.Scope.Pushdown

/-!
# Stages of a descent

A substitution that only gives new names, apart from each other and from all names of a tree, hits
no case in which the tree grows. So where nothing is simplified, it leaves as many stages to the
next descent as it found (`Tree.keepsStages_descendTo`). They are counted by `Tree.stages`, and the
depth that is allowed for a tree covers them (`Tree.stages_le_pushdownDepth`).
-/

namespace QueryAlgebra

open QueryAlgebra.Except (Ends Returns)

-- ---------------------------------------------------------------------------
-- Names apart
-- ---------------------------------------------------------------------------

namespace Substitution

variable {known ys : VarSet} {names s : Substitution} {x y : Variable}

/-- Some of the known variables get different names, none of which is known. -/
structure RenamesApart (known : VarSet) (names : Substitution) : Prop where
  exists_eq_var : ∀ x, ∃ y, names.applyVar x = .var y
  domain : names.domain ⊆ known
  fresh : ∀ x, ∀ y ∈ known, names.applyVar x = .var y → y = x
  injective : ∀ x ∈ known, ∀ x' ∈ known, names.applyVar x' = names.applyVar x → x' = x

theorem Renames.apart (h : names.Renames ys known) (hys : ys ⊆ known) :
    names.RenamesApart known where
  exists_eq_var := h.exists_eq_var
  domain x hx := hys x (domain_subset_of_fixed h.fixed x hx)
  fresh _ _ hy hxy := (h.eq_of_known hy hxy).1.symm
  injective := h.injective_of_known fun _ hx => hx

namespace RenamesApart

variable (h : names.RenamesApart known)
include h

/-- Some of the names are as good as all of them. -/
theorem of_applyVar (hs : ∀ x, s.applyVar x = names.applyVar x ∨ s.applyVar x = .var x) :
    s.RenamesApart known where
  exists_eq_var x := by
    rcases hs x with hx | hx
    · exact hx ▸ h.exists_eq_var x
    · exact ⟨x, hx⟩
  domain := by
    refine domain_subset_of_fixed fun x hx => ?_
    rcases hs x with hsame | hsame
    · rw [hsame, applyVar_of_not_mem_domain fun hd => hx (h.domain x hd)]
    · exact hsame
  fresh x y hy hxy := by
    rcases hs x with hx | hx
    · exact h.fresh x y hy (hx ▸ hxy)
    · exact Term.var.inj (hxy.symm.trans hx)
  injective x hx x' hx' hsame := by
    rcases hs x with hsx | hsx <;> rcases hs x' with hsx' | hsx' <;> rw [hsx, hsx'] at hsame
    · exact h.injective x hx x' hx' hsame
    · exact h.fresh x x' hx' hsame.symm
    · exact (h.fresh x' x hx hsame).symm
    · exact Term.var.inj hsame

theorem restrict (ys : VarSet) : (names.restrict ys).RenamesApart known := by
  refine h.of_applyVar fun x => ?_
  rw [applyVar_restrict]
  split
  · exact .inl rfl
  · exact .inr rfl

theorem without (ys : VarSet) : (names.without ys).RenamesApart known := by
  refine h.of_applyVar fun x => ?_
  rw [applyVar_without]
  split
  · exact .inr rfl
  · exact .inl rfl

/-- A known variable is none of the names. -/
theorem not_mem_rangeVars (hy : y ∈ known) : y ∉ names.rangeVars := by
  intro hrange
  obtain ⟨x, t, hx, hyt⟩ := mem_rangeVars.1 hrange
  obtain ⟨z, hz⟩ := h.exists_eq_var x
  obtain rfl : t = .var z := (applyVar_of_find? hx).symm.trans hz
  obtain rfl := Term.mem_vars_var.1 hyt
  obtain rfl := h.fresh x y hy hz
  exact names.proper y hx

end RenamesApart

end Substitution

namespace Tree

-- ---------------------------------------------------------------------------
-- Stages
-- ---------------------------------------------------------------------------

mutual

/-- How many nodes a substitution goes through. A left join counts twice, because it may be looked
at again as an inner join. -/
def stages : Tree → Nat
  | construct _ _ _ child | filter _ _ child | distinct _ child => stages child + 1
  | slice _ _ child | orderBy _ _ child | aggregate _ _ _ child => stages child + 1
  | join _ _ children | union _ _ children => stagesOf children + 1
  | leftJoin _ _ left right => stages left + stages right + 2
  | leaf _ _ => 1

/-- The stages of all of the trees. -/
def stagesOf : List Tree → Nat
  | [] => 0
  | t :: ts => stages t + stagesOf ts

end

variable {σ : BuildSettings} {below : Pushdown} {known projected grouping : VarSet}
  {s names childPart bindings : Substitution} {constraint? condition? : Option Expression}
  {condition : Expression} {m : Bool} {child left right t : Tree} {ts us : List Tree} {n : Nat}

theorem stages_pos (t : Tree) : 0 < t.stages := by
  cases t <;> exact Nat.succ_pos _

theorem stages_le_stagesOf (h : t ∈ ts) : t.stages ≤ stagesOf ts := by
  induction ts with
  | nil => cases h
  | cons u us ih =>
    rw [stagesOf]
    rcases List.mem_cons.1 h with rfl | h
    · exact Nat.le_add_right _ _
    · exact (ih h).trans (Nat.le_add_left _ _)

theorem stagesOf_le (h : List.Forall₂ (fun t u => u.stages ≤ t.stages) ts us) :
    stagesOf us ≤ stagesOf ts := by
  induction h with
  | nil => exact le_rfl
  | cons hu _ ih => exact Nat.add_le_add hu ih

/-- A substitution goes through each node twice at most. -/
theorem stages_le_size (t : Tree) : t.stages ≤ 2 * t.size := by
  have hall (ts : List Tree) (hts : ∀ t ∈ ts, t.stages ≤ 2 * t.size) :
      stagesOf ts ≤ 2 * (marksOf ts).length := by
    induction ts with
    | nil => exact Nat.zero_le _
    | cons t ts ih =>
      rw [List.forall_mem_cons] at hts
      have ht := hts.1
      have hrest := ih hts.2
      rw [size] at ht
      rw [stagesOf, marksOf, List.length_append]
      omega
  induction t using inductionOn with
  | step t ih =>
    cases t with
    | join m condition? ts | union m projected ts =>
      have hts := hall ts ih
      rw [stages, size, marks, List.length_cons]
      omega
    | leftJoin m condition? left right =>
      have hleft := ih left (.head _)
      have hright := ih right (.tail _ (.head _))
      rw [size] at hleft hright
      rw [stages, size, marks, List.length_cons, List.length_append]
      omega
    | leaf m l => exact Nat.le_succ 1
    | construct | filter | distinct | slice | orderBy | aggregate =>
      have hchild := ih _ (.head _)
      rw [size] at hchild
      rw [stages, size, marks, List.length_cons]
      omega

theorem stages_le_pushdownDepth (t : Tree) : t.stages ≤ t.pushdownDepth := by
  have hsize := t.stages_le_size
  have hpow : t.size < 2 ^ t.size := Nat.lt_two_pow_self
  have hdepth : 2 * t.size ≤ 2 ^ (t.size + 10) := by
    rw [Nat.pow_add]
    omega
  rw [pushdownDepth]
  exact hsize.trans (hdepth.trans (Nat.le_add_left _ _))

-- ---------------------------------------------------------------------------
-- Renamed trees
-- ---------------------------------------------------------------------------

/-- Definitions that move to names apart from each other do not meet. -/
theorem snd_moveDefinitions_of_apart {images : VarSet} {bs : List (Variable × Term)}
    {definitions : SortedMap Variable Term} (hs : s.RenamesApart known)
    (hbs : ∀ b ∈ bs, b.1 ∈ known) (hnodup : (bs.map Prod.fst).Nodup)
    (himages : ∀ b ∈ bs, ∀ y, s.applyVar b.1 = .var y → y ∉ images)
    (hnew : ∀ b ∈ bs, ∀ y, s.applyVar b.1 = .var y → definitions.find? y = none) :
    (moveDefinitions s childPart images bs (definitions, [])).2 = [] := by
  induction bs generalizing definitions with
  | nil => rfl
  | cons b rest ih =>
    obtain ⟨x, t⟩ := b
    rw [List.forall_mem_cons] at hbs himages hnew
    rw [List.map_cons, List.nodup_cons] at hnodup
    obtain ⟨y, hy⟩ := hs.exists_eq_var x
    rw [moveDefinitions]
    simp only [hy, if_neg (himages.1 y hy), hnew.1 y hy]
    refine ih hbs.2 hnodup.2 himages.2 fun b hb z hz => ?_
    rw [SortedMap.find?_insert, if_neg]
    · exact hnew.2 b hb z hz
    · rintro rfl
      have hsame := hs.injective x hbs.1 b.1 (hbs.2 b hb) (hz.trans hy.symm)
      exact hnodup.1 (List.mem_map.2 ⟨b, hb, hsame⟩)

/-- Aggregated variables that get names apart from each other and from the grouping variables get
these names. -/
theorem exists_renamed_of_apart {taken : VarSet} {xs : List Variable} (hs : s.RenamesApart known)
    (hxs : ∀ x ∈ xs, x ∈ known) (hnodup : xs.Nodup)
    (hfree : ∀ x ∈ xs, ∀ y, s.applyVar x = .var y → y ∉ grouping ∧ y ∉ taken) :
    ∀ p ∈ AggregateImage.assign s grouping taken xs, ∃ y, p.2 = .renamed y := by
  induction xs generalizing taken with
  | nil => exact nofun
  | cons x xs ih =>
    rw [List.forall_mem_cons] at hxs hfree
    rw [List.nodup_cons] at hnodup
    obtain ⟨y, hy⟩ := hs.exists_eq_var x
    rw [AggregateImage.assign]
    simp only [hy, if_pos (hfree.1 y hy)]
    refine List.forall_mem_cons.2 ⟨⟨y, rfl⟩, ih hxs.2 hnodup.2 fun z hz w hw => ?_⟩
    refine ⟨(hfree.2 z hz w hw).1, fun hmem => ?_⟩
    rcases SortedSet.mem_insert.1 hmem with rfl | hmem
    · have hsame := hs.injective x hxs.1 z (hxs.2 z hz) (hw.trans hy.symm)
      exact hnodup.1 (hsame ▸ hz)
    · exact (hfree.2 z hz w hw).2 hmem

/-- Where every aggregate gets a new name, there is nothing to be checked. -/
theorem equalities_foldl_of_renamed {images : List (Variable × AggregateImage)}
    (himages : ∀ p ∈ images, ∃ y, p.2 = .renamed y) (f : Term → Term) (bs : List (Variable × Term))
    (parts : AggregateParts) :
    (bs.foldl (fun parts b => parts.add b.1 (f b.2) (SortedMap.lookIn b.1 images))
      parts).equalities = parts.equalities := by
  induction bs generalizing parts with
  | nil => rfl
  | cons b bs ih =>
    rw [List.foldl_cons, ih]
    cases hlook : SortedMap.lookIn b.1 images with
    | none => rfl
    | some image =>
      obtain ⟨y, rfl⟩ := himages _ (SortedMap.mem_of_lookIn hlook)
      rfl

/-- Names apart from all that a left join knows equate no variable of its right side. -/
theorem equatesRightSpecific_of_apart (hs : s.RenamesApart known) (hleft : left.vars ⊆ known)
    (hright : right.vars ⊆ known) : equatesRightSpecific s left right = false := by
  have hspecific {x : Variable} (hx : x ∈ rightSpecific left right) : x ∈ known :=
    hright x (SortedSet.mem_diff.1 hx).1
  unfold equatesRightSpecific
  dsimp only
  rw [Bool.or_eq_false_iff, List.any_eq_false]
  constructor
  · intro x hx
    cases hfind : s.find? x with
    | none => exact Bool.false_ne_true
    | some t =>
      obtain ⟨y, hy⟩ := hs.exists_eq_var x
      obtain rfl : t = .var y := (Substitution.applyVar_of_find? hfind).symm.trans hy
      have hnew : y ∉ left.vars ∪ right.vars := by
        intro hmem
        have hknown : y ∈ known := (SortedSet.mem_union.1 hmem).elim (hleft y) (hright y)
        exact s.proper x (hs.fresh x y hknown hy ▸ hfind)
      have hother : ¬(s.bindings.any fun b => b.1 ≠ x && b.2 = .var y) = true := by
        rw [List.any_eq_true]
        rintro ⟨b, hb, hbx⟩
        rw [Bool.and_eq_true, decide_eq_true_iff, decide_eq_true_iff] at hbx
        have hbfind := Substitution.mem_bindings.1 hb
        have hbknown := hs.domain b.1 (Substitution.mem_domain.2 ⟨b.2, hbfind⟩)
        have hsame := (Substitution.applyVar_of_find? hbfind).trans (hbx.2.trans hy.symm)
        exact hbx.1 (hs.injective x (hspecific hx) b.1 hbknown hsame)
      show ¬(decide (y ∈ left.vars ∪ right.vars) || _) = true
      rw [Bool.or_eq_true, decide_eq_true_iff]
      exact not_or.2 ⟨hnew, hother⟩
  · rw [Bool.not_eq_false', decide_eq_true_iff, SortedSet.disjoint_iff]
    exact fun x hrange hx => hs.not_mem_rangeVars (hspecific hx) hrange

/-- Names apart from the variables of a child clash with none of them. -/
theorem isEmpty_clashes_of_apart {ys : VarSet} (hs : s.RenamesApart known)
    (hchild : child.vars ⊆ known) :
    (child.vars.filter fun x => x ∉ ys ∧ x ∈ s.rangeVars).isEmpty = true := by
  rw [SortedSet.isEmpty_iff]
  ext x
  rw [SortedSet.mem_filter, decide_eq_true_iff]
  exact iff_of_false (fun h => hs.not_mem_rangeVars (hchild x h.1) h.2.2)
    (SortedSet.not_mem_empty x)

/-- Pushing names apart from all that a tree knows adds no stage to it. -/
def KeepsStages (below : Pushdown) : Prop :=
  ∀ {known names constraint? t}, t.InScope → names.RenamesApart known → t.knownVars ⊆ known →
    Returns (fun u => u.stages ≤ t.stages) (below.descend names constraint? false t)

section Renamed

variable (hbelow : KeepsStages below) (hs : s.RenamesApart known)
include hbelow hs

theorem stages_descendConstruct (ht : (construct m projected bindings child).InScope)
    (hknown : (construct m projected bindings child).knownVars ⊆ known) :
    Returns (fun u => u.stages ≤ child.stages + 1)
      (descendConstruct σ below s constraint? false projected bindings child) := by
  obtain ⟨hbindings, hchild⟩ := inScope_construct.1 ht
  have hchildKnown : child.knownVars ⊆ known := fun x hx =>
    hknown x (knownVars_subset_of_mem_children (.head _) x hx)
  have hprojected : projected ⊆ known := fun x hx =>
    hknown x (vars_subset_knownVars (construct m projected bindings child) x hx)
  have hbound := Substitution.domain_subset_of_fixed hbindings.fixed
  have hrename : renameHidden below s false projected bindings child = .ok (child, bindings) := by
    unfold renameHidden
    dsimp only
    rw [if_pos (isEmpty_clashes_of_apart hs fun x hx =>
      hchildKnown x (vars_subset_knownVars child x hx))]
    rfl
  have hequalities : (moveDefinitions s (s.restrict (passedThrough projected bindings))
      ((s.restrict (passedThrough projected bindings)).applyVars (passedThrough projected bindings))
      bindings.bindings (∅, [])).2 = [] := by
    have hmem {b : Variable × Term} (hb : b ∈ bindings.bindings) : b.1 ∈ bindings.domain :=
      Substitution.mem_domain.2 ⟨b.2, Substitution.mem_bindings.1 hb⟩
    refine snd_moveDefinitions_of_apart hs (fun b hb => hprojected _ (hbound _ (hmem hb)))
      bindings.domain.nodup (fun b hb y hy himage => ?_) fun _ _ _ _ => rfl
    obtain ⟨z, hz, hyz⟩ := Substitution.mem_applyVars.1 himage
    obtain ⟨hzp, hzd⟩ := mem_passedThrough.1 hz
    obtain ⟨w, hw⟩ := hs.exists_eq_var z
    rw [Substitution.applyVar_restrict, if_pos hz, hw] at hyz
    obtain rfl := Term.mem_vars_var.1 hyz
    have hsame := hs.injective z (hprojected z hzp) b.1 (hprojected _ (hbound _ (hmem hb)))
      (hy.trans hw.symm)
    exact hzd (hsame ▸ hmem hb)
  unfold descendConstruct
  rw [hrename]
  refine Returns.bind (Returns.ok (P := (· = (child, bindings))) rfl) ?_
  rintro _ rfl
  dsimp only
  rw [hequalities]
  refine (hbelow hchild (hs.restrict _) hchildKnown).bind fun child' hchild' => ?_
  show Returns _ (if _ then _ else _)
  split
  · exact .ok (hchild'.trans (Nat.le_succ _))
  · exact BuildSettings.returns_build (Nat.succ_le_succ hchild')

theorem stages_descendAggregate (ht : (aggregate m grouping bindings child).InScope)
    (hknown : (aggregate m grouping bindings child).knownVars ⊆ known) :
    Returns (fun u => u.stages ≤ child.stages + 1)
      (descendAggregate σ below s false grouping bindings child) := by
  obtain ⟨⟨hgrouping, hbindings⟩, hchild⟩ := inScope_aggregate.1 ht
  have hchildKnown : child.knownVars ⊆ known := fun x hx =>
    hknown x (knownVars_subset_of_mem_children (.head _) x hx)
  have hprojected : grouping ∪ bindings.domain ⊆ known := fun x hx =>
    hknown x (vars_subset_knownVars (aggregate m grouping bindings child) x hx)
  have hempty :
      (child.vars.filter fun x => x ∉ grouping ∧ x ∈ s.rangeVars).isEmpty = true :=
    isEmpty_clashes_of_apart hs fun x hx => hchildKnown x (vars_subset_knownVars child x hx)
  have himages : ∀ p ∈ AggregateImage.all s grouping bindings, ∃ y, p.2 = .renamed y := by
    have hbound {x : Variable} (hx : x ∈ bindings.domain) : x ∈ known :=
      hprojected x (SortedSet.mem_union.2 (.inr hx))
    refine exists_renamed_of_apart hs (fun x hx => hbound hx) bindings.domain.nodup
      fun x hx y hy => ⟨fun hmem => ?_, SortedSet.not_mem_empty y⟩
    obtain ⟨z, hz, hyz⟩ := Substitution.mem_applyVars.1 hmem
    have hzd : z ∉ bindings.domain := fun hzd => by
      obtain ⟨t, ht⟩ := Substitution.mem_domain.1 hzd
      exact (hbindings z t ht).1 hz
    obtain ⟨w, hw⟩ := hs.exists_eq_var z
    rw [Substitution.applyVar_without, if_neg hzd, hw] at hyz
    obtain rfl := Term.mem_vars_var.1 hyz
    have hsame := hs.injective z (hprojected z (SortedSet.mem_union.2 (.inl hz))) x (hbound hx)
      (hy.trans hw.symm)
    exact hzd (hsame ▸ hx)
  unfold descendAggregate
  dsimp only
  rw [if_pos hempty]
  refine Returns.bind (Returns.ok (P := (· = child)) rfl) fun _ hsame => ?_
  rw [hsame]
  refine (hbelow hchild (hs.without _) hchildKnown).bind fun child' hchild' => ?_
  rw [equalities_foldl_of_renamed himages]
  have haggregate (grouping' : VarSet) (bindings' : Substitution) :
      Returns (fun u => u.stages ≤ child.stages + 1) (σ.aggregate grouping' bindings' child') :=
    BuildSettings.returns_build (t := aggregate false grouping' bindings' child')
      (Nat.succ_le_succ hchild')
  exact (haggregate _ _).bind fun _ h => .ok h

theorem stages_descendRoot (ht : t.InScope) (hknown : t.knownVars ⊆ known) :
    Returns (fun u => u.stages ≤ t.stages) (descendRoot σ below s constraint? false t) := by
  have hscope := (inScope_iff.1 ht).2
  have hchildren {c : Tree} (hc : c ∈ t.children) {constraint? : Option Expression} :
      Returns (fun u => u.stages ≤ c.stages) (below.descend s constraint? false c) :=
    hbelow (hscope c hc) hs fun x hx => hknown x (knownVars_subset_of_mem_children hc x hx)
  have hmapM {constraint? : Option Expression} :
      Returns (fun us => stagesOf us ≤ stagesOf t.children)
        (t.children.mapM (below.descend s constraint? false)) :=
    (Returns.mapM fun c hc => hchildren hc).imp fun _ => stagesOf_le
  cases t with
  | construct m projected bindings child => exact stages_descendConstruct hbelow hs ht hknown
  | aggregate m grouping bindings child => exact stages_descendAggregate hbelow hs ht hknown
  | filter m condition child =>
    exact (hchildren (.head _)).bind fun _ h =>
      BuildSettings.returns_build (Nat.succ_le_succ h)
  | join m condition? ts =>
    exact hmapM.bind fun _ h => BuildSettings.returns_build (Nat.succ_le_succ h)
  | leftJoin m condition? left right =>
    have hvars {x : Variable} (hx : x ∈ left.vars ∪ right.vars) : x ∈ known :=
      hknown x (vars_subset_knownVars (leftJoin m condition? left right) x hx)
    have hequates : equatesRightSpecific s left right = false :=
      equatesRightSpecific_of_apart hs (fun x hx => hvars (SortedSet.mem_union.2 (.inl hx)))
        fun x hx => hvars (SortedSet.mem_union.2 (.inr hx))
    show Returns _ (descendLeftJoin σ below s constraint? false condition? left right)
    unfold descendLeftJoin
    dsimp only
    rw [hequates, Bool.false_and, Bool.or_false, if_neg Bool.false_ne_true]
    refine (hchildren (.head _)).bind fun _ hleft => ?_
    refine (hchildren (.tail _ (.head _))).bind fun _ hright => ?_
    exact BuildSettings.returns_build (Nat.add_le_add_right (Nat.add_le_add hleft hright) 2)
  | union m projected ts =>
    exact hmapM.bind fun _ h => BuildSettings.returns_build (Nat.succ_le_succ h)
  | distinct m child | slice m window child | orderBy m keys child =>
    exact (hchildren (.head _)).bind fun _ h =>
      BuildSettings.returns_build (Nat.succ_le_succ h)
  | leaf m l =>
    cases l with
    | native query => exact .error
    | _ => exact .ok le_rfl

theorem stages_descendNode (ht : t.InScope) (hknown : t.knownVars ⊆ known) :
    Returns (fun u => u.stages ≤ t.stages) (descendNode σ below s constraint? false t) := by
  unfold descendNode
  dsimp only
  split
  · exact .error
  · split
    · exact .error
    split
    · exact .ok (stages_pos t)
    split
    · split
      · next h => cases h
      · exact .ok le_rfl
    · exact stages_descendRoot hbelow (hs.restrict _) ht hknown

end Renamed

theorem keepsStages_descendTo (σ : BuildSettings) (depth : Nat) :
    KeepsStages ⟨descendTo σ depth, propagateTo σ depth⟩ := by
  induction depth with
  | zero => exact fun _ _ _ => .error
  | succ depth ih => exact fun ht hs hknown => stages_descendNode ih hs ht hknown

end Tree

end QueryAlgebra
