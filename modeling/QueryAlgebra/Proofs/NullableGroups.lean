import Mathlib.Logic.Relation
import QueryAlgebra.Proofs.Consistency

/-!
# The groups of a nullability

Merging looks at one set of variables at a time and at the groups that the sets before it have
left. Two sets end up in one group exactly when a chain of sets leads from one to the other, each
sharing a variable with the next (`VarSet.Linked`), also if the set that joins them comes last. So
the groups are the connected components of the sets (`VarSet.IsComponent`), and neither order nor
repetition of the sets is seen in them.

What carries the proof is that the groups are components of the sets merged so far
(`Nullability.Merged`): it holds of no sets, and merging one more set keeps it.

Main statement: `Nullability.groups_components` — which groups merging gives, and that no sequence of
operations leaves a group empty, two groups with a variable in common or a group with a variable
outside the scope.
-/

namespace QueryAlgebra

-- ---------------------------------------------------------------------------
-- Linked sets
-- ---------------------------------------------------------------------------

namespace VarSet

variable {sets sets' : List VarSet} {g h k u : VarSet} {x : Variable}

/-- Both sets are among the given ones, and they share a variable. -/
def Overlaps (sets : List VarSet) (g h : VarSet) : Prop :=
  g ∈ sets ∧ h ∈ sets ∧ ∃ x ∈ g, x ∈ h

/-- A chain of the given sets leads from one set to the other, each overlapping the next. -/
def Linked (sets : List VarSet) : VarSet → VarSet → Prop := Relation.EqvGen (Overlaps sets)

/-- The variables of one of the given sets and of all that are linked with it. -/
def IsComponent (sets : List VarSet) (k : VarSet) : Prop :=
  ∃ g ∈ sets, ∀ x, x ∈ k ↔ ∃ h ∈ sets, Linked sets g h ∧ x ∈ h

theorem Linked.of_shared (hg : g ∈ sets) (hh : h ∈ sets) (hxg : x ∈ g) (hxh : x ∈ h) :
    Linked sets g h := .rel _ _ ⟨hg, hh, x, hxg, hxh⟩

theorem Linked.trans (h : Linked sets g u) (h' : Linked sets u k) : Linked sets g k :=
  Relation.EqvGen.trans _ _ _ h h'

theorem Linked.symm (h : Linked sets g k) : Linked sets k g := Relation.EqvGen.symm _ _ h

theorem Linked.mono (hsub : ∀ u ∈ sets, u ∈ sets') (h : Linked sets g k) : Linked sets' g k := by
  induction h with
  | rel g k hoverlap => exact .rel _ _ ⟨hsub _ hoverlap.1, hsub _ hoverlap.2.1, hoverlap.2.2⟩
  | refl g => exact .refl g
  | symm _ _ _ ih => exact ih.symm
  | trans _ _ _ _ _ ih ih' => exact ih.trans ih'

/-- Components only depend on which sets there are. -/
theorem isComponent_congr (hsame : ∀ u, u ∈ sets ↔ u ∈ sets') :
    IsComponent sets k ↔ IsComponent sets' k := by
  have hlinked (g h : VarSet) : Linked sets g h ↔ Linked sets' g h :=
    ⟨.mono fun u hu => (hsame u).1 hu, .mono fun u hu => (hsame u).2 hu⟩
  simp only [IsComponent, hsame, hlinked]

end VarSet

namespace Nullability

open VarSet (Linked IsComponent)

variable {sets groups : List VarSet} {g h u : VarSet} {x : Variable}

-- ---------------------------------------------------------------------------
-- Merging
-- ---------------------------------------------------------------------------

/-- What the groups are once `sets` are merged: they have no variable in common, each is all that is
linked with one of the sets, and every set is in one of them. -/
structure Merged (sets groups : List VarSet) : Prop where
  disjoint : ∀ g ∈ groups, ∀ h ∈ groups, ∀ x ∈ g, x ∈ h → g = h
  linked : ∀ k ∈ groups, ∃ g ∈ sets, g ⊆ k ∧ ∀ x ∈ k, ∃ h ∈ sets, Linked sets g h ∧ x ∈ h
  covers : ∀ g ∈ sets, ∃ k ∈ groups, g ⊆ k

theorem merged_nil : Merged [] [] := ⟨nofun, nofun, nofun⟩

/-- A linked set is in the same group. -/
theorem Merged.subset_of_linked (hm : Merged sets groups) {k : VarSet} (hk : k ∈ groups)
    (hlinked : Linked sets g h) : g ⊆ k ↔ h ⊆ k := by
  have hstep {g h : VarSet} {x : Variable} (hh : h ∈ sets) (hxg : x ∈ g) (hxh : x ∈ h)
      (hgk : g ⊆ k) : h ⊆ k := by
    obtain ⟨k', hk', hhk'⟩ := hm.covers h hh
    obtain rfl := hm.disjoint k hk k' hk' x (hgk x hxg) (hhk' x hxh)
    exact hhk'
  induction hlinked with
  | rel g h hoverlap =>
    obtain ⟨hg, hh, x, hxg, hxh⟩ := hoverlap
    exact ⟨hstep hh hxg hxh, hstep hg hxh hxg⟩
  | refl => exact Iff.rfl
  | symm _ _ _ ih => exact ih.symm
  | trans _ _ _ _ _ ih ih' => exact ih.trans ih'

/-- The groups are the components of the sets. -/
theorem Merged.mem_iff (hm : Merged sets groups) (hne : ∀ g ∈ sets, ∃ x, x ∈ g) {k : VarSet} :
    k ∈ groups ↔ IsComponent sets k := by
  constructor
  · intro hk
    obtain ⟨g, hg, hgk, hall⟩ := hm.linked k hk
    refine ⟨g, hg, fun x => ⟨hall x, ?_⟩⟩
    rintro ⟨h, -, hlinked, hx⟩
    exact (hm.subset_of_linked hk hlinked).1 hgk x hx
  · rintro ⟨g, hg, hmem⟩
    -- the group that covers `g` is a component too, and its set is linked with `g`
    obtain ⟨k', hk', hgk'⟩ := hm.covers g hg
    obtain ⟨g', hg', -, hall⟩ := hm.linked k' hk'
    obtain ⟨y, hy⟩ := hne g hg
    obtain ⟨u, hu, hlinked, hyu⟩ := hall y (hgk' y hy)
    have hback : Linked sets g g' := (Linked.of_shared hg hu hy hyu).trans hlinked.symm
    have hsame : k = k' := by
      ext x
      rw [hmem]
      constructor
      · rintro ⟨h, -, hgh, hx⟩
        exact (hm.subset_of_linked hk' hgh).1 hgk' x hx
      · intro hx
        obtain ⟨h, hh, hlinked, hxh⟩ := hall x hx
        exact ⟨h, hh, hback.trans hlinked, hxh⟩
    exact hsame ▸ hk'

/-- Merging one more set keeps the groups that it does not meet, and makes one group of the others. -/
theorem mem_mergeInto_iff (hu : ∃ x, x ∈ u) {k : VarSet} :
    k ∈ mergeInto groups u ↔ (k ∈ groups ∧ k.Disjoint u) ∨
      k = SortedSet.unions (u :: groups.filter fun g => ¬g.Disjoint u) := by
  have hne : ¬u.isEmpty = true := by
    rw [SortedSet.isEmpty_iff]
    rintro rfl
    obtain ⟨x, hx⟩ := hu
    exact SortedSet.not_mem_empty x hx
  rw [mergeInto, if_neg hne, List.mem_append, List.mem_filter, List.mem_singleton,
    decide_eq_true_eq]

theorem mem_unions_met {x : Variable} :
    x ∈ SortedSet.unions (u :: groups.filter fun g => ¬g.Disjoint u) ↔
      x ∈ u ∨ ∃ g ∈ groups, x ∈ g ∧ ∃ y ∈ g, y ∈ u := by
  simp only [SortedSet.mem_unions, List.mem_cons, List.mem_filter, exists_eq_or_imp,
    SortedSet.disjoint_iff, decide_eq_true_eq]
  push Not
  exact or_congr_right (exists_congr fun g => by tauto)

theorem Merged.add (hm : Merged sets groups) (hu : ∃ x, x ∈ u) :
    Merged (sets ++ [u]) (mergeInto groups u) := by
  have hmono : ∀ g ∈ sets, g ∈ sets ++ [u] := fun g hg => List.mem_append_left _ hg
  have hlast : u ∈ sets ++ [u] := List.mem_append_right _ (.head _)
  have hgrouped {k : VarSet} : k ∈ mergeInto groups u ↔ (k ∈ groups ∧ k.Disjoint u) ∨
      k = SortedSet.unions (u :: groups.filter fun g => ¬g.Disjoint u) :=
    mem_mergeInto_iff hu
  refine ⟨?_, ?_, ?_⟩
  · -- a kept group shares nothing with the new one: what it shared would be in a group that `u` meets
    have hapart {g : VarSet} (hg : g ∈ groups) (hdisjoint : g.Disjoint u) {x : Variable}
        (hx : x ∈ g) : x ∉ SortedSet.unions (u :: groups.filter fun g => ¬g.Disjoint u) := by
      intro hmem
      rcases mem_unions_met.1 hmem with hxu | ⟨h, hh, hxh, y, hyh, hyu⟩
      · exact hdisjoint x hx hxu
      · obtain rfl := hm.disjoint g hg h hh x hx hxh
        exact hdisjoint y hyh hyu
    intro g hg h hh x hxg hxh
    rcases hgrouped.1 hg with ⟨hg, hgu⟩ | rfl <;> rcases hgrouped.1 hh with ⟨hh, hhu⟩ | rfl
    · exact hm.disjoint g hg h hh x hxg hxh
    · exact absurd hxh (hapart hg hgu hxg)
    · exact absurd hxg (hapart hh hhu hxh)
    · rfl
  · intro k hk
    rcases hgrouped.1 hk with ⟨hk, -⟩ | rfl
    · obtain ⟨g, hg, hgk, hall⟩ := hm.linked k hk
      refine ⟨g, hmono g hg, hgk, fun x hx => ?_⟩
      obtain ⟨h, hh, hlinked, hxh⟩ := hall x hx
      exact ⟨h, hmono h hh, hlinked.mono hmono, hxh⟩
    · refine ⟨u, hlast, fun x hx => mem_unions_met.2 (.inl hx), fun x hx => ?_⟩
      rcases mem_unions_met.1 hx with hxu | ⟨k, hk, hxk, y, hyk, hyu⟩
      · exact ⟨u, hlast, .refl u, hxu⟩
      · -- from `u` to the set of `k` that it meets, and from there to the set of `k` that has `x`
        obtain ⟨g, -, -, hall⟩ := hm.linked k hk
        obtain ⟨v, hv, hgv, hyv⟩ := hall y hyk
        obtain ⟨w, hw, hgw, hxw⟩ := hall x hxk
        have huv : Linked (sets ++ [u]) u v := .of_shared hlast (hmono v hv) hyu hyv
        exact ⟨w, hmono w hw, huv.trans ((hgv.symm.trans hgw).mono hmono), hxw⟩
  · intro g hg
    rcases List.mem_append.1 hg with hg | hg
    · obtain ⟨k, hk, hgk⟩ := hm.covers g hg
      by_cases hdisjoint : k.Disjoint u
      · exact ⟨k, hgrouped.2 (.inl ⟨hk, hdisjoint⟩), hgk⟩
      · refine ⟨_, hgrouped.2 (.inr rfl), fun x hx => mem_unions_met.2 (.inr ⟨k, hk, hgk x hx, ?_⟩)⟩
        rw [SortedSet.disjoint_iff] at hdisjoint
        push Not at hdisjoint
        exact hdisjoint
    · rw [List.mem_singleton.1 hg]
      exact ⟨_, hgrouped.2 (.inr rfl), fun x hx => mem_unions_met.2 (.inl hx)⟩

/-- After a run the groups are those of the sets that have variables. -/
theorem merged_foldl (hm : Merged sets groups) (gs : List VarSet) :
    Merged (sets ++ gs.filter fun g => !g.isEmpty) (gs.foldl mergeInto groups) := by
  induction gs generalizing sets groups with
  | nil => simpa using hm
  | cons g gs ih =>
    rw [List.foldl_cons, List.filter_cons]
    cases hempty : g.isEmpty with
    | true =>
      have hsame : mergeInto groups g = groups := if_pos hempty
      rw [hsame]
      exact ih hm
    | false =>
      have hnext := ih (hm.add (SortedSet.exists_mem_of_isEmpty_eq_false hempty))
      rwa [List.append_assoc] at hnext

-- ---------------------------------------------------------------------------
-- Groups within a scope
-- ---------------------------------------------------------------------------

/-- What the sets have in the scope, for those that have something there. -/
def pieces (gs : List VarSet) (scope : VarSet) : List VarSet :=
  (gs.map (· ∩ scope)).filter fun g => !g.isEmpty

variable {gs gs' : List VarSet} {scope : VarSet}

theorem mem_pieces : g ∈ pieces gs scope ↔ (∃ h ∈ gs, h ∩ scope = g) ∧ g.isEmpty = false := by
  rw [pieces, List.mem_filter, List.mem_map, Bool.not_eq_true']

theorem exists_mem_of_mem_pieces (hg : g ∈ pieces gs scope) : ∃ x, x ∈ g :=
  SortedSet.exists_mem_of_isEmpty_eq_false (mem_pieces.1 hg).2

theorem merged_ofGroups (gs : List VarSet) (scope : VarSet) :
    Merged (pieces gs scope) (ofGroups gs scope).groups.toList := by
  have hrun : Merged (pieces gs scope) ((gs.map (· ∩ scope)).foldl mergeInto []) :=
    merged_foldl merged_nil (gs.map (· ∩ scope))
  have hmem (g : VarSet) : g ∈ (ofGroups gs scope).groups.toList ↔
      g ∈ (gs.map (· ∩ scope)).foldl mergeInto [] := SortedSet.mem_ofList
  refine ⟨fun g hg h hh => ?_, fun k hk => hrun.linked k ((hmem k).1 hk), fun g hg => ?_⟩
  · exact hrun.disjoint g ((hmem g).1 hg) h ((hmem h).1 hh)
  · obtain ⟨k, hk, hgk⟩ := hrun.covers g hg
    exact ⟨k, (hmem k).2 hk, hgk⟩

/-- The groups are the components of what the sets have in the scope. -/
theorem mem_groups_iff {k : VarSet} :
    k ∈ (ofGroups gs scope).groups ↔ IsComponent (pieces gs scope) k :=
  (merged_ofGroups gs scope).mem_iff fun _ => exists_mem_of_mem_pieces

/-- Order and repetition of the sets do not matter. -/
theorem ofGroups_congr (hsame : ∀ g, g ∈ gs ↔ g ∈ gs') : ofGroups gs scope = ofGroups gs' scope := by
  have hpieces (g : VarSet) : g ∈ pieces gs scope ↔ g ∈ pieces gs' scope := by
    simp only [mem_pieces, hsame]
  have hgroups : (ofGroups gs scope).groups = (ofGroups gs' scope).groups := by
    ext k
    rw [mem_groups_iff, mem_groups_iff, VarSet.isComponent_congr hpieces]
  exact congrArg (Nullability.mk · scope) hgroups

-- ---------------------------------------------------------------------------
-- Whatever is done
-- ---------------------------------------------------------------------------

/-- Groups have variables, all of them in the scope, and no two groups have one in common. -/
structure WellFormed (n : Nullability) : Prop where
  nonempty : ∀ g ∈ n.groups, ∃ x, x ∈ g
  disjoint : ∀ g ∈ n.groups, ∀ h ∈ n.groups, g ≠ h → g.Disjoint h
  subset_scope : n.Scoped

theorem wellFormed_ofGroups (gs : List VarSet) (scope : VarSet) : (ofGroups gs scope).WellFormed where
  nonempty k hk := by
    obtain ⟨g, hg, hgk, -⟩ := (merged_ofGroups gs scope).linked k hk
    obtain ⟨x, hx⟩ := exists_mem_of_mem_pieces hg
    exact ⟨x, hgk x hx⟩
  disjoint g hg h hh hne x hxg hxh :=
    hne ((merged_ofGroups gs scope).disjoint g hg h hh x hxg hxh)
  subset_scope := scoped_ofGroups gs scope

theorem wellFormed_nonNullable (scope : VarSet) : (nonNullable scope).WellFormed where
  nonempty g hg := absurd hg (SortedSet.not_mem_empty g)
  disjoint g hg := absurd hg (SortedSet.not_mem_empty g)
  subset_scope := scoped_nonNullable scope

/-- Nothing is merged where every variable is a group of its own. -/
theorem wellFormed_allNullable (scope : VarSet) : (allNullable scope).WellFormed := by
  have hgroup {g : VarSet} (hg : g ∈ (allNullable scope).groups) :
      ∃ x, g = SortedSet.singleton x := by
    rw [allNullable, SortedSet.mem_ofList, List.mem_map] at hg
    obtain ⟨x, -, rfl⟩ := hg
    exact ⟨x, rfl⟩
  refine ⟨fun g hg => ?_, fun g hg h hh hne x hxg hxh => ?_, scoped_allNullable scope⟩
  · obtain ⟨x, rfl⟩ := hgroup hg
    exact ⟨x, SortedSet.mem_singleton.2 rfl⟩
  · obtain ⟨y, rfl⟩ := hgroup hg
    obtain ⟨z, rfl⟩ := hgroup hh
    obtain rfl := SortedSet.mem_singleton.1 hxg
    obtain rfl := SortedSet.mem_singleton.1 hxh
    exact hne rfl

theorem WellFormed.extendWithNonNullable {n : Nullability} (h : n.WellFormed) (xs : VarSet) :
    (n.extendWithNonNullable xs).WellFormed where
  nonempty := h.nonempty
  disjoint := h.disjoint
  subset_scope g hg x hx := SortedSet.mem_union.2 (.inl (h.subset_scope g hg x hx))

/-- How a nullability comes about. -/
inductive Origin where
  | groups (gs : List VarSet) (scope : VarSet)
  | nonNullable (scope : VarSet)
  | allNullable (scope : VarSet)
  | empty

/-- What may be done to a nullability. -/
inductive Update where
  | restrict (xs : VarSet)
  | extendWithNonNullable (xs : VarSet)
  | filter (condition : Expression)
  | project (s : Substitution) (projected : VarSet)

def Origin.value : Origin → Nullability
  | .groups gs scope => ofGroups gs scope
  | .nonNullable scope => Nullability.nonNullable scope
  | .allNullable scope => Nullability.allNullable scope
  | .empty => Nullability.empty

def Update.apply (n : Nullability) : Update → Nullability
  | restrict xs => n.restrict xs
  | extendWithNonNullable xs => n.extendWithNonNullable xs
  | filter condition => n.filter condition
  | project s projected => n.project s projected

/-- The nullability after a sequence of updates. -/
def Origin.after (origin : Origin) (updates : List Update) : Nullability :=
  updates.foldl Update.apply origin.value

theorem Origin.wellFormed_value (origin : Origin) : origin.value.WellFormed := by
  cases origin with
  | groups gs scope => exact wellFormed_ofGroups gs scope
  | nonNullable scope => exact wellFormed_nonNullable scope
  | allNullable scope => exact wellFormed_allNullable scope
  | empty => exact wellFormed_nonNullable ∅

/-- One update keeps groups well-formed. -/
theorem WellFormed.update {n : Nullability} (h : n.WellFormed) (update : Update) :
    (update.apply n).WellFormed := by
  cases update with
  | extendWithNonNullable xs => exact h.extendWithNonNullable xs
  | restrict | filter | project => exact wellFormed_ofGroups _ _

/-- So do any number of them. -/
theorem WellFormed.foldl {n : Nullability} (h : n.WellFormed) (updates : List Update) :
    (updates.foldl Update.apply n).WellFormed := by
  induction updates generalizing n with
  | nil => exact h
  | cons update updates ih => exact ih (h.update update)

/-- Merging sets within a scope gives the connected components of what they have there, whatever the
order and the repetition of the sets. After any sequence of operations the groups have variables, all
of them in the scope, and none in common. -/
theorem groups_components :
    (∀ gs scope, (ofGroups gs scope).scope = scope ∧
      ∀ k, k ∈ (ofGroups gs scope).groups ↔ IsComponent (pieces gs scope) k) ∧
    (∀ gs gs' scope, (∀ g, g ∈ gs ↔ g ∈ gs') → ofGroups gs scope = ofGroups gs' scope) ∧
    ∀ (origin : Origin) (updates : List Update), (origin.after updates).WellFormed :=
  ⟨fun _ _ => ⟨rfl, fun _ => mem_groups_iff⟩, fun _ _ _ => ofGroups_congr,
    fun origin updates => origin.wellFormed_value.foldl updates⟩

/-- The set that joins the other two may come last or in the middle. -/
theorem groups_components_of_chain :
    let a : Variable := ⟨"a"⟩
    let b : Variable := ⟨"b"⟩
    let c : Variable := ⟨"c"⟩
    let d : Variable := ⟨"d"⟩
    let scope : VarSet := .ofList [a, b, c, d, ⟨"e"⟩]
    let ab : VarSet := .ofList [a, b]
    let cd : VarSet := .ofList [c, d, ⟨"outside"⟩]
    let bc : VarSet := .ofList [b, c]
    (∀ g, g ∈ [ab, cd, bc] ↔ g ∈ [cd, bc, cd, ab]) ∧
      ofGroups [ab, cd, bc] scope = ofGroups [cd, bc, cd, ab] scope ∧
      (ofGroups [ab, cd, bc] scope).groups = .singleton (.ofList [a, b, c, d]) := by
  intro a b c d scope ab cd bc
  have hsame : ∀ g, g ∈ [ab, cd, bc] ↔ g ∈ [cd, bc, cd, ab] := by
    intro g
    simp only [List.mem_cons, List.not_mem_nil, or_false]
    tauto
  exact ⟨hsame, groups_components.2.1 _ _ scope hsame, by decide +kernel⟩

end Nullability

end QueryAlgebra
