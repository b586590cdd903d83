import QueryAlgebra.Proofs.Scope.Basic

/-!
# Well-named trees

The bindings of a construction are well named when none of them uses a variable that is bound, and a
variable is bound to another one only if that is projected. This is all that validation asks for beyond
scope (`Tree.valid_iff_inScope`): a computation that builds trees in scope, and none but well-named ones,
builds valid trees, in test mode as without checks.

The lemmas of this module say of each of the nodes that rewriting builds when it is well named.
-/

namespace QueryAlgebra

open QueryAlgebra.Except (Ends)

/-- A clash of names is the fault of a node. -/
theorem Error.not_isNameClash_of_category {e : Error} (h : e.category = .internal) :
    ¬e.IsNameClash := by
  intro hclash
  cases e <;> first | exact hclash | cases h

/-- No binding uses a variable that is bound, and what is bound to a variable is bound to one that is
projected. -/
structure Substitution.WellNamed (projected : VarSet) (s : Substitution) : Prop where
  disjoint : s.domain.Disjoint s.rangeVars
  target : ∀ x y, s.find? x = some (.var y) → y ∈ projected

variable {σ : BuildSettings} {projected grouping xs ys : VarSet} {bindings s : Substitution}
  {child left right t : Tree} {ts us : List Tree} {condition constraint : Expression}
  {condition? constraint? : Option Expression} {m mark : Bool} {x y : Variable}

-- ---------------------------------------------------------------------------
-- Bindings
-- ---------------------------------------------------------------------------

namespace Substitution

/-- Some of the bindings are named as well as all of them, also where fewer variables are projected, as
long as the targets of those that are left are among them. -/
theorem WellNamed.of_subset {s' : Substitution} (h : s.WellNamed projected)
    (hs : ∀ x t, s'.find? x = some t → s.find? x = some t)
    (htarget : ∀ x y, s'.find? x = some (.var y) → y ∈ projected → y ∈ xs) : s'.WellNamed xs where
  disjoint x hx hrange := by
    obtain ⟨t, ht⟩ := mem_domain.1 hx
    obtain ⟨y, u, hy, hxu⟩ := mem_rangeVars.1 hrange
    exact h.disjoint x (mem_domain.2 ⟨t, hs x t ht⟩) (mem_rangeVars.2 ⟨y, u, hs y u hy, hxu⟩)
  target x y hxy := htarget x y hxy (h.target x y (hs x _ hxy))

theorem WellNamed.mono (h : s.WellNamed xs) (hxs : xs ⊆ ys) : s.WellNamed ys :=
  ⟨h.disjoint, fun x y hxy => hxs y (h.target x y hxy)⟩

theorem wellNamed_empty : (∅ : Substitution).WellNamed xs := ⟨nofun, nofun⟩

/-- Bindings to ground terms use no variable. -/
theorem wellNamed_of_ground (h : ∀ x t, s.find? x = some t → t.vars = ∅) : s.WellNamed xs := by
  have hnone {x y : Variable} {t : Term} (ht : s.find? x = some t) : y ∉ t.vars := by
    rw [h x t ht]
    exact SortedSet.not_mem_empty y
  refine ⟨fun y _ hrange => ?_, fun x y hxy => absurd (Term.mem_vars_var.2 rfl) (hnone hxy)⟩
  obtain ⟨x, t, ht, hyt⟩ := mem_rangeVars.1 hrange
  exact hnone ht hyt

/-- Solved equalities only use what they keep. -/
theorem Solved.wellNamed (hs : s.Solved xs) : s.WellNamed xs where
  disjoint := hs.disjoint
  target x y hxy := by
    have hx := domain_subset_of_fixed hs.fixed x (mem_domain.2 ⟨_, hxy⟩)
    exact hs.range x hx y (applyVar_of_find? hxy)

end Substitution

-- ---------------------------------------------------------------------------
-- Trees
-- ---------------------------------------------------------------------------

namespace Tree

/-- A construction at the root has well-named bindings. -/
def RootWellNamed : Tree → Prop
  | construct _ projected bindings _ => bindings.WellNamed projected
  | _ => True

/-- Every construction has well-named bindings. -/
def WellNamed (t : Tree) : Prop := ∀ u ∈ t.nodes, u.RootWellNamed

theorem wellNamed_iff : t.WellNamed ↔ t.RootWellNamed ∧ ∀ c ∈ t.children, c.WellNamed :=
  forall_mem_nodes

theorem WellNamed.of_children (hroot : t.RootWellNamed) (h : ∀ c ∈ t.children, c.WellNamed) :
    t.WellNamed := wellNamed_iff.2 ⟨hroot, h⟩

theorem WellNamed.children (h : t.WellNamed) : ∀ c ∈ t.children, c.WellNamed := (wellNamed_iff.1 h).2

theorem wellNamed_noRow (xs : VarSet) : (noRow xs).WellNamed := .of_children trivial nofun

theorem wellNamed_oneRow : oneRow.WellNamed := .of_children trivial nofun

/-- Names are the only thing that validation asks for beyond scope. -/
theorem rootValid_iff : t.RootValid ↔ t.RootInScope ∧ t.RootWellNamed := by
  cases t with
  | construct m projected bindings child =>
    constructor
    · intro h
      exact ⟨rootInScope_of_rootValid h, h.2.1, h.2.2.1⟩
    · rintro ⟨hscope, hnames⟩
      exact ⟨Substitution.domain_subset_of_fixed hscope.fixed, hnames.disjoint, hnames.target,
        requiredVars_subset hscope.fixed hscope.vars_subset⟩
  | _ => exact (and_iff_left trivial).symm

theorem valid_iff_inScope : t.Valid ↔ t.InScope ∧ t.WellNamed := by
  simp only [Valid, InScope, WellNamed, rootValid_iff, ← forall₂_and]

theorem Valid.wellNamed (h : t.Valid) : t.WellNamed := (valid_iff_inScope.1 h).2

theorem Valid.children (h : t.Valid) : ∀ c ∈ t.children, c.Valid := (valid_iff.1 h).2

theorem WellNamed.withMark (h : t.WellNamed) : (t.withMark mark).WellNamed := by
  obtain ⟨hroot, hchildren⟩ := wellNamed_iff.1 h
  cases t <;> exact .of_children hroot hchildren

/-- A node fails its check because of a clash of names, which a well-named one has not, or for another
reason; it is never a limit of the rewriting itself. -/
theorem ends_checkNode_of {Q : Error → Prop} (hclash : t.RootWellNamed ∨ ∀ e, e.IsNameClash → Q e)
    (hother : ∀ e, ¬e.IsNameClash → e.category ≠ .internal → Q e) :
    Ends (fun _ => True) Q t.checkNode := by
  have hensure {c : Bool} {e : Error} (he : c = true ∨ Q e) :
      Ends (fun _ => True) Q (Error.ensure c e) := by
    cases c with
    | true => trivial
    | false => exact he.resolve_left Bool.false_ne_true
  cases t with
  | construct m projected bindings child =>
    refine (hensure (.inr (hother (.bindsNonProjected _) id nofun))).bind fun _ _ => ?_
    refine (hensure ?_).bind fun _ _ => Ends.bind (Ends.forM ?_) fun _ _ =>
      hensure (.inr (hother (.childLacks _ _) id nofun))
    · exact hclash.imp (fun h => decide_eq_true h.disjoint) fun h => h (.boundVariableInBinding _) trivial
    · rintro ⟨x, t⟩ hmem
      cases t with
      | var y =>
        refine hensure (hclash.imp (fun h => decide_eq_true ?_) fun h =>
          h (.boundToNonProjected _ x y) trivial)
        exact h.target x y (Substitution.mem_bindings.1 hmem)
      | _ => trivial
  | filter m condition child => exact hensure (.inr (hother (.conditionOutOfScope _ _) id nofun))
  | join m condition? ts =>
    exact (hensure (.inr (hother (.wrongChildCount _ _ _) id nofun))).bind fun _ _ =>
      hensure (.inr (hother (.conditionOutOfScope _ _) id nofun))
  | leftJoin m condition? left right =>
    exact hensure (.inr (hother (.conditionOutOfScope _ _) id nofun))
  | union m projected ts =>
    exact (hensure (.inr (hother (.wrongChildCount _ _ _) id nofun))).bind fun _ _ =>
      Ends.forM fun t _ => hensure (.inr (hother (.branchProjects _ _) id nofun))
  | distinct m child => trivial
  | slice m window child => trivial
  | orderBy m keys child =>
    exact Ends.forM fun k _ => hensure (.inr (hother (.sortKeyOutOfScope _ _) id nofun))
  | aggregate m grouping bindings child =>
    refine (hensure (.inr (hother (.groupingOutOfScope _) id nofun))).bind fun _ _ =>
      Ends.forM fun b _ => ?_
    exact (hensure (.inr (hother (.groupingVariableAggregated _ _) id nofun))).bind fun _ _ =>
      (hensure (.inr (hother (.notAnAggregate _ _) id nofun))).bind fun _ _ =>
        hensure (.inr (hother (.aggregateOutOfScope _ _) id nofun))
  | leaf m l =>
    cases l with
    | extensional atom => exact hensure (.inr (hother (.malformedAtom _) id nofun))
    | intensional atom => exact hensure (.inr (hother (.malformedAtom _) id nofun))
    | native query => exact hother (.nativeValidated _) id nofun
    | _ => trivial

theorem ends_checkNode_wellNamed (h : t.RootWellNamed) :
    Ends (fun _ => True) (fun e => ¬e.IsNameClash) t.checkNode :=
  ends_checkNode_of (.inl h) fun _ he _ => he

theorem ends_checkNode_category (t : Tree) :
    Ends (fun _ => True) (·.category ≠ .internal) t.checkNode :=
  ends_checkNode_of (.inr fun _ he hinternal => Error.not_isNameClash_of_category hinternal he)
    fun _ _ he => he

end Tree

-- ---------------------------------------------------------------------------
-- Computations
-- ---------------------------------------------------------------------------

/-- The computation gives a well-named tree, or fails for another reason than a clash of names. -/
def GivesWellNamed : Except Error Tree → Prop := Ends Tree.WellNamed fun e => ¬e.IsNameClash

theorem Tree.Over.valid (h : t.Over xs) (h' : t.WellNamed) : t.Valid :=
  valid_iff_inScope.2 ⟨h.inScope, h'⟩

/-- What builds trees in scope, and none but well-named ones, stops only where it goes too deep. -/
theorem BuildSettings.Stops.eq_depthExceeded {e : Error} (h : σ.Stops e) (h' : ¬e.IsNameClash) :
    e = .depthExceeded :=
  h.resolve_right fun hclash => h' hclash.2

-- ---------------------------------------------------------------------------
-- Building
-- ---------------------------------------------------------------------------

namespace BuildSettings

theorem wellNamed_build (h : t.WellNamed) : GivesWellNamed (σ.build t) := by
  refine ends_build h fun _ e he => ?_
  have hnode := Tree.ends_checkNode_wellNamed (Tree.wellNamed_iff.1 h).1
  rwa [he] at hnode

theorem wellNamed_construct (hbindings : bindings.WellNamed projected) (h : t.WellNamed) :
    GivesWellNamed (σ.construct projected bindings t) :=
  wellNamed_build (.of_children hbindings (List.forall_mem_singleton.2 h))

theorem wellNamed_project (h : t.WellNamed) : GivesWellNamed (σ.project projected t) :=
  wellNamed_construct Substitution.wellNamed_empty h

theorem wellNamed_filter (h : t.WellNamed) : GivesWellNamed (σ.filter condition t) :=
  wellNamed_build (.of_children trivial (List.forall_mem_singleton.2 h))

theorem wellNamed_filterOptional (h : t.WellNamed) : GivesWellNamed (σ.filterOptional condition? t) := by
  cases condition? with
  | none => exact h
  | some condition => exact wellNamed_filter h

theorem wellNamed_join (h : ∀ t ∈ ts, t.WellNamed) : GivesWellNamed (σ.join condition? ts) :=
  wellNamed_build (.of_children trivial h)

theorem wellNamed_joinOf (h : ∀ t ∈ ts, t.WellNamed) : GivesWellNamed (σ.joinOf condition? ts) := by
  unfold joinOf
  split
  · exact wellNamed_filterOptional Tree.wellNamed_oneRow
  · exact wellNamed_filterOptional (h _ (.head _))
  · exact wellNamed_join h

theorem wellNamed_leftJoin (hleft : left.WellNamed) (hright : right.WellNamed) :
    GivesWellNamed (σ.leftJoin condition? left right) :=
  wellNamed_build (.of_children trivial
    (List.forall_mem_cons.2 ⟨hleft, List.forall_mem_singleton.2 hright⟩))

theorem wellNamed_union (h : ∀ t ∈ ts, t.WellNamed) : GivesWellNamed (σ.union projected ts) :=
  wellNamed_build (.of_children trivial h)

theorem wellNamed_distinct (h : t.WellNamed) : GivesWellNamed (σ.distinct t) :=
  wellNamed_build (.of_children trivial (List.forall_mem_singleton.2 h))

theorem wellNamed_slice {window : Window} (h : t.WellNamed) : GivesWellNamed (σ.slice window t) :=
  wellNamed_build (.of_children trivial (List.forall_mem_singleton.2 h))

theorem wellNamed_orderBy {keys : List SortKey} (h : t.WellNamed) :
    GivesWellNamed (σ.orderBy keys t) :=
  wellNamed_build (.of_children trivial (List.forall_mem_singleton.2 h))

theorem wellNamed_aggregate (h : t.WellNamed) : GivesWellNamed (σ.aggregate grouping bindings t) :=
  wellNamed_build (.of_children trivial (List.forall_mem_singleton.2 h))

theorem wellNamed_restoreEqualities (hs : s.Solved xs) (h : t.WellNamed) :
    GivesWellNamed (σ.restoreEqualities xs s t) :=
  .ite (fun _ => h) fun _ => wellNamed_construct hs.wellNamed h

theorem wellNamed_padWithNulls (h : t.WellNamed) : GivesWellNamed (σ.padWithNulls t xs) := by
  refine .ite (fun _ => h) fun _ => wellNamed_construct (Substitution.wellNamed_of_ground ?_) h
  intro x t ht
  have happly := Substitution.applyVar_of_find? ht
  rw [Substitution.applyVar_nullifying] at happly
  split at happly
  · exact happly ▸ rfl
  · exact absurd (ht.trans (congrArg some happly.symm)) (Substitution.proper _ x)

/-- The construction of the bindings, or the tree alone. -/
theorem wellNamed_constructOver (hbindings : bindings.WellNamed projected) (h : t.WellNamed) :
    GivesWellNamed (if bindings.isEmpty ∧ t.vars = projected then .ok t
      else σ.construct projected bindings t) :=
  .ite (fun _ => h) fun _ => wellNamed_construct hbindings h

end BuildSettings

theorem Tree.wellNamed_withChildren (hroot : t.RootWellNamed) (hus : ∀ u ∈ us, u.WellNamed) :
    GivesWellNamed (t.withChildren σ us) := by
  unfold withChildren
  split
  · exact BuildSettings.wellNamed_construct hroot (hus _ (.head _))
  · exact BuildSettings.wellNamed_filter (hus _ (.head _))
  · exact BuildSettings.wellNamed_distinct (hus _ (.head _))
  · exact BuildSettings.wellNamed_slice (hus _ (.head _))
  · exact BuildSettings.wellNamed_orderBy (hus _ (.head _))
  · exact BuildSettings.wellNamed_aggregate (hus _ (.head _))
  · exact BuildSettings.wellNamed_leftJoin (hus _ (.head _)) (hus _ (.tail _ (.head _)))
  · exact .of_children trivial nofun
  · exact .ite (fun _ => BuildSettings.wellNamed_join hus) fun _ => id
  · exact .ite (fun _ => BuildSettings.wellNamed_union hus) fun _ => id
  · exact id

-- ---------------------------------------------------------------------------
-- Pushing down
-- ---------------------------------------------------------------------------

/-- What is pushed into valid trees leaves them well named. -/
structure Pushdown.KeepsNames (below : Pushdown) : Prop where
  descend : ∀ {s : Substitution} {constraint? : Option Expression} {optimize : Bool} {t : Tree},
    t.Valid → s.Flat → GivesWellNamed (below.descend s constraint? optimize t)
  propagate : ∀ {constraint : Expression} {t : Tree},
    t.Valid → GivesWellNamed (below.propagate constraint t)

theorem Pushdown.KeepsNames.pushSplit {below : Pushdown} {own : SplitCondition}
    (hbelow : below.KeepsNames) (hflat : own.equalities.Flat) (ht : t.Valid) :
    GivesWellNamed (below.pushSplit own constraint? t) := by
  refine .ite (fun _ => hbelow.descend ht hflat) fun _ => ?_
  cases constraint? with
  | none => exact ht.wellNamed
  | some constraint => exact hbelow.propagate ht

/-- Trees computed from others, one by one. -/
theorem Tree.wellNamed_mapM {f : Tree → Except Error Tree} (h : ∀ t ∈ ts, GivesWellNamed (f t)) :
    Ends (fun us => ∀ u ∈ us, WellNamed u) (fun e => ¬e.IsNameClash) (ts.mapM f) := by
  refine (Ends.mapM (R := fun _ u => u.WellNamed) h).imp fun us hus u hu => ?_
  obtain ⟨-, -, hu⟩ := exists_of_mem_right hus hu
  exact hu

end QueryAlgebra
