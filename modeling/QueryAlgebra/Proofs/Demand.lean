import QueryAlgebra.Proofs.Bags
import QueryAlgebra.Proofs.Validity
import QueryAlgebra.Tree.SelfJoin

/-!
# Rows as far as they are demanded

A tree is reduced to another one under a demand when no use that the demand allows for tells their
rows apart (`Tree.Reduces`): they agree on the variables that are read, and as often where
occurrences count. The operators hand demands down to their operands (`Tree.demandsBelow`), and an
operator over reduced operands is reduced itself.

The exception is a DISTINCT: how many rows it leaves depends on every variable of its operand,
whether anyone reads it above or not. It is reduced if only the set of its rows matters, or if the
operand is reduced with nothing discarded.
-/

namespace QueryAlgebra.Tree

variable {D : Database} {demand : Demand}

-- ---------------------------------------------------------------------------
-- Demands
-- ---------------------------------------------------------------------------

/-- The demands that a tree makes of its children, one for each. -/
def demandsBelow (demand : Demand) : Tree → List Demand
  | construct _ projected bindings child =>
    [{ demand with discarded := child.vars \ requiredVars projected bindings }]
  | filter _ condition _ => [demand.reading condition.vars]
  | join _ condition? children => childDemands demand condition? children
  | leftJoin _ condition? left right =>
    let demand := demand.reading (conditionVars condition?)
    [demand.reading right.vars, demand.reading left.vars]
  | union _ _ children => children.map fun _ => { demand with discarded := ∅ }
  | distinct _ _ => [{ demand with setOnly := true }]
  | slice _ _ _ => [{ demand with setOnly := false }]
  | orderBy _ keys _ => [demand.reading (sortVars keys)]
  | aggregate _ grouping bindings child =>
    [⟨child.vars \ (grouping ∪ bindings.rangeVars), false⟩]
  | leaf _ _ => []

/-- No allowed use tells the rows of the trees apart. -/
structure Reduces (D : Database) (demand : Demand) (t u : Tree) : Prop where
  valid : u.Valid
  vars_subset : u.vars ⊆ t.vars
  kept : ∀ x ∈ t.vars, x ∉ demand.discarded → x ∈ u.vars
  rows : Alike demand.setOnly ((t.rows D).map (Row.cut (t.vars \ demand.discarded)))
    ((u.rows D).map (Row.cut (t.vars \ demand.discarded)))

namespace Reduces

variable {t u : Tree} {kept : VarSet}

theorem refl (h : t.Valid) : Reduces D demand t t :=
  ⟨h, fun _ => id, fun _ hx _ => hx, .refl _ _⟩

/-- It is enough to look at the variables that are read. -/
theorem rows_on (h : Reduces D demand t u)
    (hkept : ∀ x ∈ t.vars, x ∈ kept → x ∉ demand.discarded) :
    Alike demand.setOnly ((t.rows D).map (Row.cut kept)) ((u.rows D).map (Row.cut kept)) := by
  have hcut {v : Tree} (hv : v.vars ⊆ t.vars) : (v.rows D).map (Row.cut kept)
      = ((v.rows D).map (Row.cut (t.vars \ demand.discarded))).map (Row.cut kept) := by
    rw [List.map_map]
    apply List.map_congr_left
    intro ρ hρ
    refine (Row.cut_cut_of_supported (rows_supported v ρ hρ) fun x hx hxk => ?_).symm
    exact SortedSet.mem_diff.2 ⟨hv x hx, hkept x (hv x hx) hxk⟩
  rw [hcut fun _ => id, hcut h.vars_subset]
  exact h.rows.map _

theorem vars_inter (h : Reduces D demand t u)
    (hkept : ∀ x ∈ t.vars, x ∈ kept → x ∉ demand.discarded) : u.vars ∩ kept = t.vars ∩ kept := by
  ext x
  rw [SortedSet.mem_inter, SortedSet.mem_inter]
  refine and_congr_left fun hx => ⟨h.vars_subset x, fun hxt => h.kept x hxt (hkept x hxt hx)⟩

/-- Marks do not matter. -/
theorem of_unmarked_eq {v : Tree} (h : Reduces D demand t u) (hv : u.unmarked = v.unmarked) :
    Reduces D demand t v := by
  have hvars := vars_of_unmarked_eq hv
  have hrows := rows_of_unmarked_eq (D := D) hv
  exact ⟨valid_of_unmarked_eq hv h.valid, hvars ▸ h.vars_subset, hvars ▸ h.kept, hrows ▸ h.rows⟩

/-- A tree that no variable is discarded of keeps its variables. -/
theorem vars_eq (h : Reduces D demand t u) (hnone : ∀ x ∈ t.vars, x ∉ demand.discarded) :
    u.vars = t.vars := by
  ext x
  exact ⟨h.vars_subset x, fun hx => h.kept x hx (hnone x hx)⟩

theorem rows_of_vars (h : Reduces D demand t u) (hnone : ∀ x ∈ t.vars, x ∉ demand.discarded) :
    Alike demand.setOnly (t.rows D) (u.rows D) := by
  rw [← map_cut_rows (t := t) fun _ => id, ← map_cut_rows h.vars_subset]
  exact h.rows_on fun x hx _ => hnone x hx

end Reduces

-- ---------------------------------------------------------------------------
-- Operators over one operand
-- ---------------------------------------------------------------------------

theorem valid_of_child {t u : Tree} (hroot : t.RootValid) (hchildren : t.children = [u])
    (hu : u.Valid) : t.Valid := by
  rw [valid_iff, hchildren, List.forall_mem_singleton]
  exact ⟨hroot, hu⟩

section Operators

variable {m : Bool} {t u : Tree} {projected grouping : VarSet} {bindings : Substitution}
  {condition : Expression} {keys : List SortKey}

theorem constructed_cut (ρ : Row) :
    D.constructed projected bindings (Row.cut (requiredVars projected bindings) ρ)
      = D.constructed projected bindings ρ := by
  funext x
  unfold Source.constructed
  split
  · next hx =>
    apply Interpretation.eval_congr
    intro y hy
    refine if_pos (mem_requiredVars.2 ?_)
    cases hfind : bindings.find? x with
    | some s =>
      rw [Substitution.applyVar_of_find? hfind] at hy
      exact .inr (Substitution.mem_rangeVars.2 ⟨x, s, hfind, hy⟩)
    | none =>
      rw [Substitution.applyVar, hfind] at hy
      rw [Term.mem_vars_var.1 hy]
      refine .inl ⟨hx, fun hdomain => ?_⟩
      obtain ⟨s, hs⟩ := Substitution.mem_domain.1 hdomain
      rw [hfind] at hs
      cases hs
  · rfl

theorem reduces_construct (hroot : (construct m projected bindings t).RootValid)
    (h : Reduces D { demand with discarded := t.vars \ requiredVars projected bindings } t u) :
    Reduces D demand (construct m projected bindings t) (construct false projected bindings u) := by
  obtain ⟨hdomain, hdisjoint, htargets, hrequired⟩ := hroot
  have hread : ∀ x ∈ t.vars, x ∈ requiredVars projected bindings →
      x ∉ t.vars \ requiredVars projected bindings :=
    fun x _ hx hmem => (SortedSet.mem_diff.1 hmem).2 hx
  refine ⟨valid_of_child ⟨hdomain, hdisjoint, htargets, fun x hx => ?_⟩ rfl h.valid,
    fun _ => id, fun _ hx _ => hx, ?_⟩
  · exact h.kept x (hrequired x hx) (hread x (hrequired x hx) hx)
  · have hconstructed (rows : List Row) : rows.map (D.constructed projected bindings)
        = (rows.map (Row.cut (requiredVars projected bindings))).map
            (D.constructed projected bindings) := by
      rw [List.map_map]
      exact List.map_congr_left fun ρ _ => (constructed_cut ρ).symm
    rw [rows, rows, hconstructed (t.rows D), hconstructed (u.rows D)]
    exact ((h.rows_on hread).map _).map _

theorem reduces_filter (hroot : (filter m condition t).RootValid)
    (h : Reduces D (demand.reading condition.vars) t u) :
    Reduces D demand (filter m condition t) (filter false condition u) := by
  have hread : ∀ x ∈ condition.vars, x ∉ demand.discarded \ condition.vars :=
    fun x hx hmem => (SortedSet.mem_diff.1 hmem).2 hx
  refine ⟨valid_of_child (fun x hx => h.kept x (hroot x hx) (hread x hx)) rfl h.valid,
    h.vars_subset, fun x hx hxd => ?_, ?_⟩
  · exact h.kept x hx fun hmem => hxd (SortedSet.mem_diff.1 hmem).1
  · apply Row.filter_alike h.rows
    · intro ρ
      rw [decide_eq_decide]
      apply Interpretation.holds_congr
      intro x hx
      exact if_pos (SortedSet.mem_diff.2 ⟨hroot x hx, hread x hx⟩)
    · intro x hx
      obtain ⟨hxt, hxd⟩ := SortedSet.mem_diff.1 hx
      exact SortedSet.mem_diff.2 ⟨hxt, fun hmem => hxd (SortedSet.mem_diff.1 hmem).1⟩

theorem reduces_orderBy (hroot : (orderBy m keys t).RootValid)
    (h : Reduces D (demand.reading (sortVars keys)) t u) :
    Reduces D demand (orderBy m keys t) (orderBy false keys u) := by
  have hsorted (rows : List Row) : Alike demand.setOnly rows
      (rows.mergeSort fun ρ σ => (D.compareBy keys ρ σ).isLE) :=
    .of_perm (List.mergeSort_perm _ _).symm
  refine ⟨valid_of_child (fun k hk x hx => ?_) rfl h.valid, h.vars_subset, fun x hx hxd => ?_, ?_⟩
  · refine h.kept x (hroot k hk x hx) fun hmem => (SortedSet.mem_diff.1 hmem).2 ?_
    exact SortedSet.mem_unions.2 ⟨_, List.mem_map.2 ⟨k, hk, rfl⟩, hx⟩
  · exact h.kept x hx fun hmem => hxd (SortedSet.mem_diff.1 hmem).1
  · refine (((hsorted (t.rows D)).map _).symm.trans ?_).trans ((hsorted (u.rows D)).map _)
    apply h.rows_on
    intro x _ hx hmem
    exact (SortedSet.mem_diff.1 hx).2 (SortedSet.mem_diff.1 hmem).1

theorem reduces_aggregate (hroot : (aggregate m grouping bindings t).RootValid)
    (h : Reduces D ⟨t.vars \ (grouping ∪ bindings.rangeVars), false⟩ t u) :
    Reduces D demand (aggregate m grouping bindings t) (aggregate false grouping bindings u) := by
  obtain ⟨hgrouping, hbindings⟩ := hroot
  have hread : ∀ x ∈ t.vars, x ∈ grouping ∪ bindings.rangeVars →
      x ∉ t.vars \ (grouping ∪ bindings.rangeVars) :=
    fun x _ hx hmem => (SortedSet.mem_diff.1 hmem).2 hx
  have hkept : ∀ x ∈ t.vars, x ∈ grouping ∪ bindings.rangeVars → x ∈ u.vars :=
    fun x hxt hx => h.kept x hxt (hread x hxt hx)
  refine ⟨valid_of_child ⟨fun x hx => ?_, fun x s hs => ⟨(hbindings x s hs).1,
    (hbindings x s hs).2.1, fun y hy => ?_⟩⟩ rfl h.valid, fun _ => id, fun _ hx _ => hx, ?_⟩
  · exact hkept x (hgrouping x hx) (SortedSet.mem_union.2 (.inl hx))
  · refine hkept y ((hbindings x s hs).2.2 y hy) (SortedSet.mem_union.2 (.inr ?_))
    exact Substitution.mem_rangeVars.2 ⟨x, s, hs, hy⟩
  · refine Alike.of_perm ((Source.aggregated_perm ?_ ?_ (h.rows_on hread)).map _)
    · exact SortedSet.subset_union_left
    · exact SortedSet.subset_union_right

/-- Where only the set of rows matters, a DISTINCT changes nothing. -/
theorem reduces_distinct_of_setOnly (hset : demand.setOnly = true)
    (h : Reduces D { demand with setOnly := true } t u) :
    Reduces D demand (distinct m t) (distinct false u) := by
  refine ⟨valid_of_child trivial rfl h.valid, h.vars_subset, h.kept, ?_⟩
  have hdistinct {v : Tree} (hv : t.vars \ demand.discarded ⊆ v.vars) :
      Alike true (((distinct m v).rows D).map (Row.cut (t.vars \ demand.discarded)))
        ((v.rows D).map (Row.cut (t.vars \ demand.discarded))) := by
    rw [rows, ← Row.map_cut_map_cut hv (Row.distinct v.vars (v.rows D)),
      ← Row.map_cut_map_cut hv (v.rows D)]
    exact Alike.map (b := true) (fun ν => Row.mem_map_cut_distinct) _
  rw [hset]
  refine (hdistinct fun x hx => (SortedSet.mem_diff.1 hx).1).trans (h.rows.trans ?_)
  refine (hdistinct fun x hx => ?_).symm
  obtain ⟨hxt, hxd⟩ := SortedSet.mem_diff.1 hx
  exact h.kept x hxt hxd

/-- Over an operand that is reduced with nothing discarded, a DISTINCT leaves as many rows. -/
theorem reduces_distinct_of_everything (h : Reduces D ⟨∅, true⟩ t u) :
    Reduces D demand (distinct m t) (distinct false u) := by
  have hnone : ∀ x ∈ t.vars, x ∉ (∅ : VarSet) := fun x _ => SortedSet.not_mem_empty x
  have hvars : u.vars = t.vars := h.vars_eq hnone
  refine ⟨valid_of_child trivial rfl h.valid, h.vars_subset, fun x hx _ => h.kept x hx (hnone x hx),
    Alike.of_perm ?_⟩
  have hsubset : t.vars \ demand.discarded ⊆ t.vars := fun x hx => (SortedSet.mem_diff.1 hx).1
  show (((rows D (distinct m t)).map (Row.cut (t.vars \ demand.discarded))).Perm
    ((rows D (distinct false u)).map (Row.cut (t.vars \ demand.discarded))))
  rw [rows, rows, hvars, ← Row.map_cut_map_cut hsubset (Row.distinct t.vars (t.rows D)),
    ← Row.map_cut_map_cut hsubset (Row.distinct t.vars (u.rows D))]
  exact (Row.distinct_perm (h.rows_on fun x hx _ => hnone x hx)).map _

end Operators

-- ---------------------------------------------------------------------------
-- Operators over several operands
-- ---------------------------------------------------------------------------

section Operators

variable {m : Bool} {projected kept : VarSet} {condition? : Option Expression}

theorem mem_reading {used : VarSet} {x : Variable} :
    x ∈ (demand.reading used).discarded ↔ x ∈ demand.discarded ∧ x ∉ used := SortedSet.mem_diff

/-- The rows of a left join are those of its operands as far as they are demanded. -/
theorem leftJoin_rows_alike {dl dr : Demand} {left left' right right' : Tree}
    (hl : Reduces D dl left left') (hr : Reduces D dr right right') (hset : dl.setOnly = dr.setOnly)
    (hkl : ∀ x ∈ left.vars, x ∈ kept → x ∉ dl.discarded)
    (hkr : ∀ x ∈ right.vars, x ∈ kept → x ∉ dr.discarded)
    (hshared : ∀ x ∈ left.vars, x ∈ right.vars → x ∈ kept)
    (hcondition : conditionVars condition? ⊆ kept) :
    Alike dl.setOnly (((leftJoin m condition? left right).rows D).map (Row.cut kept))
      (((leftJoin false condition? left' right').rows D).map (Row.cut kept)) := by
  have hrows (m : Bool) {l r : Tree} (hlr : ∀ x ∈ l.vars, x ∈ r.vars → x ∈ kept) :
      ((leftJoin m condition? l r).rows D).map (Row.cut kept)
        = ((l.rows D).map (Row.cut kept)).flatMap (D.leftJoined (l.vars ∩ kept) (r.vars ∩ kept)
            condition? ((r.rows D).map (Row.cut kept))) := by
    rw [rows, List.map_flatMap, List.flatMap_map]
    exact List.flatMap_congr fun ρ _ => Source.map_cut_leftJoined hlr hcondition _ ρ
  have hshared' : ∀ x ∈ left'.vars, x ∈ right'.vars → x ∈ kept :=
    fun x hx hx' => hshared x (hl.vars_subset x hx) (hr.vars_subset x hx')
  rw [hrows m hshared, hrows false hshared', hl.vars_inter hkl, hr.vars_inter hkr]
  exact (hl.rows_on hkl).flatMap fun ρ _ =>
    Source.leftJoined_alike (hset ▸ hr.rows_on hkr) ρ

theorem reduces_leftJoin {left left' right right' : Tree}
    (hroot : (leftJoin m condition? left right).RootValid)
    (hl : Reduces D ((demand.reading (conditionVars condition?)).reading right.vars) left left')
    (hr : Reduces D ((demand.reading (conditionVars condition?)).reading left.vars) right right') :
    Reduces D demand (leftJoin m condition? left right) (leftJoin false condition? left' right') := by
  let kept := (left.vars ∪ right.vars) \
    (demand.discarded.filter fun x => x ∉ conditionVars condition? ∧ ¬(x ∈ left.vars ∧ x ∈ right.vars))
  have hkept {x : Variable} : x ∈ kept ↔ x ∈ left.vars ∪ right.vars ∧
      (x ∈ demand.discarded → x ∈ conditionVars condition? ∨ x ∈ left.vars ∧ x ∈ right.vars) := by
    simp only [kept, SortedSet.mem_diff, SortedSet.mem_filter, decide_eq_true_iff]
    tauto
  have hvars : ∀ x ∈ kept, x ∈ left'.vars ∪ right'.vars := by
    intro x hx
    obtain ⟨hmem, hread⟩ := hkept.1 hx
    refine SortedSet.mem_union.2 ((SortedSet.mem_union.1 hmem).imp ?_ ?_)
    · intro h
      refine hl.kept x h ?_
      simp only [mem_reading]
      tauto
    · intro h
      refine hr.kept x h ?_
      simp only [mem_reading]
      tauto
  have hcondition : conditionVars condition? ⊆ kept :=
    fun x hx => hkept.2 ⟨hroot x hx, fun _ => .inl hx⟩
  have hsubset : (left.vars ∪ right.vars) \ demand.discarded ⊆ kept := by
    intro x hx
    obtain ⟨hmem, hread⟩ := SortedSet.mem_diff.1 hx
    exact hkept.2 ⟨hmem, fun hxd => absurd hxd hread⟩
  refine ⟨?_, fun x hx => ?_, fun x hx hxd => ?_, ?_⟩
  · rw [valid_iff]
    refine ⟨fun x hx => hvars x (hcondition x hx), ?_⟩
    simpa [children] using ⟨hl.valid, hr.valid⟩
  · exact SortedSet.mem_union.2 ((SortedSet.mem_union.1 hx).imp (hl.vars_subset x)
      (hr.vars_subset x))
  · exact hvars x (hsubset x (SortedSet.mem_diff.2 ⟨hx, hxd⟩))
  · show Alike demand.setOnly
      (((leftJoin m condition? left right).rows D).map
        (Row.cut ((left.vars ∪ right.vars) \ demand.discarded)))
      (((leftJoin false condition? left' right').rows D).map
        (Row.cut ((left.vars ∪ right.vars) \ demand.discarded)))
    rw [← Row.map_cut_map_cut hsubset (rows D (leftJoin m condition? left right)),
      ← Row.map_cut_map_cut hsubset (rows D (leftJoin false condition? left' right'))]
    refine (leftJoin_rows_alike hl hr rfl ?_ ?_ ?_ hcondition).map _
    · intro x hx hxk
      have hread := (hkept.1 hxk).2
      simp only [mem_reading]
      tauto
    · intro x hx hxk
      have hread := (hkept.1 hxk).2
      simp only [mem_reading]
      tauto
    · exact fun x hx hx' => hkept.2 ⟨SortedSet.mem_union.2 (.inl hx), fun _ => .inr ⟨hx, hx'⟩⟩

/-- Each of the trees is reduced to the one at its place. -/
def ReducesAll (D : Database) (parts : List (Tree × Demand)) (us : List Tree) : Prop :=
  List.Forall₂ (fun part u => Reduces D part.2 part.1 u) parts us

theorem reduces_union {ts us : List Tree} (hroot : (union m projected ts).RootValid)
    (h : List.Forall₂ (Reduces D { demand with discarded := ∅ }) ts us) :
    Reduces D demand (union m projected ts) (union false projected us) := by
  obtain ⟨hlength, hbranches⟩ := hroot
  have hnone (xs : VarSet) : ∀ x ∈ xs, x ∉ (∅ : VarSet) := fun x _ => SortedSet.not_mem_empty x
  have hvalid : ∀ u ∈ us, u.Valid ∧ u.vars = projected := by
    intro u hu
    obtain ⟨p, hp⟩ := List.mem_iff_getElem?.1 hu
    obtain ⟨hlt, rfl⟩ := List.getElem?_eq_some_iff.1 hp
    have hreduces := h.get (h.length_eq ▸ hlt) hlt
    refine ⟨hreduces.valid, (hreduces.vars_eq (hnone _)).trans ?_⟩
    exact hbranches _ (List.get_mem _ _)
  have hrows : Alike demand.setOnly (unionRows D ts) (unionRows D us) := by
    clear hlength hbranches hvalid
    induction h with
    | nil => exact .refl _ _
    | cons h _ ih => exact (h.rows_of_vars (hnone _)).append ih
  refine ⟨?_, fun _ => id, fun _ hx _ => hx, (hrows.map _).map _⟩
  rw [valid_iff]
  exact ⟨⟨h.length_eq ▸ hlength, fun u hu => (hvalid u hu).2⟩, fun u hu => (hvalid u hu).1⟩

/-- Two of the trees only share variables that are kept. -/
def SharesOnly (kept : VarSet) (ts : List Tree) : Prop :=
  ts.Pairwise fun t u => ∀ x ∈ t.vars, x ∈ u.vars → x ∈ kept

theorem SharesOnly.perm {ts us : List Tree} (h : SharesOnly kept ts) (hperm : ts.Perm us) :
    SharesOnly kept us :=
  (hperm.pairwise_iff fun hall x hx hy => hall x hy hx).1 h

theorem SharesOnly.of_cons {t : Tree} {ts : List Tree} (h : SharesOnly kept (t :: ts)) :
    ∀ x ∈ t.vars, x ∈ varsOf ts → x ∈ kept := by
  intro x hx hxs
  obtain ⟨u, hu, hxu⟩ := mem_varsOf.1 hxs
  exact (List.pairwise_cons.1 h).1 u hu x hx hxu

/-- The kept variables of a tree are those that its demand does not discard. -/
def Splits (kept : VarSet) (parts : List (Tree × Demand)) : Prop :=
  ∀ part ∈ parts, ∀ x ∈ part.1.vars, x ∈ kept ↔ x ∉ part.2.discarded

variable {setOnly : Bool} {parts : List (Tree × Demand)} {us : List Tree}

theorem ReducesAll.varsOf_inter (h : ReducesAll D parts us) (hsplits : Splits kept parts) :
    varsOf us ∩ kept = varsOf (parts.map (·.1)) ∩ kept := by
  ext x
  rw [SortedSet.mem_inter, SortedSet.mem_inter]
  refine and_congr_left fun hxk => ?_
  induction h with
  | nil => rfl
  | @cons part u _ _ h _ ih =>
    rw [Splits, List.forall_mem_cons] at hsplits
    simp only [List.map_cons, varsOf, SortedSet.mem_union]
    have hhead : x ∈ u.vars ↔ x ∈ part.1.vars :=
      ⟨h.vars_subset x, fun hx => h.kept x hx ((hsplits.1 x hx).1 hxk)⟩
    exact or_congr hhead (ih hsplits.2)

/-- Each of the trees has variables of the one at its place only. -/
def NarrowerAll (ts us : List Tree) : Prop := List.Forall₂ (fun t u => u.vars ⊆ t.vars) ts us

namespace NarrowerAll

variable {ts us : List Tree}

theorem refl (ts : List Tree) : NarrowerAll ts ts := List.forall₂_same.2 fun _ _ _ => id

theorem vars_subset (h : NarrowerAll ts us) : varsOf us ⊆ varsOf ts := by
  induction h with
  | nil => exact fun _ => id
  | cons h _ ih =>
    exact fun x hx => SortedSet.mem_union.2 ((SortedSet.mem_union.1 hx).imp (h x) (ih x))

theorem sharesOnly (h : NarrowerAll ts us) (hshared : SharesOnly kept ts) : SharesOnly kept us := by
  induction h with
  | nil => exact .nil
  | @cons t u _ us h hs ih =>
    refine List.pairwise_cons.2 ⟨fun v hv x hx hxv => ?_, ih (List.pairwise_cons.1 hshared).2⟩
    exact hshared.of_cons x (h x hx) (vars_subset hs x (mem_varsOf.2 ⟨v, hv, hxv⟩))

end NarrowerAll

theorem ReducesAll.narrower (h : ReducesAll D parts us) : NarrowerAll (parts.map (·.1)) us :=
  List.forall₂_map_left_iff.2 (h.imp fun _ _ hreduces => hreduces.vars_subset)

/-- The rows of a join are those of its operands as far as they are demanded. -/
theorem joinRows_alike (h : ReducesAll D parts us) (hset : ∀ part ∈ parts, part.2.setOnly = setOnly)
    (hsplits : Splits kept parts) (hshared : SharesOnly kept (parts.map (·.1))) :
    Alike setOnly ((joinRows D (parts.map (·.1))).map (Row.cut kept))
      ((joinRows D us).map (Row.cut kept)) := by
  induction h with
  | nil => exact .refl _ _
  | @cons part u parts us h hs ih =>
    have hshared' := ((ReducesAll.narrower (.cons h hs)).sharesOnly hshared).of_cons
    have hread : ∀ x ∈ part.1.vars, x ∈ kept → x ∉ part.2.discarded :=
      fun x hx => (hsplits part (.head _) x hx).1
    have htail : Splits kept parts := fun p hp => hsplits p (.tail _ hp)
    rw [List.map_cons, joinRows, joinRows, Row.map_cut_joinPairs hshared.of_cons,
      Row.map_cut_joinPairs hshared', h.vars_inter hread, ReducesAll.varsOf_inter hs htail]
    refine Row.joinPairs_alike (hset part (.head _) ▸ h.rows_on hread) ?_
    exact ih (fun p hp => hset p (.tail _ hp)) htail (List.pairwise_cons.1 hshared).2

end Operators

end QueryAlgebra.Tree
