import QueryAlgebra.Proofs.JoinReduction

/-!
# Dropping redundant atoms

Removing one atom after the other from a join leaves its rows as they are, as far as they are
demanded; what is left of the atoms is a guard against NULL (`Tree.reduceJoin_reduces`). Together
with what holds of the other operators this carries over to whole trees.

A DISTINCT is the exception again. The transformation hands what is discarded above a DISTINCT down
into it, so it may drop an atom whose own variables make rows differ that the DISTINCT then counts.
The trees for which this does no harm are those where nothing below a DISTINCT depends on what is
discarded above it (`Tree.Licensed`).

Main statements:

* `Tree.dropRedundantAtoms_perm` — a licensed tree without windows has the same rows as before, each
  as often;
* `Tree.not_dropRedundantAtoms_perm` — this fails for a projection over a DISTINCT over a self-join.
-/

namespace QueryAlgebra.Tree

variable {D : Database} {demand : Demand}

-- ---------------------------------------------------------------------------
-- One join
-- ---------------------------------------------------------------------------

section Join

variable {kept : VarSet} {setOnly : Bool} {condition? : Option Expression} {ts : List Tree}

/-- A join whose operands are reduced one way or the other is reduced itself. -/
theorem JoinReduces.reduces {m : Bool} {condition'? : Option Expression} {r : ReducedJoin}
    (h : JoinReduces D demand.setOnly (joinKept demand condition? ts) ts r)
    (hroot : (join m condition? ts).RootValid) (hvalid : ∀ u ∈ r.children, u.Valid)
    (hvars : ∀ xs, conditionVars condition? ⊆ xs → r.guarded ⊆ xs → conditionVars condition'? ⊆ xs)
    (hholds : ∀ σ, D.HoldsOptional σ condition'? ↔
      D.HoldsOptional σ condition? ∧ Guarded r.guarded σ) :
    Reduces D demand (join m condition? ts) (join false condition'? r.children) := by
  obtain ⟨hlength, hscope⟩ := hroot
  have hcondition : conditionVars condition? ⊆ joinKept demand condition? ts :=
    fun x hx => mem_joinKept.2 ⟨hscope x hx, fun _ => .inl hx⟩
  have hread : varsOf ts \ demand.discarded ⊆ joinKept demand condition? ts := by
    intro x hx
    obtain ⟨hmem, hxd⟩ := SortedSet.mem_diff.1 hx
    exact mem_joinKept.2 ⟨hmem, fun h => absurd h hxd⟩
  refine ⟨valid_iff.2 ⟨⟨h.length ▸ hlength, ?_⟩, hvalid⟩, h.vars_subset, fun x hx hxd => ?_, ?_⟩
  · exact hvars _ (fun x hx => h.vars_kept x (hscope x hx) (hcondition x hx)) h.guarded
  · exact h.vars_kept x hx (hread x (SortedSet.mem_diff.2 ⟨hx, hxd⟩))
  · exact h.rows_join hcondition hread hholds

/-- The operands may be reduced before the join is. -/
theorem JoinReduces.of_reducesAll {parts : List (Tree × Demand)} {us : List Tree} {r : ReducedJoin}
    (h : ReducesAll D parts us) (hset : ∀ part ∈ parts, part.2.setOnly = setOnly)
    (hsplits : Splits kept parts) (hshared : SharesOnly kept (parts.map (·.1)))
    (hr : JoinReduces D setOnly kept us r) : JoinReduces D setOnly kept (parts.map (·.1)) r := by
  have hkept : ∀ x ∈ varsOf (parts.map (·.1)), x ∈ kept → x ∈ varsOf us := by
    intro x hx hxk
    have hinter : x ∈ varsOf us ∩ kept := by
      rw [h.varsOf_inter hsplits]
      exact SortedSet.mem_inter.2 ⟨hx, hxk⟩
    exact (SortedSet.mem_inter.1 hinter).1
  refine ⟨?_, fun x hx => h.narrower.vars_subset x (hr.vars_subset x hx),
    fun x hx hxk => hr.vars_kept x (hkept x hx hxk) hxk, hr.guarded,
    (joinRows_alike h hset hsplits hshared).trans hr.rows⟩
  rw [hr.length, List.length_map]
  exact (List.Forall₂.length_eq h).symm

end Join

-- ---------------------------------------------------------------------------
-- Building trees
-- ---------------------------------------------------------------------------

/-- A tree is rebuilt over reduced children, or is itself what it would be rebuilt to. -/
theorem exists_rebuild {σ : BuildSettings} {t u : Tree} {children : List Tree}
    (h : Reduces D demand t u) (hbuild : t.withChildren σ children = σ.build u)
    (hsame : children.map unmarked = t.children.map unmarked → u.unmarked = t.unmarked) :
    ∃ v, rebuild σ t children = .ok v ∧ Reduces D demand t v := by
  rw [rebuild]
  split
  · next hall => exact ⟨t, rfl, h.of_unmarked_eq (hsame (sameAll_eq_true.1 hall))⟩
  · rw [hbuild, build_eq_ok (valid_iff.1 h.valid).1]
    exact ⟨u, rfl, h⟩

theorem ReducesAll.valid {parts : List (Tree × Demand)} {us : List Tree} (h : ReducesAll D parts us) :
    ∀ u ∈ us, u.Valid := by
  induction h with
  | nil => exact fun _ hu => absurd hu List.not_mem_nil
  | cons h _ ih => exact List.forall_mem_cons.2 ⟨h.valid, ih⟩

theorem exists_finishJoin {σ : BuildSettings} {m : Bool} {condition? : Option Expression}
    {ts us : List Tree} (hroot : (join m condition? ts).RootValid)
    (h : ReducesAll D (ts.zip (childDemands demand condition? ts)) us) :
    ∃ v, finishJoin σ (join m condition? ts) condition? (childDemands demand condition? ts) us
      = .ok v ∧ Reduces D demand (join m condition? ts) v := by
  let demands := childDemands demand condition? ts
  let kept := joinKept demand condition? ts
  have hfst : (ts.zip demands).map (·.1) = ts := List.map_fst_zip length_childDemands.ge
  have hnarrower : NarrowerAll ts us := hfst ▸ h.narrower
  have hset : ∀ part ∈ ts.zip demands, part.2.setOnly = demand.setOnly := by
    intro part hpart
    obtain ⟨-, -, hset, -⟩ := mem_zip_childDemands hpart
    exact hset
  have hshared : SharesOnly kept ((ts.zip demands).map (·.1)) := by
    rw [hfst]
    exact sharesOnly_joinKept
  have hjoin {r : ReducedJoin} (hr : JoinReduces D demand.setOnly kept us r) :
      JoinReduces D demand.setOnly kept ts r := by
    have hcomposed := JoinReduces.of_reducesAll h hset splits_joinKept hshared hr
    rwa [hfst] at hcomposed
  rw [finishJoin]
  split
  · have hwell : ∀ b ∈ requiredAtomsOf us, b.isWellFormed = true := by
      intro b hb
      obtain ⟨u, hu, hbu⟩ := mem_requiredAtomsOf.1 hb
      exact isWellFormed_of_mem_requiredAtoms (fun v hv _ => checkNode_eq_ok.2 (h.valid u hu v hv)) hbu
    have hdropped := (reduceJoin_childDemands demand condition? D.keepsKeys hnarrower hwell).mono
      fun x hx => SortedSet.mem_union.2 (.inl hx)
    have hvalid : ∀ u ∈ (reduceJoin [] (us.zip demands)).children, u.Valid := by
      intro u hu
      rcases mem_children_reduceJoin _ _ hu with hu | rfl
      · obtain ⟨part, hpart, rfl⟩ := List.mem_map.1 hu
        exact h.valid _ (List.of_mem_zip hpart).1
      · exact valid_iff.2 ⟨trivial, by simp [oneRow, children]⟩
    have hreduces := (hjoin hdropped).reduces hroot hvalid
      (fun _ => conditionVars_guardedCondition) fun _ => holdsOptional_guardedCondition
    exact ⟨_, build_eq_ok (valid_iff.1 hreduces.valid).1, hreduces⟩
  · have hreduces := (hjoin (JoinReduces.refl us)).reduces hroot h.valid
      (fun _ hcondition _ => hcondition) fun _ => (and_iff_left guarded_empty).symm
    refine exists_rebuild hreduces (if_pos hnarrower.length_eq.symm) fun hsame => ?_
    simpa [unmarked, children] using hsame

-- ---------------------------------------------------------------------------
-- Whole trees
-- ---------------------------------------------------------------------------

section Whole

variable {σ : BuildSettings} {t : Tree}

/-- What is discarded above a DISTINCT makes no difference below it, unless only the set of the
rows matters anyway. -/
inductive Licensed (σ : BuildSettings) : Demand → Tree → Prop
  | other {demand : Demand} {t : Tree} (hroot : ∀ m child, t ≠ distinct m child)
      (hchildren : ∀ part ∈ t.children.zip (t.demandsBelow demand), Licensed σ part.2 part.1) :
      Licensed σ demand t
  | setOnly {demand : Demand} {m : Bool} {child : Tree} (hset : demand.setOnly = true)
      (hchild : Licensed σ { demand with setOnly := true } child) :
      Licensed σ demand (distinct m child)
  | unaffected {demand : Demand} {m : Bool} {child : Tree}
      (hsame : dropRedundantAtoms σ { demand with setOnly := true } child
        = dropRedundantAtoms σ ⟨∅, true⟩ child)
      (hchild : Licensed σ ⟨∅, true⟩ child) : Licensed σ demand (distinct m child)

theorem Licensed.operands (h : Licensed σ demand t) (hroot : ∀ m child, t ≠ distinct m child) :
    ∀ part ∈ t.children.zip (t.demandsBelow demand), Licensed σ part.2 part.1 := by
  cases h with
  | other _ hchildren => exact hchildren
  | setOnly => exact absurd rfl (hroot _ _)
  | unaffected => exact absurd rfl (hroot _ _)

/-- The operands are transformed one after the other, each under its own demand. -/
theorem exists_dropRedundantAtomsIn {ts : List Tree} {demands : List Demand}
    (hlength : ts.length = demands.length)
    (h : ∀ part ∈ ts.zip demands,
      ∃ u, dropRedundantAtoms σ part.2 part.1 = .ok u ∧ Reduces D part.2 part.1 u) :
    ∃ us, dropRedundantAtomsIn σ ts demands = .ok us ∧ ReducesAll D (ts.zip demands) us := by
  induction ts generalizing demands with
  | nil => exact ⟨[], by cases demands <;> rfl, .nil⟩
  | cons t ts ih =>
    cases demands with
    | nil => cases hlength
    | cons demand demands =>
      rw [List.zip_cons_cons, List.forall_mem_cons] at h
      obtain ⟨u, hu, hreduces⟩ := h.1
      obtain ⟨us, hus, hall⟩ := ih (Nat.succ.inj hlength) h.2
      refine ⟨u :: us, ?_, .cons hreduces hall⟩
      rw [dropRedundantAtomsIn, hu, hus]
      rfl

/-- A licensed tree without windows is reduced to what it is transformed to. -/
theorem exists_dropRedundantAtoms (hvalid : t.Valid)
    (hslice : ∀ u ∈ t.nodes, ∀ m w child, u ≠ slice m w child) (h : Licensed σ demand t) :
    ∃ u, dropRedundantAtoms σ demand t = .ok u ∧ Reduces D demand t u := by
  induction t using inductionOn generalizing demand with
  | step t ih =>
    obtain ⟨hroot, hvalid'⟩ := valid_iff.1 hvalid
    obtain ⟨hwindow, hslice'⟩ := forall_mem_nodes.1 hslice
    have hoperand : ∀ c ∈ t.children, ∀ {demand : Demand}, Licensed σ demand c →
        ∃ u, dropRedundantAtoms σ demand c = .ok u ∧ Reduces D demand c u :=
      fun c hc _ hlicensed => ih c hc (hvalid' c hc) (hslice' c hc) hlicensed
    have hoperands (ts : List Tree) (hts : ts ⊆ t.children) {demands : List Demand}
        (hlength : ts.length = demands.length)
        (hlicensed : ∀ part ∈ ts.zip demands, Licensed σ part.2 part.1) :
        ∃ us, dropRedundantAtomsIn σ ts demands = .ok us ∧ ReducesAll D (ts.zip demands) us := by
      refine exists_dropRedundantAtomsIn hlength fun part hpart => ?_
      exact hoperand part.1 (hts (List.of_mem_zip hpart).1) (hlicensed part hpart)
    cases t with
    | construct m projected bindings child =>
      obtain ⟨u, hu, hreduces⟩ := hoperand child (.head _) (h.operands (by simp) _ (.head _))
      rw [dropRedundantAtoms, hu]
      exact exists_rebuild (reduces_construct hroot hreduces) rfl
        (by simp [children, unmarked])
    | filter m condition child =>
      obtain ⟨u, hu, hreduces⟩ := hoperand child (.head _) (h.operands (by simp) _ (.head _))
      rw [dropRedundantAtoms, hu]
      exact exists_rebuild (reduces_filter hroot hreduces) rfl
        (by simp [children, unmarked])
    | join m condition? ts =>
      obtain ⟨us, hus, hall⟩ := hoperands ts (fun _ => id) length_childDemands.symm
        (h.operands (by simp))
      rw [dropRedundantAtoms, hus]
      exact exists_finishJoin hroot hall
    | leftJoin m condition? left right =>
      have hlicensed := h.operands (by simp)
      obtain ⟨l, hl, hreducesl⟩ := hoperand left (.head _) (hlicensed _ (.head _))
      obtain ⟨r, hr, hreducesr⟩ := hoperand right (.tail _ (.head _))
        (hlicensed _ (.tail _ (.head _)))
      rw [dropRedundantAtoms, hl, hr]
      exact exists_rebuild (reduces_leftJoin hroot hreducesl hreducesr) rfl
        (by simp [children, unmarked])
    | union m projected ts =>
      obtain ⟨us, hus, hall⟩ := hoperands ts (fun _ => id) (List.length_map _).symm
        (h.operands (by simp))
      rw [ReducesAll, ← List.map_prod_left_eq_zip, List.forall₂_map_left_iff] at hall
      rw [dropRedundantAtoms, hus]
      exact exists_rebuild (reduces_union hroot hall) (if_pos hall.length_eq.symm)
        (by simp [children, unmarked])
    | distinct m child =>
      cases h with
      | other hroot _ => exact absurd rfl (hroot _ _)
      | setOnly hset hchild =>
        obtain ⟨u, hu, hreduces⟩ := hoperand child (.head _) hchild
        rw [dropRedundantAtoms, hu]
        exact exists_rebuild (reduces_distinct_of_setOnly hset hreduces) rfl
          (by simp [children, unmarked])
      | unaffected hsame hchild =>
        obtain ⟨u, hu, hreduces⟩ := hoperand child (.head _) hchild
        rw [dropRedundantAtoms, hsame, hu]
        exact exists_rebuild (reduces_distinct_of_everything hreduces) rfl
          (by simp [children, unmarked])
    | slice m window child => exact absurd rfl (hwindow _ _ _)
    | orderBy m keys child =>
      obtain ⟨u, hu, hreduces⟩ := hoperand child (.head _) (h.operands (by simp) _ (.head _))
      rw [dropRedundantAtoms, hu]
      exact exists_rebuild (reduces_orderBy hroot hreduces) rfl
        (by simp [children, unmarked])
    | aggregate m grouping bindings child =>
      obtain ⟨u, hu, hreduces⟩ := hoperand child (.head _) (h.operands (by simp) _ (.head _))
      rw [dropRedundantAtoms, hu]
      exact exists_rebuild (reduces_aggregate hroot hreduces) rfl
        (by simp [children, unmarked])
    | leaf m l =>
      cases l with
      | native query => exact hroot.elim
      | _ => exact ⟨_, rfl, .refl hvalid⟩

/-- Where no DISTINCT is affected by what is discarded above it, dropping redundant atoms leaves the
rows of a tree as they are, each as often. -/
theorem dropRedundantAtoms_perm (hvalid : t.validate = .ok ())
    (hslice : ∀ u ∈ t.nodes, ∀ m w child, u ≠ slice m w child)
    (hdistinct : Licensed σ .everything t) :
    ∃ u, dropRedundantAtoms σ .everything t = .ok u ∧ u.vars = t.vars ∧
      (u.rows D).Perm (t.rows D) := by
  obtain ⟨u, hu, hreduces⟩ := exists_dropRedundantAtoms (D := D) (validate_eq_ok.1 hvalid) hslice
    hdistinct
  have hnone : ∀ x ∈ t.vars, x ∉ Demand.everything.discarded :=
    fun x _ => SortedSet.not_mem_empty x
  exact ⟨u, hu, hreduces.vars_eq hnone, (hreduces.rows_of_vars hnone).symm⟩

theorem licensed_leaf {m : Bool} {l : Leaf} : Licensed σ demand (leaf m l) :=
  .other (by simp) (by simp [children])

/-- A self-join below a projection below a DISTINCT loses an atom, and no row. -/
theorem dropRedundantAtoms_perm_of_distinct :
    let visit : Relation := ⟨"visit", [⟨"who", .integer, true⟩, ⟨"place", .string, true⟩], []⟩
    let D := Database.ofTable visit [[.integer 1, .string "a"], [.integer 1, .string "b"]]
      (by decide) (by decide) (by decide)
    let atom (x y : String) : Tree := .leaf false (.extensional ⟨visit, [.var ⟨x⟩, .var ⟨y⟩]⟩)
    let t : Tree := distinct false (construct false (.singleton ⟨"who"⟩) ∅
      (join false none [atom "who" "p1", atom "who" "p2"]))
    t.validate = .ok () ∧ Licensed ⟨false⟩ .everything t ∧ (t.rows D).length = 1 ∧
      ∃ u, dropRedundantAtoms ⟨false⟩ .everything t = .ok u ∧ u.vars = t.vars ∧
        (u.rows D).Perm (t.rows D) := by
  intro visit D atom t
  have hvalid : t.validate = .ok () := by rfl
  have hslice : ∀ u ∈ t.nodes, ∀ m w child, u ≠ slice m w child := by simp [t, atom, nodes, nodesOf]
  have hlicensed : Licensed ⟨false⟩ .everything t := by
    refine .unaffected rfl (.other (by simp) ?_)
    simp only [children, demandsBelow, List.zip_cons_cons, List.zip_nil_left,
      List.forall_mem_singleton]
    refine .other (by simp) fun part hpart => ?_
    have htree := (List.of_mem_zip hpart).1
    simp only [children, List.mem_cons, List.not_mem_nil, or_false] at htree
    rcases htree with h | h
    · exact h ▸ licensed_leaf
    · exact h ▸ licensed_leaf
  exact ⟨hvalid, hlicensed, by decide +kernel, dropRedundantAtoms_perm hvalid hslice hlicensed⟩

/-- Below a DISTINCT, an atom is dropped although its own variable makes the rows differ that the
DISTINCT counts; what only comes above is that nobody reads the variable. -/
theorem not_dropRedundantAtoms_perm :
    ∃ D t u, t.validate = .ok () ∧ (∀ u ∈ t.nodes, ∀ m w child, u ≠ slice m w child) ∧
      dropRedundantAtoms ⟨false⟩ .everything t = .ok u ∧ ¬(u.rows D).Perm (t.rows D) := by
  let visit : Relation := ⟨"visit", [⟨"who", .integer, true⟩, ⟨"place", .string, true⟩], []⟩
  let D := Database.ofTable visit [[.integer 1, .string "a"], [.integer 1, .string "b"]]
    (by decide) (by decide) (by decide)
  let atom (x y : String) : Tree := .leaf false (.extensional ⟨visit, [.var ⟨x⟩, .var ⟨y⟩]⟩)
  let t : Tree := construct false (.singleton ⟨"who"⟩) ∅
    (distinct false (join false none [atom "who" "p1", atom "who" "p2"]))
  have hlength : (t.rows D).length = 4 ∧ ((dropRedundantAtoms ⟨false⟩ .everything t).toOption.elim 0
      fun u => (u.rows D).length) = 2 := by decide +kernel
  cases hdrop : dropRedundantAtoms ⟨false⟩ .everything t with
  | error e =>
    rw [hdrop] at hlength
    cases hlength.2
  | ok u =>
    rw [hdrop] at hlength
    have hlength' : (u.rows D).length = 2 := hlength.2
    refine ⟨D, t, u, rfl, by simp [t, atom, nodes, nodesOf], hdrop, fun hperm => ?_⟩
    have he := hperm.length_eq
    omega

end Whole

end QueryAlgebra.Tree
