import QueryAlgebra.Proofs.Coding
import QueryAlgebra.Proofs.Pushdown.Collections
import QueryAlgebra.Proofs.Pushdown.Construct
import QueryAlgebra.Proofs.Pushdown.OuterJoin
import QueryAlgebra.Proofs.Rewriting

/-!
# What pushing down keeps

Whatever substitutions and constraints are pushed into a core tree, and to whatever depth, its rows
are narrowed to their images (`Tree.sound_descendTo`). One node keeps this if what happens below it
does (`Tree.returns_descendNode`, `Tree.returns_propagateNode`); the induction is on the depth, as a
child may be rewritten again as it came out of being rewritten.

Main statements: `Tree.descend_rows` — what a descending substitution makes of a valid tree, said
without core trees and images; `Tree.propagate_rows` — a constraint drops no row that can satisfy it,
whatever left joins it turns into inner joins.
-/

namespace QueryAlgebra

open QueryAlgebra.Except (Returns)

variable {D : Database} {f : Fragment} {σ : BuildSettings} {below : Pushdown} {s : Substitution}
  {constraint? : Option Expression} {constraint : Expression} {optimize : Bool} {t : Tree}

-- ---------------------------------------------------------------------------
-- One node
-- ---------------------------------------------------------------------------

/-- No row has an image under a substitution that sends a variable to NULL. -/
theorem Row.renamed_of_null {I : Interpretation} {xs : VarSet} (hs : s.Flat) {x : Variable}
    (hx : x ∈ xs) (hnull : s.applyVar x = .const .null) (rows : List Row) :
    Row.renamed I s xs rows = [] := by
  rw [List.eq_nil_iff_forall_not_mem]
  intro ν hν
  obtain ⟨ρ, -, -, hcorresponds⟩ := (Row.mem_renamed hs).1 hν
  obtain ⟨hvalue, hvariable⟩ := hcorresponds x hx
  rw [hnull] at hvalue hvariable
  cases (hvariable hvalue.symm).1

namespace Tree

theorem returns_descendRoot (hbelow : below.Sound D f) (ht : t.Core f) (hs : s.Suits f)
    (hfixed : ∀ x, x ∉ t.vars → s.applyVar x = .var x)
    (hconstraint : ∀ c ∈ constraint?, c.WellApplied) :
    Returns (Narrows D f (s.applyVars t.vars) constraint?
        (Row.renamed D.toInterpretation s t.vars (t.rows D)))
      (descendRoot σ below s constraint? optimize t) := by
  obtain ⟨hroot, hchildren⟩ := core_iff.1 ht
  cases t with
  | construct m projected bindings child =>
    rw [rows]
    exact returns_descendConstruct hbelow hs hroot (hchildren child (.head _)) hconstraint
  | filter m condition child =>
    rw [rows]
    exact returns_descendFilter hbelow hs hroot (hchildren child (.head _)) hconstraint
  | join m condition? ts =>
    rw [rows]
    exact returns_descendJoin hbelow hs hroot hchildren hconstraint
  | leftJoin m condition? left right =>
    obtain ⟨rfl, hcondition⟩ := hroot
    exact returns_descendOuterJoin hbelow hs hfixed (hchildren left (.head _))
      (hchildren right (.tail _ (.head _))) hcondition hconstraint
  | union m projected ts =>
    rw [rows_union hroot]
    have hts : Returns (NarrowsEach D f s constraint? ts)
        (ts.mapM (below.descend s constraint? optimize)) :=
      Except.Returns.mapM fun t ht => hbelow.descend (hchildren t ht) hs hconstraint
    exact hts.bind fun us hus => hus.returns_union hroot
  | distinct m child =>
    rw [rows]
    exact (hbelow.descend (hchildren child (.head _)) hs hconstraint).bind fun u hu =>
      hu.returns_distinct hs.flat
  | orderBy m keys child =>
    exact (hbelow.descend (hchildren child (.head _)) hs hconstraint).bind fun u hu =>
      hu.returns_orderBy
  | leaf m l =>
    cases l with
    | extensional atom => exact .ok (computes_extensional hs.flat hroot).narrows
    | intensional atom => exact .ok (computes_intensional hs.flat hroot).narrows
    | native q => exact hroot.elim
    | empty projected => exact .ok (computes_noRow _).narrows
    | unit =>
      have hfixed : ∀ x ∈ (leaf m .unit).vars, s.applyVar x = .var x := fun x hx =>
        absurd hx (SortedSet.not_mem_empty x)
      rw [Substitution.applyVars_of_fixed hfixed,
        Row.renamed_of_fixed hfixed hs.flat (rows_supported _)]
      exact .ok ht.narrows
  | _ => exact hroot.elim

/-- What is pushed into a core tree narrows it where that is so for the trees below. -/
theorem returns_descendNode (hbelow : below.Sound D f) (ht : t.Core f) (hs : s.Suits f)
    (hconstraint : ∀ c ∈ constraint?, c.WellApplied) :
    Returns (Narrows D f (s.applyVars t.vars) constraint?
        (Row.renamed D.toInterpretation s t.vars (t.rows D)))
      (descendNode σ below s constraint? optimize t) := by
  refine descendNode_rule hs.flat ?_ (fun x hx hnull => ?_) (fun hfixed => ?_)
    (fun hfixed constraint hc => ?_) fun _ => ?_
  · rintro m q rfl
    exact (core_iff.1 ht).1
  · rw [Row.renamed_of_null hs.flat hx hnull]
    exact .ok (computes_noRow _).narrows
  · obtain ⟨hsame, himages⟩ := renamed_of_fixed (D := D) hfixed hs.flat
    rw [hsame, himages]
    exact .ok ht.narrows
  · obtain ⟨hsame, himages⟩ := renamed_of_fixed (D := D) hfixed hs.flat
    rw [hsame, himages, hc]
    exact hbelow.propagate ht (hconstraint _ hc)
  · rw [← Substitution.applyVars_restrict, ← Row.renamed_restrict hs.flat]
    refine returns_descendRoot hbelow ht (hs.restrict _) (fun x hx => ?_) hconstraint
    rw [Substitution.applyVar_restrict, if_neg hx]

/-- A node of any kind returns the images of its rows where its kind does, and where it keeps its rows
under a constraint. -/
theorem returns_descendNode_bag (hs : s.Flat) (hnative : ∀ m q, t ≠ leaf m (.native q))
    (hpropagate : ∀ constraint, constraint? = some constraint →
      Returns (HasBag D t.vars (t.rows D)) (below.propagate constraint t))
    (hroot : Returns (HasBag D ((s.restrict t.vars).applyVars t.vars)
        (Row.renamed D.toInterpretation (s.restrict t.vars) t.vars (t.rows D)))
      (descendRoot σ below (s.restrict t.vars) constraint? optimize t)) :
    Returns (HasBag D (s.applyVars t.vars) (Row.renamed D.toInterpretation s t.vars (t.rows D)))
      (descendNode σ below s constraint? optimize t) := by
  refine descendNode_rule hs hnative (fun x hx hnull => ?_) (fun hfixed => ?_)
    (fun hfixed constraint hc => ?_) fun _ => ?_
  · rw [Row.renamed_of_null hs hx hnull]
    exact .ok ⟨rfl, .refl _⟩
  · obtain ⟨hsame, himages⟩ := renamed_of_fixed (D := D) hfixed hs
    rw [hsame, himages]
    exact .ok ⟨rfl, .refl _⟩
  · obtain ⟨hsame, himages⟩ := renamed_of_fixed (D := D) hfixed hs
    rw [hsame, himages]
    exact hpropagate constraint hc
  · rwa [Substitution.applyVars_restrict, Row.renamed_restrict hs] at hroot

theorem returns_propagateNode (hbelow : below.Sound D f) (ht : t.Core f)
    (hconstraint : constraint.WellApplied) :
    Returns (Narrows D f t.vars (some constraint) (t.rows D))
      (propagateNode σ below constraint t) := by
  obtain ⟨hroot, hchildren⟩ := core_iff.1 ht
  have hsome : ∀ c ∈ some constraint, c.WellApplied := by
    rintro _ ⟨⟩
    exact hconstraint
  cases t with
  | construct m projected bindings child =>
    rw [rows]
    exact returns_propagateConstruct hbelow hroot (hchildren child (.head _)) hconstraint
  | filter m condition child =>
    rw [rows]
    exact returns_propagateFilter hbelow hroot (hchildren child (.head _)) hsome
  | join m condition? ts =>
    rw [rows]
    exact returns_propagateJoin hbelow hroot hchildren hsome
  | union m projected ts => exact returns_propagateUnion hbelow ht hconstraint
  | leftJoin m condition? left right =>
    obtain ⟨rfl, hcondition⟩ := hroot
    exact returns_propagateLeftJoin hbelow (hchildren left (.head _))
      (hchildren right (.tail _ (.head _))) hcondition hconstraint
  | distinct m child =>
    exact returns_propagateDistinct hbelow (hchildren child (.head _)) hconstraint
  | orderBy m keys child =>
    exact returns_propagateOrderBy hbelow (hchildren child (.head _)) hconstraint
  | leaf m l =>
    cases l with
    | native q => exact hroot.elim
    | _ => exact .ok ht.narrows
  | _ => exact hroot.elim

-- ---------------------------------------------------------------------------
-- Whole trees
-- ---------------------------------------------------------------------------

/-- However deep it goes, what is pushed into a core tree narrows it. -/
theorem sound_descendTo (depth : Nat) :
    Pushdown.Sound D f ⟨descendTo σ depth, propagateTo σ depth⟩ := by
  induction depth with
  | zero => exact ⟨fun _ _ _ => .error, fun _ _ => .error⟩
  | succ depth ih =>
    refine ⟨fun ht hs hconstraint => ?_, fun ht hconstraint => ?_⟩
    · exact returns_descendNode ih ht hs hconstraint
    · exact returns_propagateNode ih ht hconstraint

/-- So does what is pushed as deep as the tree calls for. -/
theorem sound_pushdown : (pushdown σ).Sound D f := by
  refine ⟨fun {s constraint? optimize t} ht hs hconstraint => ?_,
    fun {constraint t} ht hconstraint => ?_⟩
  · obtain ⟨depth, hdepth⟩ := t.exists_depth
    rw [(hdepth σ).1]
    exact (sound_descendTo depth).descend ht hs hconstraint
  · obtain ⟨depth, hdepth⟩ := t.exists_depth
    rw [(hdepth σ).2]
    exact (sound_descendTo depth).propagate ht hconstraint

theorem descendTo_narrows {depth : Nat} (ht : t.Core .inner) (hs : s.Flat)
    (hconstraint : ∀ c ∈ constraint?, c.WellApplied) :
    Returns (Narrows D .inner (s.applyVars t.vars) constraint?
        (((t.rows D).filter fun ρ => ρ.Meets s t.vars).map (Row.image s t.vars)))
      (descendTo σ depth s constraint? optimize t) := by
  rw [← Row.renamed_eq (I := D.toInterpretation) hs]
  exact (sound_descendTo depth).descend ht hs.suits hconstraint

/-- A descending substitution makes of a valid tree of the core algebra the images of those of its rows
that satisfy the equalities that the substitution implies, whether it simplifies on the way or not.
Under a constraint it may drop some of these images, but none that satisfies the constraint for whatever
values of the variables that the result does not project. It does not depend on the depth that the
recursion is allowed, which is `Tree.pushdownDepth` for `Tree.descend`. -/
theorem descend_rows (hvalid : t.validate = .ok ()) (hcore : ∀ u ∈ t.nodes, u.Relational)
    (hs : s.isNonFunctional = true) (depth : Nat) :
    (∀ optimize u, descendTo σ depth s none optimize t = .ok u →
      u.vars = s.applyVars t.vars ∧
        (u.rows D).Perm
          (((t.rows D).filter fun ρ => ρ.Meets s t.vars).map (Row.image s t.vars))) ∧
    ∀ constraint : Expression, constraint.WellApplied → ∀ u,
      descendTo σ depth s (some constraint) true t = .ok u →
      u.vars = s.applyVars t.vars ∧
        (u.rows D).Subperm
          (((t.rows D).filter fun ρ => ρ.Meets s t.vars).map (Row.image s t.vars)) ∧
        ∀ η : Row,
          ((u.rows D).filter fun ρ => D.Holds (Row.merge (s.applyVars t.vars) ρ η) constraint).Perm
            ((((t.rows D).filter fun ρ => ρ.Meets s t.vars).map (Row.image s t.vars)).filter
              fun ρ => D.Holds (Row.merge (s.applyVars t.vars) ρ η) constraint) := by
  have hcore := core_of_valid (validate_eq_ok.1 hvalid) hcore
  have hs := Substitution.flat_of_isNonFunctional hs
  constructor
  · intro optimize u hu
    have hnone : ∀ c ∈ (none : Option Expression), c.WellApplied := nofun
    have hnarrows := descendTo_narrows (D := D) hcore hs hnone u hu
    exact ⟨hnarrows.vars, hnarrows.perm⟩
  · intro constraint hconstraint u hu
    have hsome : ∀ c ∈ some constraint, c.WellApplied := by
      rintro _ ⟨⟩
      exact hconstraint
    have hnarrows := descendTo_narrows (D := D) hcore hs hsome u hu
    exact ⟨hnarrows.vars, hnarrows.pruned.subperm, hnarrows.pruned.perm_filter_merge⟩

/-- Both columns of a construction are sent to the name of a column that it hides: what is left are the
rows where the passed column has the constant that the other one is. The constraint compares it with a
column of another tree. -/
theorem descend_rows_of_hidden :
    let r : Relation := ⟨"r", [⟨"a", .integer, true⟩, ⟨"b", .integer, true⟩], []⟩
    let five := Term.const (.integer 5)
    let D := Database.ofTable r [[.integer 5, .integer 1], [.integer 5, .integer 1],
      [.integer 2, .integer 5], [.integer 5, .null]] (by decide) (by decide) (by decide)
    let atom (x y : String) : Tree := .leaf false (.extensional ⟨r, [.var ⟨x⟩, .var ⟨y⟩]⟩)
    let t : Tree := construct false (.ofList [⟨"x"⟩, ⟨"y"⟩]) (.ofList [(⟨"y"⟩, five)])
      (union false (.ofList [⟨"x"⟩, ⟨"z"⟩]) [distinct false (atom "x" "z"), atom "z" "x"])
    let s : Substitution := .ofList [(⟨"x"⟩, .var ⟨"z"⟩), (⟨"y"⟩, .var ⟨"z"⟩)]
    let c : Expression := .eq (.var ⟨"z"⟩) (.var ⟨"w"⟩)
    let others : Row := fun _ => .integer 5
    t.validate = .ok () ∧ (∀ u ∈ t.nodes, u.Relational) ∧ s.isNonFunctional = true ∧
      c.WellApplied ∧ (t.rows D).length = 7 ∧
      (∀ optimize, ∃ u, descendTo ⟨false⟩ 6 s none optimize t = .ok u ∧
        u.vars = .singleton ⟨"z"⟩ ∧ (u.rows D).length = 3) ∧
      ∃ u, descendTo ⟨false⟩ 6 s (some c) true t = .ok u ∧
        ((u.rows D).filter fun ρ => D.Holds (Row.merge (s.applyVars t.vars) ρ others) c).length = 3 := by
  intro r five D atom t s c others
  have hvalid : t.validate = .ok () := by rfl
  have hcore : ∀ u ∈ t.nodes, u.Relational := by
    have hbinding : ∀ x u, (Substitution.ofList [(⟨"y"⟩, five)]).find? x = some u →
        u.AdmissibleOver u.vars := by
      intro x u hu
      have hmem : (x, u) ∈ [((⟨"y"⟩ : Variable), five)] := Substitution.mem_bindings.2 hu
      rw [List.mem_singleton] at hmem
      cases hmem
      exact .const
    simp only [t, atom, nodes, nodesOf, List.forall_mem_cons]
    simpa [Relational] using hbinding
  have hs : s.isNonFunctional = true := by decide +kernel
  have hc : c.WellApplied := by
    simp [c, Expression.WellApplied, Term.WellApplied, Expression.toTerm, Expression.eq,
      Term.all_app, Term.all_var, Operation.isArithmetic]
  have hsound := descend_rows (D := D) (σ := ⟨false⟩) hvalid hcore hs 6
  refine ⟨hvalid, hcore, hs, hc, by decide +kernel, fun optimize => ?_, ?_⟩
  · have hok : (descendTo ⟨false⟩ 6 s none optimize t).isOk = true := by
      cases optimize <;> decide +kernel
    cases hu : descendTo ⟨false⟩ 6 s none optimize t with
    | error e => rw [hu] at hok; cases hok
    | ok u =>
      obtain ⟨hvars, hperm⟩ := hsound.1 optimize u hu
      refine ⟨u, rfl, hvars.trans (by decide +kernel), ?_⟩
      rw [hperm.length_eq]
      decide +kernel
  · have hok : (descendTo ⟨false⟩ 6 s (some c) true t).isOk = true := by decide +kernel
    cases hu : descendTo ⟨false⟩ 6 s (some c) true t with
    | error e => rw [hu] at hok; cases hok
    | ok u =>
      obtain ⟨-, -, hperm⟩ := hsound.2 c hc u hu
      refine ⟨u, rfl, ?_⟩
      rw [(hperm others).length_eq]
      decide +kernel

/-- A constraint that is pushed into a valid tree of the core algebra, left joins and sorted rows
included, leaves its variables alone and only drops rows. None of these satisfies the constraint,
whatever values it takes for variables that the tree does not project, also where these are named like
variables that the tree hides. It does not depend on the depth that the recursion is allowed, which is
`Tree.pushdownDepth` for `Tree.propagate`. -/
theorem propagate_rows (hvalid : t.validate = .ok ()) (hnodes : ∀ u ∈ t.nodes, u.OuterRelational)
    (hconstraint : constraint.WellApplied) (depth : Nat) {u : Tree}
    (hu : propagateTo σ depth constraint t = .ok u) :
    u.vars = t.vars ∧ (u.rows D).Subperm (t.rows D) ∧
      ∀ η : Row, ((u.rows D).filter fun ρ => D.Holds (Row.merge t.vars ρ η) constraint).Perm
        ((t.rows D).filter fun ρ => D.Holds (Row.merge t.vars ρ η) constraint) := by
  have hcore := outerCore_of_valid (validate_eq_ok.1 hvalid) hnodes
  have hnarrows := (sound_descendTo (D := D) depth).propagate hcore hconstraint u hu
  exact ⟨hnarrows.vars, hnarrows.pruned.subperm, hnarrows.pruned.perm_filter_merge⟩

/-- The constraint reaches the left join as `x = 5 OR x = 8`, without what it says of `y`, which is not the
`y` that the tree hides. The left join becomes an inner join and loses the row padded with NULL; the two
rows that satisfy the constraint for a suitable other `y` stay. -/
theorem propagate_rows_of_padded :
    let r : Relation := ⟨"r", [⟨"a", .integer, false⟩, ⟨"b", .integer, true⟩], []⟩
    let D := Database.ofTable r [[.integer 1, .integer 5], [.integer 2, .null],
      [.integer 3, .integer 7], [.integer 1, .integer 5]] (by decide) (by decide) (by decide)
    let atom (x y : String) : Tree := .leaf false (.extensional ⟨r, [.var ⟨x⟩, .var ⟨y⟩]⟩)
    let once : Tree := distinct false
      (union false (.ofList [⟨"w"⟩, ⟨"x"⟩]) [atom "w" "x", atom "w" "x"])
    let either (u : Term) : Expression := .or [.eq (.var ⟨"x"⟩) (.const (.integer 5)), .eq (.var ⟨"x"⟩) u]
    let t : Tree := construct false (.ofList [⟨"w"⟩, ⟨"x"⟩]) ∅
      (leftJoin false (some (either (.var ⟨"y"⟩))) (atom "w" "y") once)
    let c : Expression := (either (.const (.integer 8))).and (.eq (.var ⟨"y"⟩) (.var ⟨"z"⟩))
    let others : Row := fun _ => .integer 4
    t.validate = .ok () ∧ (∀ u ∈ t.nodes, u.OuterRelational) ∧ c.WellApplied ∧
      (t.rows D).length = 4 ∧ ∃ u, propagateTo ⟨false⟩ 8 c t = .ok u ∧ (u.rows D).length = 3 ∧
        ((u.rows D).filter fun ρ => D.Holds (Row.merge t.vars ρ others) c).length = 2 := by
  intro r D atom once either t c others
  have hvalid : t.validate = .ok () := by rfl
  have heither (u : Term) (hu : u.All (fun _ => True) Symbol.Admissible) : (either u).Admissible := by
    refine Expression.all_or introducible_admissible ?_
    rw [List.forall_mem_cons, List.forall_mem_singleton]
    exact ⟨Expression.all_eq introducible_admissible (.var trivial) .const,
      Expression.all_eq introducible_admissible (.var trivial) hu⟩
  have hnodes : ∀ u ∈ t.nodes, u.OuterRelational := by
    have hnone : ∀ x u, (∅ : Substitution).find? x = some u → u.AdmissibleOver u.vars := nofun
    simp only [t, once, atom, nodes, nodesOf, List.forall_mem_cons, List.forall_mem_append]
    simpa [OuterRelational, Relational] using
      ⟨hnone, heither (.var ⟨"y"⟩) (.var trivial)⟩
  have hc : c.WellApplied := Expression.all_and introducible_binary
    (heither (.const (.integer 8)) .const).wellApplied
    (Expression.all_eq introducible_binary (.var trivial) (.var trivial))
  obtain ⟨u, hu, hrows⟩ : ∃ u, propagateTo ⟨false⟩ 8 c t = .ok u ∧ (u.rows D).length = 3 := by
    decide +kernel
  refine ⟨hvalid, hnodes, hc, by decide +kernel, u, hu, hrows, ?_⟩
  rw [((propagate_rows hvalid hnodes hc 8 hu).2.2 others).length_eq]
  decide +kernel

end Tree

end QueryAlgebra
