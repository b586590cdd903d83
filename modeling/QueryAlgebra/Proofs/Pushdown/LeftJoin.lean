import QueryAlgebra.Proofs.Descent
import QueryAlgebra.Proofs.Pushdown

/-!
# Pushing into left joins

Any substitution may be pushed into a left join, and its condition may be any. The left join goes on as
an inner join where `Tree.equatesRightSpecific` finds an equality. It finds every substitution that
rejects the padded rows, but not only those: a renaming that gives a column the old name of a column of
the right side, which itself gets a new one, passes for an equality.

Main statements: `Tree.descend_leftJoin_rows` — what a substitution makes of a left join, if the left
join becomes an inner join only where the padded rows are rejected;
`Tree.not_descend_leftJoin_rows` — a renaming that loses a row that matches nothing.
-/

namespace QueryAlgebra

open QueryAlgebra.Except (Returns)

variable {D : Database} {σ : BuildSettings} {below : Pushdown} {s : Substitution}
  {condition? : Option Expression} {left right : Tree} {optimize m : Bool} {depth : Nat}

namespace Tree

-- ---------------------------------------------------------------------------
-- Left joins under a substitution
-- ---------------------------------------------------------------------------

/-- A left join returns the images of its rows if it becomes an inner join only where the padded rows
are rejected, and if that join returns the images of its own. -/
theorem returns_descendLeftJoin (hbelow : below.Sound D .inner) (hs : s.Flat)
    (hleft : left.Core .inner) (hright : right.Core .inner)
    (hcondition : ∀ c ∈ condition?, c.WellApplied ∧ c.vars ⊆ left.vars ∪ right.vars)
    (hrejects : equatesRightSpecific s left right = true → s.RejectsPadding left.vars right.vars)
    (hjoin : equatesRightSpecific s left right = true →
      Returns (HasBag D (s.applyVars (left.vars ∪ right.vars))
          (Row.renamed D.toInterpretation s (left.vars ∪ right.vars)
            ((join false condition? [left, right]).rows D)))
        (below.descend s none optimize (join false condition? [left, right]))) :
    Returns (HasBag D (s.applyVars (left.vars ∪ right.vars))
        (Row.renamed D.toInterpretation s (left.vars ∪ right.vars)
          ((leftJoin m condition? left right).rows D)))
      (descendLeftJoin σ below s none optimize condition? left right) := by
  rw [rows, joinRows_pair] at hjoin
  unfold descendLeftJoin
  simp only [Option.any_none, Bool.and_false, Bool.false_or]
  split
  · next hequates =>
    rw [rows, Source.renamed_leftJoined_of_rejectsPadding hs (hrejects hequates)
      (rows_supported left)]
    have hbuild : Returns (· = join false condition? [left, right])
        (σ.join condition? [left, right]) := BuildSettings.returns_build rfl
    refine hbuild.bind fun _ hu => ?_
    rw [hu]
    exact hjoin hequates
  · next hequates =>
    have hapart := keepsApart_of_equatesRightSpecific (Bool.not_eq_true _ ▸ hequates)
    refine (hbelow.descend_none hleft hs.suits).bind fun left' hleft' => ?_
    refine (hbelow.descend_none hright hs.suits).bind fun right' hright' => ?_
    have hvars : left'.vars ∪ right'.vars = s.applyVars (left.vars ∪ right.vars) := by
      rw [hleft'.vars, hright'.vars, Substitution.applyVars_union]
    have hrows : ((leftJoin m (condition?.map s.applyExpression) left' right').rows D).Perm
        (Row.renamed D.toInterpretation s (left.vars ∪ right.vars)
          ((leftJoin m condition? left right).rows D)) := by
      rw [rows, rows, Source.renamed_leftJoined hs (fun c hc => (hcondition c hc).2) hapart
        (rows_supported left), hleft'.vars, hright'.vars]
      exact Alike.flatMap (b := false) hleft'.perm fun ρ _ =>
        Source.leftJoined_alike (b := false) hright'.perm ρ
    have himages : ∀ c ∈ condition?.map s.applyExpression, c.WellApplied := by
      intro _ hmem
      obtain ⟨c, hc, rfl⟩ := Option.mem_map.1 hmem
      exact Expression.WellApplied.apply (hcondition c hc).1 hs.wellApplied_applyVar
    rw [← hvars]
    split
    · exact hasRows_leftJoin.imp fun u hu => hu.hasBag hrows
    · exact (hasRows_simplifiedLeftJoin himages).imp fun u hu => hu.hasBag hrows

/-- Where nothing is simplified, a join returns the images of its rows whatever its condition is. -/
theorem returns_descendJoin_plain {ts : List Tree} (hbelow : below.Sound D .inner) (hs : s.Flat)
    (hcondition : ∀ c ∈ condition?, c.vars ⊆ varsOf ts) (hts : ∀ t ∈ ts, t.Core .inner) :
    Returns (HasBag D (s.applyVars (varsOf ts))
        (Row.renamed D.toInterpretation s (varsOf ts) ((join m condition? ts).rows D)))
      (descendJoin σ below s none false condition? ts) := by
  have hchildren : Returns (NarrowsEach D .inner s none ts) (ts.mapM (below.descend s none false)) :=
    Except.Returns.mapM fun t ht => hbelow.descend_none (hts t ht) hs.suits
  refine hchildren.bind fun us hus => BuildSettings.returns_build ⟨hus.varsOf_eq, ?_⟩
  rw [rows, rows, Row.renamed_filter hs hcondition]
  exact ((hus.pruned_joinRows hs).perm fun _ _ => Interpretation.possible_none).filter _

theorem returns_descendTo_join {ts : List Tree} (hs : s.Flat)
    (hcondition : ∀ c ∈ condition?, c.vars ⊆ varsOf ts) (hts : ∀ t ∈ ts, t.Core .inner)
    (hadmissible : optimize = true → ∀ c ∈ condition?, c.Admissible) :
    Returns (HasBag D (s.applyVars (varsOf ts))
        (Row.renamed D.toInterpretation s (varsOf ts) ((join m condition? ts).rows D)))
      (descendTo σ depth s none optimize (join m condition? ts)) := by
  cases optimize with
  | true =>
    have hcore : (join m condition? ts).Core .inner :=
      core_join.2 ⟨fun c hc => (hadmissible rfl c hc).over (hcondition c hc), hts⟩
    exact ((sound_descendTo depth).descend_none hcore hs.suits).imp fun u hu => hu.hasBag
  | false =>
    cases depth with
    | zero => exact .error
    | succ depth =>
      refine returns_descendNode_bag hs nofun nofun ?_
      exact returns_descendJoin_plain (sound_descendTo depth) (hs.restrict _) hcondition hts

/-- A substitution makes of a left join the images of those of its rows that satisfy the equalities
that it implies. A column of the right side alone that is taken for one of these equalities has to be
one: otherwise rows that are padded with NULL are lost. The left join becomes an inner join then,
whose condition is split in order to simplify. There is a result, unless test mode finds a fault with
names. -/
theorem descend_leftJoin_rows (hvalid : (leftJoin m condition? left right).validate = .ok ())
    (hleft : ∀ u ∈ left.nodes, u.Relational) (hright : ∀ u ∈ right.nodes, u.Relational)
    (hcondition : ∀ c ∈ condition?, c.WellApplied) (hs : s.isNonFunctional = true)
    (hequates : equatesRightSpecific (s.restrict (left.vars ∪ right.vars)) left right = true →
      s.RejectsPadding left.vars right.vars ∧
        (optimize = true → ∀ c ∈ condition?, c.Admissible)) :
    (∀ depth u, descendTo σ depth s none optimize (leftJoin m condition? left right) = .ok u →
      u.vars = s.applyVars (left.vars ∪ right.vars) ∧
        (u.rows D).Perm
          ((((leftJoin m condition? left right).rows D).filter
            fun ρ => ρ.Meets s (left.vars ∪ right.vars)).map
              (Row.image s (left.vars ∪ right.vars)))) ∧
    (σ.testMode = false →
      ∃ u, (leftJoin m condition? left right).descend σ s none optimize = .ok u) := by
  have hvalid := validate_eq_ok.1 hvalid
  obtain ⟨hroot, hchildren⟩ := valid_iff.1 hvalid
  have hleft := core_of_valid (hchildren left (.head _)) hleft
  have hright := core_of_valid (hchildren right (.tail _ (.head _))) hright
  have hs := Substitution.flat_of_isNonFunctional hs
  have hscope : ∀ c ∈ condition?, c.vars ⊆ left.vars ∪ right.vars := by
    rintro c rfl
    exact hroot
  have hbag (depth : Nat) : Returns (HasBag D (s.applyVars (left.vars ∪ right.vars))
        (Row.renamed D.toInterpretation s (left.vars ∪ right.vars)
          ((leftJoin m condition? left right).rows D)))
      (descendTo σ depth s none optimize (leftJoin m condition? left right)) := by
    cases depth with
    | zero => exact .error
    | succ depth =>
      refine returns_descendNode_bag hs nofun nofun ?_
      refine returns_descendLeftJoin (sound_descendTo depth) (hs.restrict _) hleft hright
        (fun c hc => ⟨hcondition c hc, hscope c hc⟩)
        (fun h => Substitution.rejectsPadding_restrict.2 (hequates h).1) fun h => ?_
      rw [← varsOf_pair] at hscope ⊢
      exact returns_descendTo_join (hs.restrict _) hscope
        (by simpa using ⟨hleft, hright⟩) (hequates h).2
  rw [← Row.renamed_eq (I := D.toInterpretation) hs]
  refine ⟨fun depth u hu => ⟨(hbag depth u hu).vars, (hbag depth u hu).perm⟩, fun htest => ?_⟩
  have hsafe := renamesSafely_of_children (t := leftJoin m condition? left right)
    (List.forall_mem_cons.2 ⟨hleft.aggregateFree, List.forall_mem_singleton.2 hright.aggregateFree⟩)
    s.rangeVars
  exact exists_descend_eq_ok hvalid.inScope hs (.inr hsafe) htest

/-- One row matches, one does not for its NULL, and one not for its value. New names keep all three;
a constant for the column of the right side keeps the row that matches. -/
theorem descend_leftJoin_rows_of_padded :
    let r : Relation := ⟨"r", [⟨"a", .integer, false⟩, ⟨"b", .integer, true⟩], []⟩
    let D := Database.ofTable r [[.integer 1, .integer 5], [.integer 2, .null],
      [.integer 3, .integer 7]] (by decide) (by decide) (by decide)
    let atom (x y : String) : Tree := .leaf false (.extensional ⟨r, [.var ⟨x⟩, .var ⟨y⟩]⟩)
    let c : Expression := .eq (.var ⟨"x"⟩) (.const (.integer 5))
    let t : Tree := leftJoin false (some c) (atom "w" "y") (atom "w" "x")
    let names : Substitution := .ofList [(⟨"w"⟩, .var ⟨"v"⟩), (⟨"x"⟩, .var ⟨"z"⟩)]
    let five : Substitution := .singleton ⟨"x"⟩ (.const (.integer 5))
    t.validate = .ok () ∧ c.Admissible ∧ five.RejectsPadding (atom "w" "y").vars (atom "w" "x").vars ∧
      ∀ optimize,
        (∃ u, descendTo ⟨false⟩ 3 names none optimize t = .ok u ∧ (u.rows D).length = 3) ∧
        ∃ u, descendTo ⟨false⟩ 4 five none optimize t = .ok u ∧ (u.rows D).length = 1 := by
  intro r D atom c t names five
  have hvalid : t.validate = .ok () := by rfl
  have hatom (x y : String) : ∀ u ∈ (atom x y).nodes, u.Relational := by
    simp [atom, nodes, Relational]
  have hadmissible : c.Admissible :=
    Expression.all_eq introducible_admissible (.var trivial) .const
  have hsome : ∀ e ∈ some c, e.Admissible := by
    rintro _ ⟨⟩
    exact hadmissible
  have hrejects : five.RejectsPadding (atom "w" "y").vars (atom "w" "x").vars := by decide +kernel
  refine ⟨hvalid, hadmissible, hrejects, fun optimize => ⟨?_, ?_⟩⟩
  · obtain ⟨u, hu⟩ : ∃ u, descendTo ⟨false⟩ 3 names none optimize t = .ok u := by
      cases optimize <;> decide +kernel
    have hrows := (descend_leftJoin_rows (D := D) hvalid (hatom _ _) (hatom _ _)
      (fun e he => (hsome e he).wellApplied) (by decide +kernel)
      (fun hequates => absurd hequates (by decide +kernel))).1 3 u hu
    refine ⟨u, hu, ?_⟩
    rw [hrows.2.length_eq]
    decide +kernel
  · obtain ⟨u, hu⟩ : ∃ u, descendTo ⟨false⟩ 4 five none optimize t = .ok u := by
      cases optimize <;> decide +kernel
    have hrows := (descend_leftJoin_rows (D := D) hvalid (hatom _ _) (hatom _ _)
      (fun e he => (hsome e he).wellApplied) (by decide +kernel)
      (fun _ => ⟨hrejects, fun _ => hsome⟩)).1 4 u hu
    refine ⟨u, hu, ?_⟩
    rw [hrows.2.length_eq]
    decide +kernel

/-- The column of the right side gets a new name and leaves its own to the shared column. No row is
rejected, but the left join becomes an inner join and loses the row that matches nothing. -/
theorem not_descend_leftJoin_rows :
    let p : Relation := ⟨"p", [⟨"a", .integer, false⟩], []⟩
    let q : Relation := ⟨"q", [⟨"a", .integer, false⟩, ⟨"b", .integer, false⟩], []⟩
    let D := Database.ofTable p [[.integer 1]] (by decide) (by decide) (by decide)
    let t : Tree := leftJoin false none (.leaf false (.extensional ⟨p, [.var ⟨"w"⟩]⟩))
      (.leaf false (.extensional ⟨q, [.var ⟨"w"⟩, .var ⟨"x"⟩]⟩))
    let s : Substitution := .ofList [(⟨"x"⟩, .var ⟨"x_f0"⟩), (⟨"w"⟩, .var ⟨"x"⟩)]
    t.validate = .ok () ∧ s.isInjectiveRenaming = true ∧
      ((t.rows D).filter fun ρ => ρ.Meets s t.vars).length = 1 ∧
      ∀ optimize, ∃ u, descendTo ⟨false⟩ 4 s none optimize t = .ok u ∧ u.rows D = [] := by
  intro p q D t s
  refine ⟨rfl, by decide +kernel, by decide +kernel, fun optimize => ?_⟩
  obtain ⟨u, hu, hnone⟩ : ∃ u, descendTo ⟨false⟩ 4 s none optimize t = .ok u ∧
      (u.rows D).isEmpty = true := by
    cases optimize <;> decide +kernel
  exact ⟨u, hu, List.isEmpty_iff.1 hnone⟩

end Tree

end QueryAlgebra
