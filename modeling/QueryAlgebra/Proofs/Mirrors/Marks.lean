import QueryAlgebra.Proofs.Mirrors.Rules

/-!
# Marks

No rule looks at a mark. On trees that are the same but for marks the rules do the same, and what is
marked in the result was marked before: new nodes are not, leaves apart (`Tree.Remarked`).

Main statements: `Tree.rules_of_unmarked_eq` and `Tree.marked_rules`.
-/

namespace QueryAlgebra.Tree

variable {P : Tree → Prop} {σ : BuildSettings} {t u : Tree} {mark : Bool}

-- ---------------------------------------------------------------------------
-- Nodes without marks
-- ---------------------------------------------------------------------------

theorem unmarked_withMark (t : Tree) : (t.withMark mark).unmarked = t.unmarked := by
  cases t <;> rfl

theorem isNormalized_unmarked (t : Tree) : t.unmarked.isNormalized = false := by
  cases t <;> rfl

theorem unmarked_unmarked (t : Tree) : t.unmarked.unmarked = t.unmarked := by
  induction t using inductionOn with
  | step t ih =>
    cases t with
    | join m condition? ts | union m projected ts =>
      have hts := map_map_unmarked ih
      simp only [children] at hts
      simp only [unmarked, unmarkedAll_eq_map, hts]
    | _ => simp_all [unmarked, children]

theorem checkNode_unmarked (t : Tree) : t.unmarked.checkNode = t.checkNode := by
  have hlabel := label_unmarked t
  cases t with
  | join m condition? ts | union m projected ts =>
    simp only [unmarked, unmarkedAll_eq_map] at hlabel
    simp only [unmarked, unmarkedAll_eq_map, checkNode, hlabel, checkChildCount, List.length_map,
      varsOf_map_unmarked, List.forM_eq_forM, List.forM_map, vars_unmarked]
  | leaf => rfl
  | _ =>
    simp only [unmarked] at hlabel
    simp only [unmarked, checkNode, hlabel, vars_unmarked]

theorem children_of_unmarked_eq (h : t.unmarked = u.unmarked) :
    List.Forall₂ (fun c d => c.unmarked = d.unmarked) t.children u.children := by
  have hchildren := congrArg children h
  rw [children_unmarked, children_unmarked, ← List.forall₂_eq_eq_eq, List.forall₂_map_left_iff,
    List.forall₂_map_right_iff] at hchildren
  exact hchildren

/-- The root of a tree is the same without marks. -/
theorem SameRoot.of_unmarked_eq {R : Tree → Tree → Prop} (h : t.unmarked = u.unmarked)
    (hs : List.Forall₂ R t.children u.children) : SameRoot R t u := by
  cases t <;> cases u <;> simp only [unmarked, reduceCtorEq] at h
  case construct.construct =>
    obtain ⟨-, rfl, rfl, -⟩ := construct.inj h
    cases hs with | cons h => exact .construct h
  case filter.filter =>
    obtain ⟨-, rfl, -⟩ := filter.inj h
    cases hs with | cons h => exact .filter h
  case join.join =>
    obtain ⟨-, rfl, -⟩ := join.inj h
    exact .join hs
  case leftJoin.leftJoin =>
    obtain ⟨-, rfl, -⟩ := leftJoin.inj h
    cases hs with | cons hleft hs => cases hs with | cons hright => exact .leftJoin hleft hright
  case union.union =>
    obtain ⟨-, rfl, -⟩ := union.inj h
    exact .union hs
  case distinct.distinct =>
    cases hs with | cons h => exact .distinct h
  case slice.slice =>
    obtain ⟨-, rfl, -⟩ := slice.inj h
    cases hs with | cons h => exact .slice h
  case orderBy.orderBy =>
    obtain ⟨-, rfl, -⟩ := orderBy.inj h
    cases hs with | cons h => exact .orderBy h
  case aggregate.aggregate =>
    obtain ⟨-, rfl, rfl, -⟩ := aggregate.inj h
    cases hs with | cons h => exact .aggregate h
  case leaf.leaf =>
    obtain ⟨-, rfl⟩ := leaf.inj h
    exact .leaf

/-- Two trees that are the same but for marks have the same nodes but for marks. -/
theorem exists_mem_nodes_of_unmarked_eq (h : t.unmarked = u.unmarked) :
    ∀ w ∈ t.nodes, ∃ v ∈ u.nodes, v.unmarked = w.unmarked := by
  induction t using inductionOn generalizing u with
  | step t ih =>
    obtain ⟨hself, hbelow⟩ := (forall_mem_nodes (p := (· ∈ u.nodes))).1 fun _ => id
    refine forall_mem_nodes.2 ⟨⟨u, hself, h.symm⟩, fun c hc w hw => ?_⟩
    obtain ⟨d, hd, hcd⟩ := exists_of_mem_right (children_of_unmarked_eq h).flip hc
    obtain ⟨v, hv, hvw⟩ := ih c hc hcd w hw
    exact ⟨v, hbelow d hd v hv, hvw⟩

-- ---------------------------------------------------------------------------
-- Trees that differ in marks
-- ---------------------------------------------------------------------------

/-- The trees are the same but for marks, and where the second one is marked `P` holds. -/
structure Remarked (P : Tree → Prop) (t u : Tree) : Prop where
  unmarked : t.unmarked = u.unmarked
  marked : ∀ w ∈ u.nodes, w.isNormalized = true → P w

theorem Remarked.root (h : Remarked P t u) : SameRoot (Remarked P) t u := by
  refine .of_unmarked_eq h.unmarked ?_
  have hmarked := (forall_mem_nodes.1 h.marked).2
  have hchildren := (children_of_unmarked_eq h.unmarked).flip
  exact ((List.forall₂_and_left _ _).2 ⟨hmarked, hchildren⟩).flip.imp fun _ _ h => ⟨h.2, h.1⟩

theorem SameRoot.remarked (h : SameRoot (Remarked P) t u) (hmark : u.isNormalized = true → P u) :
    Remarked P t u := by
  have hchildren := h.children
  refine ⟨h.unmarked_eq (hchildren.imp fun _ _ h => h.unmarked), forall_mem_nodes.2 ⟨hmark, ?_⟩⟩
  intro c hc
  obtain ⟨_, -, hcd⟩ := exists_of_mem_right hchildren hc
  exact hcd.marked

/-- Marks change nothing. -/
theorem mirroring_remarked (σ : BuildSettings) (hP : ∀ l, P (leaf true l)) :
    Mirroring (Remarked P) (fun _ => False) σ σ where
  root h := h.root
  leaf m l := by
    refine SameRoot.leaf.remarked fun hmark => ?_
    obtain rfl : m = true := hmark
    exact hP l
  build := by
    intro t u h ht hu
    have hremarked : Remarked P t u := h.remarked fun hmark => absurd hmark (Bool.eq_false_iff.1 hu)
    have hcheck : t.checkNode = u.checkNode := by
      rw [← checkNode_unmarked t, ← checkNode_unmarked u, hremarked.unmarked]
    unfold BuildSettings.build
    rw [hcheck]
    exact .ite Iff.rfl (fun _ => (Mirrors.refl _).bind fun _ _ _ => .ok hremarked) fun _ =>
      .ok hremarked

variable {supply : NameSupply} {r : Tree × NameSupply}

/-- On trees that are the same but for marks the rules do the same. -/
theorem rules_of_unmarked_eq (h : t.unmarked = u.unmarked)
    (ht : rules σ (pushdown σ) t supply = .ok r) :
    ∃ v, rules σ (pushdown σ) u supply = .ok (v, r.2) ∧ v.unmarked = r.1.unmarked := by
  have hR := mirroring_remarked σ (P := fun _ => True) fun _ => trivial
  have hremarked : Remarked (fun _ => True) t u := ⟨h, fun _ _ _ => trivial⟩
  obtain ⟨⟨v, known⟩, hu, hv, rfl⟩ := (hR.rules hR.pushdown hremarked.root supply).exists_ok ht
  exact ⟨v, hu, hv.unmarked.symm⟩

/-- What holds where a tree is marked holds where the rules leave a mark, if it holds of leaves. -/
theorem marked_rules (hP : ∀ l, P (leaf true l)) (h : ∀ w ∈ t.nodes, w.isNormalized = true → P w)
    (ht : rules σ (pushdown σ) t supply = .ok r) : ∀ w ∈ r.1.nodes, w.isNormalized = true → P w := by
  have hR := mirroring_remarked σ hP
  have hremarked : Remarked P t t := ⟨rfl, h⟩
  obtain ⟨r', hr, hv, -⟩ := (hR.rules hR.pushdown hremarked.root supply).exists_ok ht
  obtain rfl : r = r' := Except.ok.inj (ht.symm.trans hr)
  exact hv.marked

end QueryAlgebra.Tree
