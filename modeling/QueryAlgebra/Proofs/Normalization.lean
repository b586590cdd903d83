import QueryAlgebra.Proofs.Naming
import QueryAlgebra.Proofs.Normalization.Join
import QueryAlgebra.Proofs.Normalization.Union
import QueryAlgebra.Proofs.PositiveTree
import QueryAlgebra.Proofs.Rounds

/-!
# Normalization and rows

The rules of every node of a positive tree restate it (`Tree.restates_rules`), those of a construction
if the names that it takes for what it shadows are apart from those that are there. A run consists of
nothing else: it restates its tree unless it comes to a construction where they are not
(`Tree.NamesStayApart`), and a supply that knows the variables of the tree leads to one only after
something that was pushed down has brought in a name that the supply has not heard of
(`Tree.namesStayApart_of_confined`).

Main statement: `Tree.normalize_rows`.
-/

namespace QueryAlgebra.Tree

open QueryAlgebra.Except (Returns)

variable {D : Database} {σ : BuildSettings} {push : Pushdown} {recur step : Tree → Rewrite Tree}
  {t u : Tree} {supply : NameSupply}

-- ---------------------------------------------------------------------------
-- Clashes
-- ---------------------------------------------------------------------------

/-- A construction over a normalized child for which the supply has no names apart from those that are
there. -/
def Clashes (supply : NameSupply) : Tree → Prop
  | construct _ projected bindings child =>
    child.isNormalized = true ∧ ¬ShadowsApart supply projected bindings child
  | _ => False

instance : ∀ t : Tree, Decidable (t.Clashes supply)
  | construct _ _ _ _ => inferInstanceAs (Decidable (_ ∧ ¬_))
  | filter _ _ _ | join _ _ _ | leftJoin _ _ _ _ | union _ _ _ | distinct _ _ | slice _ _ _
  | orderBy _ _ _ | aggregate _ _ _ _ | leaf _ _ => .isFalse id

/-- Stops a run at a clash. -/
def stopAtClash (t : Tree) : Rewrite Unit := fun supply =>
  if t.Clashes supply then .error .depthExceeded else .ok ((), supply)

/-- The normalization comes to no clash: nothing stops it. -/
def NamesStayApart (σ : BuildSettings) (t : Tree) (supply : NameSupply) : Prop :=
  normalizeWatched σ (pushdown σ) stopAtClash t.pushdownDepth t supply = t.normalize σ supply

theorem not_clashes_of_covers (h : supply.Covers ∅ t) : ¬t.Clashes supply := by
  have hknown {x : Variable} (hx : x ∈ t.knownVars) : x ∈ supply.known :=
    (SortedSet.mem_union.1 (h.known x hx)).resolve_right (SortedSet.not_mem_empty x)
  cases t with
  | construct m projected bindings child =>
    rintro ⟨-, hclash⟩
    have hchild {x : Variable} (hx : x ∈ child.knownVars) : x ∈ supply.known :=
      hknown (knownVars_subset_of_mem_children (.head _) x hx)
    refine hclash (.inr (namesApart_of_known (fun x hx => hknown (vars_subset_knownVars _ x hx)) ?_))
    intro x hx
    unfold merged at hx
    split at hx
    · next m' xs inner grandchild =>
      refine hchild (knownVars_subset_of_mem_children (t := construct m' xs inner grandchild)
        (.head _) x ?_)
      exact vars_subset_knownVars grandchild x hx
    · exact hchild (vars_subset_knownVars child x hx)
  | _ => exact id

/-- The supply has names enough as long as nothing that is pushed down brings in a name that it does
not know. -/
theorem namesStayApart_of_confined {r : Tree × NameSupply} (hknown : t.knownVars ⊆ supply.known)
    (hrun : normalizeTo σ ((pushdown σ).confined ∅) t.pushdownDepth t supply = .ok r) :
    NamesStayApart σ t supply := by
  have hconfined := isCutShort_confined (pushdown σ) ∅
  have hfollows : Rewrite.Follows ∅ UsesOnly
      (normalizeWatched σ ((pushdown σ).confined ∅) stopAtClash t.pushdownDepth t)
      (normalizeTo σ ((pushdown σ).confined ∅) t.pushdownDepth t) supply :=
    follows_normalizeWatched ((pushdown σ).inventsOnly_confined ∅)
      (fun u supply hu => if_neg (not_clashes_of_covers hu)) t.pushdownDepth
      fun x hx => SortedSet.mem_union.2 (.inl (hknown x hx))
  have hwatched := (cutShort_normalizeWatched (fun _ => .refl _) hconfined (fun _ => .refl _) _ t supply).eq_ok
    (hfollows.same.trans hrun)
  have hnormal := (cutShort_normalizeTo (fun _ => .refl _) hconfined _ t supply).eq_ok hrun
  exact hwatched.trans hnormal.symm

-- ---------------------------------------------------------------------------
-- Rounds
-- ---------------------------------------------------------------------------

/-- A positive tree that restates `t`. -/
structure Renders (D : Database) (t u : Tree) : Prop extends Restates D t u where
  positive : u.Positive

/-- A positive tree that restates `t` and is marked as normalized. -/
structure Normalizes (D : Database) (t u : Tree) : Prop extends Renders D t u where
  marked : u.isNormalized = true

theorem Renders.refl (hcore : t.Core .inner) (hpositive : t.Positive) : Renders D t t :=
  ⟨.refl hcore, hpositive⟩

theorem Renders.declareNormalized (h : Renders D t u) : Normalizes D t u.declareNormalized :=
  ⟨⟨h.toRestates.declareNormalized, h.positive.withMark⟩, isNormalized_declareNormalized u⟩

theorem Renders.trans_normalizes {v : Tree} (h : Renders D t u) (h' : Normalizes D u v) :
    Normalizes D t v :=
  ⟨⟨h.toRestates.trans h'.toRestates, h'.positive⟩, h'.marked⟩

section Rounds

variable (hrecur : ∀ t : Tree, t.Core .inner → t.Positive →
  Rewrite.Ends (Normalizes D t) (fun _ => True) (recur t))
include hrecur

/-- The node over normalized children renders it. -/
theorem renders_normalizeChildren (hcore : t.Core .inner) (hpositive : t.Positive) :
    Rewrite.Ends (fun u => Renders D t u ∧ ∀ c ∈ u.children, c.isNormalized = true)
      (fun _ => True) (normalizeChildren recur t) := by
  have hlist {ts : List Tree} (hcores : ∀ t ∈ ts, t.Core .inner) (hts : ∀ t ∈ ts, t.Positive) :
      Rewrite.Ends (fun us => List.Forall₂ (Restates D) ts us ∧ (∀ u ∈ us, u.Positive) ∧
        ∀ u ∈ us, u.isNormalized = true) (fun _ => True) (ts.mapM recur) := by
    refine (Rewrite.Ends.mapM fun t ht => hrecur t (hcores t ht) (hts t ht)).imp fun us hus => ?_
    have hnormal (u : Tree) (hu : u ∈ us) : ∃ t, Normalizes D t u := by
      obtain ⟨t, -, h⟩ := exists_of_mem_right hus hu
      exact ⟨t, h⟩
    refine ⟨hus.imp fun _ _ h => h.toRestates, fun u hu => ?_, fun u hu => ?_⟩
    · exact (hnormal u hu).elim fun _ h => h.positive
    · exact (hnormal u hu).elim fun _ => Normalizes.marked
  cases hpositive with
  | @construct m projected bindings child hchild =>
    obtain ⟨hroot, hbelow⟩ := core_construct.1 hcore
    refine (hrecur child hbelow hchild).bind fun u hu => .pure ⟨⟨?_, .construct hu.positive⟩, ?_⟩
    · exact hu.toRestates.construct hroot
    · exact List.forall_mem_singleton.2 hu.marked
  | @filter m condition child hchild =>
    obtain ⟨hroot, hbelow⟩ := core_filter.1 hcore
    refine (hrecur child hbelow hchild).bind fun u hu => .pure ⟨⟨?_, .filter hu.positive⟩, ?_⟩
    · exact hu.toRestates.filter hroot
    · exact List.forall_mem_singleton.2 hu.marked
  | @join m condition? ts hts =>
    obtain ⟨hroot, hcores⟩ := core_join.1 hcore
    exact (hlist hcores hts).bind fun us hus =>
      .pure ⟨⟨.join hroot hus.1, .join hus.2.1⟩, hus.2.2⟩
  | @union m projected ts hts =>
    obtain ⟨hroot, hcores⟩ := core_union.1 hcore
    exact (hlist hcores hts).bind fun us hus =>
      .pure ⟨⟨.union hroot hus.1, .union hus.2.1⟩, hus.2.2⟩
  | leaf => exact .pure ⟨⟨.refl hcore, .leaf⟩, List.forall_mem_nil _⟩

end Rounds

/-- The rules of a positive node over normalized children restate it unless there is a clash. -/
theorem restates_rules (hpush : push.Sound D .inner) (hcore : t.Core .inner) (hpositive : t.Positive)
    (hmarked : ∀ c ∈ t.children, c.isNormalized = true) (hapart : ¬t.Clashes supply) :
    Returns (fun r => Restates D t r.1) (rules σ push t supply) := by
  cases hpositive with
  | @construct m projected bindings child =>
    refine returns_normalizeConstruct hpush hcore (not_not.1 fun hclash => hapart ⟨?_, hclash⟩)
    exact hmarked child (.head _)
  | filter => exact (Rewrite.returns_lift (returns_normalizeFilter hpush hcore) _).imp fun _ h => h.1
  | join => exact returns_normalizeJoin hpush hcore
  | union => exact (Rewrite.returns_lift (returns_normalizeUnion hcore) _).imp fun _ h => h.1
  | leaf => exact .ok (Restates.refl hcore).declareNormalized

section Runs

variable (hpush : push.Sound D .inner) (hkeeps : push.KeepsPositive)
include hpush hkeeps

/-- A round that comes to no clash renders its tree. -/
theorem renders_roundWatched
    (hrecur : ∀ t : Tree, t.Core .inner → t.Positive →
      Rewrite.Ends (Normalizes D t) (fun _ => True) (recur t))
    (hcore : t.Core .inner) (hpositive : t.Positive) :
    Rewrite.Ends (Renders D t) (fun _ => True) (roundWatched σ push stopAtClash recur t) := by
  refine (Rewrite.Ends.any (stopAtClash t)).bind fun _ _ => ?_
  refine (renders_normalizeChildren hrecur hcore hpositive).bind fun inner hinner supply => ?_
  obtain ⟨hinner, hmarked⟩ := hinner
  rw [← Except.returns_iff_ends]
  refine Rewrite.returns_bind (P := fun r => r.2 = supply ∧ ¬inner.Clashes supply) ?_ ?_
  · exact .ite (fun _ => .error) fun hapart => .ok ⟨rfl, hapart⟩
  · rintro ⟨_, _⟩ ⟨rfl, hapart⟩ r hr
    have hrestates := restates_rules hpush hinner.core hinner.positive hmarked hapart r hr
    have hpositive := (positive_rules hkeeps hinner.positive _).returns r hr
    exact ⟨hinner.toRestates.trans hrestates, hpositive⟩

omit hpush hkeeps in
/-- Rounds that render their trees lead to a normal form of the first one. -/
theorem normalizes_settle
    (hstep : ∀ t : Tree, t.Core .inner → t.Positive →
      Rewrite.Ends (Renders D t) (fun _ => True) (step t))
    (hcore : t.Core .inner) (hpositive : t.Positive) (rounds : Nat) :
    Rewrite.Ends (Normalizes D t) (fun _ => True) (settle step rounds t) := by
  induction rounds generalizing t with
  | zero => exact .pure (Renders.declareNormalized ⟨.refl hcore, hpositive⟩)
  | succ rounds ih =>
    refine .ite (fun hmark => .pure ⟨⟨.refl hcore, hpositive⟩, hmark⟩) fun _ =>
      (hstep t hcore hpositive).bind fun next hnext => ?_
    refine .ite (fun _ => .pure hnext.declareNormalized) fun _ => ?_
    exact (ih hnext.core hnext.positive).imp fun u hu => hnext.trans_normalizes hu

/-- A run that comes to no clash normalizes its tree. -/
theorem normalizes_normalizeWatched (depth : Nat) (hcore : t.Core .inner) (hpositive : t.Positive) :
    Rewrite.Ends (Normalizes D t) (fun _ => True)
      (normalizeWatched σ push stopAtClash depth t) := by
  induction depth generalizing t with
  | zero => exact .lift (e := .error _) trivial
  | succ depth ih =>
    have hround (t : Tree) := renders_roundWatched (σ := σ) (t := t) hpush hkeeps fun _ => ih
    refine .ite (fun hmark => .pure ⟨⟨.refl hcore, hpositive⟩, hmark⟩) fun _ =>
      (hround t hcore hpositive).bind fun first hfirst => ?_
    exact (normalizes_settle hround hfirst.core hfirst.positive _).imp fun u hu =>
      hfirst.trans_normalizes hu

end Runs

/-- Unless it comes to a clash, normalization of a positive core tree normalizes it. -/
theorem normalizes_normalize (hcore : t.Core .inner) (hpositive : t.Positive)
    (hapart : NamesStayApart σ t supply) :
    Returns (fun r => Normalizes D t r.1) (t.normalize σ supply) := by
  have hruns := normalizes_normalizeWatched (D := D) (σ := σ) sound_pushdown (keepsPositive_pushdown σ)
    t.pushdownDepth hcore hpositive supply
  rw [hapart] at hruns
  exact hruns.returns

/-- Normalization keeps the variables and the bag of rows of a valid positive tree, unless it comes to a
construction that gets a name which is there already. -/
theorem normalize_rows (hvalid : t.validate = .ok ()) (hnodes : ∀ u ∈ t.nodes, u.Relational)
    (hpositive : t.Positive) (hapart : NamesStayApart σ t supply) :
    Returns (fun r => r.1.vars = t.vars ∧ (r.1.rows D).Perm (t.rows D)) (t.normalize σ supply) := by
  have hcore := core_of_valid (validate_eq_ok.1 hvalid) hnodes
  exact (normalizes_normalize hcore hpositive hapart).imp fun r hr => ⟨hr.bag.vars, hr.bag.perm⟩

/-- The binding of `x` shadows a column of the atom, which gets another name in both branches. -/
theorem normalize_rows_of_shadowed :
    let r : Relation := ⟨"r", [⟨"a", .integer, false⟩, ⟨"b", .integer, false⟩], []⟩
    let D := Database.ofTable r [[.integer 1, .integer 2], [.integer 3, .integer 2],
      [.integer 3, .integer 5]] (by decide) (by decide) (by decide)
    let x : Variable := ⟨"x"⟩
    let y : Variable := ⟨"y"⟩
    let only (k : Int) : Tree :=
      construct false (.singleton y) (.singleton y (.const (.integer k))) oneRow
    let t : Tree := construct false (.singleton x) (.singleton x (.app ⟨.db "f", 1⟩ [.var y]))
      (join false none [leaf false (.extensional ⟨r, [.var x, .var y]⟩),
        union false (.singleton y) [only 2, only 5]])
    let supply : NameSupply := .ofKnown t.knownVars
    t.validate = .ok () ∧ (∀ u ∈ t.nodes, u.Relational) ∧ t.Positive ∧
      NamesStayApart ⟨false⟩ t supply ∧
        ∃ p, t.normalize ⟨false⟩ supply = .ok p ∧ p.1.vars = .singleton x ∧
          (p.1.rows D).length = 3 := by
  intro r D x y only t supply
  have hvalid : t.validate = .ok () := by decide +kernel
  have hshadowing : (Term.app ⟨.db "f", 1⟩ [.var y]).AdmissibleOver (.singleton y) :=
    .app ⟨by decide, nofun⟩ (List.forall_mem_singleton.2 (.var (.head _)))
  have hnodes : ∀ u ∈ t.nodes, u.Relational := by
    simp only [t, only, oneRow, nodes, nodesOf, List.forall_mem_cons, List.forall_mem_append]
    simpa [Relational] using ⟨admissible_of_singleton hshadowing, admissible_of_singleton .const,
      admissible_of_singleton .const⟩
  have hpositive : t.Positive := by
    have honly (k : Int) : (only k).Positive := .construct .leaf
    refine .construct (.join (List.forall_mem_cons.2 ⟨.leaf, List.forall_mem_singleton.2 ?_⟩))
    exact .union (List.forall_mem_cons.2 ⟨honly 2, List.forall_mem_singleton.2 (honly 5)⟩)
  obtain ⟨p, hrun⟩ : ∃ p, normalizeTo ⟨false⟩ ((pushdown ⟨false⟩).confined ∅) t.pushdownDepth t
      supply = .ok p := by decide +kernel
  have hapart : NamesStayApart ⟨false⟩ t supply := namesStayApart_of_confined (fun _ => id) hrun
  obtain ⟨p, hp⟩ : ∃ p, t.normalize ⟨false⟩ supply = .ok p := by decide +kernel
  obtain ⟨hvars, hperm⟩ := normalize_rows (D := D) hvalid hnodes hpositive hapart p hp
  exact ⟨hvalid, hnodes, hpositive, hapart, p, hp, hvars, hperm.length_eq.trans (by decide +kernel)⟩

/-- A clash loses rows. When `y` takes the place of `z` below the union, the column `y` that is hidden
there is renamed to `y_f0`, and the supply of the run is not asked. Once the filter has left one branch,
the supply hands out that name again, for the column that the binding of `y_f7` shadows: the atom then
only returns rows in which both columns agree. -/
theorem not_normalize_rows :
    let r : Relation :=
      ⟨"r", [⟨"a", .integer, false⟩, ⟨"b", .integer, false⟩, ⟨"c", .integer, false⟩,
        ⟨"d", .integer, false⟩], []⟩
    let s : Relation := ⟨"s", [⟨"a", .integer, false⟩], []⟩
    let D := Database.ofTable r [[.integer 5, .integer 1, .integer 7, .integer 2]]
      (by decide) (by decide) (by decide)
    let w : Variable := ⟨"w"⟩
    let y : Variable := ⟨"y"⟩
    let z : Variable := ⟨"z"⟩
    let shadowing : Variable := ⟨"y_f7"⟩
    let less (x : Variable) (k : Int) : Expression := ⟨⟨.lt, 2⟩, [.var x, .const (.integer k)], rfl⟩
    let kept : Tree := construct false (.ofList [w, z]) ∅
      (leaf false (.extensional ⟨r, [.var z, .var y, .var w, .var shadowing]⟩))
    let dropped : Tree := construct false (.ofList [w, z]) (.singleton z (.const (.integer 7)))
      (filter false (less w 3) (leaf false (.extensional ⟨s, [.var w]⟩)))
    let renamed : Tree := construct false (.ofList [w, y]) ∅
      (construct false (.ofList [w, y, z]) (.singleton y (.var z))
        (union false (.ofList [w, z]) [kept, dropped]))
    let t : Tree := construct false (.singleton shadowing)
      (.singleton shadowing (.app ⟨.db "f", 1⟩ [.var w])) (filter false (less y 6) renamed)
    t.validate = .ok () ∧ (∀ u ∈ t.nodes, u.Relational) ∧ t.Positive ∧
      ¬NamesStayApart ⟨false⟩ t (.ofKnown t.knownVars) ∧ (t.rows D).length = 1 ∧
        ∃ p, t.normalize ⟨false⟩ (.ofKnown t.knownVars) = .ok p ∧ (p.1.rows D).length = 0 := by
  intro r s D w y z shadowing less kept dropped renamed t
  have hvalid : ∀ u ∈ t.nodes, u.RootValid := by decide +kernel
  have hless (x : Variable) (k : Int) : (less x k).Admissible := by
    refine .app ⟨nofun, fun _ => rfl⟩ ?_
    rw [List.forall_mem_cons, List.forall_mem_singleton]
    exact ⟨.var trivial, .const⟩
  have hshadowing : (Term.app ⟨.db "f", 1⟩ [.var w]).AdmissibleOver (.singleton w) :=
    .app ⟨by decide, nofun⟩ (List.forall_mem_singleton.2 (.var (.head _)))
  have hrenaming : (Term.var z).AdmissibleOver (.singleton z) := .var (.head _)
  have hempty (x : Variable) (u : Term) (hu : (∅ : Substitution).find? x = some u) :
      u.AdmissibleOver u.vars := by
    cases hu
  have hnodes : ∀ u ∈ t.nodes, u.Relational := by
    simp only [t, renamed, kept, dropped, nodes, nodesOf, List.forall_mem_cons,
      List.forall_mem_append]
    simpa [Relational] using ⟨admissible_of_singleton hshadowing, hless y 6, hempty,
      admissible_of_singleton hrenaming, hempty, admissible_of_singleton .const, hless w 3⟩
  have hpositive : t.Positive := by
    refine .construct (.filter (.construct (.construct (.union ?_))))
    exact List.forall_mem_cons.2 ⟨.construct .leaf, List.forall_mem_singleton.2
      (.construct (.filter .leaf))⟩
  have hnormal : ∃ p, t.normalize ⟨false⟩ (.ofKnown t.knownVars) = .ok p ∧
      (p.1.rows D).length = 0 := by decide +kernel
  have hclash : ¬NamesStayApart ⟨false⟩ t (.ofKnown t.knownVars) := by
    intro hapart
    have hstopped : (normalizeWatched ⟨false⟩ (pushdown ⟨false⟩) stopAtClash t.pushdownDepth t
        (.ofKnown t.knownVars)).isOk = false := by decide +kernel
    obtain ⟨p, hp, -⟩ := hnormal
    rw [hapart, hp] at hstopped
    cases hstopped
  exact ⟨validate_eq_ok.2 hvalid, hnodes, hpositive, hclash, by decide +kernel, hnormal⟩

end QueryAlgebra.Tree
