import QueryAlgebra.Proofs.CutShort
import QueryAlgebra.Proofs.EqualityChains
import QueryAlgebra.Proofs.Indifference
import QueryAlgebra.Proofs.Mirrors.Marks
import QueryAlgebra.Proofs.Rounds

/-!
# Normal forms

A tree is a normal form when its rules leave every node as it is, whatever names are to hand
(`Tree.IsNormalForm`); marks do not matter for that. Normalization leaves a normal form as it is, also
where nothing is marked.

Normalization itself leads to one unless a root runs out of rounds. To make that sure, a round that stops
at a tree must leave the children as they are and not only put them back, and it must not take a name
(`Tree.converge`). Runs of which this holds settle (`Tree.Settles`). A chain of equalities above an
aggregation that is longer than the rounds does not settle (`Tree.normalize_chain_changes`).

Main statement: `Tree.normalize_settles`.
-/

namespace QueryAlgebra

open QueryAlgebra.Except (Ends)

namespace Tree

variable {σ : BuildSettings} {push : Pushdown} {recur : Tree → Rewrite Tree} {t u : Tree}
  {supply supply' : NameSupply} {Q : Error → Prop}

-- ---------------------------------------------------------------------------
-- Trees that are left alone
-- ---------------------------------------------------------------------------

/-- Whatever names are to hand, the rules give the tree back. -/
def IsLeftAlone (σ : BuildSettings) (t : Tree) : Prop :=
  ∀ supply, ∃ u names, rules σ (pushdown σ) t supply = .ok (u, names) ∧ u.unmarked = t.unmarked

/-- Every node is left alone. -/
def IsNormalForm (σ : BuildSettings) (t : Tree) : Prop := ∀ u ∈ t.nodes, u.IsLeftAlone σ

theorem IsLeftAlone.of_unmarked_eq (ht : t.IsLeftAlone σ) (h : t.unmarked = u.unmarked) :
    u.IsLeftAlone σ := by
  intro supply
  obtain ⟨v, names, hv, hsame⟩ := ht supply
  obtain ⟨w, hw, hwv⟩ := rules_of_unmarked_eq h hv
  exact ⟨w, names, hw, hwv.trans (hsame.trans h)⟩

theorem IsNormalForm.of_unmarked_eq (ht : t.IsNormalForm σ) (h : t.unmarked = u.unmarked) :
    u.IsNormalForm σ := by
  intro w hw
  obtain ⟨v, hv, hsame⟩ := exists_mem_nodes_of_unmarked_eq h.symm w hw
  exact (ht v hv).of_unmarked_eq hsame

theorem isNormalForm_iff : t.IsNormalForm σ ↔ t.IsLeftAlone σ ∧ ∀ c ∈ t.children, c.IsNormalForm σ :=
  forall_mem_nodes

theorem IsNormalForm.of_mem_nodes (ht : t.IsNormalForm σ) (hu : u ∈ t.nodes) : u.IsNormalForm σ :=
  fun v hv => ht v (mem_nodes_trans hu hv)

theorem isNormalForm_leaf (m : Bool) (l : Leaf) : (leaf m l).IsNormalForm σ :=
  isNormalForm_iff.2 ⟨fun supply => ⟨_, supply, rfl, rfl⟩, nofun⟩

/-- What the rules of a tree are seen to leave alone without taking a name, they leave alone. -/
theorem isLeftAlone_of_rules (h : rules σ (pushdown σ) t supply = .ok (u, supply'))
    (hnext : supply'.next = supply.next) (hsame : u.unmarked = t.unmarked) : t.IsLeftAlone σ := by
  intro names
  obtain ⟨names', hnames⟩ := (indifferent_rules t supply u supply' h).2 hnext names
  exact ⟨u, names', hnames, hsame⟩

-- ---------------------------------------------------------------------------
-- Normalizing normal forms
-- ---------------------------------------------------------------------------

/-- A step that leaves its tree alone is the last one. -/
theorem settle_of_leftAlone {step : Tree → Rewrite Tree} (rounds : Nat)
    (hstep : Rewrite.Ends (fun u => u.unmarked = t.unmarked) Q (step t)) :
    Rewrite.Ends (fun u => u.unmarked = t.unmarked) Q (settle step rounds t) := by
  cases rounds with
  | zero => exact .pure (unmarked_withMark t)
  | succ rounds =>
    refine .ite (fun _ => .pure rfl) fun _ => hstep.bind fun next hnext => ?_
    rw [if_pos (same_iff.2 hnext)]
    exact .pure ((unmarked_withMark next).trans hnext)

/-- A normal form is given back by every normalization that goes as deep as it is. -/
theorem normalizeTo_of_isNormalForm {depth : Nat} (ht : t.IsNormalForm σ) (hdepth : t.size ≤ depth) :
    Rewrite.Ends (fun u => u.unmarked = t.unmarked) (fun _ => False)
      (normalizeTo σ (pushdown σ) depth t) := by
  induction depth generalizing t with
  | zero => cases t <;> cases hdepth
  | succ depth ih =>
    have hround {t : Tree} (ht : t.IsNormalForm σ) (hdepth : t.size ≤ depth + 1) :
        Rewrite.Ends (fun u => u.unmarked = t.unmarked) (fun _ => False)
          (round σ (pushdown σ) (normalizeTo σ (pushdown σ) depth) t) := by
      have hchildren := sameRoot_normalizeChildren fun c hc =>
        ih ((isNormalForm_iff.1 ht).2 c hc)
          (Nat.le_of_lt_succ (Nat.lt_of_lt_of_le (size_lt_of_mem_children hc) hdepth))
      rw [round_eq]
      refine hchildren.bind fun inner ⟨hinner, _⟩ supply => ?_
      have hsame : t.unmarked = inner.unmarked :=
        hinner.unmarked_eq (hinner.children.imp fun _ _ h => h.symm)
      obtain ⟨u, names, hu, hui⟩ := (isNormalForm_iff.1 ht).1.of_unmarked_eq hsame supply
      rw [hu]
      exact hui.trans hsame.symm
    refine .ite (fun _ => .pure rfl) fun _ => (hround ht hdepth).bind fun first hfirst => ?_
    have hnormal := ht.of_unmarked_eq hfirst.symm
    have hsize : first.size = t.size := by
      rw [← size_unmarked first, ← size_unmarked t, hfirst]
    refine (settle_of_leftAlone _ (hround hnormal (hsize ▸ hdepth))).imp fun u hu => ?_
    exact hu.trans hfirst

theorem normalize_of_isNormalForm (ht : t.IsNormalForm σ) (supply : NameSupply) :
    ∃ u names, t.normalize σ supply = .ok (u, names) ∧ u.unmarked = t.unmarked := by
  have hdepth : t.size ≤ t.pushdownDepth :=
    Nat.le_trans (Nat.le_add_right t.size 10) (Nat.le_of_lt t.size_add_lt_pushdownDepth)
  obtain ⟨⟨u, names⟩, hu, hsame⟩ :=
    Except.ends_false_iff.1 (normalizeTo_of_isNormalForm ht hdepth supply)
  exact ⟨u, names, hu, hsame⟩

-- ---------------------------------------------------------------------------
-- Chains of equalities
-- ---------------------------------------------------------------------------

/-- The tree is the filter of a chain above `t`, but for marks. -/
def Filters (c : EqualityChain) (t u : Tree) : Prop :=
  u.unmarked = (filter false (.allOf c.conditions) t).unmarked

theorem Filters.exists_eq {c : EqualityChain} (h : Filters c t u) :
    ∃ m v, u = filter m (.allOf c.conditions) v ∧ v.unmarked = t.unmarked := by
  cases u with
  | filter m condition v =>
    obtain ⟨-, rfl, hv⟩ := filter.inj h
    exact ⟨m, v, rfl, hv⟩
  | _ => cases h

theorem exists_aggregate_of_unmarked_eq {m : Bool} {grouping : VarSet} {bindings : Substitution}
    {child : Tree} (h : u.unmarked = (aggregate m grouping bindings child).unmarked) :
    ∃ m' child', u = aggregate m' grouping bindings child' := by
  cases u with
  | aggregate m' grouping' bindings' child' =>
    obtain ⟨-, rfl, rfl, -⟩ := aggregate.inj h
    exact ⟨m', child', rfl⟩
  | _ => cases h

section Chains

variable {c : EqualityChain} {m : Bool} {grouping : VarSet} {bindings : Substitution} {child : Tree}
  (hσ : σ.testMode = false) (hvars : ∀ x ∈ c.vars, x ∈ bindings.domain)
include hσ hvars

/-- A round finds one more number. -/
theorem filters_round {depth : Nat} (hnormal : (aggregate m grouping bindings child).IsNormalForm σ)
    (hdepth : (aggregate m grouping bindings child).size ≤ depth)
    (hu : Filters c (aggregate m grouping bindings child) u) :
    Rewrite.Ends
      (fun v => Filters c.advance (aggregate m grouping bindings child) v ∧ v.isNormalized = false)
      (fun _ => False) (round σ (pushdown σ) (normalizeTo σ (pushdown σ) depth) u) := by
  obtain ⟨_, t, rfl, ht⟩ := hu.exists_eq
  have hsize : t.size = (aggregate m grouping bindings child).size := by
    rw [← size_unmarked t, ht, size_unmarked]
  have hchild := normalizeTo_of_isNormalForm (hnormal.of_unmarked_eq ht.symm) (hsize ▸ hdepth)
  refine hchild.bind fun t' ht' => .lift ?_
  have hsame : t'.unmarked = (aggregate m grouping bindings child).unmarked := ht'.trans ht
  obtain ⟨m', child', rfl⟩ := exists_aggregate_of_unmarked_eq hsame
  rw [normalizeFilter_chain c hσ hvars]
  exact ⟨congrArg (filter false _) hsame, rfl⟩

/-- Rounds find one number each. -/
theorem filters_settle {depth rounds : Nat} (hnormal : (aggregate m grouping bindings child).IsNormalForm σ)
    (hdepth : (aggregate m grouping bindings child).size ≤ depth)
    (hu : Filters c (aggregate m grouping bindings child) u) (hmark : u.isNormalized = false) :
    Rewrite.Ends
      (Filters (EqualityChain.advance^[rounds] c) (aggregate m grouping bindings child))
      (fun _ => False) (settle (round σ (pushdown σ) (normalizeTo σ (pushdown σ) depth)) rounds u) := by
  induction rounds generalizing c u with
  | zero => exact .pure ((unmarked_withMark u).trans hu)
  | succ rounds ih =>
    rw [settle, if_neg (Bool.eq_false_iff.1 hmark)]
    refine (filters_round hσ hvars hnormal hdepth hu).bind fun next hround => ?_
    obtain ⟨hnext, hmark'⟩ := hround
    have hvars' : ∀ x ∈ c.advance.vars, x ∈ bindings.domain := c.vars_advance ▸ hvars
    refine .ite (fun hsame => .pure ?_) fun _ => ih hvars' hnext hmark'
    have hstays : c.advance.conditions = c.conditions := by
      have heq := (hnext.symm.trans (same_iff.1 hsame)).trans hu
      exact Expression.allOf_injective (filter.inj heq).2.1
    have hwaiting : c.advance.waiting = [] :=
      congrArg List.tail (c.waiting_eq_nil_of_conditions_advance hstays)
    rw [Filters, Function.iterate_succ_apply, EqualityChain.conditions_iterate_advance hwaiting]
    exact (unmarked_withMark next).trans hnext

/-- The normalization of a chain that is not marked: it finds as many numbers as there are rounds. -/
theorem filters_normalize (hnormal : (aggregate m grouping bindings child).IsNormalForm σ)
    (hu : Filters c (aggregate m grouping bindings child) u) (hmark : u.isNormalized = false)
    (supply : NameSupply) : ∃ v names, u.normalize σ supply = .ok (v, names) ∧
      Filters (EqualityChain.advance^[maxRounds + 1] c) (aggregate m grouping bindings child) v := by
  have hsize : (aggregate m grouping bindings child).size < u.size := by
    rw [← size_unmarked u, hu, size_unmarked]
    exact size_lt_of_mem_children (.head _)
  have hdepth : (aggregate m grouping bindings child).size ≤ u.pushdownDepth - 1 := by
    have hlt := u.size_add_lt_pushdownDepth
    omega
  have hvars' : ∀ x ∈ c.advance.vars, x ∈ bindings.domain := c.vars_advance ▸ hvars
  have hrun : Rewrite.Ends
      (Filters (EqualityChain.advance^[maxRounds + 1] c) (aggregate m grouping bindings child))
      (fun _ => False) (u.normalize σ) := by
    rw [normalize, ← pred_pushdownDepth, normalizeTo, if_neg (Bool.eq_false_iff.1 hmark)]
    exact (filters_round hσ hvars hnormal hdepth hu).bind fun first hfirst =>
      filters_settle hσ hvars' hnormal hdepth hfirst.1 hfirst.2
  obtain ⟨⟨v, names⟩, hv, hfilters⟩ := Except.ends_false_iff.1 (hrun supply)
  exact ⟨v, names, hv, hfilters⟩

/-- A chain of more variables than there are rounds is not normalized to its end: once the result is
normalized again, another condition is left. -/
theorem normalize_chain_changes (hlong : maxRounds + 1 < c.waiting.length)
    (hnormal : (aggregate m grouping bindings child).IsNormalForm σ)
    (hu : Filters c (aggregate m grouping bindings child) u) (hmark : u.isNormalized = false)
    (supply : NameSupply) : ∃ v names, u.normalize σ supply = .ok (v, names) ∧ ∀ names',
      ∃ w names'', v.unmarked.normalize σ names' = .ok (w, names'') ∧ w.same v = false := by
  obtain ⟨v, names, hv, hchain⟩ := filters_normalize hσ hvars hnormal hu hmark supply
  refine ⟨v, names, hv, fun names' => ?_⟩
  have hvars' : ∀ x ∈ (EqualityChain.advance^[maxRounds + 1] c).vars, x ∈ bindings.domain := by
    rw [c.vars_iterate_advance]
    exact hvars
  obtain ⟨w, names'', hw, hchain'⟩ := filters_normalize hσ hvars' hnormal
    ((unmarked_unmarked v).trans hchain) (isNormalized_unmarked v) names'
  have hwaiting : (EqualityChain.advance^[maxRounds + 1] c).waiting ≠ [] := by
    rw [c.waiting_iterate_advance]
    exact List.ne_nil_of_length_pos (by rw [List.length_drop]; omega)
  have hfound : (EqualityChain.advance^[maxRounds + 1] c).found ≠ [] := by
    have hne : c.waiting ≠ [] := List.ne_nil_of_length_pos (Nat.zero_lt_of_lt hlong)
    obtain ⟨x, l, hl⟩ := List.exists_cons_of_ne_nil hne
    intro hnone
    have hmem := c.mem_found_iterate_advance (congrArg List.head? hl) maxRounds
    rw [hnone] at hmem
    exact List.not_mem_nil hmem
  refine ⟨w, names'', hw, Bool.eq_false_iff.2 fun hsame => ?_⟩
  have heq := (hchain'.symm.trans (same_iff.1 hsame)).trans hchain
  exact EqualityChain.conditions_iterate_advance_ne hwaiting hfound _
    (Expression.allOf_injective (filter.inj heq).2.1)

end Chains

-- ---------------------------------------------------------------------------
-- Runs that settle
-- ---------------------------------------------------------------------------

/-- Rounds of `inner` and then `root`, until one leaves its tree as it is. It must do so twice: the
children that `inner` gives are those of the tree, and `root` gives the tree back without a name. Runs
that stop in any other way, or for want of rounds, fail. -/
def converge (inner root : Tree → Rewrite Tree) : (rounds : Nat) → Tree → Rewrite Tree
  | 0, _ => fun _ => .error .depthExceeded
  | rounds + 1, t => fun supply =>
    if t.isNormalized then .ok (t, supply)
    else do
      let (u, known) ← inner t supply
      let (next, known') ← root u known
      if next.same t then
        if u.same t ∧ known'.next = known.next then .ok (next.declareNormalized, known')
        else .error .depthExceeded
      else converge inner root rounds next known'

/-- Normalization within a depth, in which the rounds at every root converge. -/
def convergeTo (σ : BuildSettings) (push : Pushdown) : (depth : Nat) → Tree → Rewrite Tree
  | 0, _ => throw .depthExceeded
  | depth + 1, t =>
    if t.isNormalized then return t
    else do
      let first ← round σ push (convergeTo σ push depth) t
      converge (normalizeChildren (convergeTo σ push depth)) (rules σ push) maxRounds first

/-- No root runs out of rounds when the tree is normalized. -/
def Settles (σ : BuildSettings) (t : Tree) (supply : NameSupply) : Prop :=
  convergeTo σ (pushdown σ) t.pushdownDepth t supply = t.normalize σ supply

theorem cutShort_converge {inner inner' root : Tree → Rewrite Tree}
    (hinner : ∀ t, Rewrite.CutShort (· = .depthExceeded) (inner t) (inner' t)) (rounds : Nat)
    (t : Tree) : Rewrite.CutShort (· = .depthExceeded) (converge inner root rounds t)
      (settle (fun t => inner' t >>= root) rounds t) := by
  induction rounds generalizing t with
  | zero => exact fun _ => .inr ⟨_, rfl, rfl⟩
  | succ rounds ih =>
    intro supply
    rw [converge, settle, bind_assoc]
    beta_reduce
    by_cases hmark : t.isNormalized = true
    · rw [if_pos hmark, if_pos hmark]
      exact .refl _
    · rw [if_neg hmark, if_neg hmark]
      refine (hinner t supply).bind ?_
      rintro ⟨u, known⟩
      refine (CutShort.refl _).bind ?_
      rintro ⟨next, known'⟩
      by_cases hsame : next.same t = true
      · simp only [if_pos hsame]
        by_cases hleft : u.same t = true ∧ known'.next = known.next
        · rw [if_pos hleft]
          exact .refl _
        · rw [if_neg hleft]
          exact .inr ⟨_, rfl, rfl⟩
      · simp only [if_neg hsame]
        exact ih next known'

/-- Where the rounds converge they are those of normalization. -/
theorem cutShort_convergeTo (depth : Nat) (t : Tree) :
    Rewrite.CutShort (· = .depthExceeded) (convergeTo σ push depth t) (normalizeTo σ push depth t) := by
  induction depth generalizing t with
  | zero => exact .refl _
  | succ depth ih =>
    have hinner := cutShort_normalizeChildren ih
    refine .ite (fun _ => .refl _) fun _ => ?_
    have hround : round σ push (normalizeTo σ push depth)
        = fun t => normalizeChildren (normalizeTo σ push depth) t >>= rules σ push :=
      funext (round_eq σ push _)
    rw [round_eq, hround]
    exact ((hinner t).bind fun _ => .refl _).bind fun first => cutShort_converge hinner _ first

theorem normalize_of_convergeTo {r : Tree × NameSupply}
    (h : convergeTo σ (pushdown σ) t.pushdownDepth t supply = .ok r) :
    t.normalize σ supply = .ok r :=
  (cutShort_convergeTo _ t supply).eq_ok h

theorem settles_of_ok {r : Tree × NameSupply}
    (h : convergeTo σ (pushdown σ) t.pushdownDepth t supply = .ok r) : t.Settles σ supply :=
  h.trans (normalize_of_convergeTo h).symm

-- ---------------------------------------------------------------------------
-- Where runs settle
-- ---------------------------------------------------------------------------

/-- Where the tree is marked it is a normal form. -/
def MarksNormalForms (σ : BuildSettings) (t : Tree) : Prop :=
  ∀ u ∈ t.nodes, u.isNormalized = true → u.IsNormalForm σ

theorem MarksNormalForms.of_unmarked_root (hroot : t.isNormalized = false)
    (h : ∀ c ∈ t.children, c.IsNormalForm σ) : t.MarksNormalForms σ :=
  forall_mem_nodes.2 ⟨fun hmark => absurd hmark (Bool.eq_false_iff.1 hroot),
    fun c hc _ hw _ => (h c hc).of_mem_nodes hw⟩

theorem MarksNormalForms.children (h : t.MarksNormalForms σ) :
    ∀ c ∈ t.children, c.MarksNormalForms σ := (forall_mem_nodes.1 h).2

theorem MarksNormalForms.self (h : t.MarksNormalForms σ) (hmark : t.isNormalized = true) :
    t.IsNormalForm σ := (forall_mem_nodes.1 h).1 hmark

section Runs

variable (hrecur : ∀ t : Tree, t.MarksNormalForms σ →
  Rewrite.Ends (IsNormalForm σ) (fun _ => True) (recur t))
include hrecur

/-- A node that is not marked, once its children are normal forms. -/
theorem marksNormalForms_normalizeChildren (ht : t.MarksNormalForms σ)
    (hroot : t.isNormalized = false) :
    Rewrite.Ends (fun u => u.MarksNormalForms σ ∧ ∀ c ∈ u.children, c.IsNormalForm σ) (fun _ => True)
      (normalizeChildren recur t) := by
  refine (sameRoot_normalizeChildren (S := fun _ c => c.IsNormalForm σ) fun c hc =>
    hrecur c (ht.children c hc)).imp fun u ⟨hu, hmark⟩ => ?_
  have hchildren : ∀ c ∈ u.children, c.IsNormalForm σ := by
    intro c hc
    obtain ⟨-, -, hc⟩ := exists_of_mem_right hu.children hc
    exact hc
  exact ⟨.of_unmarked_root (hmark.trans hroot) hchildren, hchildren⟩

omit hrecur in
theorem marksNormalForms_rules (ht : t.MarksNormalForms σ) :
    Rewrite.Ends (MarksNormalForms σ) (fun _ => True) (rules σ (pushdown σ) t) := fun _ =>
  Except.returns_iff_ends.1 fun _ hr => marked_rules (isNormalForm_leaf true) ht hr

/-- Rounds that converge end at a normal form. -/
theorem isNormalForm_converge (rounds : Nat) (ht : t.MarksNormalForms σ) :
    Rewrite.Ends (IsNormalForm σ) (fun _ => True)
      (converge (normalizeChildren recur) (rules σ (pushdown σ)) rounds t) := by
  induction rounds generalizing t with
  | zero => exact fun _ => trivial
  | succ rounds ih =>
    intro supply
    refine .ite ht.self fun hmark => ?_
    have hinner := marksNormalForms_normalizeChildren hrecur ht (Bool.eq_false_iff.2 hmark) supply
    refine hinner.bind fun ⟨inner, known⟩ ⟨hinner, hchildren⟩ => ?_
    have hrules : Ends (fun r => rules σ (pushdown σ) inner known = .ok r ∧ r.1.MarksNormalForms σ)
        (fun _ => True) (rules σ (pushdown σ) inner known) :=
      Except.returns_iff_ends.1 fun r hr => ⟨hr, marked_rules (isNormalForm_leaf true) hinner hr⟩
    refine hrules.bind fun ⟨next, known'⟩ ⟨hrules, hnext⟩ => ?_
    refine .ite (fun hsame => ?_) fun _ => ih hnext known'
    refine .ite (fun ⟨hsame', hnames⟩ => ?_) fun _ => trivial
    -- the last round leaves the node alone that it took apart
    have hback : next.unmarked = inner.unmarked :=
      (same_iff.1 hsame).trans (same_iff.1 hsame').symm
    have hnormal : inner.IsNormalForm σ :=
      isNormalForm_iff.2 ⟨isLeftAlone_of_rules hrules hnames hback, hchildren⟩
    exact hnormal.of_unmarked_eq (hback.symm.trans (unmarked_withMark next).symm)

omit hrecur in
/-- Rounds that converge lead from trees that are normal forms where they are marked to normal forms. -/
theorem isNormalForm_convergeTo (depth : Nat) (ht : t.MarksNormalForms σ) :
    Rewrite.Ends (IsNormalForm σ) (fun _ => True) (convergeTo σ (pushdown σ) depth t) := by
  induction depth generalizing t with
  | zero => exact .lift (e := .error _) trivial
  | succ depth ih =>
    refine .ite (fun hmark => .pure (ht.self hmark)) fun hmark => ?_
    have hrecur (t : Tree) (ht : t.MarksNormalForms σ) := ih ht
    rw [round_eq]
    refine Rewrite.Ends.bind (P := MarksNormalForms σ) ?_ fun first hfirst =>
      isNormalForm_converge hrecur maxRounds hfirst
    exact (marksNormalForms_normalizeChildren hrecur ht (Bool.eq_false_iff.2 hmark)).bind
      fun inner hinner => marksNormalForms_rules hinner.1

end Runs

/-- Where no root runs out of rounds, normalization gives a normal form; and it gives back that tree
from then on, also where no node is marked, whatever names are known then. -/
theorem normalize_settles (ht : t.MarksNormalForms σ) (hsettles : t.Settles σ supply)
    (h : t.normalize σ supply = .ok (u, supply')) :
    u.IsNormalForm σ ∧ ∀ v : Tree, v.same u = true → ∀ names, ∃ w names',
      v.normalize σ names = .ok (w, names') ∧ w.same u = true := by
  have hnormal : u.IsNormalForm σ :=
    (isNormalForm_convergeTo _ ht supply).returns _ (hsettles.trans h)
  refine ⟨hnormal, fun v hv names => ?_⟩
  have hsame := same_iff.1 hv
  obtain ⟨w, names', hw, hwv⟩ := normalize_of_isNormalForm (hnormal.of_unmarked_eq hsame.symm) names
  exact ⟨w, names', hw, same_iff.2 (hwv.trans hsame)⟩

/-- A filter moves below two constructions that merge, and the column that they shadow takes the name of
the one that is hidden. -/
theorem normalize_settles_of_constructs :
    let r : Relation := ⟨"r", [⟨"a", .integer, false⟩], []⟩
    let v : Variable := ⟨"v"⟩
    let y : Variable := ⟨"y"⟩
    let less : Expression := ⟨⟨.lt, 2⟩, [.var v, .var y], rfl⟩
    let t : Tree := filter false less
      (construct false (.ofList [v, y]) (.ofList [(y, .const (.integer 5))])
        (construct false (.ofList [v, y]) (.ofList [(v, .var y)])
          (leaf false (.extensional ⟨r, [.var y]⟩))))
    let supply : NameSupply := .ofKnown t.knownVars
    t.MarksNormalForms ⟨false⟩ ∧ t.Settles ⟨false⟩ supply ∧
      ∃ u names, t.normalize ⟨false⟩ supply = .ok (u, names) ∧ u.same t = false ∧
        ∀ names', ∃ w names'', u.unmarked.normalize ⟨false⟩ names' = .ok (w, names'') ∧
          w.same u = true := by
  intro r v y less t supply
  have hmarks : t.MarksNormalForms ⟨false⟩ := by
    have hunmarked : ∀ u ∈ t.nodes, u.isNormalized = false := by decide +kernel
    exact fun u hu hmark => absurd hmark (Bool.eq_false_iff.1 (hunmarked u hu))
  obtain ⟨⟨u, names⟩, hconverges, hchanged⟩ : ∃ p, convergeTo ⟨false⟩ (pushdown ⟨false⟩)
      t.pushdownDepth t supply = .ok p ∧ p.1.same t = false := by decide +kernel
  -- what is left holds of any tree whose rounds converge
  clear_value supply t
  have hsettles := settles_of_ok hconverges
  have hrun := normalize_of_convergeTo hconverges
  obtain ⟨-, hagain⟩ := normalize_settles hmarks hsettles hrun
  have hunmarked : u.unmarked.same u = true := same_iff.2 (unmarked_unmarked u)
  exact ⟨hmarks, hsettles, u, names, hrun, hchanged, hagain u.unmarked hunmarked⟩

/-- A chain of 34 variables runs out of rounds. Then the number of the last variable is in front of the
others, and behind them once the result is normalized again. -/
theorem not_normalize_settles :
    let r : Relation := ⟨"r", [⟨"a", .integer, false⟩], []⟩
    let a : Variable := ⟨"a"⟩
    let x : Nat → Variable := fun i => ⟨"x" ++ (if i < 10 then "0" else "") ++ toString i⟩
    let xs : List Variable := (List.range 34).map x
    let counts : Substitution := .ofList (xs.map fun x => (x, .app ⟨.count, 1⟩ [.var a]))
    let condition : Expression := .allOf (.hasNumber (x 0, 1) :: Expression.links xs)
    let t : Tree := filter false condition
      (aggregate false (.singleton a) counts (leaf false (.extensional ⟨r, [.var a]⟩)))
    t.validate = .ok () ∧ ∃ u names, t.normalize ⟨false⟩ (.ofKnown t.knownVars) = .ok (u, names) ∧
      ∀ names', ∃ w names'', u.unmarked.normalize ⟨false⟩ names' = .ok (w, names'') ∧
        w.same u = false := by
  intro r a x xs counts condition t
  have hvalid : ∀ u ∈ t.nodes, u.RootValid := by decide +kernel
  have hbound : ∀ x ∈ xs, x ∈ counts.domain := by decide +kernel
  let groups : Tree := aggregate false (.singleton a) counts (leaf false (.extensional ⟨r, [.var a]⟩))
  have hnormal : groups.IsNormalForm ⟨false⟩ := by
    have hrules : ∃ p, rules ⟨false⟩ (pushdown ⟨false⟩) groups (.ofKnown ∅) = .ok p ∧
        p.2.next = 0 ∧ p.1.same groups = true := by decide +kernel
    obtain ⟨⟨u, names⟩, hu, hnext, hsame⟩ := hrules
    refine isNormalForm_iff.2 ⟨isLeftAlone_of_rules hu hnext (same_iff.1 hsame), ?_⟩
    exact List.forall_mem_singleton.2 (isNormalForm_leaf _ _)
  let c : EqualityChain := .ofList xs (by decide +kernel) (by decide) (by decide)
  have hruns := normalize_chain_changes (c := c) (u := t) rfl hbound (by decide) hnormal rfl rfl
  exact ⟨validate_eq_ok.2 hvalid, hruns _⟩

end Tree

end QueryAlgebra
