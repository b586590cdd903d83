import QueryAlgebra.Optimizer
import QueryAlgebra.Proofs.AtomCount
import QueryAlgebra.Proofs.Rounds

/-!
# The optimizer comes to an end

Removing redundant atoms leaves a tree as it is or with fewer atoms (`Tree.Sparser`), and normalization
never adds one. After the first pass of the standard optimizer the query is marked as normalized, and
from then on a pass changes it only where atoms are removed. So there are at most two more passes than
the query has atoms, unless the limit comes first (`Optimizer.optimize_converges`).
-/

namespace QueryAlgebra

open QueryAlgebra.Except (Ends)

-- ---------------------------------------------------------------------------
-- Redundant atoms
-- ---------------------------------------------------------------------------

namespace Tree

variable {σ : BuildSettings} {demand : Demand} {t u : Tree} {ts us : List Tree}

/-- The second tree is the first one, whatever the marks are, or has fewer atoms. -/
def Sparser (t u : Tree) : Prop := u.unmarked = t.unmarked ∨ u.atomCount < t.atomCount

theorem Sparser.refl (t : Tree) : Sparser t t := .inl rfl

theorem Sparser.atomCount_le (h : Sparser t u) : u.atomCount ≤ t.atomCount := by
  rcases h with h | h
  · rw [← atomCount_unmarked u, h, atomCount_unmarked]
  · exact h.le

theorem atomCountOf_le_of_sparser (h : List.Forall₂ Sparser ts us) :
    atomCountOf us ≤ atomCountOf ts :=
  atomCountOf_le (h.imp fun _ _ => Sparser.atomCount_le)

theorem atomCountOf_lt_of_sparser (h : List.Forall₂ Sparser ts us)
    (hne : us.map unmarked ≠ ts.map unmarked) : atomCountOf us < atomCountOf ts := by
  induction h with
  | nil => exact absurd rfl hne
  | @cons t u ts us hsparser hrest ih =>
    rcases hsparser with hsame | hlt
    · have hcount := Sparser.atomCount_le (.inl hsame)
      have htail : us.map unmarked ≠ ts.map unmarked := fun h => hne (by
        rw [List.map_cons, List.map_cons, hsame, h])
      exact Nat.add_lt_add_of_le_of_lt hcount (ih htail)
    · exact Nat.add_lt_add_of_lt_of_le hlt (atomCountOf_le_of_sparser hrest)

theorem atomCountOf_children (h : t.isLeaf = false) : atomCountOf t.children = t.atomCount := by
  cases t with
  | leaf _ _ => cases h
  | _ => rfl

theorem sparser_rebuild (hleaf : t.isLeaf = false) (h : List.Forall₂ Sparser t.children us) :
    Ends (Sparser t) (fun _ => True) (rebuild σ t us) := by
  refine .ite (fun _ => .refl t) fun hchanged => ?_
  rw [sameAll_eq_true] at hchanged
  refine (within_withChildren le_rfl hleaf).imp fun v hv => .inr ?_
  rw [← atomCountOf_children hleaf]
  exact hv.trans_lt (atomCountOf_lt_of_sparser h hchanged)

/-- Removing atoms from a join leaves its children with fewer of them. -/
theorem atomCountOf_reduceJoin {before : List Tree} {parts : List (Tree × Demand)} :
    atomCountOf (reduceJoin before parts).children
        ≤ atomCountOf before + atomCountOf (parts.map (·.1)) ∧
      ((reduceJoin before parts).reduced = true →
        atomCountOf (reduceJoin before parts).children
          < atomCountOf before + atomCountOf (parts.map (·.1))) := by
  induction parts generalizing before with
  | nil => exact ⟨le_rfl, nofun⟩
  | cons part after ih =>
    obtain ⟨t, demand⟩ := part
    rw [reduceJoin, List.map_cons, atomCountOf]
    split
    · next hredundant =>
      have hatom : t.atomCount = 1 := by
        unfold isRedundantAmong at hredundant
        split at hredundant
        · rfl
        · cases hredundant
      have hrest := (@ih (before ++ [oneRow])).1
      have hunit : atomCountOf (before ++ [oneRow]) = atomCountOf before :=
        atomCountOf_append before [oneRow]
      dsimp only
      omega
    · have hrest := @ih (before ++ [t])
      have hkept : atomCountOf (before ++ [t]) = atomCountOf before + t.atomCount :=
        atomCountOf_append before [t]
      rw [hkept, Nat.add_assoc] at hrest
      exact hrest

theorem sparser_finishJoin {m : Bool} {condition? : Option Expression}
    (h : List.Forall₂ Sparser ts us) :
    Ends (Sparser (join m condition? ts)) (fun _ => True)
      (finishJoin σ (join m condition? ts) condition? (childDemands demand condition? ts) us) := by
  have hlength : us.length ≤ (childDemands demand condition? ts).length := by
    rw [childDemands, List.length_map, List.length_range, h.length_eq]
  have hfst : (us.zip (childDemands demand condition? ts)).map (·.1) = us :=
    List.map_fst_zip hlength
  refine .ite (fun hreduced => ?_) fun _ => sparser_rebuild rfl h
  have hfewer := (@atomCountOf_reduceJoin [] _).2 hreduced
  rw [hfst, atomCountOf, Nat.zero_add] at hfewer
  refine (BuildSettings.within_join le_rfl).imp fun v hv => .inr ?_
  exact (hv.trans_lt hfewer).trans_le (atomCountOf_le_of_sparser h)

theorem sparser_dropRedundantAtomsIn {demands : List Demand}
    (hlength : ts.length = demands.length)
    (h : ∀ t ∈ ts, ∀ demand, Ends (Sparser t) (fun _ => True) (dropRedundantAtoms σ demand t)) :
    Ends (List.Forall₂ Sparser ts) (fun _ => True) (dropRedundantAtomsIn σ ts demands) := by
  induction ts generalizing demands with
  | nil => cases demands <;> exact .nil
  | cons t ts ih =>
    rw [List.forall_mem_cons] at h
    cases demands with
    | nil => cases hlength
    | cons demand demands =>
      rw [dropRedundantAtomsIn]
      refine (h.1 demand).bind fun u hu => ?_
      exact (ih (Nat.succ.inj hlength) h.2).bind fun us hus => .cons hu hus

/-- Dropping redundant atoms changes nothing or leaves fewer atoms. -/
theorem sparser_dropRedundantAtoms (σ : BuildSettings) (demand : Demand) (t : Tree) :
    Ends (Sparser t) (fun _ => True) (dropRedundantAtoms σ demand t) := by
  induction t using inductionOn generalizing demand with
  | step t ih =>
    have hone {t child : Tree} (hleaf : t.isLeaf = false) (hchildren : t.children = [child])
        {demand : Demand}
        (h : Ends (Sparser child) (fun _ => True) (dropRedundantAtoms σ demand child)) :
        Ends (Sparser t) (fun _ => True)
          (do rebuild σ t [← dropRedundantAtoms σ demand child]) :=
      h.bind fun u hu => sparser_rebuild hleaf (hchildren ▸ .cons hu .nil)
    cases t with
    | construct m projected bindings child => exact hone rfl rfl (ih child (.head _) _)
    | filter m condition child => exact hone rfl rfl (ih child (.head _) _)
    | distinct m child => exact hone rfl rfl (ih child (.head _) _)
    | slice m window child => exact hone rfl rfl (ih child (.head _) _)
    | orderBy m keys child => exact hone rfl rfl (ih child (.head _) _)
    | aggregate m grouping bindings child => exact hone rfl rfl (ih child (.head _) _)
    | join m condition? ts =>
      have hlength : ts.length = (childDemands demand condition? ts).length := by
        rw [childDemands, List.length_map, List.length_range]
      refine (sparser_dropRedundantAtomsIn hlength fun t ht demand => ih t ht demand).bind ?_
      exact fun us => sparser_finishJoin
    | union m projected ts =>
      have hlength : ts.length = (ts.map fun _ => { demand with discarded := ∅ }).length := by
        rw [List.length_map]
      refine (sparser_dropRedundantAtomsIn hlength fun t ht demand => ih t ht demand).bind ?_
      exact fun us hus => sparser_rebuild rfl hus
    | leftJoin m condition? left right =>
      refine (ih left (.head _) _).bind fun left' hleft => ?_
      refine (ih right (.tail _ (.head _)) _).bind fun right' hright => ?_
      exact sparser_rebuild rfl (.cons hleft (.cons hright .nil))
    | leaf m l =>
      cases l with
      | native query => trivial
      | _ => exact .refl _

end Tree

-- ---------------------------------------------------------------------------
-- The rules
-- ---------------------------------------------------------------------------

/-- The mark of a normal form. -/
theorem Tree.isNormalized_of_normalize {σ : BuildSettings} {t u : Tree} {names rest : NameSupply}
    (h : normalize σ t names = .ok (u, rest)) : u.isNormalized = true := by
  cases hmark : t.isNormalized with
  | true =>
    rw [normalize_of_isNormalized hmark] at h
    cases h
    exact hmark
  | false =>
    obtain ⟨first, hfirst, k, hk, p, hrounds, hstops⟩ := (normalize_eq_ok hmark).1 h
    exact hstops.isNormalized

variable {σ : BuildSettings} {q r : Query}

namespace Query

theorem withTree_eq_ok {t : Tree} (h : q.withTree t = .ok r) :
    r.signature = q.signature ∧ r.tree = t := by
  unfold withTree make at h
  split at h
  · split at h
    · cases h
      exact ⟨rfl, rfl⟩
    · cases h
  · cases h

/-- A normalized query has the same signature, a marked tree and no more atoms. -/
structure Settled (q r : Query) : Prop where
  signature : r.signature = q.signature
  marked : r.tree.isNormalized = true
  atomCount_le : r.tree.atomCount ≤ q.tree.atomCount

theorem settled_of_normalize (h : q.normalize σ = .ok r) : Settled q r := by
  obtain ⟨⟨u, rest⟩, hu, hmake⟩ := Except.bind_eq_ok.1 h
  obtain ⟨hsignature, rfl⟩ := withTree_eq_ok hmake
  have hwithin := Tree.within_normalize σ q.tree q.nameSupply
  rw [hu] at hwithin
  exact ⟨hsignature, Tree.isNormalized_of_normalize hu, hwithin⟩

theorem same_refl (q : Query) : q.same q = true := by
  rw [same, decide_eq_true rfl, Bool.true_and, Tree.same_iff]

end Query

namespace Rule

/-- The normalization rule settles the query, and a query that is marked is left as it is. -/
theorem normalization_eq_ok {rewriting : Rewriting}
    (h : (normalization σ).apply q = .ok rewriting) :
    Query.Settled q rewriting.query ∧
      (q.tree.isNormalized = true → rewriting = ⟨q, false⟩) ∧
      (rewriting.changed = false → rewriting.query.same q = true) := by
  simp only [normalization] at h
  split at h
  · next hmark =>
    cases h
    exact ⟨⟨rfl, hmark, le_rfl⟩, fun _ => rfl, fun _ => q.same_refl⟩
  · next hmark =>
    obtain ⟨normalized, hnormalized, hok⟩ := Except.bind_eq_ok.1 h
    cases hok
    refine ⟨Query.settled_of_normalize hnormalized, fun h => absurd h hmark, fun hsame => ?_⟩
    simpa using hsame

/-- The self-join rule returns the query as it is, or settles it with fewer atoms. -/
theorem selfJoin_eq_ok {rewriting : Rewriting} (h : (selfJoin σ).apply q = .ok rewriting) :
    rewriting = ⟨q, false⟩ ∨
      rewriting.changed = true ∧ rewriting.query.tree.atomCount < q.tree.atomCount ∧
        Query.Settled q rewriting.query := by
  obtain ⟨tree, htree, hrest⟩ := Except.bind_eq_ok.1 h
  have hsparser := Tree.sparser_dropRedundantAtoms σ .everything q.tree
  rw [htree] at hsparser
  split at hrest
  · cases hrest
    exact .inl rfl
  · next hchanged =>
    obtain ⟨reduced, hreduced, hrest⟩ := Except.bind_eq_ok.1 hrest
    obtain ⟨normalized, hnormalized, hok⟩ := Except.bind_eq_ok.1 hrest
    cases hok
    obtain ⟨hsignature, rfl⟩ := Query.withTree_eq_ok hreduced
    have hsettled := Query.settled_of_normalize hnormalized
    have hfewer := hsparser.resolve_left fun hsame => hchanged (Tree.same_iff.2 hsame)
    have hcount := hsettled.atomCount_le.trans_lt hfewer
    exact .inr ⟨rfl, hcount, hsettled.signature.trans hsignature, hsettled.marked, hcount.le⟩

end Rule

-- ---------------------------------------------------------------------------
-- Passes
-- ---------------------------------------------------------------------------

namespace Optimizer

variable {o : Optimizer} {settings : OptimizationSettings} {a b c : Optimized} {n limit : Nat}

/-- So many passes, each of which changes something. -/
inductive ChangingPasses (o : Optimizer) : Nat → Optimized → Optimized → Prop where
  | none {a : Optimized} : ChangingPasses o 0 a a
  | more {n : Nat} {a b c : Optimized} (hpass : o.pass a = .ok b)
      (hchanged : b.rulesApplied ≠ a.rulesApplied) (hrest : ChangingPasses o n b c) :
      ChangingPasses o (n + 1) a c

theorem applyRule_eq_ok {rule : Rule} (h : o.applyRule a rule = .ok b) :
    ∃ rewriting, rule.apply a.query = .ok rewriting ∧ b.query = rewriting.query ∧
      b.rulesApplied = a.rulesApplied + (if rewriting.changed then 1 else 0) := by
  obtain ⟨rewriting, happly, hrest⟩ := Except.bind_eq_ok.1 h
  refine ⟨rewriting, happly, ?_⟩
  split at hrest
  · next hchanged =>
    cases hrest
    exact ⟨rfl, by rw [if_pos hchanged]⟩
  · next hchanged =>
    cases hrest
    exact ⟨rfl, by rw [if_neg hchanged, Nat.add_zero]⟩

/-- A pass normalizes the query and then removes redundant atoms from it. -/
theorem pass_standard : (standard σ settings).pass a = (do
    let first ← (standard σ settings).applyRule a (.normalization σ)
    let last ← (standard σ settings).applyRule first (.selfJoin σ)
    return { last with iterations := a.iterations + 1 }) := by
  simp [pass, standard]

/-- What a pass of the standard rules makes of a query. -/
structure PassSpec (σ : BuildSettings) (a b : Optimized) : Prop where
  iterations : b.iterations = a.iterations + 1
  settled : Query.Settled a.query b.query
  /-- On a marked query only the removal of atoms is a change. -/
  fewer : a.query.tree.isNormalized = true → b.rulesApplied ≠ a.rulesApplied →
    b.query.tree.atomCount < a.query.tree.atomCount
  same : b.rulesApplied = a.rulesApplied → b.query.same a.query = true
  /-- The self-join rule has nothing to do after a pass without changes. -/
  quiet : b.rulesApplied = a.rulesApplied → (Rule.selfJoin σ).apply b.query = .ok ⟨b.query, false⟩

theorem pass_eq_ok (h : (standard σ settings).pass a = .ok b) : PassSpec σ a b := by
  rw [pass_standard, Except.bind_eq_ok] at h
  obtain ⟨first, hfirst, h⟩ := h
  obtain ⟨last, hlast, hok⟩ := Except.bind_eq_ok.1 h
  cases hok
  obtain ⟨normalized, happly, hquery, hcount⟩ := applyRule_eq_ok hfirst
  obtain ⟨reduced, happly', hquery', hcount'⟩ := applyRule_eq_ok hlast
  obtain ⟨hsettled, hmarked, hsame⟩ := Rule.normalization_eq_ok happly
  rw [hquery] at happly'
  rcases Rule.selfJoin_eq_ok happly' with rfl | ⟨hchanged, hfewer, hsettled'⟩
  · -- the query is what normalization has made of it
    have hcount : last.rulesApplied = a.rulesApplied + if normalized.changed then 1 else 0 := by
      rw [hcount', hcount]
      rfl
    refine ⟨rfl, by rwa [hquery'], fun hmark hne => ?_, fun heq => ?_, fun _ => by rwa [hquery']⟩
    · rw [hmarked hmark] at hcount
      exact absurd hcount hne
    · have hunchanged : normalized.changed = false := by
        by_contra hchanged
        rw [if_pos (Bool.eq_true_of_not_eq_false hchanged)] at hcount
        have hsum : last.rulesApplied = a.rulesApplied := heq
        omega
      rw [hquery']
      exact hsame hunchanged
  · have hcount : a.rulesApplied < last.rulesApplied := by
      rw [hcount', hcount, if_pos hchanged]
      omega
    have hne : last.rulesApplied ≠ a.rulesApplied := hcount.ne'
    refine ⟨rfl, ?_, fun _ _ => ?_, fun heq => absurd heq hne, fun heq => absurd heq hne⟩
    · rw [hquery']
      exact ⟨hsettled'.signature.trans hsettled.signature, hsettled'.marked,
        hsettled'.atomCount_le.trans hsettled.atomCount_le⟩
    · rw [hquery']
      exact hfewer.trans_le hsettled.atomCount_le

/-- On a marked query in which no atom is redundant a pass changes nothing. -/
theorem pass_of_quiet (hmark : a.query.tree.isNormalized = true)
    (hquiet : (Rule.selfJoin σ).apply a.query = .ok ⟨a.query, false⟩) :
    (standard σ settings).pass a = .ok { a with iterations := a.iterations + 1 } := by
  have hnormalization : (Rule.normalization σ).apply a.query = .ok ⟨a.query, false⟩ := by
    simp only [Rule.normalization, if_pos hmark]
    rfl
  have hrule {rule : Rule} (h : rule.apply a.query = .ok ⟨a.query, false⟩) :
      (standard σ settings).applyRule a rule = .ok a := by
    rw [applyRule, h]
    rfl
  rw [pass_standard, hrule hnormalization]
  show (do
    let last ← (standard σ settings).applyRule a (.selfJoin σ)
    return { last with iterations := a.iterations + 1 }) = _
  rw [hrule hquiet]
  rfl

theorem ChangingPasses.spec (h : ChangingPasses (standard σ settings) n a b) :
    b.iterations = a.iterations + n ∧ b.query.signature = a.query.signature ∧
      b.query.tree.atomCount ≤ a.query.tree.atomCount := by
  induction h with
  | none => exact ⟨rfl, rfl, le_rfl⟩
  | more hpass hchanged hrest ih =>
    have hspec := pass_eq_ok hpass
    obtain ⟨hiterations, hsignature, hcount⟩ := ih
    refine ⟨?_, hsignature.trans hspec.settled.signature, hcount.trans hspec.settled.atomCount_le⟩
    rw [hiterations, hspec.iterations]
    omega

/-- From a marked query on, every pass but the last removes an atom. -/
theorem passes_of_marked (hmark : a.query.tree.isNormalized = true)
    (hlimit : a.query.tree.atomCount < limit)
    (h : (standard σ settings).passes limit a = .ok b) :
    ∃ k ≤ a.query.tree.atomCount, ∃ c, ChangingPasses (standard σ settings) k a c ∧
      (standard σ settings).pass c = .ok b ∧ b.rulesApplied = c.rulesApplied := by
  induction limit generalizing a with
  | zero => exact absurd hlimit (Nat.not_lt_zero _)
  | succ limit ih =>
    obtain ⟨next, hpass, hrest⟩ := Except.bind_eq_ok.1 h
    have hspec := pass_eq_ok hpass
    split at hrest
    · next hsame =>
      cases hrest
      exact ⟨0, Nat.zero_le _, a, .none, hpass, hsame⟩
    · next hchanged =>
      have hfewer := hspec.fewer hmark hchanged
      obtain ⟨k, hk, c, hpasses, hlast⟩ := ih hspec.settled.marked (by omega) hrest
      exact ⟨k + 1, by omega, c, .more hpass hchanged hpasses, hlast⟩

/-- The passes from any query on: the first one marks it. -/
theorem passes_of_limit (hlimit : a.query.tree.atomCount + 2 ≤ limit)
    (h : (standard σ settings).passes limit a = .ok b) :
    ∃ k ≤ a.query.tree.atomCount + 1, ∃ c, ChangingPasses (standard σ settings) k a c ∧
      (standard σ settings).pass c = .ok b ∧ b.rulesApplied = c.rulesApplied := by
  obtain ⟨limit, rfl⟩ := Nat.exists_eq_add_of_le' (Nat.le_of_add_left_le hlimit)
  obtain ⟨next, hpass, hrest⟩ := Except.bind_eq_ok.1 h
  have hspec := pass_eq_ok hpass
  split at hrest
  · next hsame =>
    cases hrest
    exact ⟨0, Nat.zero_le _, a, .none, hpass, hsame⟩
  · next hchanged =>
    have hcount := hspec.settled.atomCount_le
    obtain ⟨k, hk, c, hpasses, hlast⟩ := passes_of_marked hspec.settled.marked (by omega) hrest
    exact ⟨k + 1, by omega, c, .more hpass hchanged hpasses, hlast⟩

/-- With a limit of two passes more than the query has atoms, the standard optimizer stops at a pass
that changes nothing. The result has the signature of the query, no more atoms, and is returned as it
is by another run. On the way normalization adds no atom, and the self-join rule removes one whenever
it changes the query. -/
theorem optimize_converges {q : Query} {b : Optimized}
    (hlimit : q.tree.atomCount + 2 ≤ settings.maxIterations)
    (h : (standard σ settings).optimize q = .ok b) :
    (∃ k c, ChangingPasses (standard σ settings) k ⟨q, 0, 0, []⟩ c ∧
      (standard σ settings).pass c = .ok b ∧ b.rulesApplied = c.rulesApplied ∧
      b.query.same c.query = true ∧ b.iterations = k + 1) ∧
    b.iterations ≤ q.tree.atomCount + 2 ∧ b.query.signature = q.signature ∧
    b.query.tree.atomCount ≤ q.tree.atomCount ∧
    (standard σ settings).optimize b.query = .ok ⟨b.query, 1, 0, []⟩ ∧
    (∀ q r : Query, q.normalize σ = .ok r → r.tree.atomCount ≤ q.tree.atomCount) ∧
    ∀ (q : Query) (rewriting : Rewriting), (Rule.selfJoin σ).apply q = .ok rewriting →
      rewriting.changed = true → rewriting.query.tree.atomCount < q.tree.atomCount := by
  obtain ⟨k, hk, c, hpasses, hlast, hsame⟩ := passes_of_limit hlimit h
  obtain ⟨hiterations, hsignature, hcount⟩ := hpasses.spec
  have hspec := pass_eq_ok hlast
  have hiterations' : b.iterations = k + 1 := by
    rw [hspec.iterations, hiterations, Nat.zero_add]
  have hk' : k ≤ q.tree.atomCount + 1 := hk
  refine ⟨⟨k, c, hpasses, hlast, hsame, hspec.same hsame, hiterations'⟩, by omega,
    hspec.settled.signature.trans hsignature, hspec.settled.atomCount_le.trans hcount, ?_,
    fun q r h => (Query.settled_of_normalize h).atomCount_le, fun q rewriting happly hchanged => ?_⟩
  · -- a single pass over the result
    obtain ⟨limit, hmax⟩ := Nat.exists_eq_add_of_le' (Nat.le_of_add_left_le hlimit)
    have hpass : (standard σ settings).pass ⟨b.query, 0, 0, []⟩ = .ok ⟨b.query, 1, 0, []⟩ :=
      pass_of_quiet hspec.settled.marked (hspec.quiet hsame)
    rw [optimize]
    show (standard σ settings).passes settings.maxIterations _ = _
    rw [hmax, passes, hpass]
    rfl
  · rcases Rule.selfJoin_eq_ok happly with rfl | ⟨-, hfewer, -⟩
    · cases hchanged
    · exact hfewer

/-- Of two atoms below a DISTINCT one is redundant: the first pass removes it, the second one changes
nothing. -/
theorem optimize_converges_of_two_atoms :
    let visit : Relation := ⟨"visit", [⟨"who", .integer, true⟩, ⟨"place", .string, true⟩], []⟩
    let atom (x y : String) : Tree := .leaf false (.extensional ⟨visit, [.var ⟨x⟩, .var ⟨y⟩]⟩)
    let t : Tree := .distinct false (.construct false (.singleton ⟨"who"⟩) ∅
      (.join false none [atom "who" "p1", atom "who" "p2"]))
    ∃ q b, q.tree = t ∧ (standard ⟨false⟩ {}).optimize q = .ok b ∧ q.tree.atomCount = 2 ∧
      b.query.tree.atomCount ≤ 2 ∧ b.iterations ≤ 4 ∧ b.rulesApplied = 1 ∧
      (standard ⟨false⟩ {}).optimize b.query = .ok ⟨b.query, 1, 0, []⟩ := by
  intro visit atom t
  let q : Query := ⟨[⟨"who"⟩], t, by decide, by decide +kernel⟩
  have hrun : ((standard ⟨false⟩ {}).optimize q).toOption.map (·.rulesApplied) = some 1 := by
    decide +kernel
  obtain ⟨b, hb, hcount⟩ := Option.map_eq_some_iff.1 hrun
  have hok : (standard ⟨false⟩ {}).optimize q = .ok b := by
    cases h : (standard ⟨false⟩ {}).optimize q with
    | error e => rw [h] at hb; cases hb
    | ok a => rw [h] at hb; cases hb; rfl
  obtain ⟨-, hiterations, -, hatoms, hagain, -⟩ := optimize_converges (by decide +kernel) hok
  exact ⟨q, b, rfl, hok, rfl, hatoms, hiterations, hcount, hagain⟩

end Optimizer

end QueryAlgebra
