import Mathlib.Data.List.Perm.Basic
import QueryAlgebra.Proofs.Database

/-!
# Rows as bags and as sets

Two lists of rows are `Alike` when they hold the same rows, each as often where occurrences count.
The operators on rows keep lists alike, and they commute with cutting rows down to some variables,
as long as the operator itself only looks at those (`Row.map_cut_joinPairs`,
`Source.map_cut_leftJoined`, `Source.aggregated_perm`).

Main statements: `Source.aggregated_perm` — the groups depend on the bag of what is grouped and
aggregated; `Tree.joinRows_perm` — the order of the operands of a join does not matter.
-/

namespace QueryAlgebra

-- ---------------------------------------------------------------------------
-- Alike lists
-- ---------------------------------------------------------------------------

/-- The lists have the same members; unless only the set of them matters, each as often. -/
def Alike {α : Type} : (setOnly : Bool) → List α → List α → Prop
  | true, l, m => ∀ a, a ∈ l ↔ a ∈ m
  | false, l, m => l.Perm m

namespace Alike

variable {α β : Type} {b : Bool} {l m k : List α}

theorem refl (b : Bool) (l : List α) : Alike b l l := by
  cases b
  · exact List.Perm.refl l
  · exact fun _ => Iff.rfl

theorem of_perm (h : l.Perm m) : Alike b l m := by
  cases b
  · exact h
  · exact fun _ => h.mem_iff

theorem symm (h : Alike b l m) : Alike b m l := by
  cases b
  · exact List.Perm.symm h
  · exact fun a => (h a).symm

theorem trans (h : Alike b l m) (h' : Alike b m k) : Alike b l k := by
  cases b
  · exact List.Perm.trans h h'
  · exact fun a => (h a).trans (h' a)

theorem mem_iff (h : Alike b l m) {a : α} : a ∈ l ↔ a ∈ m := by
  cases b
  · exact List.Perm.mem_iff h
  · exact h a

/-- If occurrences count, they also do not count. -/
theorem toSet (h : Alike b l m) : Alike true l m := fun _ => h.mem_iff

theorem isEmpty_eq (h : Alike b l m) : l.isEmpty = m.isEmpty := by
  rw [Bool.eq_iff_iff, List.isEmpty_iff, List.isEmpty_iff, List.eq_nil_iff_forall_not_mem,
    List.eq_nil_iff_forall_not_mem]
  exact forall_congr' fun a => not_congr h.mem_iff

theorem map (h : Alike b l m) (f : α → β) : Alike b (l.map f) (m.map f) := by
  cases b
  · exact List.Perm.map f h
  · intro c
    rw [List.mem_map, List.mem_map]
    exact exists_congr fun a => and_congr_left fun _ => h a

theorem filter (h : Alike b l m) (p : α → Bool) : Alike b (l.filter p) (m.filter p) := by
  cases b
  · exact List.Perm.filter p h
  · intro a
    rw [List.mem_filter, List.mem_filter]
    exact and_congr_left fun _ => h a

theorem flatMap (h : Alike b l m) {f g : α → List β} (hfg : ∀ a ∈ l, Alike b (f a) (g a)) :
    Alike b (l.flatMap f) (m.flatMap g) := by
  cases b
  · exact List.Perm.flatMap h hfg
  · intro c
    rw [List.mem_flatMap, List.mem_flatMap]
    constructor
    · rintro ⟨a, ha, hc⟩
      exact ⟨a, (h a).1 ha, (hfg a ha c).1 hc⟩
    · rintro ⟨a, ha, hc⟩
      exact ⟨a, (h a).2 ha, (hfg a ((h a).2 ha) c).2 hc⟩

theorem append {l' m' : List α} (h : Alike b l m) (h' : Alike b l' m') :
    Alike b (l ++ l') (m ++ m') := by
  cases b
  · exact List.Perm.append h h'
  · intro a
    rw [List.mem_append, List.mem_append]
    exact or_congr (h a) (h' a)

end Alike

/-- Two loops may be swapped. -/
theorem flatMap_swap_perm {α β γ : Type} (l : List α) (m : List β) (f : α → β → List γ) :
    (l.flatMap fun a => m.flatMap (f a)).Perm (m.flatMap fun b => l.flatMap fun a => f a b) := by
  induction l with
  | nil => simp
  | cons a l ih =>
    simp only [List.flatMap_cons]
    exact (ih.append_left _).trans (List.flatMap_append_perm m (f a) _)

theorem map_filter_eq_flatMap {α β : Type} (l : List α) (p : α → Bool) (f : α → β) :
    (l.filter p).map f = l.flatMap fun a => if p a then [f a] else [] := by
  induction l with
  | nil => rfl
  | cons a l ih =>
    rw [List.filter_cons, List.flatMap_cons, ← ih]
    split <;> rfl

/-- A loop that yields one value at most yields it for those elements for which it yields any. -/
theorem flatMap_alike_map_filter {α β : Type} {b : Bool} {l : List α} {f : α → List β} {g : α → β}
    {p : α → Bool} (hvalue : ∀ a ∈ l, ∀ c ∈ f a, c = g a)
    (honce : b = false → ∀ a ∈ l, (f a).length ≤ 1) (hany : ∀ a ∈ l, f a ≠ [] ↔ p a = true) :
    Alike b (l.flatMap f) ((l.filter p).map g) := by
  rw [map_filter_eq_flatMap]
  refine (Alike.refl b l).flatMap fun a ha => ?_
  match hf : f a with
  | [] =>
    rw [if_neg fun hp => (hany a ha).2 hp hf]
    exact .refl b _
  | c :: cs =>
    rw [if_pos ((hany a ha).1 (by simp [hf]))]
    have hall : ∀ d ∈ c :: cs, d = g a := fun d hd => hvalue a ha d (hf ▸ hd)
    cases b with
    | true =>
      intro d
      rw [List.mem_singleton]
      exact ⟨hall d, fun hd => hd ▸ hall c (.head _) ▸ .head _⟩
    | false =>
      have hlength := honce rfl a ha
      rw [hf, List.length_cons] at hlength
      rw [List.length_eq_zero_iff.1 (Nat.le_zero.1 (Nat.le_of_succ_le_succ hlength)),
        hall c (.head _)]
      exact .refl false _

-- ---------------------------------------------------------------------------
-- Rows cut down to some variables
-- ---------------------------------------------------------------------------

namespace Row

variable {xs ys zs kept : VarSet} {ρ σ ν : Row}

theorem cut_of_supported (h : ρ.Supported xs) (hxs : xs ⊆ kept) : cut kept ρ = ρ := by
  funext x
  by_cases hx : x ∈ kept
  · exact if_pos hx
  · rw [cut, if_neg hx, h x fun hmem => hx (hxs x hmem)]

theorem cut_cut (h : xs ⊆ ys) : cut xs (cut ys ρ) = cut xs ρ := by
  funext x
  unfold cut
  split
  · next hx => exact if_pos (h x hx)
  · rfl

theorem map_cut_map_cut (h : xs ⊆ ys) (rows : List Row) :
    (rows.map (cut ys)).map (cut xs) = rows.map (cut xs) := by
  rw [List.map_map]
  exact List.map_congr_left fun ρ _ => cut_cut h

theorem cut_merge : cut kept (merge xs ρ σ) = merge (xs ∩ kept) (cut kept ρ) (cut kept σ) := by
  funext x
  by_cases hx : x ∈ kept <;> by_cases hxs : x ∈ xs <;> simp [cut, merge, hx, hxs]

/-- Cutting down first is no loss where only variables that are kept can have a value. -/
theorem cut_cut_of_supported (hρ : ρ.Supported xs) (h : ∀ x ∈ xs, x ∈ ys → x ∈ kept) :
    cut ys (cut kept ρ) = cut ys ρ := by
  funext x
  unfold cut
  split
  · next hy =>
    split
    · rfl
    · next hkept => exact (hρ x fun hx => hkept (h x hx hy)).symm
  · rfl

theorem map_cut_filter {p : Row → Bool} (h : ∀ ρ, p (cut kept ρ) = p ρ) (rows : List Row) :
    (rows.filter p).map (cut kept) = (rows.map (cut kept)).filter p := by
  rw [List.filter_map]
  congr 1
  exact List.filter_congr fun ρ _ => (h ρ).symm

/-- Filtering keeps lists alike as far as they are when the filter looks at no more than that. -/
theorem filter_alike {b : Bool} {p : Row → Bool} {rows rows' : List Row}
    (h : Alike b (rows.map (cut kept)) (rows'.map (cut kept))) (hp : ∀ ρ, p (cut kept ρ) = p ρ)
    (hxs : xs ⊆ kept) :
    Alike b ((rows.filter p).map (cut xs)) ((rows'.filter p).map (cut xs)) := by
  have hcut (rows : List Row) :
      (rows.filter p).map (cut xs) = ((rows.map (cut kept)).filter p).map (cut xs) := by
    rw [← map_cut_filter hp, map_cut_map_cut hxs]
  rw [hcut rows, hcut rows']
  exact (h.filter p).map _

/-- Only the shared variables are compared. -/
theorem joins_cut (h : ∀ x ∈ xs, x ∈ ys → x ∈ kept) :
    Joins (xs ∩ kept) (ys ∩ kept) (cut kept ρ) (cut kept σ) ↔ Joins xs ys ρ σ := by
  constructor
  · intro hjoins x hx hy
    have hkept := h x hx hy
    have hx' := hjoins x (SortedSet.mem_inter.2 ⟨hx, hkept⟩) (SortedSet.mem_inter.2 ⟨hy, hkept⟩)
    simpa [cut, hkept] using hx'
  · intro hjoins x hx hy
    obtain ⟨hx, hkept⟩ := SortedSet.mem_inter.1 hx
    simpa [cut, hkept] using hjoins x hx (SortedSet.mem_inter.1 hy).1

theorem map_cut_joinedWith (h : ∀ x ∈ xs, x ∈ ys → x ∈ kept) (rows : List Row) :
    (joinedWith xs ys rows ρ).map (cut kept)
      = joinedWith (xs ∩ kept) (ys ∩ kept) (rows.map (cut kept)) (cut kept ρ) := by
  simp only [joinedWith, List.map_map, List.filter_map]
  have hjoins (σ : Row) : decide (Joins xs ys ρ σ)
      = decide (Joins (xs ∩ kept) (ys ∩ kept) (cut kept ρ) (cut kept σ)) :=
    decide_eq_decide.2 (joins_cut h).symm
  rw [List.filter_congr fun σ _ => hjoins σ]
  exact List.map_congr_left fun σ _ => cut_merge

theorem map_cut_joinPairs (h : ∀ x ∈ xs, x ∈ ys → x ∈ kept) (rows rows' : List Row) :
    (joinPairs xs ys rows rows').map (cut kept)
      = joinPairs (xs ∩ kept) (ys ∩ kept) (rows.map (cut kept)) (rows'.map (cut kept)) := by
  rw [joinPairs, joinPairs, List.map_flatMap, List.flatMap_map]
  exact List.flatMap_congr fun ρ _ => map_cut_joinedWith h rows'

theorem joinedWith_alike {b : Bool} {rows rows' : List Row} (h : Alike b rows rows') (ρ : Row) :
    Alike b (joinedWith xs ys rows ρ) (joinedWith xs ys rows' ρ) := (h.filter _).map _

theorem joinPairs_alike {b : Bool} {rows rows' rows₁ rows₁' : List Row} (h : Alike b rows rows')
    (h₁ : Alike b rows₁ rows₁') :
    Alike b (joinPairs xs ys rows rows₁) (joinPairs xs ys rows' rows₁') :=
  h.flatMap fun ρ _ => joinedWith_alike h₁ ρ

/-- The rows of the second operand may be gone through first. -/
theorem joinPairs_perm_flatMap (rows rows' : List Row) :
    (joinPairs xs ys rows rows').Perm (rows'.flatMap fun σ =>
      (rows.filter fun ρ => Joins xs ys ρ σ).map fun ρ => merge xs ρ σ) := by
  have hrow (ρ : Row) : joinedWith xs ys rows' ρ
      = rows'.flatMap fun σ => if decide (Joins xs ys ρ σ) then [merge xs ρ σ] else [] :=
    map_filter_eq_flatMap rows' _ _
  rw [joinPairs, List.flatMap_congr fun ρ _ => hrow ρ]
  simp only [map_filter_eq_flatMap]
  exact flatMap_swap_perm _ _ _

-- ---------------------------------------------------------------------------
-- Three operands
-- ---------------------------------------------------------------------------

theorem joins_comm : Joins xs ys ρ σ ↔ Joins ys xs σ ρ := by
  have hone {xs ys : VarSet} {ρ σ : Row} (h : Joins xs ys ρ σ) : Joins ys xs σ ρ := by
    intro x hy hx
    obtain ⟨he, hne⟩ := h x hx hy
    exact ⟨he.symm, he ▸ hne⟩
  exact ⟨hone, hone⟩

/-- A row joins a joined row exactly when it joins both parts. -/
theorem joins_merge (h : Joins ys zs σ ν) :
    Joins xs (ys ∪ zs) ρ (merge ys σ ν) ↔ Joins xs ys ρ σ ∧ Joins xs zs ρ ν := by
  constructor
  · intro hjoins
    constructor
    · intro x hx hy
      have hxy := hjoins x hx (SortedSet.mem_union.2 (.inl hy))
      rwa [merge_left hy] at hxy
    · intro x hx hz
      have hxz := hjoins x hx (SortedSet.mem_union.2 (.inr hz))
      rwa [h.merge_right hz] at hxz
  · rintro ⟨hy, hz⟩ x hx hyz
    by_cases hxy : x ∈ ys
    · rw [merge_left hxy]
      exact hy x hx hxy
    · rw [merge, if_neg hxy]
      exact hz x hx ((SortedSet.mem_union.1 hyz).resolve_left hxy)

/-- The rows of three operands that join each other. -/
def joinedTriple (xs ys zs : VarSet) (rows : List Row) (ρ σ : Row) : List Row :=
  (rows.filter fun ν => Joins xs ys ρ σ ∧ Joins xs zs ρ ν ∧ Joins ys zs σ ν).map fun ν =>
    merge xs ρ (merge ys σ ν)

theorem joinPairs_joinPairs (rows₁ rows₂ rows₃ : List Row) :
    joinPairs xs (ys ∪ zs) rows₁ (joinPairs ys zs rows₂ rows₃)
      = rows₁.flatMap fun ρ => rows₂.flatMap fun σ => joinedTriple xs ys zs rows₃ ρ σ := by
  apply List.flatMap_congr
  intro ρ _
  rw [joinedWith, joinPairs, List.filter_flatMap, List.map_flatMap]
  apply List.flatMap_congr
  intro σ _
  rw [joinedWith, List.filter_map, List.map_map, List.filter_filter, joinedTriple]
  congr 1
  apply List.filter_congr
  intro ν _
  show (decide (Joins xs (ys ∪ zs) ρ (merge ys σ ν)) && decide (Joins ys zs σ ν)) = _
  rw [← Bool.decide_and, decide_eq_decide]
  constructor
  · rintro ⟨h, hyz⟩
    exact ⟨((joins_merge hyz).1 h).1, ((joins_merge hyz).1 h).2, hyz⟩
  · rintro ⟨hxy, hxz, hyz⟩
    exact ⟨(joins_merge hyz).2 ⟨hxy, hxz⟩, hyz⟩

theorem joinedTriple_swap (rows : List Row) (ρ σ : Row) :
    joinedTriple xs ys zs rows ρ σ = joinedTriple ys xs zs rows σ ρ := by
  unfold joinedTriple
  have hfilter : rows.filter (fun ν => Joins xs ys ρ σ ∧ Joins xs zs ρ ν ∧ Joins ys zs σ ν)
      = rows.filter (fun ν => Joins ys xs σ ρ ∧ Joins ys zs σ ν ∧ Joins xs zs ρ ν) := by
    apply List.filter_congr
    intro ν _
    rw [decide_eq_decide]
    exact and_congr joins_comm and_comm
  rw [hfilter]
  apply List.map_congr_left
  intro ν hν
  obtain ⟨hjoins, -, -⟩ := of_decide_eq_true (List.mem_filter.1 hν).2
  funext x
  by_cases hx : x ∈ xs <;> by_cases hy : x ∈ ys <;> simp only [merge, hx, hy, if_true, if_false]
  exact (hjoins x hy hx).1.symm

theorem merge_merge : merge (xs ∪ ys) (merge xs ρ σ) ν = merge xs ρ (merge ys σ ν) := by
  funext x
  by_cases hx : x ∈ xs <;> by_cases hy : x ∈ ys <;> simp [merge, hx, hy]

/-- What two rows that join each other match among the third ones. -/
theorem joinedWith_merge (h : Joins xs ys ρ σ) (rows : List Row) :
    joinedWith (xs ∪ ys) zs rows (merge xs ρ σ) = joinedTriple xs ys zs rows ρ σ := by
  unfold joinedWith joinedTriple
  have hfilter : rows.filter (fun ν => Joins (xs ∪ ys) zs (merge xs ρ σ) ν)
      = rows.filter (fun ν => Joins xs ys ρ σ ∧ Joins xs zs ρ ν ∧ Joins ys zs σ ν) := by
    refine List.filter_congr fun ν _ => decide_eq_decide.2 ?_
    rw [joins_comm, joins_merge h, and_iff_right h]
    exact and_congr joins_comm joins_comm
  rw [hfilter]
  exact List.map_congr_left fun ν _ => merge_merge

/-- It does not matter which two operands are joined first. -/
theorem joinPairs_assoc (rows₁ rows₂ rows₃ : List Row) :
    joinPairs (xs ∪ ys) zs (joinPairs xs ys rows₁ rows₂) rows₃
      = joinPairs xs (ys ∪ zs) rows₁ (joinPairs ys zs rows₂ rows₃) := by
  rw [joinPairs_joinPairs, joinPairs, joinPairs, List.flatMap_assoc]
  refine List.flatMap_congr fun ρ _ => ?_
  rw [joinedWith, map_filter_eq_flatMap, List.flatMap_assoc]
  refine List.flatMap_congr fun σ _ => ?_
  split
  · next hjoins => rw [List.flatMap_singleton, joinedWith_merge (of_decide_eq_true hjoins)]
  · next hjoins =>
    have hnone : joinedTriple xs ys zs rows₃ ρ σ = [] := by
      rw [joinedTriple, List.map_eq_nil_iff, List.filter_eq_nil_iff]
      exact fun ν _ hν => hjoins (decide_eq_true (of_decide_eq_true hν).1)
    rw [hnone, List.flatMap_nil]

/-- The row without columns joins every row. -/
theorem blank_joinPairs (rows : List Row) : joinPairs ∅ ys [.blank] rows = rows := by
  have hjoins (σ : Row) : Joins ∅ ys .blank σ := fun x hx _ => absurd hx List.not_mem_nil
  have hmerge : merge ∅ .blank = id := by
    funext σ x
    exact if_neg List.not_mem_nil
  rw [joinPairs, List.flatMap_singleton, joinedWith, hmerge, List.map_id, List.filter_eq_self]
  exact fun σ _ => decide_eq_true (hjoins σ)

/-- Tests of one operand each may be made before the operands are joined. -/
theorem filter_joinPairs {p q : Row → Bool} (hp : ∀ ρ σ, AgreeOn xs ρ σ → p ρ = p σ)
    (hq : ∀ ρ σ, AgreeOn ys ρ σ → q ρ = q σ) (rows rows' : List Row) :
    (joinPairs xs ys rows rows').filter (fun τ => p τ && q τ)
      = joinPairs xs ys (rows.filter p) (rows'.filter q) := by
  have hrow (ρ : Row) : (joinedWith xs ys rows' ρ).filter (fun τ => p τ && q τ)
      = if p ρ then joinedWith xs ys (rows'.filter q) ρ else [] := by
    have htests : ∀ σ ∈ rows'.filter fun σ => Joins xs ys ρ σ,
        ((fun τ => p τ && q τ) ∘ merge xs ρ) σ = (p ρ && q σ) := by
      intro σ hσ
      have hjoins := of_decide_eq_true (List.mem_filter.1 hσ).2
      rw [Function.comp_apply, hp (merge xs ρ σ) ρ fun x hx => merge_left hx,
        hq (merge xs ρ σ) σ fun x hx => hjoins.merge_right hx]
    rw [joinedWith, List.filter_map, List.filter_congr htests, joinedWith]
    cases p ρ with
    | false => simp
    | true =>
      simp only [Bool.true_and, if_true, List.filter_filter]
      rw [List.filter_congr fun σ _ => Bool.and_comm (q σ) _]
  rw [joinPairs, joinPairs, List.filter_flatMap, List.flatMap_congr fun ρ _ => hrow ρ]
  induction rows with
  | nil => rfl
  | cons ρ rows ih =>
    rw [List.flatMap_cons, List.filter_cons, ih]
    split <;> rfl

end Row

-- ---------------------------------------------------------------------------
-- Each row once
-- ---------------------------------------------------------------------------

namespace Row

variable {xs : VarSet} {ρ σ ν : Row}

theorem AgreeOn.symm (h : AgreeOn xs ρ σ) : AgreeOn xs σ ρ := fun x hx => (h x hx).symm

theorem AgreeOn.trans (h : AgreeOn xs ρ σ) (h' : AgreeOn xs σ ν) : AgreeOn xs ρ ν :=
  fun x hx => (h x hx).trans (h' x hx)

theorem agreeOn_cut : AgreeOn xs (cut xs ρ) ρ := fun _ hx => if_pos hx

theorem cut_eq_cut_iff : cut xs ρ = cut xs σ ↔ AgreeOn xs ρ σ := by
  constructor
  · intro h
    exact agreeOn_cut.symm.trans (h ▸ agreeOn_cut)
  · intro h
    apply supported_cut.ext supported_cut
    exact (agreeOn_cut.trans h).trans agreeOn_cut.symm

/-- Each row has one like it that is kept. -/
theorem exists_mem_distinct {rows : List Row} (h : ρ ∈ rows) :
    ∃ σ ∈ distinct xs rows, AgreeOn xs ρ σ := by
  by_contra hnone
  push Not at hnone
  have hall := (List.forall_mem_pwFilter (R := fun ρ σ => ¬AgreeOn xs ρ σ)
    (fun {x y z} hxz => by
      by_contra hboth
      push Not at hboth
      exact hxz (hboth.1.trans hboth.2)) ρ rows).1 hnone
  exact hall ρ h fun _ _ => rfl

theorem nodup_map_cut_distinct (rows : List Row) : ((distinct xs rows).map (cut xs)).Nodup := by
  refine List.Pairwise.map _ ?_ (List.pairwise_pwFilter (R := fun ρ σ => ¬AgreeOn xs ρ σ) rows)
  intro ρ σ h he
  exact h (cut_eq_cut_iff.1 he)

theorem mem_map_cut_distinct {rows : List Row} :
    ν ∈ (distinct xs rows).map (cut xs) ↔ ν ∈ rows.map (cut xs) := by
  rw [List.mem_map, List.mem_map]
  constructor
  · rintro ⟨ρ, hρ, rfl⟩
    exact ⟨ρ, mem_of_mem_distinct hρ, rfl⟩
  · rintro ⟨ρ, hρ, rfl⟩
    obtain ⟨σ, hσ, hagree⟩ := exists_mem_distinct hρ
    exact ⟨σ, hσ, cut_eq_cut_iff.2 hagree.symm⟩

theorem nodup_distinct (rows : List Row) : (distinct xs rows).Nodup :=
  .of_map _ (nodup_map_cut_distinct rows)

/-- Rows over the variables that are compared only lose repetitions. -/
theorem mem_distinct {rows : List Row} (hrows : ∀ ρ ∈ rows, ρ.Supported xs) :
    ρ ∈ distinct xs rows ↔ ρ ∈ rows := by
  refine ⟨mem_of_mem_distinct, fun hρ => ?_⟩
  obtain ⟨σ, hσ, hagree⟩ := exists_mem_distinct hρ
  rwa [(hrows ρ hρ).ext (hrows σ (mem_of_mem_distinct hσ)) hagree]

/-- Which rows there are determines the rows that are there once. -/
theorem distinct_perm {rows rows' : List Row}
    (h : Alike true (rows.map (cut xs)) (rows'.map (cut xs))) :
    ((distinct xs rows).map (cut xs)).Perm ((distinct xs rows').map (cut xs)) := by
  rw [List.perm_ext_iff_of_nodup (nodup_map_cut_distinct rows) (nodup_map_cut_distinct rows')]
  intro ν
  rw [mem_map_cut_distinct, mem_map_cut_distinct]
  exact h ν

end Row

-- ---------------------------------------------------------------------------
-- Left joins and groups
-- ---------------------------------------------------------------------------

namespace Source

variable {D : Source} {xs ys kept grouping : VarSet} {condition? : Option Expression}
  {bindings : Substitution}

theorem holdsOptional_cut (h : Tree.conditionVars condition? ⊆ kept) (ρ : Row) :
    D.HoldsOptional (Row.cut kept ρ) condition? ↔ D.HoldsOptional ρ condition? := by
  cases condition? with
  | none => simp
  | some e =>
    rw [Interpretation.holdsOptional_some, Interpretation.holdsOptional_some]
    exact Interpretation.holds_congr fun x hx => if_pos (h x hx)

theorem map_cut_leftJoined (hshared : ∀ x ∈ xs, x ∈ ys → x ∈ kept)
    (hcondition : Tree.conditionVars condition? ⊆ kept) (rows : List Row) (ρ : Row) :
    (D.leftJoined xs ys condition? rows ρ).map (Row.cut kept)
      = D.leftJoined (xs ∩ kept) (ys ∩ kept) condition? (rows.map (Row.cut kept))
          (Row.cut kept ρ) := by
  have hjoined : ((Row.joinedWith xs ys rows ρ).filter fun σ => D.HoldsOptional σ condition?).map
        (Row.cut kept)
      = (Row.joinedWith (xs ∩ kept) (ys ∩ kept) (rows.map (Row.cut kept))
          (Row.cut kept ρ)).filter fun σ => D.HoldsOptional σ condition? := by
    rw [← Row.map_cut_joinedWith hshared]
    exact Row.map_cut_filter (fun σ => decide_eq_decide.2 (holdsOptional_cut hcondition σ)) _
  unfold leftJoined
  dsimp only
  rw [← hjoined, List.isEmpty_map]
  split
  · rfl
  · rfl

theorem leftJoined_alike {b : Bool} {rows rows' : List Row} (h : Alike b rows rows') (ρ : Row) :
    Alike b (D.leftJoined xs ys condition? rows ρ) (D.leftJoined xs ys condition? rows' ρ) := by
  have hjoined : Alike b
      ((Row.joinedWith xs ys rows ρ).filter fun σ => D.HoldsOptional σ condition?)
      ((Row.joinedWith xs ys rows' ρ).filter fun σ => D.HoldsOptional σ condition?) :=
    (Row.joinedWith_alike h ρ).filter _
  unfold leftJoined
  dsimp only
  rw [hjoined.isEmpty_eq]
  split
  · exact .refl b _
  · exact hjoined

theorem aggregateOver_perm {f : Symbol} {rows rows' : List (List Constant)} (h : rows.Perm rows') :
    D.aggregateOver f rows = D.aggregateOver f rows' := by
  have hcounted := h.filter fun vs => decide (.null ∉ vs)
  unfold Interpretation.aggregateOver
  dsimp only
  rw [hcounted.length_eq, D.aggregate_perm f _ _ hcounted]

/-- A group only has its grouping variables and what its bindings use. -/
theorem groupRow_congr {ρ σ : Row} {members members' : List Row}
    (hbindings : bindings.rangeVars ⊆ kept) (hagree : Row.AgreeOn grouping ρ σ)
    (hmembers : (members.map (Row.cut kept)).Perm (members'.map (Row.cut kept))) :
    D.groupRow grouping bindings ρ members = D.groupRow grouping bindings σ members' := by
  funext x
  unfold groupRow
  split
  · next hx => exact hagree x hx
  · cases hfind : bindings.find? x with
    | none => rfl
    | some t =>
      cases t with
      | var | const => rfl
      | app f args =>
        apply aggregateOver_perm
        have hargs (members : List Row) : members.map (fun σ => args.map (D.eval σ))
            = (members.map (Row.cut kept)).map fun σ => args.map (D.eval σ) := by
          rw [List.map_map]
          apply List.map_congr_left
          intro σ _
          apply List.map_congr_left
          intro t ht
          apply Interpretation.eval_congr
          intro y hy
          have hrange : y ∈ bindings.rangeVars :=
            Substitution.mem_rangeVars.2 ⟨x, _, hfind, Term.mem_vars_app.2 ⟨t, ht, hy⟩⟩
          exact (if_pos (hbindings y hrange)).symm
        rw [hargs members, hargs members']
        exact hmembers.map _

theorem aggregated_perm {rows rows' : List Row} (hgrouping : grouping ⊆ kept)
    (hbindings : bindings.rangeVars ⊆ kept)
    (h : (rows.map (Row.cut kept)).Perm (rows'.map (Row.cut kept))) :
    (D.aggregated grouping bindings rows).Perm (D.aggregated grouping bindings rows') := by
  -- a group is known by its grouping variables
  have hkeys (rows : List Row) :
      (Row.distinct grouping rows).map (fun ρ =>
        D.groupRow grouping bindings ρ (rows.filter fun σ => Row.AgreeOn grouping ρ σ))
      = ((Row.distinct grouping rows).map (Row.cut grouping)).map fun ρ =>
        D.groupRow grouping bindings ρ (rows.filter fun σ => Row.AgreeOn grouping ρ σ) := by
    rw [List.map_map]
    apply List.map_congr_left
    intro ρ _
    have hmembers : rows.filter (fun σ => Row.AgreeOn grouping ρ σ)
        = rows.filter fun σ => Row.AgreeOn grouping (Row.cut grouping ρ) σ := by
      apply List.filter_congr
      intro σ _
      rw [decide_eq_decide]
      exact ⟨fun h => Row.agreeOn_cut.trans h, fun h => Row.agreeOn_cut.symm.trans h⟩
    show D.groupRow _ _ _ _ = D.groupRow _ _ _ _
    rw [hmembers]
    exact groupRow_congr hbindings Row.agreeOn_cut.symm (.refl _)
  have hmembers (ρ : Row) :
      ((rows.filter fun σ => Row.AgreeOn grouping ρ σ).map (Row.cut kept)).Perm
        ((rows'.filter fun σ => Row.AgreeOn grouping ρ σ).map (Row.cut kept)) := by
    have hfilter (rows : List Row) :
        (rows.filter fun σ => Row.AgreeOn grouping ρ σ).map (Row.cut kept)
          = (rows.map (Row.cut kept)).filter fun σ => Row.AgreeOn grouping ρ σ := by
      apply Row.map_cut_filter
      intro σ
      rw [decide_eq_decide]
      have hcut : Row.AgreeOn grouping (Row.cut kept σ) σ := fun x hx => if_pos (hgrouping x hx)
      exact ⟨fun h => h.trans hcut, fun h => h.trans hcut.symm⟩
    rw [hfilter, hfilter]
    exact h.filter _
  have hgroups : Alike true (rows.map (Row.cut grouping)) (rows'.map (Row.cut grouping)) := by
    rw [← Row.map_cut_map_cut hgrouping rows, ← Row.map_cut_map_cut hgrouping rows']
    exact (Alike.map (b := false) h _).toSet
  unfold aggregated
  split
  · rw [groupRow_congr hbindings (fun _ _ => rfl) h]
  · rw [hkeys, hkeys]
    refine ((Row.distinct_perm hgroups).map _).trans (List.Perm.of_eq ?_)
    apply List.map_congr_left
    intro ρ _
    exact groupRow_congr hbindings (fun _ _ => rfl) (hmembers ρ)

end Source

namespace Tree

variable {D : Source}

theorem map_cut_rows {t : Tree} {xs : VarSet} (h : t.vars ⊆ xs) :
    (t.rows D).map (Row.cut xs) = t.rows D := by
  rw [List.map_congr_left fun ρ hρ => Row.cut_of_supported (rows_supported t ρ hρ) h]
  exact List.map_id' _

theorem joinRows_append (ts us : List Tree) : joinRows D (ts ++ us)
    = Row.joinPairs (varsOf ts) (varsOf us) (joinRows D ts) (joinRows D us) := by
  induction ts with
  | nil => exact (Row.blank_joinPairs _).symm
  | cons t ts ih => rw [List.cons_append, joinRows, joinRows, ih, varsOf_append, varsOf,
      Row.joinPairs_assoc]

theorem varsOf_perm {ts us : List Tree} (h : ts.Perm us) : varsOf ts = varsOf us := by
  ext x
  simp only [mem_varsOf, h.mem_iff]

/-- The order of the operands of a join does not matter. -/
theorem joinRows_perm {ts us : List Tree} (h : ts.Perm us) :
    (joinRows D ts).Perm (joinRows D us) := by
  induction h with
  | nil => exact .refl _
  | cons t h ih =>
    rw [joinRows, joinRows, varsOf_perm h]
    exact Row.joinPairs_alike (Alike.refl false _) ih
  | swap t u ts =>
    simp only [joinRows, varsOf, Row.joinPairs_joinPairs]
    refine (flatMap_swap_perm _ _ _).trans (List.Perm.of_eq ?_)
    apply List.flatMap_congr
    intro ρ _
    apply List.flatMap_congr
    intro σ _
    exact Row.joinedTriple_swap _ _ _
  | trans _ _ ih ih' => exact ih.trans ih'

end Tree

end QueryAlgebra
