import QueryAlgebra.Proofs.Bags

/-!
# Rows that may be dropped

What is known to hold above a tree lets its rewriting drop rows, but only rows of which it cannot
hold: `Pruned P l m` says that `l` is `m`, as a bag, without some elements that do not satisfy `P`.
Everything that works row by row keeps lists pruned, with the predicate pulled back to the rows that
it starts from.

A condition on rows over more variables than a tree projects is known of a row of the tree only up
to what the other variables are (`Interpretation.Possible`).
-/

namespace QueryAlgebra

-- ---------------------------------------------------------------------------
-- Pruned lists
-- ---------------------------------------------------------------------------

/-- The first list is the second one without some elements that do not satisfy `P`. -/
def Pruned {α : Type} (P : α → Prop) (l m : List α) : Prop :=
  ∃ dropped, m.Perm (l ++ dropped) ∧ ∀ a ∈ dropped, ¬P a

namespace Pruned

variable {α β : Type} {P Q : α → Prop} {l m k : List α}

theorem of_perm (h : l.Perm m) : Pruned P l m :=
  ⟨[], by rw [List.append_nil]; exact h.symm, fun _ ha => absurd ha List.not_mem_nil⟩

theorem refl (l : List α) : Pruned P l l := of_perm (.refl l)

theorem trans (h : Pruned P l m) (h' : Pruned P m k) : Pruned P l k := by
  obtain ⟨dropped, hperm, hdropped⟩ := h
  obtain ⟨dropped', hperm', hdropped'⟩ := h'
  refine ⟨dropped ++ dropped', ?_, fun a ha => (List.mem_append.1 ha).elim (hdropped a) (hdropped' a)⟩
  rw [← List.append_assoc]
  exact hperm'.trans (hperm.append_right dropped')

theorem mem (h : Pruned P l m) {a : α} (ha : a ∈ l) : a ∈ m := by
  obtain ⟨dropped, hperm, -⟩ := h
  exact hperm.mem_iff.2 (List.mem_append_left _ ha)

theorem subperm (h : Pruned P l m) : l.Subperm m := by
  obtain ⟨dropped, hperm, -⟩ := h
  exact (List.sublist_append_left l dropped).subperm.trans hperm.symm.subperm

/-- It is enough that the elements of the longer list are related. -/
theorem mono (h : Pruned P l m) (hQP : ∀ a ∈ m, Q a → P a) : Pruned Q l m := by
  obtain ⟨dropped, hperm, hdropped⟩ := h
  refine ⟨dropped, hperm, fun a ha hQ => hdropped a ha (hQP a ?_ hQ)⟩
  exact hperm.mem_iff.2 (List.mem_append_right _ ha)

theorem perm (h : Pruned P l m) (hall : ∀ a ∈ m, P a) : l.Perm m := by
  obtain ⟨dropped, hperm, hdropped⟩ := h
  have hnil : dropped = [] := List.eq_nil_iff_forall_not_mem.2 fun a ha =>
    hdropped a ha (hall a (hperm.mem_iff.2 (List.mem_append_right _ ha)))
  rw [hnil, List.append_nil] at hperm
  exact hperm.symm

theorem nil (h : ∀ a ∈ m, ¬P a) : Pruned P [] m := ⟨m, .refl m, h⟩

theorem append {l' m' : List α} (h : Pruned P l m) (h' : Pruned P l' m') :
    Pruned P (l ++ l') (m ++ m') := by
  obtain ⟨dropped, hperm, hdropped⟩ := h
  obtain ⟨dropped', hperm', hdropped'⟩ := h'
  refine ⟨dropped ++ dropped', ?_, fun a ha => ?_⟩
  · refine (hperm.append hperm').trans ?_
    rw [List.append_assoc, List.append_assoc]
    refine List.Perm.append_left l ?_
    rw [← List.append_assoc, ← List.append_assoc]
    exact List.Perm.append_right dropped' List.perm_append_comm
  · rcases List.mem_append.1 ha with ha | ha
    · exact hdropped a ha
    · exact hdropped' a ha

theorem flatMap {P : β → Prop} (h : Pruned Q l m) {f : α → List β}
    (hQ : ∀ a ∈ m, ∀ b ∈ f a, P b → Q a) : Pruned P (l.flatMap f) (m.flatMap f) := by
  obtain ⟨dropped, hperm, hdropped⟩ := h
  refine ⟨dropped.flatMap f, ?_, fun b hb hP => ?_⟩
  · rw [← List.flatMap_append]
    exact hperm.flatMap_right f
  · obtain ⟨a, ha, hb⟩ := List.mem_flatMap.1 hb
    exact hdropped a ha (hQ a (hperm.mem_iff.2 (List.mem_append_right _ ha)) b hb hP)

theorem flatMap_congr {P : β → Prop} {f g : α → List β} (h : ∀ a ∈ l, Pruned P (f a) (g a)) :
    Pruned P (l.flatMap f) (l.flatMap g) := by
  induction l with
  | nil => exact refl _
  | cons a l ih =>
    rw [List.forall_mem_cons] at h
    exact h.1.append (ih h.2)

theorem filterMap {P : β → Prop} (h : Pruned Q l m) {f : α → Option β}
    (hQ : ∀ a ∈ m, ∀ b, f a = some b → P b → Q a) : Pruned P (l.filterMap f) (m.filterMap f) := by
  rw [List.filterMap_eq_flatMap_toList, List.filterMap_eq_flatMap_toList]
  exact h.flatMap fun a ha b hb => hQ a ha b (Option.mem_toList.1 hb)

theorem map {P : β → Prop} {f : α → β} (h : Pruned (fun a => P (f a)) l m) :
    Pruned P (l.map f) (m.map f) := by
  obtain ⟨dropped, hperm, hdropped⟩ := h
  refine ⟨dropped.map f, ?_, List.forall_mem_map.2 hdropped⟩
  rw [← List.map_append]
  exact hperm.map f

theorem filter {p : α → Bool} (h : Pruned (fun a => P a ∧ p a = true) l m) :
    Pruned P (l.filter p) (m.filter p) := by
  obtain ⟨dropped, hperm, hdropped⟩ := h
  refine ⟨dropped.filter p, ?_, fun a ha hP => ?_⟩
  · rw [← List.filter_append]
    exact hperm.filter p
  · obtain ⟨ha, hp⟩ := List.mem_filter.1 ha
    exact hdropped a ha ⟨hP, hp⟩

/-- Both operands of a join may be pruned. -/
theorem joinPairs {P P₁ P₂ : Row → Prop} {xs ys : VarSet} {rows rows₁ rows' rows₁' : List Row}
    (h : Pruned P₁ rows rows₁) (h' : Pruned P₂ rows' rows₁')
    (hP : ∀ ρ ∈ rows₁, ∀ σ ∈ rows₁', Row.Joins xs ys ρ σ → P (Row.merge xs ρ σ) → P₁ ρ ∧ P₂ σ) :
    Pruned P (Row.joinPairs xs ys rows rows') (Row.joinPairs xs ys rows₁ rows₁') := by
  refine trans (m := Row.joinPairs xs ys rows rows₁') (flatMap_congr fun ρ hρ => ?_) (h.flatMap ?_)
  · refine Pruned.map (Pruned.filter (h'.mono fun σ hσ hQ => ?_))
    exact (hP ρ (h.mem hρ) σ hσ (of_decide_eq_true hQ.2) hQ.1).2
  · intro ρ hρ τ hτ hPτ
    obtain ⟨σ, hσ, hjoins, rfl⟩ := Row.mem_joinedWith.1 hτ
    exact (hP ρ hρ σ hσ hjoins hPτ).1

/-- What is left once of the pruned rows is what is left once of all of them, pruned. -/
theorem distinct {P : Row → Prop} {xs : VarSet} {rows rows' : List Row} (h : Pruned P rows rows')
    (hrows : ∀ ρ ∈ rows', ρ.Supported xs) :
    Pruned P (Row.distinct xs rows) (Row.distinct xs rows') := by
  classical
  refine ⟨(Row.distinct xs rows').filter (· ∉ rows), ?_, fun ρ hρ hP => ?_⟩
  · have hmem (ρ : Row) : ρ ∈ Row.distinct xs rows ↔ ρ ∈ rows :=
      Row.mem_distinct fun σ hσ => hrows σ (h.mem hσ)
    have hnodup : (Row.distinct xs rows ++ (Row.distinct xs rows').filter (· ∉ rows)).Nodup := by
      refine List.Nodup.append (Row.nodup_distinct rows) ((Row.nodup_distinct rows').filter _) ?_
      intro ρ hρ hfiltered
      exact of_decide_eq_true (List.mem_filter.1 hfiltered).2 ((hmem ρ).1 hρ)
    rw [List.perm_ext_iff_of_nodup (Row.nodup_distinct rows') hnodup]
    intro ρ
    rw [List.mem_append, List.mem_filter, hmem, Row.mem_distinct hrows, decide_eq_true_iff]
    constructor
    · intro hρ
      by_cases hkept : ρ ∈ rows
      · exact .inl hkept
      · exact .inr ⟨hρ, hkept⟩
    · rintro (hρ | ⟨hρ, -⟩)
      · exact h.mem hρ
      · exact hρ
  · obtain ⟨dropped, hperm, hdropped⟩ := h
    obtain ⟨hρ, hnot⟩ := List.mem_filter.1 hρ
    have hmem := hperm.mem_iff.1 (Row.mem_of_mem_distinct hρ)
    exact hdropped ρ ((List.mem_append.1 hmem).resolve_left (of_decide_eq_true hnot)) hP

end Pruned

-- ---------------------------------------------------------------------------
-- Conditions over more variables
-- ---------------------------------------------------------------------------

namespace Interpretation

variable {I : Interpretation} {xs ys : VarSet} {e? : Option Expression} {ρ σ : Row}

theorem holdsOptional_congr (h : Row.AgreeOn xs ρ σ) (hvars : ∀ e ∈ e?, e.vars ⊆ xs) :
    I.HoldsOptional ρ e? ↔ I.HoldsOptional σ e? :=
  forall₂_congr fun e he => holds_congr fun x hx => h x (hvars e he x hx)

/-- The condition holds for some values of the variables other than `xs`. -/
def Possible (I : Interpretation) (xs : VarSet) (e? : Option Expression) (ρ : Row) : Prop :=
  ∃ η, Row.AgreeOn xs η ρ ∧ I.HoldsOptional η e?

theorem possible_none : I.Possible xs none ρ := ⟨ρ, fun _ _ => rfl, holdsOptional_none⟩

theorem Possible.of_holds (h : I.HoldsOptional ρ e?) : I.Possible xs e? ρ :=
  ⟨ρ, fun _ _ => rfl, h⟩

/-- What is possible of a row is possible of one that agrees with it on fewer variables. -/
theorem Possible.of_agreeOn (h : I.Possible xs e? ρ) (hys : ys ⊆ xs) (hagree : Row.AgreeOn ys ρ σ) :
    I.Possible ys e? σ := by
  obtain ⟨η, hη, hholds⟩ := h
  exact ⟨η, fun x hx => (hη x (hys x hx)).trans (hagree x hx), hholds⟩

end Interpretation

/-- Rows that are dropped because the condition is impossible do not satisfy it, whatever values the
other variables are given. -/
theorem Pruned.perm_filter_merge {I : Interpretation} {xs : VarSet} {e : Expression} {rows rows' : List Row}
    (h : Pruned (I.Possible xs (some e)) rows' rows) (η : Row) :
    (rows'.filter fun ρ => I.Holds (Row.merge xs ρ η) e).Perm
      (rows.filter fun ρ => I.Holds (Row.merge xs ρ η) e) := by
  refine Pruned.perm (P := fun ρ => I.Holds (Row.merge xs ρ η) e) (Pruned.filter ?_) ?_
  · refine h.mono fun ρ _ hholds => ⟨Row.merge xs ρ η, fun x hx => if_pos hx, ?_⟩
    exact Interpretation.holdsOptional_some.2 hholds.1
  · exact fun ρ hρ => of_decide_eq_true (List.mem_filter.1 hρ).2

end QueryAlgebra
