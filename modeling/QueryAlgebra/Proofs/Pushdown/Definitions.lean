import QueryAlgebra.Proofs.Pushdown.Basic
import QueryAlgebra.Tree.Pushdown.Construct

/-!
# Definitions that move

A substitution that reaches a construction moves its definitions one by one (`moveDefinitions`). After
each of them (`Moves`), the definitions so far compute the images of the variables taken in so far,
and the equalities so far hold exactly where there are such images.
-/

namespace QueryAlgebra

namespace Row

variable {I : Interpretation} {s : Substitution} {xs : VarSet} {ν τ : Row} {x : Variable}

/-- One more variable: its image has its value, and is an image of other variables only where the value
is not NULL. -/
theorem corresponds_insert (hx : x ∉ xs) :
    Corresponds I s (xs.insert x) ν τ ↔ Corresponds I s xs ν τ ∧ I.eval ν (s.applyVar x) = τ x ∧
      (τ x = .null → (s.applyVar x).isVariable = true ∧ ∀ z ∈ xs, s.applyVar z ≠ s.applyVar x) := by
  constructor
  · intro h
    obtain ⟨hvalue, hnull⟩ := h x (SortedSet.mem_insert.2 (.inl rfl))
    refine ⟨fun z hz => ?_, hvalue, fun hτ => ⟨(hnull hτ).1, fun z hz hsame => ?_⟩⟩
    · obtain ⟨hvaluez, hnullz⟩ := h z (SortedSet.mem_insert.2 (.inr hz))
      exact ⟨hvaluez, fun hτ => ⟨(hnullz hτ).1, fun z' hz' hsame =>
        (hnullz hτ).2 z' (SortedSet.mem_insert.2 (.inr hz')) hsame⟩⟩
    · have hzx := (hnull hτ).2 z (SortedSet.mem_insert.2 (.inr hz)) hsame
      exact hx (hzx ▸ hz)
  · rintro ⟨h, hvalue, hnull⟩ z hz
    rcases SortedSet.mem_insert.1 hz with rfl | hz
    · refine ⟨hvalue, fun hτ => ⟨(hnull hτ).1, fun z' hz' hsame => ?_⟩⟩
      rcases SortedSet.mem_insert.1 hz' with rfl | hz'
      · rfl
      · exact absurd hsame ((hnull hτ).2 z' hz')
    · obtain ⟨hvaluez, hnullz⟩ := h z hz
      refine ⟨hvaluez, fun hτ => ⟨(hnullz hτ).1, fun z' hz' hsame => ?_⟩⟩
      rcases SortedSet.mem_insert.1 hz' with hxz | hz'
      · -- the new variable has the same image, so it is NULL as well
        rw [hxz] at hsame
        have hτ' : τ x = .null := by rw [← hvalue, hsame, hvaluez, hτ]
        exact absurd hsame.symm ((hnull hτ').2 z hz)
      · exact (hnullz hτ).2 z' hz' hsame

end Row

namespace Tree

variable {D : Database} {s : Substitution} {images scope taken : VarSet} {R : Row → Row → Prop}
  {definitions : SortedMap Variable Term} {equalities : List Expression} {x y : Variable} {t : Term}

/-- The definitions and equalities stand for the images of the variables taken in. They are over the
scope of the child, whose rows are related to the rows that are to be renamed. -/
structure Moves (D : Database) (s : Substitution) (images scope : VarSet) (R : Row → Row → Prop)
    (taken : VarSet) (definitions : SortedMap Variable Term) (equalities : List Expression) :
    Prop where
  image_iff : ∀ y, y ∈ s.applyVars taken ↔ y ∈ images ∨ ∃ t, definitions.find? y = some t
  apart : ∀ y t, definitions.find? y = some t → y ∉ images
  definition : ∀ y t, definitions.find? y = some t → t.AdmissibleOver scope
  equality : ∀ e ∈ equalities, e.AdmissibleOver scope
  corresponds_iff : ∀ σ τ, R σ τ → ∀ ν, ν.Supported (s.applyVars taken) →
    (Row.Corresponds D.toInterpretation s taken ν τ ↔ (∀ e ∈ equalities, D.Holds σ e) ∧
      ν = D.constructed (s.applyVars taken) (.ofMap definitions) σ)

/-- A variable taken in that has no new image adds the equality that holds where it has its image. -/
theorem Moves.require {e : Expression} (h : Moves D s images scope R taken definitions equalities)
    (hx : x ∉ taken) (hvars : s.applyVars (taken.insert x) = s.applyVars taken)
    (he : e.AdmissibleOver scope)
    (hrow : ∀ σ τ, R σ τ → ∀ ν, ν = D.constructed (s.applyVars taken) (.ofMap definitions) σ →
      (D.eval ν (s.applyVar x) = τ x ∧ (τ x = .null → (s.applyVar x).isVariable = true ∧
        ∀ z ∈ taken, s.applyVar z ≠ s.applyVar x) ↔ D.Holds σ e)) :
    Moves D s images scope R (taken.insert x) definitions (equalities ++ [e]) := by
  refine ⟨?_, h.apart, h.definition, ?_, fun σ τ hR ν hν => ?_⟩
  · rw [hvars]
    exact h.image_iff
  · rw [List.forall_mem_append, List.forall_mem_singleton]
    exact ⟨h.equality, he⟩
  · rw [hvars] at hν ⊢
    rw [Row.corresponds_insert hx, h.corresponds_iff σ τ hR ν hν, List.forall_mem_append,
      List.forall_mem_singleton]
    constructor
    · rintro ⟨⟨hequalities, hmoved⟩, hximage⟩
      exact ⟨⟨hequalities, (hrow σ τ hR ν hmoved).1 hximage⟩, hmoved⟩
    · rintro ⟨⟨hequalities, hholds⟩, hmoved⟩
      exact ⟨⟨hequalities, hmoved⟩, (hrow σ τ hR ν hmoved).2 hholds⟩

namespace Moves

variable (h : Moves D s images scope R taken definitions equalities) (hs : s.Flat) (hx : x ∉ taken)
  (ht : t.AdmissibleOver scope) (hvalue : ∀ σ τ, R σ τ → τ x = D.eval σ t)
include h hs hx ht hvalue

/-- An image that is there already has to equal the definition. -/
theorem equate {u : Term} (hxy : s.applyVar x = .var y) (hy : y ∈ s.applyVars taken)
    (hu : (Substitution.ofMap definitions).applyVar y = u) (hadmissible : u.AdmissibleOver scope) :
    Moves D s images scope R (taken.insert x) definitions (equalities ++ [.eq u t]) := by
  have hvars : s.applyVars (taken.insert x) = s.applyVars taken := by
    ext z
    rw [Substitution.mem_applyVars_insert, hxy, Term.mem_vars_var]
    constructor
    · rintro (rfl | hz)
      · exact hy
      · exact hz
    · exact .inr
  refine h.require hx hvars (Expression.all_eq introducible_admissible hadmissible ht) ?_
  rintro σ τ hR _ rfl
  have himage : D.constructed (s.applyVars taken) (.ofMap definitions) σ y = D.eval σ u := by
    rw [Source.constructed, if_pos hy, hu]
  rw [Interpretation.holds_eq, hxy, ← hvalue σ τ hR, Interpretation.eval_var, himage]
  constructor
  · rintro ⟨hut, hnull⟩
    refine ⟨hut, fun hu => ?_⟩
    obtain ⟨z, hz, hzy⟩ := hs.mem_applyVars.1 hy
    exact (hnull (hut.symm.trans hu)).2 z hz hzy
  · rintro ⟨hut, hnotNull⟩
    exact ⟨hut, fun hτ => absurd (hut.trans hτ) hnotNull⟩

/-- An image that is not there yet takes the definition. -/
theorem define (hxy : s.applyVar x = .var y) (hy : y ∉ s.applyVars taken) :
    Moves D s images scope R (taken.insert x) (definitions.insert y t) equalities := by
  have hvars (z : Variable) : z ∈ s.applyVars (taken.insert x) ↔ z = y ∨ z ∈ s.applyVars taken := by
    rw [Substitution.mem_applyVars_insert, hxy, Term.mem_vars_var]
  have hfind (z : Variable) : (definitions.insert y t).find? z = some t ∧ z = y ∨
      (definitions.insert y t).find? z = definitions.find? z ∧ z ≠ y := by
    rw [SortedMap.find?_insert]
    by_cases hyz : y = z
    · exact .inl ⟨if_pos hyz, hyz.symm⟩
    · exact .inr ⟨if_neg hyz, fun hzy => hyz hzy.symm⟩
  have hyimages : y ∉ images := fun hmem => hy ((h.image_iff y).2 (.inl hmem))
  refine ⟨fun z => ?_, fun z u hu => ?_, fun z u hu => ?_, h.equality, fun σ τ hR ν hν => ?_⟩
  · rw [hvars, h.image_iff]
    rcases hfind z with ⟨hz, rfl⟩ | ⟨hz, hzy⟩
    · exact iff_of_true (.inl rfl) (.inr ⟨t, hz⟩)
    · rw [hz]
      exact or_iff_right hzy
  · rcases hfind z with ⟨_, rfl⟩ | ⟨hz, -⟩
    · exact hyimages
    · exact h.apart z u (hz ▸ hu)
  · rcases hfind z with ⟨hz, -⟩ | ⟨hz, -⟩
    · rw [hz] at hu
      cases hu
      exact ht
    · exact h.definition z u (hz ▸ hu)
  · have hnew : (Substitution.ofMap (definitions.insert y t)).applyVar y = t := by
      rw [Substitution.applyVar_ofMap, SortedMap.find?_insert, if_pos rfl]
      rfl
    have hold {z : Variable} (hz : z ∈ s.applyVars taken) :
        (Substitution.ofMap (definitions.insert y t)).applyVar z
          = (Substitution.ofMap definitions).applyVar z := by
      have hyz : y ≠ z := fun hyz => hy (hyz ▸ hz)
      rw [Substitution.applyVar_ofMap, Substitution.applyVar_ofMap, SortedMap.find?_insert,
        if_neg hyz]
    have hcut : Row.AgreeOn (s.applyVars taken) (Row.cut (s.applyVars taken) ν) ν := fun z hz =>
      if_pos hz
    have hless : Row.Corresponds D.toInterpretation s taken ν τ ↔
        Row.Corresponds D.toInterpretation s taken (Row.cut (s.applyVars taken) ν) τ :=
      ⟨fun hc => hc.congr (fun z hz => (hcut z hz).symm) fun _ _ => rfl,
        fun hc => hc.congr hcut fun _ _ => rfl⟩
    rw [Row.corresponds_insert hx, hless, h.corresponds_iff σ τ hR _ Row.supported_cut, hxy,
      hvalue σ τ hR]
    constructor
    · rintro ⟨⟨hequalities, hrow⟩, hνy, -⟩
      refine ⟨hequalities, funext fun z => ?_⟩
      by_cases hz : z ∈ s.applyVars (taken.insert x)
      · rw [Source.constructed, if_pos hz]
        rcases (hvars z).1 hz with rfl | hz
        · rw [hnew]
          exact hνy
        · rw [hold hz, ← hcut z hz, hrow, Source.constructed, if_pos hz]
      · rw [hν z hz, Source.constructed, if_neg hz]
    · rintro ⟨hequalities, rfl⟩
      refine ⟨⟨hequalities, funext fun z => ?_⟩, ?_, fun _ => ⟨rfl, fun z hz hsame => ?_⟩⟩
      · by_cases hz : z ∈ s.applyVars taken
        · rw [hcut z hz, Source.constructed, Source.constructed, if_pos hz,
            if_pos ((hvars z).2 (.inr hz)), hold hz]
        · rw [Row.cut, if_neg hz, Source.constructed, if_neg hz]
      · rw [Interpretation.eval_var, Source.constructed, if_pos ((hvars y).2 (.inl rfl)), hnew]
      · exact hy (hs.mem_applyVars.2 ⟨z, hz, hsame⟩)

omit hs in
/-- A constant has to equal the definition. -/
theorem compare {c : Constant} (hxc : s.applyVar x = .const c) :
    Moves D s images scope R (taken.insert x) definitions (equalities ++ [.eq t (.const c)]) := by
  have hvars : s.applyVars (taken.insert x) = s.applyVars taken := by
    ext z
    rw [Substitution.mem_applyVars_insert, hxc]
    exact or_iff_right (SortedSet.not_mem_empty z)
  refine h.require hx hvars (Expression.all_eq introducible_admissible ht .const) ?_
  rintro σ τ hR _ rfl
  rw [Interpretation.holds_eq, hxc, ← hvalue σ τ hR]
  constructor
  · rintro ⟨hc, hnull⟩
    refine ⟨hc.symm, fun hτ => ?_⟩
    cases (hnull hτ).1
  · rintro ⟨hc, hnotNull⟩
    exact ⟨hc.symm, fun hτ => absurd hτ hnotNull⟩

end Moves

/-- The definitions leave other variables than the images alone. -/
theorem Moves.fixed (h : Moves D s images scope R taken definitions equalities)
    (hx : x ∉ s.applyVars taken) : (Substitution.ofMap definitions).applyVar x = .var x := by
  rw [Substitution.applyVar_ofMap]
  cases hfind : definitions.find? x with
  | none => rfl
  | some t => exact absurd ((h.image_iff x).2 (.inr ⟨t, hfind⟩)) hx

theorem Moves.admissible (h : Moves D s images scope R taken definitions equalities)
    (himages : images ⊆ scope) (hx : x ∈ s.applyVars taken) :
    ((Substitution.ofMap definitions).applyVar x).AdmissibleOver scope := by
  rw [Substitution.applyVar_ofMap]
  cases hfind : definitions.find? x with
  | some t => exact h.definition x t hfind
  | none =>
    refine .var (himages x (((h.image_iff x).1 hx).resolve_right ?_))
    rintro ⟨t, ht⟩
    rw [hfind] at ht
    cases ht

theorem Moves.wellApplied (h : Moves D s images scope R taken definitions equalities)
    (himages : images ⊆ scope) (x : Variable) :
    ((Substitution.ofMap definitions).applyVar x).WellApplied := by
  by_cases hx : x ∈ s.applyVars taken
  · exact (h.admissible himages hx).wellApplied
  · rw [h.fixed hx]
    exact .var trivial

/-- All definitions move. -/
theorem moves_moveDefinitions {childPart : Substitution} {bindings : List (Variable × Term)}
    {all : VarSet} (hs : s.Flat) (himages : images ⊆ scope)
    (hdistinct : (bindings.map Prod.fst).Nodup) (hnew : ∀ b ∈ bindings, b.1 ∉ taken)
    (hadmissible : ∀ b ∈ bindings, (childPart.apply b.2).AdmissibleOver scope)
    (hvalue : ∀ b ∈ bindings, ∀ σ τ, R σ τ → τ b.1 = D.eval σ (childPart.apply b.2))
    (hall : ∀ x, x ∈ all ↔ x ∈ taken ∨ x ∈ bindings.map Prod.fst)
    (h : Moves D s images scope R taken definitions equalities) :
    Moves D s images scope R all
      (moveDefinitions s childPart images bindings (definitions, equalities)).1
      (moveDefinitions s childPart images bindings (definitions, equalities)).2 := by
  induction bindings generalizing taken definitions equalities with
  | nil =>
    have htaken : all = taken := by
      ext x
      rw [hall]
      exact or_iff_left List.not_mem_nil
    rw [htaken]
    exact h
  | cons b rest ih =>
    obtain ⟨x, t⟩ := b
    rw [List.map_cons, List.nodup_cons] at hdistinct
    rw [List.forall_mem_cons] at hnew hadmissible hvalue
    have hrest : ∀ b ∈ rest, b.1 ∉ taken.insert x := by
      intro b hb hmem
      rcases SortedSet.mem_insert.1 hmem with hbx | hmem
      · exact hdistinct.1 (List.mem_map.2 ⟨b, hb, hbx⟩)
      · exact hnew.2 b hb hmem
    have hall : ∀ z, z ∈ all ↔ z ∈ taken.insert x ∨ z ∈ rest.map Prod.fst := by
      intro z
      rw [hall, List.map_cons, List.mem_cons, SortedSet.mem_insert]
      tauto
    rw [moveDefinitions]
    split
    · next y hxy =>
      split
      · next hy =>
        have happly : (Substitution.ofMap definitions).applyVar y = .var y := by
          cases hfind : definitions.find? y with
          | none => rw [Substitution.applyVar_ofMap, hfind]; rfl
          | some u => exact absurd hy (h.apart y u hfind)
        exact ih hdistinct.2 hrest hadmissible.2 hvalue.2 hall
          (h.equate hs hnew.1 hadmissible.1 hvalue.1 hxy ((h.image_iff y).2 (.inl hy)) happly
            (.var (himages y hy)))
      · next hy =>
        split
        · next other hother =>
          have happly : (Substitution.ofMap definitions).applyVar y = other := by
            rw [Substitution.applyVar_ofMap, hother]
            rfl
          exact ih hdistinct.2 hrest hadmissible.2 hvalue.2 hall
            (h.equate hs hnew.1 hadmissible.1 hvalue.1 hxy ((h.image_iff y).2 (.inr ⟨_, hother⟩))
              happly (h.definition y other hother))
        · next hnone =>
          have hfree : y ∉ s.applyVars taken := by
            rw [h.image_iff, hnone]
            rintro (himage | ⟨u, hu⟩)
            · exact hy himage
            · cases hu
          exact ih hdistinct.2 hrest hadmissible.2 hvalue.2 hall
            (h.define hs hnew.1 hadmissible.1 hvalue.1 hxy hfree)
    · next hnotVar =>
      rcases Term.eq_var_or_const (hs x) with ⟨y, hy⟩ | ⟨c, hc⟩
      · exact absurd hy (hnotVar y)
      · rw [hc]
        exact ih hdistinct.2 hrest hadmissible.2 hvalue.2 hall
          (h.compare hnew.1 hadmissible.1 hvalue.1 hc)

end Tree

end QueryAlgebra
