import Mathlib.Algebra.Group.Action.Faithful
import QueryAlgebra.Proofs.Substitution

/-!
# Substitutions compose

Substitutions form a monoid under composition, with the empty one as its unit, and act on terms and
on expressions. The action is faithful because no substitution has an identity entry: composition
drops a binding that comes back to its own variable, so its domain may be smaller than those of its
parts together (`Substitution.mem_bindings_compose`), and the other operations keep bindings as they
are or leave them out.

Main statement: `Substitution.compose_laws`.
-/

namespace QueryAlgebra.Substitution

variable {s t u : Substitution} {x : Variable} {w : Term}

-- ---------------------------------------------------------------------------
-- The monoid and its action
-- ---------------------------------------------------------------------------

theorem compose_assoc (s t u : Substitution) :
    (s.compose t).compose u = s.compose (t.compose u) := by
  apply ext_apply
  intro w
  calc ((s.compose t).compose u).apply w
      = s.apply (t.apply (u.apply w)) := by rw [apply_compose, apply_compose]
    _ = (s.compose (t.compose u)).apply w := by rw [apply_compose, apply_compose]

theorem empty_compose (s : Substitution) : (∅ : Substitution).compose s = s := by
  apply ext_apply
  intro w
  rw [apply_compose, apply_empty]

/-- An expression keeps its symbol, and its arguments are replaced as terms are. -/
theorem applyExpression_compose (e : Expression) :
    (s.compose t).applyExpression e = s.applyExpression (t.applyExpression e) := by
  simp only [applyExpression, applyAll_eq_map, List.map_map, Expression.mk.injEq, true_and]
  apply List.map_congr_left
  intro w _
  exact apply_compose

/-- Composition, the right one first. -/
instance : Monoid Substitution where
  mul := compose
  one := ∅
  mul_assoc := compose_assoc
  one_mul := empty_compose
  mul_one := compose_empty

instance : MulAction Substitution Term where
  smul := apply
  one_smul := apply_empty
  mul_smul _ _ _ := apply_compose

instance : FaithfulSMul Substitution Term := ⟨ext_apply⟩

-- ---------------------------------------------------------------------------
-- The entries of what is built
-- ---------------------------------------------------------------------------

/-- No entry is an identity. -/
theorem ne_var_of_mem_bindings (h : (x, w) ∈ s.bindings) : w ≠ .var x := by
  rintro rfl
  exact s.proper x (mem_bindings.1 h)

theorem mem_bindings_ofMap {m : SortedMap Variable Term} :
    (x, w) ∈ (ofMap m).bindings ↔ m.find? x = some w ∧ w ≠ .var x := by
  rw [mem_bindings, find?_ofMap, Option.filter_eq_some_iff, decide_eq_true_iff]

/-- What a list binds is in the list. -/
theorem mem_of_mem_bindings_ofList {bs : List (Variable × Term)}
    (h : (x, w) ∈ (ofList bs).bindings) : (x, w) ∈ bs :=
  mem_of_find?_ofList (mem_bindings.1 h)

theorem mem_bindings_singleton {y : Variable} {r : Term} :
    (x, w) ∈ (singleton y r).bindings ↔ (x = y ∧ w = r) ∧ w ≠ .var x := by
  constructor
  · intro h
    have hmem := mem_of_mem_bindings_ofList h
    rw [List.mem_singleton, Prod.mk.injEq] at hmem
    exact ⟨hmem, ne_var_of_mem_bindings h⟩
  · rintro ⟨⟨rfl, rfl⟩, hne⟩
    exact mem_bindings.2 (find?_ofList_of_nodup (List.nodup_singleton _) (.head _) hne)

theorem find?_eq_none : s.map.find? x = none ↔ x ∉ s.domain := by
  rw [mem_domain, not_exists, Option.eq_none_iff_forall_ne_some]
  rfl

/-- An entry of a composition is an entry of the right part under the left one, or one of the left part
whose variable the right part leaves alone, unless it came back to its own variable. -/
theorem mem_bindings_compose : (x, w) ∈ (s.compose t).bindings ↔
    ((∃ r, (x, r) ∈ t.bindings ∧ s.apply r = w) ∨ x ∉ t.domain ∧ (x, w) ∈ s.bindings) ∧
      w ≠ .var x := by
  rw [compose, mem_bindings_ofMap, SortedMap.find?_overlay, SortedMap.find?_mapValues,
    Option.or_eq_some_iff, Option.map_eq_some_iff, Option.map_eq_none_iff, find?_eq_none]
  simp only [mem_bindings, find?]

theorem mem_bindings_overlay : (x, w) ∈ (s.overlay t).bindings ↔
    (x, w) ∈ t.bindings ∨ x ∉ t.domain ∧ (x, w) ∈ s.bindings := by
  rw [mem_bindings, find?, overlay, SortedMap.find?_overlay, Option.or_eq_some_iff, find?_eq_none]
  simp only [mem_bindings, find?]

/-- Two substitutions have a union where they agree, and it has the entries of both. -/
theorem union?_eq_some : s.union? t = some u ↔
    (∀ x v w, (x, v) ∈ s.bindings → (x, w) ∈ t.bindings → v = w) ∧
      ∀ x w, (x, w) ∈ u.bindings ↔ (x, w) ∈ s.bindings ∨ (x, w) ∈ t.bindings := by
  have hagree : (t.bindings.all fun b => (s.find? b.1).all (· = b.2)) = true ↔
      ∀ x v w, (x, v) ∈ s.bindings → (x, w) ∈ t.bindings → v = w := by
    simp only [List.all_eq_true, Option.all_eq_true, decide_eq_true_iff, Prod.forall, mem_bindings]
    exact ⟨fun h x v w hv hw => h x w hw v hv, fun h x w hw v hv => h x v w hv hw⟩
  have hentries (hsame : ∀ x v w, (x, v) ∈ s.bindings → (x, w) ∈ t.bindings → v = w)
      (x : Variable) (w : Term) : (x, w) ∈ (s.overlay t).bindings ↔
        (x, w) ∈ s.bindings ∨ (x, w) ∈ t.bindings := by
    rw [mem_bindings_overlay]
    constructor
    · rintro (h | h)
      · exact .inr h
      · exact .inl h.2
    · rintro (h | h)
      · by_cases hx : x ∈ t.domain
        · obtain ⟨r, hr⟩ := mem_domain.1 hx
          have hr := mem_bindings.2 hr
          exact .inl (hsame x w r h hr ▸ hr)
        · exact .inr ⟨hx, h⟩
      · exact .inl h
  rw [union?, ← hagree]
  split
  · next h =>
    rw [Option.some.injEq]
    refine ⟨fun hu => ⟨h, fun x w => hu ▸ hentries (hagree.1 h) x w⟩, fun hu => ?_⟩
    have hfind (x : Variable) : (s.overlay t).find? x = u.find? x := by
      apply Option.ext
      intro w
      rw [← mem_bindings, ← mem_bindings, hentries (hagree.1 h), hu.2]
    exact ext_applyVar fun x => by rw [applyVar, applyVar, hfind]
  · next h => exact iff_of_false (Option.some_ne_none u).symm fun hu => h hu.1

theorem mem_bindings_filter {p : Variable → Term → Bool} :
    (x, w) ∈ (s.filter p).bindings ↔ (x, w) ∈ s.bindings ∧ p x w = true := by
  rw [mem_bindings, find?_filter, Option.filter_eq_some_iff, mem_bindings]

-- ---------------------------------------------------------------------------
-- The laws
-- ---------------------------------------------------------------------------

/-- Substitutions compose associatively, with the empty one as unit, and act on terms and expressions
one after the other. The entries of what is collected, composed, united or selected are those that its
parts give it. None of them is an identity; therefore two substitutions that act alike on all terms are
equal. -/
theorem compose_laws :
    (∀ (s t : Substitution) (w : Term), (s.compose t).apply w = s.apply (t.apply w)) ∧
    (∀ (s t : Substitution) (e : Expression),
      (s.compose t).applyExpression e = s.applyExpression (t.applyExpression e)) ∧
    (∀ s t u : Substitution, (s.compose t).compose u = s.compose (t.compose u)) ∧
    (∀ s : Substitution, s.compose ∅ = s ∧ (∅ : Substitution).compose s = s) ∧
    (∀ s t : Substitution, s = t ↔ ∀ w : Term, s.apply w = t.apply w) ∧
    ∀ (s t u : Substitution) (bs : List (Variable × Term)) (p : Variable → Term → Bool) (xs : VarSet)
      (x y : Variable) (w r : Term),
      ((x, w) ∈ s.bindings → w ≠ .var x) ∧
      ((x, w) ∈ (ofList bs).bindings → (x, w) ∈ bs ∧ w ≠ .var x) ∧
      ((x, w) ∈ (singleton y r).bindings ↔ (x = y ∧ w = r) ∧ w ≠ .var x) ∧
      ((x, w) ∈ (s.compose t).bindings ↔
        ((∃ v, (x, v) ∈ t.bindings ∧ s.apply v = w) ∨ x ∉ t.domain ∧ (x, w) ∈ s.bindings) ∧
          w ≠ .var x) ∧
      (s.union? t = some u ↔
        (∀ x v w, (x, v) ∈ s.bindings → (x, w) ∈ t.bindings → v = w) ∧
          ∀ x w, (x, w) ∈ u.bindings ↔ (x, w) ∈ s.bindings ∨ (x, w) ∈ t.bindings) ∧
      ((x, w) ∈ (s.filter p).bindings ↔ (x, w) ∈ s.bindings ∧ p x w = true) ∧
      ((x, w) ∈ (s.restrict xs).bindings ↔ (x, w) ∈ s.bindings ∧ x ∈ xs) ∧
      ((x, w) ∈ (s.without xs).bindings ↔ (x, w) ∈ s.bindings ∧ x ∉ xs) ∧
      ((x, w) ∈ s.variableFragment.bindings ↔ (x, w) ∈ s.bindings ∧ w.isVariable = true) ∧
      ((x, w) ∈ s.nonVariableFragment.bindings ↔ (x, w) ∈ s.bindings ∧ w.isVariable = false) ∧
      ((x, w) ∈ s.functionalFragment.bindings ↔ (x, w) ∈ s.bindings ∧ w.isFunctional = true) ∧
      ((x, w) ∈ s.nonFunctionalFragment.bindings ↔
        (x, w) ∈ s.bindings ∧ w.isFunctional = false) := by
  refine ⟨fun s t w => apply_compose, fun s t => applyExpression_compose, compose_assoc,
    fun s => ⟨compose_empty s, empty_compose s⟩, fun s t => ⟨fun h w => h ▸ rfl, ext_apply⟩, ?_⟩
  intro s t u bs p xs x y w r
  have hselected (p : Variable → Term → Bool) :
      (x, w) ∈ (s.filter p).bindings ↔ (x, w) ∈ s.bindings ∧ p x w = true := mem_bindings_filter
  refine ⟨ne_var_of_mem_bindings, ?_, mem_bindings_singleton, mem_bindings_compose, union?_eq_some,
    hselected p, ?_, ?_, ?_, ?_, ?_, ?_⟩
  · exact fun h => ⟨mem_of_mem_bindings_ofList h, ne_var_of_mem_bindings h⟩
  · simp [restrict, hselected]
  · simp [without, hselected]
  · simp [variableFragment, hselected]
  · simp [nonVariableFragment, hselected]
  · simp [functionalFragment, hselected]
  · simp [nonFunctionalFragment, hselected]

end QueryAlgebra.Substitution
