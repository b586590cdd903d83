import QueryAlgebra.Proofs.FreshNames

/-!
# Normal bindings are exact

`normalBindings` renames the variables of a child in one go: a variable that a binding shadows gets
a fresh name, and a hidden one takes the name that a binding gave it, which may be a name that was
given up in the same step. A child variable therefore is renamed in one of three ways
(`NamesChild`). No two of them lead to one name as long as the fresh names differ from those that are
there (`NamesApart`), which they do where these are known: two adopted names belong to two bindings,
and whoever had an adopted name was shadowed by its binding.

The bindings that are left compute, of the renamed child, what they computed before.

Main statement: `normalBindings_exact`.
-/

namespace QueryAlgebra

variable {projected xs : VarSet} {s bindings : Substitution} {supply : NameSupply} {x y z : Variable}
  {pairs : List (Variable × Variable)} {bs : List (Variable × Term)} {p : Variable × Variable}

-- ---------------------------------------------------------------------------
-- Adopted names
-- ---------------------------------------------------------------------------

/-- A name is adopted for a hidden child variable, from a binding to it. -/
theorem of_mem_adoptNames (h : p ∈ adoptNames projected xs pairs bs) :
    p ∈ pairs ∨ p.1 ∉ projected ∧ (p.2, .var p.1) ∈ bs := by
  induction bs generalizing pairs with
  | nil => exact .inl h
  | cons b bs ih =>
    have hlater {pairs : List (Variable × Variable)} (h : p ∈ adoptNames projected xs pairs bs) :
        p ∈ pairs ∨ p.1 ∉ projected ∧ (p.2, .var p.1) ∈ b :: bs :=
      (ih h).imp_right fun hp => ⟨hp.1, .tail _ hp.2⟩
    obtain ⟨x, t⟩ := b
    cases t with
    | var y =>
      rw [adoptNames] at h
      split at h
      · exact hlater h
      · next hfree =>
        rcases hlater h with hp | hp
        · rcases List.mem_append.1 hp with hp | hp
          · exact .inl hp
          · rw [List.mem_singleton.1 hp]
            exact .inr ⟨fun hmem => hfree (.inl hmem), .head _⟩
        · exact .inr hp
    | const c => exact hlater h
    | app g args => exact hlater h

/-- Names that are there stay. -/
theorem mem_adoptNames (h : p ∈ pairs) : p ∈ adoptNames projected xs pairs bs := by
  induction bs generalizing pairs with
  | nil => exact h
  | cons b bs ih =>
    obtain ⟨x, t⟩ := b
    cases t with
    | var y =>
      rw [adoptNames]
      split
      · exact ih h
      · exact ih (List.mem_append_left _ h)
    | const c => exact ih h
    | app g args => exact ih h

/-- No variable is renamed twice. -/
theorem nodup_adoptNames (h : (pairs.map Prod.fst).Nodup) :
    ((adoptNames projected xs pairs bs).map Prod.fst).Nodup := by
  induction bs generalizing pairs with
  | nil => exact h
  | cons b bs ih =>
    obtain ⟨x, t⟩ := b
    cases t with
    | var y =>
      rw [adoptNames]
      split
      · exact ih h
      · next hfree =>
        refine ih ?_
        rw [List.map_append, List.nodup_append]
        refine ⟨h, List.nodup_singleton _, fun z hz y' hy' hsame => hfree (.inr (.inr ?_))⟩
        obtain ⟨p, hp, rfl⟩ := List.mem_map.1 hz
        obtain rfl := List.mem_singleton.1 hy'
        exact List.any_eq_true.2 ⟨p, hp, decide_eq_true hsame⟩
    | const c => exact ih h
    | app g args => exact ih h

/-- A child variable that is hidden and to which another one is bound gets a new name. -/
theorem mem_map_fst_adoptNames {pairs : List (Variable × Variable)} {bs : List (Variable × Term)}
    (h : (x, .var y) ∈ bs) (hy : y ∈ xs) (hhidden : y ∉ projected) :
    y ∈ (adoptNames projected xs pairs bs).map Prod.fst := by
  induction bs generalizing pairs with
  | nil => cases h
  | cons b bs ih =>
    obtain ⟨z, t⟩ := b
    rcases List.mem_cons.1 h with he | hlater
    · cases he
      rw [adoptNames]
      split
      · next hnamed =>
        have hpair : pairs.any (·.1 = y) = true :=
          (hnamed.resolve_left hhidden).resolve_left (not_not_intro hy)
        obtain ⟨p, hp, hpy⟩ := List.any_eq_true.1 hpair
        exact List.mem_map.2 ⟨p, mem_adoptNames hp, of_decide_eq_true hpy⟩
      · exact List.mem_map.2 ⟨(y, x), mem_adoptNames (List.mem_append_right _ (.head _)), rfl⟩
    · cases t with
      | var w =>
        rw [adoptNames]
        split
        · exact ih hlater
        · exact ih hlater
      | const c => exact ih hlater
      | app g args => exact ih hlater

-- ---------------------------------------------------------------------------
-- The new names of the child
-- ---------------------------------------------------------------------------

/-- The child variables that are bound above, with their fresh names. -/
def shadowedNames (bindings : Substitution) (projected xs : VarSet) (supply : NameSupply) :
    List (Variable × Variable) :=
  (supply.freshForEach ((bindings.restrict projected).domain ∩ xs).toList).1

/-- How the child variable `y` comes to its new name `z`. -/
inductive NamesChild (bindings : Substitution) (projected xs : VarSet) (supply : NameSupply)
    (y z : Variable) : Prop
  | fresh (h : (y, z) ∈ shadowedNames bindings projected xs supply)
  | adopted (hidden : y ∉ projected)
      (bound : (bindings.restrict projected).find? z = some (.var y))
  | kept (same : z = y) (unbound : y ∉ (bindings.restrict projected).domain)

theorem mem_domain_restrict :
    x ∈ (bindings.restrict projected).domain ↔ x ∈ bindings.domain ∧ x ∈ projected := by
  simp only [Substitution.mem_domain, Substitution.find?_restrict_eq_some, exists_and_right]

theorem map_fst_shadowedNames :
    (shadowedNames bindings projected xs supply).map Prod.fst
      = ((bindings.restrict projected).domain ∩ xs).toList :=
  supply.map_fst_freshForEach _

theorem nodup_shadowedNames :
    ((shadowedNames bindings projected xs supply).map Prod.fst).Nodup := by
  rw [map_fst_shadowedNames]
  exact SortedSet.nodup _

/-- Every child variable has a name that it came to in one of these ways. -/
theorem exists_namesChild (bindings : Substitution) (projected : VarSet) (supply : NameSupply)
    (hy : y ∈ xs) : ∃ z, (normalBindings bindings projected xs supply).1.childNames.applyVar y = .var z ∧
      NamesChild bindings projected xs supply y z := by
  by_cases hnamed : y ∈ (adoptNames projected xs (shadowedNames bindings projected xs supply)
      (bindings.restrict projected).bindings).map Prod.fst
  · obtain ⟨⟨y, z⟩, hp, rfl⟩ := List.mem_map.1 hnamed
    refine ⟨z, Substitution.applyVar_renameEach (nodup_adoptNames nodup_shadowedNames) hp, ?_⟩
    rcases of_mem_adoptNames hp with hfresh | ⟨hhidden, hbound⟩
    · exact .fresh hfresh
    · exact .adopted hhidden (Substitution.mem_bindings.1 hbound)
  · refine ⟨y, Substitution.applyVar_renameEach_of_not_mem hnamed, .kept rfl fun hbound => hnamed ?_⟩
    have hshadowed : y ∈ (shadowedNames bindings projected xs supply).map Prod.fst := by
      rw [map_fst_shadowedNames]
      exact SortedSet.mem_inter.2 ⟨hbound, hy⟩
    obtain ⟨p, hp, rfl⟩ := List.mem_map.1 hshadowed
    exact List.mem_map_of_mem (mem_adoptNames hp)

theorem flat_childNames : (normalBindings bindings projected xs supply).1.childNames.Flat :=
  Substitution.flat_renameEach

/-- No fresh name is one that a projected variable or a variable of the child has already. -/
def NamesApart (bindings : Substitution) (projected xs : VarSet) (supply : NameSupply) : Prop :=
  ∀ p ∈ shadowedNames bindings projected xs supply, p.2 ∉ projected ∧ p.2 ∉ xs

instance : Decidable (NamesApart bindings projected xs supply) :=
  inferInstanceAs (Decidable (∀ p ∈ shadowedNames bindings projected xs supply, _))

/-- A fresh name is none that the supply knows. -/
theorem namesApart_of_known (hprojected : projected ⊆ supply.known) (hxs : xs ⊆ supply.known) :
    NamesApart bindings projected xs supply := by
  intro p hp
  have hunknown := NameSupply.not_known_of_mem_freshForEach hp
  exact ⟨fun h => hunknown (hprojected p.2 h), fun h => hunknown (hxs p.2 h)⟩

section Apart

variable (hapart : NamesApart bindings projected xs supply)
include hapart

theorem not_bound_of_fresh (h : (y, z) ∈ shadowedNames bindings projected xs supply) :
    z ∉ (bindings.restrict projected).domain :=
  fun hz => (hapart (y, z) h).1 (mem_domain_restrict.1 hz).2

/-- No two child variables come to one name. -/
theorem NamesChild.injective (h : NamesChild bindings projected xs supply y z)
    (h' : NamesChild bindings projected xs supply x z) (hy : y ∈ xs) (hx : x ∈ xs) : x = y := by
  cases h with
  | fresh hz =>
    cases h' with
    | fresh hz' =>
      have hpairs := List.inj_on_of_nodup_map (supply.nodup_freshForEach _) hz' hz rfl
      exact congrArg Prod.fst hpairs
    | adopted _ hbound =>
      exact absurd (Substitution.mem_domain.2 ⟨_, hbound⟩) (not_bound_of_fresh hapart hz)
    | kept hsame _ => exact absurd (hsame ▸ hx) (hapart (y, z) hz).2
  | adopted _ hbound =>
    have hdomain := Substitution.mem_domain.2 ⟨_, hbound⟩
    cases h' with
    | fresh hz' => exact absurd hdomain (not_bound_of_fresh hapart hz')
    | adopted _ hbound' => exact Term.var.inj (Option.some.inj (hbound'.symm.trans hbound))
    | kept hsame hunbound => exact absurd (hsame ▸ hdomain) hunbound
  | kept hsame hunbound =>
    cases h' with
    | fresh hz' => exact absurd (hsame ▸ hy) (hapart (x, z) hz').2
    | adopted _ hbound' =>
      exact absurd (hsame ▸ Substitution.mem_domain.2 ⟨_, hbound'⟩) hunbound
    | kept hsame' _ => exact hsame'.symm.trans hsame

theorem childNames_injective (hy : y ∈ xs) (hx : x ∈ xs)
    (hsame : (normalBindings bindings projected xs supply).1.childNames.applyVar x
      = (normalBindings bindings projected xs supply).1.childNames.applyVar y) : x = y := by
  obtain ⟨z, hz, hnames⟩ := exists_namesChild bindings projected supply hy
  obtain ⟨z', hz', hnames'⟩ := exists_namesChild bindings projected supply hx
  obtain rfl : z' = z := Term.var.inj (hz'.symm.trans (hsame.trans hz))
  exact hnames.injective hapart hnames' hy hx

/-- The binding from which a name is adopted goes away, and there is none for other names. -/
theorem childNames_unbound (hy : y ∈ xs)
    (hyz : (normalBindings bindings projected xs supply).1.childNames.applyVar y = .var z) :
    z ∉ (normalBindings bindings projected xs supply).1.bindings.domain := by
  intro hz
  obtain ⟨u, hu⟩ := Substitution.mem_domain.1 hz
  obtain ⟨t, ht, rfl⟩ := Substitution.exists_find?_of_mapTerms hu
  obtain ⟨z', hz', hnames⟩ := exists_namesChild bindings projected supply hy
  obtain rfl : z = z' := Term.var.inj (hyz.symm.trans hz')
  have hdomain : z ∈ (bindings.restrict projected).domain := Substitution.mem_domain.2 ⟨t, ht⟩
  cases hnames with
  | fresh hfresh => exact not_bound_of_fresh hapart hfresh hdomain
  | adopted _ hbound =>
    obtain rfl : .var y = t := Option.some.inj (hbound.symm.trans ht)
    exact Substitution.proper _ z (hu.trans (congrArg some hyz))
  | kept hsame hunbound => exact hunbound (hsame ▸ hdomain)

end Apart

/-- The supply gets to know the fresh names, and the other ones it knew. -/
theorem applyVars_childNames_known (hprojected : projected ⊆ supply.known)
    (hxs : xs ⊆ supply.known) :
    (normalBindings bindings projected xs supply).1.childNames.applyVars xs
      ⊆ (normalBindings bindings projected xs supply).2.known := by
  obtain ⟨hkept, hnew⟩ :=
    supply.known_freshForEach ((bindings.restrict projected).domain ∩ xs).toList
  intro z hz
  obtain ⟨y, hy, hyz⟩ := flat_childNames.mem_applyVars.1 hz
  obtain ⟨z', hz', hnames⟩ := exists_namesChild bindings projected supply hy
  obtain rfl : z = z' := Term.var.inj (hyz.symm.trans hz')
  cases hnames with
  | fresh hfresh => exact hnew _ hfresh
  | adopted _ hbound =>
    have hdomain := Substitution.mem_domain.2 ⟨_, hbound⟩
    exact hkept z (hprojected z (mem_domain_restrict.1 hdomain).2)
  | kept hsame _ => exact hkept z (hsame ▸ hxs y hy)

-- ---------------------------------------------------------------------------
-- What the bindings compute
-- ---------------------------------------------------------------------------

/-- What is projected and not bound keeps its name. -/
theorem childNames_fixed (hx : x ∈ projected) (hfind : (bindings.restrict projected).find? x = none) :
    (normalBindings bindings projected xs supply).1.childNames.applyVar x = .var x := by
  refine Substitution.applyVar_renameEach_of_not_mem fun hmem => ?_
  obtain ⟨p, hp, rfl⟩ := List.mem_map.1 hmem
  rcases of_mem_adoptNames hp with hp | ⟨hhidden, -⟩
  · have hshadowed := List.mem_map_of_mem (f := Prod.fst) hp
    rw [NameSupply.map_fst_freshForEach] at hshadowed
    obtain ⟨t, ht⟩ := Substitution.mem_domain.1 (SortedSet.mem_inter.1 hshadowed).1
    rw [hfind] at ht
    cases ht
  · exact hhidden hx

/-- The bindings compute the renamed terms. -/
theorem applyVar_normalBindings (hx : x ∈ projected) :
    (normalBindings bindings projected xs supply).1.bindings.applyVar x
      = (normalBindings bindings projected xs supply).1.childNames.apply (bindings.applyVar x) := by
  have hrestricted : (bindings.restrict projected).applyVar x = bindings.applyVar x := by
    rw [Substitution.applyVar_restrict, if_pos hx]
  have hmapped : (normalBindings bindings projected xs supply).1.bindings.applyVar x
      = (((bindings.restrict projected).find? x).map
          (normalBindings bindings projected xs supply).1.childNames.apply).getD (.var x) :=
    Substitution.applyVar_mapTerms
  rw [← hrestricted, hmapped]
  cases hfind : (bindings.restrict projected).find? x with
  | some t =>
    rw [Substitution.applyVar_of_find? hfind]
    rfl
  | none =>
    rw [Substitution.applyVar_of_not_binds hfind, Substitution.apply_var, childNames_fixed hx hfind]
    rfl

/-- The child variables get different names, none of which is bound afterwards. A row of the renamed
child with the values of a row of the child computes, under the normal bindings, what the row computed
under the bindings; there is such a row. -/
theorem normalBindings_exact (hrange : bindings.rangeVars ⊆ xs)
    (hpassed : ∀ x ∈ projected, x ∉ bindings.domain → x ∈ xs)
    (hprojected : projected ⊆ supply.known) (hxs : xs ⊆ supply.known) (nb : NormalBindings)
    (hnb : (normalBindings bindings projected xs supply).1 = nb) :
    (∀ y ∈ xs, ∃ z, nb.childNames.applyVar y = .var z) ∧
    (∀ y ∈ xs, ∀ y' ∈ xs, nb.childNames.applyVar y' = nb.childNames.applyVar y → y' = y) ∧
    nb.bindings.domain.Disjoint (nb.childNames.applyVars xs) ∧
    ∀ (I : Interpretation) (ρ : Row),
      (∃ σ : Row, ∀ y ∈ xs, I.eval σ (nb.childNames.applyVar y) = ρ y) ∧
      ∀ σ : Row, (∀ y ∈ xs, I.eval σ (nb.childNames.applyVar y) = ρ y) → ∀ x ∈ projected,
        I.eval σ (nb.bindings.applyVar x) = I.eval ρ (bindings.applyVar x) := by
  subst hnb
  have hapart : NamesApart bindings projected xs supply := namesApart_of_known hprojected hxs
  have hvariable : ∀ y ∈ xs, ∃ z,
      (normalBindings bindings projected xs supply).1.childNames.applyVar y = .var z := by
    intro y hy
    obtain ⟨z, hz, -⟩ := exists_namesChild bindings projected supply hy
    exact ⟨z, hz⟩
  have hinjective : ∀ y ∈ xs, ∀ y' ∈ xs,
      (normalBindings bindings projected xs supply).1.childNames.applyVar y'
        = (normalBindings bindings projected xs supply).1.childNames.applyVar y → y' = y :=
    fun y hy y' hy' => childNames_injective hapart hy hy'
  refine ⟨hvariable, hinjective, ?_, fun I ρ => ⟨?_, fun σ hσ x hx => ?_⟩⟩
  · intro z hz himage
    obtain ⟨y, hy, hyz⟩ := flat_childNames.mem_applyVars.1 himage
    exact childNames_unbound hapart hy hyz hz
  · have hvariable : ∀ y ∈ xs,
        ((normalBindings bindings projected xs supply).1.childNames.applyVar y).isVariable = true := by
      intro y hy
      obtain ⟨z, hz⟩ := hvariable y hy
      rw [hz]
      rfl
    have himage := Row.renamed?_of_injective (I := I) (ρ := ρ) flat_childNames hvariable hinjective
    exact ⟨_, fun y hy => (((Row.renamed?_eq_some flat_childNames).1 himage).2 y hy).1⟩
  · have hvars : (bindings.applyVar x).vars ⊆ xs := by
      by_cases hbound : x ∈ bindings.domain
      · obtain ⟨t, ht⟩ := Substitution.mem_domain.1 hbound
        rw [Substitution.applyVar_of_find? ht]
        exact fun y hy => hrange y (Substitution.mem_rangeVars.2 ⟨x, t, ht, hy⟩)
      · rw [Substitution.applyVar_of_not_mem_domain hbound]
        intro y hy
        obtain rfl := Term.mem_vars_var.1 hy
        exact hpassed y hx hbound
    rw [applyVar_normalBindings hx, Interpretation.eval_apply]
    exact Interpretation.eval_congr fun y hy => hσ y (hvars y hy)

/-- `x` is shadowed, `y` takes the name that it gives up, and two bindings share `z`. -/
theorem normalBindings_exact_of_swap :
    let x : Variable := ⟨"x"⟩
    let y : Variable := ⟨"y"⟩
    let z : Variable := ⟨"z"⟩
    let u : Variable := ⟨"u"⟩
    let v : Variable := ⟨"v"⟩
    let w : Variable := ⟨"w"⟩
    let fresh : Variable := ⟨"x_f0"⟩
    let f : List Term → Term := .app ⟨.db "f", 2⟩
    let bindings : Substitution :=
      .ofList [(x, .var y), (u, .var z), (v, .var z), (w, f [.var x, .var y])]
    let projected : VarSet := .ofList [u, v, w, x]
    let xs : VarSet := .ofList [x, y, z]
    let supply := NameSupply.ofKnown (.ofList [u, v, w, x, y, z])
    let nb : NormalBindings :=
      ⟨.ofList [(v, .var u), (w, f [.var fresh, .var x])],
        .ofList [(x, .var fresh), (y, .var x), (z, .var u)]⟩
    (normalBindings bindings projected xs supply).1 = nb ∧
      nb.bindings.domain.Disjoint (nb.childNames.applyVars xs) ∧
      ∀ (I : Interpretation) (ρ σ : Row), (∀ y ∈ xs, I.eval σ (nb.childNames.applyVar y) = ρ y) →
        ∀ x ∈ projected, I.eval σ (nb.bindings.applyVar x) = I.eval ρ (bindings.applyVar x) := by
  intro x y z u v w fresh f bindings projected xs supply nb
  have hnb : (normalBindings bindings projected xs supply).1 = nb := by decide +kernel
  have hrange : bindings.rangeVars ⊆ xs := by decide +kernel
  have hpassed : ∀ x ∈ projected.toList, x ∉ bindings.domain → x ∈ xs := by decide +kernel
  obtain ⟨-, -, hdisjoint, hvalues⟩ :=
    normalBindings_exact hrange hpassed (by decide +kernel) (by decide +kernel) nb hnb
  exact ⟨hnb, hdisjoint, fun I ρ => (hvalues I ρ).2⟩

end QueryAlgebra
