import Mathlib.Tactic.ByContra
import Mathlib.Tactic.Push
import QueryAlgebra.Proofs.Substitution

/-!
# Most general unifiers

A substitution unifies equations if it makes both sides of each the same. What `unify?` returns does
so, replaces and puts in only variables of the equations, none of which it does both to, and every
other unifier comes after it (`Substitution.MostGeneral`). Where it returns nothing, there is no
unifier.

The induction is on the queue. A unifier of an equation between `x` and `t` does not tell `x` from
`t` (`Substitution.Unifies.apply_singleton`), so binding `x` neither gains nor loses unifiers of the
equations that wait, and what is bound at once comes first in the end
(`Substitution.MostGeneral.compose_singleton`). A variable and a term that it occurs in have images
of different sizes (`Substitution.size_applyVar_lt`), which is why the check for occurrence only
turns away what has no unifier.

Main statement: `Substitution.unify?_mostGeneral`.
-/

namespace QueryAlgebra

namespace Term

theorem size_le_sizeOfArgs {t : Term} {ts : List Term} (h : t ∈ ts) : t.size ≤ sizeOfArgs ts := by
  induction ts with
  | nil => exact absurd h List.not_mem_nil
  | cons u us ih =>
    rw [sizeOfArgs]
    rcases List.mem_cons.1 h with rfl | h
    · exact Nat.le_add_right _ _
    · exact Nat.le_trans (ih h) (Nat.le_add_left _ _)

end Term

namespace Substitution

variable {s u v : Substitution} {x y : Variable} {t : Term} {e : Equation} {es : List Equation}

-- ---------------------------------------------------------------------------
-- Bound variables and those put in
-- ---------------------------------------------------------------------------

theorem mem_domain_iff : x ∈ s.domain ↔ s.applyVar x ≠ .var x := by
  rw [mem_domain]
  constructor
  · rintro ⟨t, ht⟩ hx
    rw [applyVar_of_find? ht] at hx
    exact s.proper x (hx ▸ ht)
  · intro hx
    by_contra hfree
    push Not at hfree
    exact hx (applyVar_of_not_binds (Option.eq_none_iff_forall_ne_some.2 hfree))

theorem mem_rangeVars_iff : y ∈ s.rangeVars ↔ ∃ x ∈ s.domain, y ∈ (s.applyVar x).vars := by
  rw [mem_rangeVars]
  constructor
  · rintro ⟨x, t, hx, hy⟩
    exact ⟨x, mem_domain.2 ⟨t, hx⟩, (applyVar_of_find? hx).symm ▸ hy⟩
  · rintro ⟨x, hx, hy⟩
    obtain ⟨t, ht⟩ := mem_domain.1 hx
    exact ⟨x, t, ht, applyVar_of_find? ht ▸ hy⟩

/-- The variables of an image are old ones that are not replaced, or are put in. -/
theorem mem_vars_apply_cases (h : y ∈ (s.apply t).vars) :
    y ∈ t.vars ∧ s.applyVar y = .var y ∨ y ∈ s.rangeVars := by
  obtain ⟨x, hx, hy⟩ := mem_vars_apply.1 h
  by_cases hfree : s.applyVar x = .var x
  · rw [hfree, Term.mem_vars_var] at hy
    exact .inl ⟨hy ▸ hx, hy ▸ hfree⟩
  · exact .inr (mem_rangeVars_iff.2 ⟨x, mem_domain_iff.2 hfree, hy⟩)

theorem apply_singleton_of_not_mem (h : x ∉ t.vars) {w : Term} : (singleton x w).apply t = t := by
  apply apply_of_fixed
  intro y hy
  have hxy : x ≠ y := fun hxy => h (hxy ▸ hy)
  rw [applyVar_singleton, if_neg hxy]

-- ---------------------------------------------------------------------------
-- Unifiers
-- ---------------------------------------------------------------------------

/-- Both sides of every equation become the same. -/
def Unifies (s : Substitution) (es : List Equation) : Prop :=
  ∀ e ∈ es, s.apply e.left = s.apply e.right

theorem unifies_cons : s.Unifies (e :: es) ↔ s.apply e.left = s.apply e.right ∧ s.Unifies es :=
  List.forall_mem_cons

theorem unifies_append {es' : List Equation} :
    s.Unifies (es ++ es') ↔ s.Unifies es ∧ s.Unifies es' :=
  List.forall_mem_append

theorem unifies_substitute : s.Unifies (Equations.substitute u es) ↔ (s.compose u).Unifies es := by
  rw [Unifies, Equations.substitute, List.forall_mem_map]
  simp only [Equation.substitute, ← apply_compose]
  exact Iff.rfl

/-- The equations between the arguments hold where the lists of arguments become the same. -/
theorem unifies_zipWith {ss ts : List Term} (h : ss.length = ts.length) :
    s.Unifies (List.zipWith Equation.mk ss ts) ↔ ss.map s.apply = ts.map s.apply := by
  induction ss generalizing ts with
  | nil => cases ts with
    | nil => exact ⟨fun _ => rfl, fun _ => List.forall_mem_nil _⟩
    | cons _ _ => cases h
  | cons t ss ih => cases ts with
    | nil => cases h
    | cons t' ts =>
      rw [List.zipWith_cons_cons, unifies_cons, ih (Nat.succ.inj h), List.map_cons, List.map_cons,
        List.cons.injEq]

/-- An equation holds exactly where the equations that it is taken apart into do. -/
theorem unifies_decompose {parts : List Equation} (h : e.decompose? = some parts) :
    s.Unifies parts ↔ s.apply e.left = s.apply e.right := by
  obtain ⟨l, r⟩ := e
  unfold Equation.decompose? at h
  split at h
  · next f ss g ts hl hr =>
    obtain ⟨rfl, rfl⟩ : l = .app f ss ∧ r = .app g ts := ⟨hl, hr⟩
    split at h
    · next hsame =>
      cases h
      rw [unifies_zipWith hsame.2, apply_app, apply_app, hsame.1]
      simp
    · cases h
  · cases h

theorem sides_of_orient? (h : e.orient? = some (x, t)) :
    e.left = .var x ∧ e.right = t ∨ e.left = t ∧ e.right = .var x := by
  obtain ⟨l, r⟩ := e
  unfold Equation.orient? at h
  cases l with
  | var y =>
    cases h
    exact .inl ⟨rfl, rfl⟩
  | const c => cases r with
    | var y =>
      cases h
      exact .inr ⟨rfl, rfl⟩
    | const d => cases h
    | app g ts => cases h
  | app f ss => cases r with
    | var y =>
      cases h
      exact .inr ⟨rfl, rfl⟩
    | const d => cases h
    | app g ts => cases h

/-- An equation between a variable and a term says that their images are the same. -/
theorem apply_sides_iff (h : e.orient? = some (x, t)) :
    s.apply e.left = s.apply e.right ↔ s.applyVar x = s.apply t := by
  rcases sides_of_orient? h with ⟨hl, hr⟩ | ⟨hl, hr⟩
  · rw [hl, hr, apply_var]
  · rw [hl, hr, apply_var, eq_comm]

theorem ne_var_of_orient? (h : e.orient? = some (x, t)) (hne : e.left ≠ e.right) : t ≠ .var x := by
  rintro rfl
  rcases sides_of_orient? h with ⟨hl, hr⟩ | ⟨hl, hr⟩
  · exact hne (hl.trans hr.symm)
  · exact hne (hl.trans hr.symm)

/-- Who does not tell a variable from a term does not notice that one stands in for the other. -/
theorem apply_singleton_of_eq (h : s.applyVar x = s.apply t) (w : Term) :
    s.apply ((singleton x t).apply w) = s.apply w := by
  rw [← apply_compose]
  congr 1
  apply ext_applyVar
  intro y
  rw [applyVar_compose, applyVar_singleton]
  split
  · next hxy => rw [← h, hxy]
  · rfl

-- ---------------------------------------------------------------------------
-- Equations that nothing unifies
-- ---------------------------------------------------------------------------

/-- A term has a larger image than each variable that occurs in it, unless it is the variable. -/
theorem size_applyVar_lt (h : x ∈ t.vars) (hne : t ≠ .var x) :
    (s.applyVar x).size < (s.apply t).size := by
  have hle (w : Term) (hx : x ∈ w.vars) : (s.applyVar x).size ≤ (s.apply w).size := by
    induction w using Term.inductionOn with
    | var y => exact Nat.le_of_eq (by rw [Term.mem_vars_var.1 hx, apply_var])
    | const c => exact absurd hx Term.not_mem_vars_const
    | app f args ih =>
      obtain ⟨w, hw, hx⟩ := Term.mem_vars_app.1 hx
      have harg := Term.size_le_sizeOfArgs
        (List.mem_map.2 ⟨w, hw, rfl⟩ : s.apply w ∈ args.map s.apply)
      rw [apply_app, Term.size]
      have hsize := ih w hw hx
      omega
  cases t with
  | var y => exact absurd (by rw [Term.mem_vars_var.1 h]) hne
  | const c => exact absurd h Term.not_mem_vars_const
  | app f args =>
    obtain ⟨w, hw, hx⟩ := Term.mem_vars_app.1 h
    have harg := Term.size_le_sizeOfArgs
      (List.mem_map.2 ⟨w, hw, rfl⟩ : s.apply w ∈ args.map s.apply)
    have hw := hle w hx
    rw [apply_app, Term.size]
    omega

/-- Where neither side is a variable, only applications of one symbol to equally many arguments can
become the same. -/
theorem apply_ne_of_clash (hne : e.left ≠ e.right) (horient : e.orient? = none)
    (hdecompose : e.decompose? = none) : s.apply e.left ≠ s.apply e.right := by
  obtain ⟨l, r⟩ := e
  cases l with
  | var x => cases horient
  | const c => cases r with
    | var x => cases horient
    | const d => exact hne
    | app g ts =>
      rw [apply_const, apply_app]
      nofun
  | app f ss => cases r with
    | var x => cases horient
    | const d =>
      rw [apply_const, apply_app]
      nofun
    | app g ts =>
      rw [apply_app, apply_app]
      intro hsame
      injection hsame with hsymbol hargs
      have hlength : ss.length = ts.length := by simpa using congrArg List.length hargs
      rw [Equation.decompose?] at hdecompose
      simp only [hsymbol, hlength, and_self, if_true] at hdecompose
      cases hdecompose

-- ---------------------------------------------------------------------------
-- Most general unifiers
-- ---------------------------------------------------------------------------

/-- The substitution unifies the equations by means of their own variables, none of which it both
replaces and puts in, and every unifier comes after it. -/
structure MostGeneral (u : Substitution) (es : List Equation) : Prop where
  unifies : u.Unifies es
  idempotent : u.domain.Disjoint u.rangeVars
  domain_subset : u.domain ⊆ Equations.vars es
  rangeVars_subset : u.rangeVars ⊆ Equations.vars es
  general : ∀ v : Substitution, v.Unifies es → ∀ t, v.apply (u.apply t) = v.apply t

theorem mostGeneral_nil : (∅ : Substitution).MostGeneral [] where
  unifies := List.forall_mem_nil _
  idempotent _ hx := absurd hx (SortedSet.not_mem_empty _)
  domain_subset _ hx := absurd hx (SortedSet.not_mem_empty _)
  rangeVars_subset _ hx := absurd hx (SortedSet.not_mem_empty _)
  general _ _ _ := by rw [apply_empty]

/-- Only the unifiers of equations matter, and that the variables are among theirs. -/
theorem MostGeneral.congr {es' : List Equation} (h : u.MostGeneral es)
    (hunifies : ∀ v : Substitution, v.Unifies es' ↔ v.Unifies es)
    (hvars : Equations.vars es ⊆ Equations.vars es') : u.MostGeneral es' where
  unifies := (hunifies u).2 h.unifies
  idempotent := h.idempotent
  domain_subset x hx := hvars x (h.domain_subset x hx)
  rangeVars_subset x hx := hvars x (h.rangeVars_subset x hx)
  general v hv := h.general v ((hunifies v).1 hv)

section Bind

variable {rest : List Equation}

/-- Once `x` is bound to a term without it, it is gone from the equations. -/
theorem not_mem_vars_substitute (hx : x ∉ t.vars) :
    x ∉ Equations.vars (Equations.substitute (singleton x t) rest) := by
  intro hmem
  obtain ⟨_, he, hmem⟩ := Equations.mem_vars.1 hmem
  obtain ⟨e', -, rfl⟩ := List.mem_map.1 he
  exact hmem.elim (not_mem_vars_apply_singleton hx) (not_mem_vars_apply_singleton hx)

theorem mem_vars_substitute (hy : y ∈ Equations.vars (Equations.substitute (singleton x t) rest)) :
    y ∈ t.vars ∨ y ∈ Equations.vars rest := by
  obtain ⟨_, he, hy⟩ := Equations.mem_vars.1 hy
  obtain ⟨e', he', rfl⟩ := List.mem_map.1 he
  rcases hy with hy | hy
  · exact (mem_vars_apply_singleton hy).symm.imp_right fun hy =>
      Equations.mem_vars.2 ⟨e', he', .inl hy⟩
  · exact (mem_vars_apply_singleton hy).symm.imp_right fun hy =>
      Equations.mem_vars.2 ⟨e', he', .inr hy⟩

variable (horient : e.orient? = some (x, t))

include horient

theorem mem_vars_of_mem_substitute
    (hy : y ∈ Equations.vars (Equations.substitute (singleton x t) rest)) :
    y ∈ Equations.vars (e :: rest) := by
  rw [Equations.mem_vars_cons, Equation.vars_of_orient? horient]
  exact (mem_vars_substitute hy).imp_left .inr

/-- A unifier of an equation between `x` and `t` unifies the other equations with and without `t` in
the place of `x`. -/
theorem Unifies.substitute_rest (h : s.Unifies (e :: rest)) :
    s.Unifies (Equations.substitute (singleton x t) rest) := by
  obtain ⟨hsides, hrest⟩ := unifies_cons.1 h
  have habsorb := apply_singleton_of_eq ((apply_sides_iff horient).1 hsides)
  rw [unifies_substitute]
  intro e' he'
  rw [apply_compose, apply_compose, habsorb, habsorb]
  exact hrest e' he'

variable (hx : x ∉ t.vars) (h : u.MostGeneral (Equations.substitute (singleton x t) rest))

include hx h

/-- What is put in for `z` once `x` is bound first: neither `x` nor what `u` replaces, and nothing
new but from the equations. -/
theorem MostGeneral.of_mem_vars_compose {z : Variable}
    (hy : y ∈ ((u.compose (singleton x t)).applyVar z).vars) :
    y ≠ x ∧ u.applyVar y = .var y ∧ (y = z ∨ y ∈ Equations.vars (e :: rest)) := by
  rw [applyVar_compose] at hy
  rcases mem_vars_apply_cases hy with ⟨hy, hfree⟩ | hrange
  · have hyx : y ≠ x := by
      rintro rfl
      exact not_mem_vars_apply_singleton (u := .var z) hx hy
    refine ⟨hyx, hfree, ?_⟩
    rcases mem_vars_apply_singleton (u := .var z) hy with hy | hy
    · exact .inl (Term.mem_vars_var.1 hy)
    · rw [Equations.mem_vars_cons, Equation.vars_of_orient? horient]
      exact .inr (.inl (.inr hy))
  · have hmem := h.rangeVars_subset y hrange
    refine ⟨fun hyx => not_mem_vars_substitute hx (hyx ▸ hmem), ?_,
      .inr (mem_vars_of_mem_substitute horient hmem)⟩
    by_contra hbound
    exact h.idempotent y (mem_domain_iff.2 hbound) hrange

/-- Nothing that is put in is replaced. -/
theorem MostGeneral.fixed_of_mem_vars_compose {z : Variable}
    (hy : y ∈ ((u.compose (singleton x t)).applyVar z).vars) :
    (u.compose (singleton x t)).applyVar y = .var y := by
  obtain ⟨hyx, hfree, -⟩ := h.of_mem_vars_compose horient hx hy
  rw [applyVar_compose, applyVar_singleton, if_neg hyx.symm, apply_var, hfree]

/-- Once `x` is bound to `t` and gone from the other equations, a most general unifier of these
completes one of all. -/
theorem MostGeneral.compose_singleton : (u.compose (singleton x t)).MostGeneral (e :: rest) where
  unifies := by
    refine unifies_cons.2 ⟨?_, unifies_substitute.1 h.unifies⟩
    rw [apply_sides_iff horient, applyVar_compose, apply_compose, applyVar_singleton, if_pos rfl,
      apply_singleton_of_not_mem hx]
  idempotent y hy hrange := by
    obtain ⟨z, -, hyz⟩ := mem_rangeVars_iff.1 hrange
    exact mem_domain_iff.1 hy (h.fixed_of_mem_vars_compose horient hx hyz)
  domain_subset y hy := by
    have hmoved := mem_domain_iff.1 hy
    by_cases hyx : y = x
    · rw [Equations.mem_vars_cons, Equation.vars_of_orient? horient]
      exact .inl (.inl hyx)
    · rw [applyVar_compose, applyVar_singleton, if_neg (Ne.symm hyx), apply_var] at hmoved
      exact mem_vars_of_mem_substitute horient (h.domain_subset y (mem_domain_iff.2 hmoved))
  rangeVars_subset y hrange := by
    obtain ⟨z, hz, hyz⟩ := mem_rangeVars_iff.1 hrange
    rcases (h.of_mem_vars_compose horient hx hyz).2.2 with rfl | hy
    · exact absurd (h.fixed_of_mem_vars_compose horient hx hyz) (mem_domain_iff.1 hz)
    · exact hy
  general v hv w := by
    have habsorb := apply_singleton_of_eq ((apply_sides_iff horient).1 (unifies_cons.1 hv).1)
    rw [apply_compose, h.general v (hv.substitute_rest horient), habsorb]

end Bind

-- ---------------------------------------------------------------------------
-- The queue
-- ---------------------------------------------------------------------------

/-- What solving adds to the bindings so far is a most general unifier of the queue; where nothing
is returned, nothing unifies it. -/
theorem solve_spec (u : Substitution) (es : List Equation) :
    (∀ w ∈ solve u es, ∃ m : Substitution, m.MostGeneral es ∧ w = m.compose u) ∧
      (solve u es = none → ∀ v : Substitution, ¬v.Unifies es) := by
  fun_induction solve u es with
  | case1 u =>
    refine ⟨?_, nofun⟩
    rintro w ⟨⟩
    exact ⟨∅, mostGeneral_nil, ext_apply fun t => by rw [apply_compose, apply_empty]⟩
  | case2 u e rest hsame ih =>
    have hunifies (v : Substitution) : v.Unifies (e :: rest) ↔ v.Unifies rest := by
      rw [unifies_cons, hsame]
      exact and_iff_right rfl
    refine ⟨fun w hw => ?_, fun hnone v hv => ih.2 hnone v ((hunifies v).1 hv)⟩
    obtain ⟨m, hm, rfl⟩ := ih.1 w hw
    exact ⟨m, hm.congr hunifies fun x hx => Equations.mem_vars_cons.2 (.inr hx), rfl⟩
  | case3 u e rest hne x t horient hoccurs =>
    refine ⟨nofun, fun _ v hv => ?_⟩
    have hsize := size_applyVar_lt (s := v) (Term.mentions_iff.1 hoccurs)
      (ne_var_of_orient? horient hne)
    rw [(apply_sides_iff horient).1 (unifies_cons.1 hv).1] at hsize
    exact Nat.lt_irrefl _ hsize
  | case4 u e rest hne x t horient hoccurs ih =>
    have hx : x ∉ t.vars := fun hx => hoccurs (Term.mentions_iff.2 hx)
    constructor
    · intro w hw
      obtain ⟨m, hm, rfl⟩ := ih.1 w hw
      exact ⟨_, hm.compose_singleton horient hx, ext_apply fun t => by simp only [apply_compose]⟩
    · exact fun hnone v hv => ih.2 hnone v (hv.substitute_rest horient)
  | case5 u e rest hne horient parts hparts ih =>
    have hunifies (v : Substitution) : v.Unifies (e :: rest) ↔ v.Unifies (rest ++ parts) := by
      rw [unifies_cons, unifies_append, unifies_decompose hparts, and_comm]
    refine ⟨fun w hw => ?_, fun hnone v hv => ih.2 hnone v ((hunifies v).1 hv)⟩
    obtain ⟨m, hm, rfl⟩ := ih.1 w hw
    refine ⟨m, hm.congr hunifies fun x hx => ?_, rfl⟩
    obtain ⟨e', he', hx⟩ := Equations.mem_vars.1 hx
    rcases List.mem_append.1 he' with he' | he'
    · exact Equations.mem_vars_cons.2 (.inr (Equations.mem_vars.2 ⟨e', he', hx⟩))
    · exact Equations.mem_vars_cons.2
        (.inl (Equation.decompose?_vars hparts (Equations.mem_vars.2 ⟨e', he', hx⟩)))
  | case6 u e rest hne horient hparts =>
    exact ⟨nofun, fun _ v hv => apply_ne_of_clash hne horient hparts (unifies_cons.1 hv).1⟩

/-- Equations have a unifier exactly if one is returned, and what is returned is a most general one.
Lists of terms are unified place by place, so those of different lengths are not. -/
theorem unify?_mostGeneral (es : List Equation) (ss ts : List Term) :
    ((∃ u, unify? es = some u) ↔ ∃ v : Substitution, v.Unifies es) ∧
      (∀ u, unify? es = some u → u.MostGeneral es) ∧
      ((∃ u, unifyLists? ss ts = some u) ↔
        ss.length = ts.length ∧ ∃ v : Substitution, ss.map v.apply = ts.map v.apply) := by
  have hmost (es : List Equation) (u : Substitution) (hu : unify? es = some u) :
      u.MostGeneral es := by
    obtain ⟨m, hm, rfl⟩ := (solve_spec ∅ es).1 u hu
    rwa [compose_empty]
  have hsome (es : List Equation) :
      (∃ u, unify? es = some u) ↔ ∃ v : Substitution, v.Unifies es := by
    refine ⟨fun ⟨u, hu⟩ => ⟨u, (hmost es u hu).unifies⟩, fun ⟨v, hv⟩ => ?_⟩
    by_contra hnone
    push Not at hnone
    exact (solve_spec ∅ es).2 (Option.eq_none_iff_forall_ne_some.2 hnone) v hv
  refine ⟨hsome es, hmost es, ?_⟩
  unfold unifyLists?
  split
  · next hlength =>
    rw [hsome]
    simp only [hlength, true_and, unifies_zipWith hlength]
  · next hlength => simp [hlength]

end Substitution

end QueryAlgebra
