import QueryAlgebra.Proofs.Images
import QueryAlgebra.Proofs.Truth

/-!
# Equations between variables and constants

The equations that a condition is split into are flat: each is between variables and constants, none
of which is NULL (`Equation.Plain`). Solving them gives a substitution that follows from them: a row
that satisfies all of them gives every bound variable the value of its binding, and NULL to none
(`Substitution.HoldsAt`). It is as good as those of them whose sides differ: an equation `x = x` is
dropped by the unifier, but under SQL it is not true of NULL.

Main statement: `Substitution.answers_unify?` — the unifier only uses the variables of the equations
and never one that it replaces (`Substitution.Solved`), holds for the rows that satisfy the equations,
for no others of those that satisfy each `x = x` among them, and is missing only if there are none.
-/

namespace QueryAlgebra

-- ---------------------------------------------------------------------------
-- Solved equations
-- ---------------------------------------------------------------------------

/-- An equation between variables and constants other than NULL. -/
structure Equation.Plain (e : Equation) : Prop where
  left_flat : e.left.isFunctional = false
  right_flat : e.right.isFunctional = false
  left_ne_null : e.left ≠ .null
  right_ne_null : e.right ≠ .null

namespace Substitution

variable {I : Interpretation} {ρ : Row} {s u e : Substitution} {xs : VarSet} {x : Variable}
  {t : Term}

/-- Every bound variable has the value of its binding, which is not NULL. -/
def HoldsAt (I : Interpretation) (s : Substitution) (ρ : Row) : Prop :=
  ∀ x, s.applyVar x ≠ .var x → ρ x = I.eval ρ (s.applyVar x) ∧ ρ x ≠ .null

/-- Some of `xs` are sent to constants other than NULL or to those of `xs` that stay where they
are. -/
structure Solved (xs : VarSet) (s : Substitution) : Prop where
  flat : s.Flat
  ne_null : ∀ x, s.applyVar x ≠ .null
  fixed : ∀ x, x ∉ xs → s.applyVar x = .var x
  range : ∀ x ∈ xs, ∀ y, s.applyVar x = .var y → y ∈ xs
  idempotent : ∀ x y, s.applyVar x = .var y → s.applyVar y = .var y

theorem holdsAt_empty : (∅ : Substitution).HoldsAt I ρ := fun _ hx => absurd rfl hx

theorem solved_empty : (∅ : Substitution).Solved xs where
  flat := flat_empty
  ne_null _ h := by cases h
  fixed _ _ := rfl
  range x hx y hy := Term.var.inj hy ▸ hx
  idempotent _ _ _ := rfl

/-- A substitution holds where each of its bindings does, read as an equation. -/
theorem holdsAt_iff_find? :
    s.HoldsAt I ρ ↔ ∀ x t, s.find? x = some t → I.Holds ρ (.eq (.var x) t) := by
  constructor
  · intro h x t hx
    have hxt := applyVar_of_find? hx
    have hne : s.applyVar x ≠ .var x := fun hsame => s.proper x (by rw [← hsame, hxt]; exact hx)
    rw [Interpretation.holds_eq, ← hxt]
    exact h x hne
  · intro h x hne
    cases hx : s.find? x with
    | none => exact absurd (by rw [applyVar, hx, Option.getD_none]) hne
    | some t =>
      rw [applyVar_of_find? hx]
      exact Interpretation.holds_eq.1 (h x t hx)

/-- Replacing the bound variables makes no difference to the row. -/
theorem HoldsAt.row_eq (h : s.HoldsAt I ρ) : (fun x => I.eval ρ (s.applyVar x)) = ρ := by
  funext x
  by_cases hx : s.applyVar x = .var x
  · rw [hx]
    rfl
  · exact (h x hx).1.symm

theorem HoldsAt.eval_apply (h : s.HoldsAt I ρ) (t : Term) :
    I.eval ρ (s.apply t) = I.eval ρ t := by
  rw [Interpretation.eval_apply, h.row_eq]

theorem HoldsAt.holds_applyExpression (h : s.HoldsAt I ρ) (c : Expression) :
    I.Holds ρ (s.applyExpression c) ↔ I.Holds ρ c := by
  rw [Interpretation.holds_applyExpression, h.row_eq]

/-- What is put in is not replaced again. -/
theorem Solved.applyVar_of_mem_vars (hs : s.Solved xs) {y : Variable}
    (hy : y ∈ (s.apply t).vars) : s.applyVar y = .var y := by
  obtain ⟨z, -, hz⟩ := mem_vars_apply.1 hy
  rcases Term.eq_var_or_const (hs.flat z) with ⟨w, hw⟩ | ⟨c, hc⟩
  · rw [hw, Term.mem_vars_var] at hz
    exact hs.idempotent z y (hz ▸ hw)
  · rw [hc] at hz
    exact absurd hz Term.not_mem_vars_const

theorem Solved.mem_applyVars (hs : s.Solved xs) {y : Variable} :
    y ∈ s.applyVars xs ↔ y ∈ xs ∧ s.applyVar y = .var y := by
  rw [hs.flat.mem_applyVars]
  constructor
  · rintro ⟨x, hx, hxy⟩
    exact ⟨hs.range x hx y hxy, hs.idempotent x y hxy⟩
  · rintro ⟨hy, hfixed⟩
    exact ⟨y, hy, hfixed⟩

theorem Solved.mem_of_moved (hs : s.Solved xs) {x : Variable} (hx : s.applyVar x ≠ .var x) :
    x ∈ xs := by
  by_contra hxs
  exact hx (hs.fixed x hxs)

/-- Solved equalities stay solved when some of them are left out. -/
theorem Solved.without (hs : s.Solved xs) (ys : VarSet) : (s.without ys).Solved xs where
  flat := hs.flat.without ys
  ne_null x := by
    rw [applyVar_without]
    split
    · nofun
    · exact hs.ne_null x
  fixed x hx := by
    rw [applyVar_without, hs.fixed x hx, ite_self]
  range x hx y hy := by
    rw [applyVar_without] at hy
    split at hy
    · exact Term.var.inj hy ▸ hx
    · exact hs.range x hx y hy
  idempotent x y hy := by
    rw [applyVar_without] at hy
    split at hy
    · next hx => rw [applyVar_without, ← Term.var.inj hy, if_pos hx]
    · rw [applyVar_without, hs.idempotent x y hy, ite_self]

/-- What solved equalities keep is kept by some of them. -/
theorem Solved.applyVars_subset_without (hs : s.Solved xs) (ys : VarSet) :
    s.applyVars xs ⊆ (s.without ys).applyVars xs := by
  intro y hy
  obtain ⟨hyxs, hfixed⟩ := hs.mem_applyVars.1 hy
  refine (hs.without ys).mem_applyVars.2 ⟨hyxs, ?_⟩
  rw [applyVar_without, hfixed, ite_self]

/-- No variable is both replaced and put in. -/
theorem Solved.disjoint (hs : s.Solved xs) : s.domain.Disjoint s.rangeVars := by
  intro y hy hrange
  obtain ⟨x, t, hx, hyt⟩ := mem_rangeVars.1 hrange
  have hxt := applyVar_of_find? hx
  have hxy : s.applyVar x = .var y := hs.flat.mem_vars_applyVar.1 (hxt ▸ hyt)
  obtain ⟨u, hu⟩ := mem_domain.1 hy
  have hfixed := hs.idempotent x y hxy
  rw [applyVar_of_find? hu] at hfixed
  exact s.proper y (hfixed ▸ hu)

-- ---------------------------------------------------------------------------
-- One more binding
-- ---------------------------------------------------------------------------

theorem applyVar_singleton_compose (z : Variable) :
    ((singleton x t).compose u).applyVar z =
      if u.applyVar z = .var x then t else (singleton x t).apply (u.applyVar z) := by
  rw [applyVar_compose]
  split
  · next hz => rw [hz, apply_var, applyVar_singleton, if_pos rfl]
  · rfl

/-- A term other than the variable `x` is left alone where only `x` is replaced. -/
theorem apply_singleton_of_flat {w : Term} (hw : w.isFunctional = false) (hne : w ≠ .var x) :
    (singleton x t).apply w = w := by
  rcases Term.eq_var_or_const hw with ⟨y, rfl⟩ | ⟨c, rfl⟩
  · have hxy : x ≠ y := fun h => hne (by rw [h])
    rw [apply_var, applyVar_singleton, if_neg hxy]
  · rfl

section Extend

variable (hu : u.Solved xs) (hx : u.applyVar x = .var x) (ht : t.isFunctional = false)
  (hfixed : ∀ y, t = .var y → u.applyVar y = .var y) (hne : t ≠ .var x)

include hu ht in
theorem flat_singleton_compose : ((singleton x t).compose u).Flat := by
  intro z
  rw [applyVar_singleton_compose]
  split
  · exact ht
  · next hz =>
    rw [apply_singleton_of_flat (hu.flat z) hz]
    exact hu.flat z

include hu ht hfixed hne in
theorem solved_singleton_compose (hxs : x ∈ xs) (htxs : ∀ y, t = .var y → y ∈ xs)
    (hnull : t ≠ .null) : ((singleton x t).compose u).Solved xs where
  flat := flat_singleton_compose hu ht
  ne_null z := by
    rw [applyVar_singleton_compose]
    split
    · exact hnull
    · next hz =>
      rw [apply_singleton_of_flat (hu.flat z) hz]
      exact hu.ne_null z
  fixed z hz := by
    have hzx : z ≠ x := fun h => hz (h ▸ hxs)
    rw [applyVar_singleton_compose, hu.fixed z hz, if_neg (by simpa using hzx)]
    exact apply_singleton_of_flat rfl (by simpa using hzx)
  range z hz y hy := by
    rw [applyVar_singleton_compose] at hy
    split at hy
    · exact htxs y hy
    · next hzx =>
      rw [apply_singleton_of_flat (hu.flat z) hzx] at hy
      exact hu.range z hz y hy
  idempotent z y hy := by
    have hkeep : u.applyVar y = .var y ∧ y ≠ x := by
      rw [applyVar_singleton_compose] at hy
      split at hy
      · exact ⟨hfixed y hy, fun h => hne (h ▸ hy)⟩
      · next hzx =>
        rw [apply_singleton_of_flat (hu.flat z) hzx] at hy
        exact ⟨hu.idempotent z y hy, fun h => hzx (h ▸ hy)⟩
    rw [applyVar_singleton_compose, hkeep.1, if_neg (by simpa using hkeep.2)]
    exact apply_singleton_of_flat rfl (by simpa using hkeep.2)

include hu hx hfixed hne in
theorem holdsAt_singleton_compose :
    ((singleton x t).compose u).HoldsAt I ρ ↔
      u.HoldsAt I ρ ∧ ρ x = I.eval ρ t ∧ ρ x ≠ .null := by
  have hsame {z : Variable} (hz : u.applyVar z ≠ .var x) :
      ((singleton x t).compose u).applyVar z = u.applyVar z := by
    rw [applyVar_singleton_compose, if_neg hz, apply_singleton_of_flat (hu.flat z) hz]
  have hbound {z : Variable} (hz : u.applyVar z = .var x) :
      ((singleton x t).compose u).applyVar z = t := by
    rw [applyVar_singleton_compose, if_pos hz]
  constructor
  · intro h
    obtain ⟨hvalue, hnonnull⟩ := h x (by rwa [hbound hx])
    rw [hbound hx] at hvalue
    refine ⟨fun z hz => ?_, hvalue, hnonnull⟩
    by_cases hzx : u.applyVar z = .var x
    · -- `t` is not `z`, because `u` replaces `z` and leaves `t` alone
      have htz : t ≠ .var z := fun he => hz (hfixed z he)
      obtain ⟨hz', hnonnull'⟩ := h z (by rwa [hbound hzx])
      rw [hbound hzx] at hz'
      rw [hzx, Interpretation.eval_var, hvalue]
      exact ⟨hz', hnonnull'⟩
    · have hz' := h z (by rwa [hsame hzx])
      rwa [hsame hzx] at hz'
  · rintro ⟨h, hvalue, hnonnull⟩ z hz
    by_cases hzx : u.applyVar z = .var x
    · rw [hbound hzx, ← hvalue]
      by_cases hzz : z = x
      · rw [hzz]
        exact ⟨rfl, hnonnull⟩
      · have hz' := h z (by rw [hzx]; simpa using Ne.symm hzz)
        rwa [hzx, Interpretation.eval_var] at hz'
    · rw [hsame hzx] at hz ⊢
      exact h z hz

end Extend

-- ---------------------------------------------------------------------------
-- Solving
-- ---------------------------------------------------------------------------

theorem Flat.apply_isFunctional (hs : s.Flat) (ht : t.isFunctional = false) :
    (s.apply t).isFunctional = false := by
  rcases Term.eq_var_or_const ht with ⟨y, rfl⟩ | ⟨c, rfl⟩
  · exact hs y
  · rfl

theorem Solved.apply_ne_null (hs : s.Solved xs) (ht : t ≠ .null) (hflat : t.isFunctional = false) :
    s.apply t ≠ .null := by
  rcases Term.eq_var_or_const hflat with ⟨y, rfl⟩ | ⟨c, rfl⟩
  · exact hs.ne_null y
  · exact ht

/-- A unifier that holds for the rows that satisfy `p`, and for no others of those where it is
exact; none only if no row does. -/
def Answers (I : Interpretation) (xs : VarSet) (p exact : Row → Prop) :
    Option Substitution → Prop
  | some e => e.Solved xs ∧ (∀ ρ, p ρ → e.HoldsAt I ρ) ∧ ∀ ρ, exact ρ → e.HoldsAt I ρ → p ρ
  | none => ∀ ρ, ¬p ρ

theorem Answers.congr {p p' exact exact' : Row → Prop} {e? : Option Substitution}
    (h : Answers I xs p exact e?) (hp : ∀ ρ, p' ρ → p ρ) (hexact : ∀ ρ, exact' ρ → exact ρ)
    (hp' : ∀ ρ, exact' ρ → p ρ → p' ρ) : Answers I xs p' exact' e? := by
  cases e? with
  | none => exact fun ρ hρ => h ρ (hp ρ hρ)
  | some e =>
    obtain ⟨hsolved, hholds, hback⟩ := h
    exact ⟨hsolved, fun ρ hρ => hholds ρ (hp ρ hρ),
      fun ρ he hρ => hp' ρ he (hback ρ (hexact ρ he) hρ)⟩

/-- An equation whose sides the bindings make the same is true wherever they hold: one side at least
is a bound variable. -/
theorem HoldsAt.holds_of_apply_eq (h : u.HoldsAt I ρ) {eq : Equation} (heq : eq.Plain)
    (hne : eq.left ≠ eq.right) (hsame : u.apply eq.left = u.apply eq.right) :
    I.Holds ρ (.eq eq.left eq.right) := by
  have hvalues : I.eval ρ eq.left = I.eval ρ eq.right := by
    rw [← h.eval_apply eq.left, hsame, h.eval_apply]
  rw [Interpretation.holds_eq]
  refine ⟨hvalues, ?_⟩
  rcases Term.eq_var_or_const heq.left_flat with ⟨x, hx⟩ | ⟨c, hc⟩
  · by_cases hxu : u.applyVar x = .var x
    · rcases Term.eq_var_or_const heq.right_flat with ⟨y, hy⟩ | ⟨d, hd⟩
      · have hyu : u.applyVar y ≠ .var y := by
          intro hyu
          rw [hx, hy, apply_var, apply_var, hxu, hyu] at hsame
          exact hne (by rw [hx, hy, hsame])
        rw [hvalues, hy]
        exact (h y hyu).2
      · rw [hx, hd, apply_var, hxu] at hsame
        cases hsame
    · rw [hx]
      exact (h x hxu).2
  · rw [hc]
    exact fun hnull => heq.left_ne_null (by rw [hc]; exact congrArg Term.const hnull)

/-- The values of an equation are those of its sides after replacement. -/
theorem HoldsAt.holds_iff_apply (h : u.HoldsAt I ρ) (eq : Equation) :
    I.Holds ρ (.eq eq.left eq.right) ↔ I.Holds ρ (.eq (u.apply eq.left) (u.apply eq.right)) := by
  rw [Interpretation.holds_eq, Interpretation.holds_eq, h.eval_apply, h.eval_apply]

theorem solve_cons_of_eq {eq : Equation} {rest : List Equation} (h : eq.left = eq.right) :
    solve u (eq :: rest) = solve u rest := by
  rw [solve, if_pos h]

theorem solve_cons_of_orient? {eq : Equation} {rest : List Equation} (hne : eq.left ≠ eq.right)
    (horient : eq.orient? = some (x, t)) (hx : x ∉ t.vars) :
    solve u (eq :: rest)
      = solve ((singleton x t).compose u) (Equations.substitute (singleton x t) rest) := by
  rw [solve, if_neg hne]
  split
  · next y w hsome =>
    rw [horient] at hsome
    cases hsome
    exact dif_neg fun h => hx (Term.mentions_iff.1 h)
  · next hnone =>
    rw [horient] at hnone
    cases hnone

/-- One equation is solved by its sides. -/
theorem unify?_singleton {eq : Equation} (hne : eq.left ≠ eq.right)
    (horient : eq.orient? = some (x, t)) (hx : x ∉ t.vars) :
    unify? [eq] = some (singleton x t) := by
  rw [unify?, solve_cons_of_orient? hne horient hx, Equations.substitute, List.map_nil, solve,
    compose_empty]

theorem solve_cons_of_const {rest : List Equation} {c d : Constant} (h : c ≠ d) :
    solve u (⟨.const c, .const d⟩ :: rest) = none := by
  rw [solve, if_neg (by simpa using h)]
  rfl

/-- Replacing one more variable in equations that were rewritten before. -/
theorem substitute_singleton_compose (es : List Equation) :
    Equations.substitute (singleton x t) (Equations.substitute u es)
      = Equations.substitute ((singleton x t).compose u) es := by
  rw [Equations.substitute, Equations.substitute, Equations.substitute, List.map_map]
  apply List.map_congr_left
  intro eq _
  rw [Function.comp_apply, Equation.substitute, Equation.substitute, Equation.substitute,
    apply_compose, apply_compose]

/-- Of two different flat terms, one is a variable that may be bound to the other, or both are
constants. -/
theorem orient?_or_const {l r : Term} (hl : l.isFunctional = false) (hr : r.isFunctional = false)
    (hne : l ≠ r) :
    (∃ x t, Equation.orient? ⟨l, r⟩ = some (x, t) ∧ t ≠ .var x ∧
      (l = .var x ∧ r = t ∨ l = t ∧ r = .var x)) ∨
    ∃ c d, l = .const c ∧ r = .const d ∧ c ≠ d := by
  rcases Term.eq_var_or_const hl with ⟨x, rfl⟩ | ⟨c, rfl⟩
  · exact .inl ⟨x, r, rfl, fun h => hne h.symm, .inl ⟨rfl, rfl⟩⟩
  · rcases Term.eq_var_or_const hr with ⟨y, rfl⟩ | ⟨d, rfl⟩
    · exact .inl ⟨y, .const c, rfl, hne, .inr ⟨rfl, rfl⟩⟩
    · exact .inr ⟨c, d, rfl, rfl, fun h => hne (congrArg Term.const h)⟩

/-- What is known of an equation between a variable and another term that bindings were put into. -/
theorem oriented_spec {eq : Equation} (hu : u.Solved xs) (heq : eq.Plain)
    (hvars : eq.left.vars ⊆ xs ∧ eq.right.vars ⊆ xs)
    (hsides : u.apply eq.left = .var x ∧ u.apply eq.right = t ∨
      u.apply eq.left = t ∧ u.apply eq.right = .var x) :
    u.applyVar x = .var x ∧ t.isFunctional = false ∧ (∀ y, t = .var y → u.applyVar y = .var y) ∧
      x ∈ xs ∧ (∀ y, t = .var y → y ∈ xs) ∧ t ≠ .null := by
  have hvar {w : Term} (hw : w = eq.left ∨ w = eq.right) {y : Variable} (hy : u.apply w = .var y) :
      u.applyVar y = .var y ∧ y ∈ xs := by
    have hmem : y ∈ (u.apply w).vars := by rw [hy]; exact Term.mem_vars_var.2 rfl
    refine ⟨hu.applyVar_of_mem_vars hmem, ?_⟩
    obtain ⟨z, hz, hzy⟩ := mem_vars_apply.1 hmem
    have hzs : z ∈ xs := by
      rcases hw with rfl | rfl
      · exact hvars.1 z hz
      · exact hvars.2 z hz
    exact hu.range z hzs y ((hu.flat.mem_vars_applyVar).1 hzy)
  have hflat {w : Term} (hw : w = eq.left ∨ w = eq.right) :
      (u.apply w).isFunctional = false ∧ u.apply w ≠ .null := by
    rcases hw with rfl | rfl
    · exact ⟨hu.flat.apply_isFunctional heq.left_flat,
        hu.apply_ne_null heq.left_ne_null heq.left_flat⟩
    · exact ⟨hu.flat.apply_isFunctional heq.right_flat,
        hu.apply_ne_null heq.right_ne_null heq.right_flat⟩
  rcases hsides with ⟨hx, rfl⟩ | ⟨rfl, hx⟩
  · exact ⟨(hvar (.inl rfl) hx).1, (hflat (.inr rfl)).1, fun y hy => (hvar (.inr rfl) hy).1,
      (hvar (.inl rfl) hx).2, fun y hy => (hvar (.inr rfl) hy).2, (hflat (.inr rfl)).2⟩
  · exact ⟨(hvar (.inr rfl) hx).1, (hflat (.inl rfl)).1, fun y hy => (hvar (.inl rfl) hy).1,
      (hvar (.inr rfl) hx).2, fun y hy => (hvar (.inl rfl) hy).2, (hflat (.inl rfl)).2⟩

/-- Solving answers for the bindings so far and the equations that they were put into. -/
theorem answers_solve {es : List Equation} (hes : ∀ eq ∈ es, eq.Plain)
    (hvars : ∀ eq ∈ es, eq.left.vars ⊆ xs ∧ eq.right.vars ⊆ xs) (hu : u.Solved xs) :
    Answers I xs (fun ρ => u.HoldsAt I ρ ∧ ∀ eq ∈ es, I.Holds ρ (.eq eq.left eq.right))
      (fun ρ => ∀ eq ∈ es, eq.left = eq.right → I.Holds ρ (.eq eq.left eq.right))
      (solve u (Equations.substitute u es)) := by
  induction es generalizing u with
  | nil =>
    rw [Equations.substitute, List.map_nil, solve]
    exact ⟨hu, fun ρ h => h.1, fun ρ _ h => ⟨h, List.forall_mem_nil _⟩⟩
  | cons eq es ih =>
    rw [List.forall_mem_cons] at hes hvars
    have hl := hu.flat.apply_isFunctional hes.1.left_flat
    have hr := hu.flat.apply_isFunctional hes.1.right_flat
    rw [show Equations.substitute u (eq :: es)
      = ⟨u.apply eq.left, u.apply eq.right⟩ :: Equations.substitute u es from rfl]
    by_cases hsame : u.apply eq.left = u.apply eq.right
    · -- the bindings make the equation true already
      rw [solve_cons_of_eq hsame]
      refine (ih hes.2 hvars.2 hu).congr ?_ ?_ ?_
      · exact fun ρ h => ⟨h.1, (List.forall_mem_cons.1 h.2).2⟩
      · exact fun ρ hexact => (List.forall_mem_cons.1 hexact).2
      · rintro ρ hexact ⟨h, hall⟩
        have hfirst : I.Holds ρ (.eq eq.left eq.right) := by
          by_cases hself : eq.left = eq.right
          · exact (List.forall_mem_cons.1 hexact).1 hself
          · exact h.holds_of_apply_eq hes.1 hself hsame
        exact ⟨h, List.forall_mem_cons.2 ⟨hfirst, hall⟩⟩
    rcases orient?_or_const hl hr hsame with ⟨x, t, horient, hne, hsides⟩ | ⟨c, d, hc, hd, hcd⟩
    · obtain ⟨hx, ht, hfixed, hxs, htxs, hnull⟩ := oriented_spec hu hes.1 hvars.1 hsides
      have hmem : x ∉ t.vars := by
        rcases Term.eq_var_or_const ht with ⟨y, rfl⟩ | ⟨c, rfl⟩
        · exact fun h => hne (by rw [Term.mem_vars_var.1 h])
        · exact Term.not_mem_vars_const
      rw [solve_cons_of_orient? hsame horient hmem, substitute_singleton_compose]
      have hsolved := solved_singleton_compose hu ht hfixed hne hxs htxs hnull
      have hiff (ρ : Row) : (((singleton x t).compose u).HoldsAt I ρ ∧
          ∀ eq ∈ es, I.Holds ρ (.eq eq.left eq.right)) ↔
            u.HoldsAt I ρ ∧ ∀ eq' ∈ eq :: es, I.Holds ρ (.eq eq'.left eq'.right) := by
        rw [holdsAt_singleton_compose hu hx hfixed hne, List.forall_mem_cons, and_assoc]
        refine and_congr_right fun h => and_congr_left fun _ => ?_
        rw [h.holds_iff_apply, Interpretation.holds_eq]
        rcases hsides with ⟨hleft, hright⟩ | ⟨hleft, hright⟩
        · rw [hleft, hright, Interpretation.eval_var]
        · rw [hleft, hright, Interpretation.eval_var]
          exact ⟨fun h => ⟨h.1.symm, h.1 ▸ h.2⟩, fun h => ⟨h.1.symm, h.1 ▸ h.2⟩⟩
      exact (ih hes.2 hvars.2 hsolved).congr (fun ρ => (hiff ρ).2)
        (fun ρ hexact => (List.forall_mem_cons.1 hexact).2) fun ρ _ => (hiff ρ).1
    · rw [hc, hd, solve_cons_of_const hcd]
      rintro ρ ⟨h, hall⟩
      have hholds := (h.holds_iff_apply eq).1 (List.forall_mem_cons.1 hall).1
      rw [Interpretation.holds_eq, hc, hd] at hholds
      exact hcd hholds.1

/-- The unifier of plain equations over `xs` holds for the rows that satisfy all of them, for no others
of those that satisfy the equations of a term with itself, and there is one if there are such rows. -/
theorem answers_unify? {es : List Equation} (hes : ∀ eq ∈ es, eq.Plain)
    (hvars : ∀ eq ∈ es, eq.left.vars ⊆ xs ∧ eq.right.vars ⊆ xs) :
    Answers I xs (fun ρ => ∀ eq ∈ es, I.Holds ρ (.eq eq.left eq.right))
      (fun ρ => ∀ eq ∈ es, eq.left = eq.right → I.Holds ρ (.eq eq.left eq.right)) (unify? es) := by
  have hempty : Equations.substitute ∅ es = es := by
    have hid : ∀ eq ∈ es, Equation.substitute ∅ eq = eq := fun eq _ => by
      rw [Equation.substitute, apply_empty, apply_empty]
    rw [Equations.substitute, List.map_congr_left hid, List.map_id']
  have hanswers := answers_solve (I := I) hes hvars solved_empty
  rw [hempty] at hanswers
  exact hanswers.congr (fun ρ h => ⟨holdsAt_empty, h⟩) (fun _ => id) fun ρ _ h => h.2

end Substitution

end QueryAlgebra
