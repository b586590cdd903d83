import QueryAlgebra.Substitution

/-!
# Unification

`unify?` looks for a substitution that makes both sides of every equation the same. It works on a
queue: an equation between applications of one symbol puts the equations of their arguments at the
end, an equation with a variable on one side binds it, at once and in every equation that is still
waiting. Where two variables meet, the one on the left is bound to the one on the right.

Binding a variable removes it from the queue, and taking an equation apart makes the queue smaller;
the number of variables and the size of the queue, in this order, are the measure of the recursion.
-/

namespace QueryAlgebra

/-- Two terms that are to become the same. -/
structure Equation where
  left : Term
  right : Term
deriving DecidableEq

namespace Equation

/-- Both sides with the bound variables replaced. -/
def substitute (s : Substitution) (e : Equation) : Equation := ⟨s.apply e.left, s.apply e.right⟩

/-- A variable on one side, to be bound to the other side; the left side comes first. -/
def orient? (e : Equation) : Option (Variable × Term) :=
  match e.left, e.right with
  | .var x, t => some (x, t)
  | t, .var x => some (x, t)
  | _, _ => none

/-- The equations between the arguments, where both sides apply one symbol to equally many. -/
def decompose? (e : Equation) : Option (List Equation) :=
  match e.left, e.right with
  | .app f ss, .app g ts =>
    if f = g ∧ ss.length = ts.length then some (List.zipWith Equation.mk ss ts) else none
  | _, _ => none

def vars (e : Equation) : VarSet := e.left.vars ∪ e.right.vars

def size (e : Equation) : Nat := e.left.size + e.right.size

end Equation

namespace Equations

/-- The variables of a queue of equations. -/
def vars (es : List Equation) : VarSet := .unions (es.map Equation.vars)

/-- The size of a queue of equations. -/
def size : List Equation → Nat
  | [] => 0
  | e :: es => e.size + size es

/-- Every equation with the bound variables replaced. -/
def substitute (s : Substitution) (es : List Equation) : List Equation :=
  es.map (Equation.substitute s)

theorem mem_vars {x : Variable} {es : List Equation} :
    x ∈ vars es ↔ ∃ e ∈ es, x ∈ e.left.vars ∨ x ∈ e.right.vars := by
  simp only [vars, SortedSet.mem_unions, List.mem_map]
  constructor
  · rintro ⟨_, ⟨e, he, rfl⟩, hx⟩
    exact ⟨e, he, SortedSet.mem_union.1 hx⟩
  · rintro ⟨e, he, hx⟩
    exact ⟨_, ⟨e, he, rfl⟩, SortedSet.mem_union.2 hx⟩

theorem mem_vars_cons {x : Variable} {e : Equation} {es : List Equation} :
    x ∈ vars (e :: es) ↔ (x ∈ e.left.vars ∨ x ∈ e.right.vars) ∨ x ∈ vars es := by
  simp [mem_vars]

theorem size_append (es es' : List Equation) : size (es ++ es') = size es + size es' := by
  induction es with
  | nil => simp [size]
  | cons e es ih => simp only [List.cons_append, size, ih, Nat.add_assoc]

theorem size_cons (e : Equation) (es : List Equation) : size (e :: es) = e.size + size es := rfl

end Equations

-- ---------------------------------------------------------------------------
-- Why the recursion ends
-- ---------------------------------------------------------------------------

/-- The variables of an image: those that are not bound, and those of the bound terms. -/
theorem Substitution.mem_vars_apply {s : Substitution} {t : Term} {y : Variable} :
    y ∈ (s.apply t).vars ↔ ∃ x ∈ t.vars, y ∈ (s.applyVar x).vars := by
  induction t using Term.inductionOn with
  | var x => simp
  | const c => simp
  | app f args ih =>
    simp only [apply_app, Term.mem_vars_app, List.mem_map]
    constructor
    · rintro ⟨_, ⟨t, ht, rfl⟩, hy⟩
      obtain ⟨x, hx, hy⟩ := (ih t ht).1 hy
      exact ⟨x, ⟨t, ht, hx⟩, hy⟩
    · rintro ⟨x, ⟨t, ht, hx⟩, hy⟩
      exact ⟨_, ⟨t, ht, rfl⟩, (ih t ht).2 ⟨x, hx, hy⟩⟩

theorem Substitution.applyVar_singleton {x y : Variable} {t : Term} :
    (singleton x t).applyVar y = if x = y then t else .var y := by
  by_cases ht : t = .var x
  · have : singleton x t = ∅ := by simp [singleton, ofList, ht]; rfl
    rw [this, applyVar_empty]
    split <;> simp_all
  · simp only [singleton, ofList, applyVar_ofMap, ht, ne_eq, not_false_eq_true, decide_true,
      List.filter_cons_of_pos, List.filter_nil, SortedMap.find?_ofList, List.reverse_cons,
      List.reverse_nil, List.nil_append, SortedMap.lookIn]
    split <;> rfl

/-- Once `x` is bound to a term without it, `x` is gone. -/
theorem Substitution.not_mem_vars_apply_singleton {x : Variable} {t u : Term}
    (h : x ∉ t.vars) : x ∉ ((singleton x t).apply u).vars := by
  intro hx
  obtain ⟨y, _, hy⟩ := mem_vars_apply.1 hx
  rw [applyVar_singleton] at hy
  split at hy
  · exact h hy
  · next hne => exact hne (Term.mem_vars_var.1 hy)

theorem Substitution.mem_vars_apply_singleton {x y : Variable} {t u : Term}
    (h : y ∈ ((singleton x t).apply u).vars) : y ∈ u.vars ∨ y ∈ t.vars := by
  obtain ⟨z, hz, hy⟩ := mem_vars_apply.1 h
  rw [applyVar_singleton] at hy
  split at hy
  · exact .inr hy
  · exact .inl (Term.mem_vars_var.1 hy ▸ hz)

theorem Equation.vars_of_orient? {e : Equation} {x : Variable} {t : Term}
    (h : e.orient? = some (x, t)) {y : Variable} :
    (y ∈ e.left.vars ∨ y ∈ e.right.vars) ↔ y = x ∨ y ∈ t.vars := by
  obtain ⟨l, r⟩ := e
  unfold orient? at h
  cases l <;> cases r <;> simp at h <;> obtain ⟨rfl, rfl⟩ := h <;> simp [or_comm]

theorem Equations.size_zipWith {ss ts : List Term} (h : ss.length = ts.length) :
    size (List.zipWith Equation.mk ss ts) = Term.sizeOfArgs ss + Term.sizeOfArgs ts := by
  induction ss generalizing ts with
  | nil => cases ts with
    | nil => rfl
    | cons _ _ => exact absurd h (by simp)
  | cons s ss ih => cases ts with
    | nil => exact absurd h (by simp)
    | cons t ts =>
      have := @ih ts (by simpa using h)
      simp only [List.zipWith_cons_cons, size_cons, Equation.size, Term.sizeOfArgs, this]
      omega

theorem Equations.mem_of_mem_zipWith {e : Equation} {ss ts : List Term}
    (h : e ∈ List.zipWith Equation.mk ss ts) : e.left ∈ ss ∧ e.right ∈ ts := by
  induction ss generalizing ts with
  | nil => exact absurd h (by simp)
  | cons s ss ih => cases ts with
    | nil => exact absurd h (by simp)
    | cons t ts =>
      rcases List.mem_cons.1 h with rfl | h
      · exact ⟨.head _, .head _⟩
      · exact (ih h).imp (.tail _) (.tail _)

theorem Equation.decompose?_size {e : Equation} {es : List Equation}
    (h : e.decompose? = some es) : Equations.size es < e.size := by
  obtain ⟨l, r⟩ := e
  unfold decompose? at h
  cases l <;> cases r <;> simp at h
  obtain ⟨⟨_, hl⟩, rfl⟩ := h
  rw [Equations.size_zipWith hl]
  simp only [Equation.size, Term.size]
  omega

theorem Equation.decompose?_vars {e : Equation} {es : List Equation}
    (h : e.decompose? = some es) {x : Variable} (hx : x ∈ Equations.vars es) :
    x ∈ e.left.vars ∨ x ∈ e.right.vars := by
  obtain ⟨l, r⟩ := e
  unfold decompose? at h
  cases l <;> cases r <;> simp at h
  obtain ⟨_, rfl⟩ := h
  obtain ⟨e, he, hx⟩ := Equations.mem_vars.1 hx
  have ⟨hs, ht⟩ := Equations.mem_of_mem_zipWith he
  exact hx.imp (fun h => Term.mem_vars_app.2 ⟨_, hs, h⟩) fun h => Term.mem_vars_app.2 ⟨_, ht, h⟩

/-- Fewer variables, or no more of them and a smaller size. -/
theorem Equations.decreases {es es' : List Equation} (hv : vars es ⊆ vars es')
    (hs : size es < size es') :
    Prod.Lex (· < ·) (· < ·) ((vars es).size, size es) ((vars es').size, size es') := by
  rcases Nat.lt_or_eq_of_le (SortedSet.size_le_of_subset hv) with h | h
  · exact .left _ _ h
  · rw [h]; exact .right _ hs

-- ---------------------------------------------------------------------------
-- The unifier
-- ---------------------------------------------------------------------------

namespace Substitution

/-- Makes the equations of the queue hold, on top of what `unifier` has bound already. -/
def solve (unifier : Substitution) : List Equation → Option Substitution
  | [] => some unifier
  | e :: rest =>
    if e.left = e.right then solve unifier rest
    else match _ : e.orient? with
      | some (x, t) =>
        if _ : t.mentions x then none
        else solve ((singleton x t).compose unifier) (Equations.substitute (singleton x t) rest)
      | none => match _ : e.decompose? with
        | some es => solve unifier (rest ++ es)
        | none => none
termination_by es => ((Equations.vars es).size, Equations.size es)
decreasing_by
  · refine Equations.decreases (fun x hx => Equations.mem_vars_cons.2 (.inr hx)) ?_
    rw [Equations.size_cons, Equation.size]
    have := e.left.size_pos
    omega
  · next h hx =>
    refine .left _ _ (SortedSet.size_lt_of_subset (a := x) (fun y hy => ?_) ?_ ?_)
    · obtain ⟨_, he, hy⟩ := Equations.mem_vars.1 hy
      obtain ⟨e', he', rfl⟩ := List.mem_map.1 he
      have old {u : Term} (hy : y ∈ ((singleton x t).apply u).vars)
          (hu : u = e'.left ∨ u = e'.right) : y ∈ Equations.vars (e :: rest) := by
        rcases mem_vars_apply_singleton hy with hy | hy
        · exact Equations.mem_vars.2 ⟨e', .tail _ he', by rcases hu with rfl | rfl <;> simp [hy]⟩
        · exact Equations.mem_vars_cons.2 (.inl ((Equation.vars_of_orient? h).2 (.inr hy)))
      exact hy.elim (old · (.inl rfl)) (old · (.inr rfl))
    · exact Equations.mem_vars_cons.2 (.inl ((Equation.vars_of_orient? h).2 (.inl rfl)))
    · intro hy
      have hx : x ∉ t.vars := fun hm => hx (Term.mentions_iff.2 hm)
      obtain ⟨_, he, hy⟩ := Equations.mem_vars.1 hy
      obtain ⟨e', _, rfl⟩ := List.mem_map.1 he
      exact hy.elim (not_mem_vars_apply_singleton hx) (not_mem_vars_apply_singleton hx)
  · next h =>
    refine Equations.decreases (fun x hx => ?_) ?_
    · obtain ⟨e', he, hx⟩ := Equations.mem_vars.1 hx
      rcases List.mem_append.1 he with he | he
      · exact Equations.mem_vars_cons.2 (.inr (Equations.mem_vars.2 ⟨e', he, hx⟩))
      · exact Equations.mem_vars_cons.2
          (.inl (Equation.decompose?_vars h (Equations.mem_vars.2 ⟨e', he, hx⟩)))
    · have := Equation.decompose?_size h
      rw [Equations.size_append, Equations.size_cons]
      omega

/-- A most general substitution that makes every equation hold, if there is one. -/
def unify? (equations : List Equation) : Option Substitution := solve ∅ equations

/-- A most general unifier of two terms. -/
def unifyTerms? (s t : Term) : Option Substitution := unify? [⟨s, t⟩]

/-- A most general unifier of two lists of terms, place by place; there is none for lists of
different lengths. -/
def unifyLists? (ss ts : List Term) : Option Substitution :=
  if ss.length = ts.length then unify? (List.zipWith Equation.mk ss ts) else none

end Substitution

end QueryAlgebra
