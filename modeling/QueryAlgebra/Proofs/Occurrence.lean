import QueryAlgebra.Proofs.Substitution
import QueryAlgebra.Proofs.Truth
import QueryAlgebra.Tree

/-!
# What occurs in a term

`Term.All p q` says that every variable of a term satisfies `p` and that every application has a
symbol and a number of arguments that satisfy `q`. Two uses of it carry through the whole theory:
a term is about certain variables only, and its arithmetic is between two arguments
(`Term.WellApplied`).

Taking a condition apart, putting one together and evaluating it introduce neither variables nor
arithmetic. Main statement: `Evaluation.all_to` — whatever holds of everything in a term still does
once it is simplified or judged, to any depth.
-/

namespace QueryAlgebra

/-- The operations on two numbers. -/
def Operation.isArithmetic : Operation → Bool
  | add | subtract | multiply => true
  | _ => false

/-- Every variable satisfies `p`, and every application `q`. -/
inductive Term.All (p : Variable → Prop) (q : Symbol → Nat → Prop) : Term → Prop where
  | var {x : Variable} (hx : p x) : All p q (.var x)
  | const {c : Constant} : All p q (.const c)
  | app {f : Symbol} {args : List Term} (hf : q f args.length) (hargs : ∀ t ∈ args, All p q t) :
      All p q (.app f args)

/-- Arithmetic is between two arguments. -/
def Term.WellApplied : Term → Prop :=
  Term.All (fun _ => True) fun f n => f.operation.isArithmetic = true → n = 2

/-- What `Term.All` says, of an expression. -/
def Expression.All (p : Variable → Prop) (q : Symbol → Nat → Prop) (e : Expression) : Prop :=
  e.toTerm.All p q

/-- Arithmetic within the expression is between two arguments. -/
def Expression.WellApplied (e : Expression) : Prop := e.toTerm.WellApplied

/-- Nothing is negated. -/
def Term.NegationFree : Term → Prop := Term.All (fun _ => True) fun f _ => f.operation ≠ .not

def Expression.NegationFree (e : Expression) : Prop := e.toTerm.NegationFree

/-- What `Term.All` says, of the expression that a verdict leaves. -/
def Verdict.All (p : Variable → Prop) (q : Symbol → Nat → Prop) (v : Verdict) : Prop :=
  ∀ e ∈ v.residual?, e.All p q

variable {p : Variable → Prop} {q : Symbol → Nat → Prop}

-- ---------------------------------------------------------------------------
-- Terms and substitutions
-- ---------------------------------------------------------------------------

namespace Term

theorem all_var {x : Variable} : (Term.var x).All p q ↔ p x :=
  ⟨fun h => by cases h; assumption, .var⟩

theorem all_app {f : Symbol} {args : List Term} :
    (Term.app f args).All p q ↔ q f args.length ∧ ∀ t ∈ args, t.All p q :=
  ⟨fun h => by cases h; exact ⟨‹_›, ‹_›⟩, fun h => .app h.1 h.2⟩

theorem all_vars {t : Term} : t.All p (fun _ _ => True) ↔ ∀ x ∈ t.vars, p x := by
  induction t using Term.inductionOn with
  | var x => rw [all_var]; simp
  | const c => simpa using All.const
  | app f args ih =>
    rw [all_app]
    simp only [true_and, mem_vars_app]
    constructor
    · rintro h x ⟨t, ht, hx⟩
      exact (ih t ht).1 (h t ht) x hx
    · intro h t ht
      exact (ih t ht).2 fun x hx => h x ⟨t, ht, hx⟩

theorem All.mono {p' : Variable → Prop} {q' : Symbol → Nat → Prop} {t : Term} (h : t.All p q)
    (hp : ∀ x, p x → p' x) (hq : ∀ f n, q f n → q' f n) : t.All p' q' := by
  induction t using Term.inductionOn with
  | var x => exact .var (hp x (all_var.1 h))
  | const c => exact .const
  | app f args ih =>
    rw [all_app] at h
    exact .app (hq _ _ h.1) fun t ht => ih t ht (h.2 t ht)

theorem All.and {p' : Variable → Prop} {q' : Symbol → Nat → Prop} {t : Term} (h : t.All p q)
    (h' : t.All p' q') : t.All (fun x => p x ∧ p' x) fun f n => q f n ∧ q' f n := by
  induction t using Term.inductionOn with
  | var x => exact .var ⟨all_var.1 h, all_var.1 h'⟩
  | const c => exact .const
  | app f args ih =>
    rw [all_app] at h h'
    exact .app ⟨h.1, h'.1⟩ fun t ht => ih t ht (h.2 t ht) (h'.2 t ht)

theorem All.vars_mem {xs : VarSet} {t : Term} (h : t.All (· ∈ xs) q) : t.vars ⊆ xs :=
  all_vars.1 (h.mono (fun _ hx => hx) fun _ _ _ => trivial)

theorem All.over {xs : VarSet} {t : Term} (h : t.All p q) (hxs : t.vars ⊆ xs) :
    t.All (· ∈ xs) q :=
  (h.and (all_vars.2 hxs)).mono (fun _ hx => hx.2) fun _ _ hf => hf.1

theorem areGround_eq_all {ts : List Term} : areGround ts = ts.all isGround := by
  induction ts with
  | nil => rfl
  | cons t ts ih => rw [areGround, ih, List.all_cons]

theorem not_mem_vars_of_isGround {t : Term} (h : t.isGround = true) {x : Variable} :
    x ∉ t.vars := by
  induction t using Term.inductionOn with
  | var y => cases h
  | const c => exact not_mem_vars_const
  | app f args ih =>
    rw [isGround, areGround_eq_all, List.all_eq_true] at h
    intro hx
    obtain ⟨t, ht, hx⟩ := mem_vars_app.1 hx
    exact ih t ht (h t ht) hx

/-- Among variables and ground terms, every variable that occurs is one of them. -/
theorem var_mem_of_mem_varsOf {ts : List Term}
    (hts : ∀ t ∈ ts, t.isVariable = true ∨ t.isGround = true) {x : Variable}
    (hx : x ∈ varsOf ts) : .var x ∈ ts := by
  obtain ⟨t, ht, hxt⟩ := mem_varsOf.1 hx
  rcases hts t ht with hvariable | hground
  · cases t with
    | var y => rwa [mem_vars_var.1 hxt]
    | _ => cases hvariable
  · exact absurd hxt (not_mem_vars_of_isGround hground)

/-- A substitution only brings in what its terms are made of. -/
theorem All.apply {p' : Variable → Prop} {s : Substitution} {t : Term} (ht : t.All p q)
    (hs : ∀ x, p x → (s.applyVar x).All p' q) : (s.apply t).All p' q := by
  induction t using Term.inductionOn with
  | var x => exact hs x (all_var.1 ht)
  | const c => exact .const
  | app f args ih =>
    rw [all_app] at ht
    rw [Substitution.apply_app, all_app, List.length_map]
    refine ⟨ht.1, ?_⟩
    intro u hu
    obtain ⟨t, hmem, rfl⟩ := List.mem_map.1 hu
    exact ih t hmem (ht.2 t hmem)

end Term

theorem Expression.all_iff {e : Expression} :
    e.All p q ↔ q e.symbol e.args.length ∧ ∀ t ∈ e.args, t.All p q := Term.all_app

theorem Verdict.all_residual {e : Expression} : (Verdict.residual e).All p q ↔ e.All p q := by
  simp [Verdict.All, Verdict.residual?]

theorem Verdict.all_ofBool (b : Bool) : (Verdict.ofBool b).All p q := by
  cases b <;> simp [Verdict.All, Verdict.ofBool, Verdict.residual?]

theorem Verdict.all_toTerm {v : Verdict} (h : v.All p q) : v.toTerm.All p q := by
  cases v with
  | residual e => exact all_residual.1 h
  | _ => exact .const

theorem Evaluation.mem_of_mem_choices {n : Nullability} {t : Term} {ts : List Term} (h : t ∈ choices n ts) :
    t ∈ ts := by
  induction ts with
  | nil => exact h
  | cons u us ih =>
    unfold choices at h
    split at h
    · exact .tail _ (ih h)
    · split at h
      · rcases List.mem_cons.1 h with rfl | h
        · exact .head _
        · exact .tail _ (ih h)
      · rw [List.mem_singleton] at h
        exact h ▸ .head _

-- ---------------------------------------------------------------------------
-- Conditions
-- ---------------------------------------------------------------------------

/-- What evaluation may bring in satisfies `q`: any operation except arithmetic and negation, and a
negation of one argument where there is a negation already. -/
structure Introducible (q : Symbol → Nat → Prop) : Prop where
  symbol : ∀ f n, f.operation.isArithmetic = false → f.operation ≠ .not → q f n
  negation : ∀ f n, f.operation = .not → q f n → q ⟨.not, 1⟩ 1

theorem introducible_true : Introducible fun _ _ => True :=
  ⟨fun _ _ _ _ => trivial, fun _ _ _ _ => trivial⟩

theorem introducible_binary :
    Introducible fun f n => f.operation.isArithmetic = true → n = 2 where
  symbol _ _ hf _ h := by rw [hf] at h; cases h
  negation _ _ _ _ h := by cases h

section Closed

theorem introducible_negationFree : Introducible fun f _ => f.operation ≠ .not where
  symbol _ _ _ hf := hf
  negation _ _ hf h := absurd hf h

/-- Nothing is negated, and arithmetic is between two arguments. -/
def Symbol.Admissible (f : Symbol) (n : Nat) : Prop :=
  f.operation ≠ .not ∧ (f.operation.isArithmetic = true → n = 2)

theorem introducible_admissible : Introducible Symbol.Admissible where
  symbol f n hf hnot := ⟨hnot, introducible_binary.symbol f n hf hnot⟩
  negation _ _ hf h := absurd hf h.1

/-- What evaluation may bring in satisfies `q`, and arithmetic that does is between two arguments. -/
structure Evaluable (q : Symbol → Nat → Prop) : Prop extends Introducible q where
  binary : ∀ f n, q f n → f.operation.isArithmetic = true → n = 2

theorem evaluable_binary : Evaluable fun f n => f.operation.isArithmetic = true → n = 2 :=
  ⟨introducible_binary, fun _ _ h => h⟩

theorem evaluable_admissible : Evaluable Symbol.Admissible :=
  ⟨introducible_admissible, fun _ _ h => h.2⟩

variable (hq : Introducible q)

include hq

theorem Expression.all_of_args {e : Expression} (hnot : e.operation ≠ .not)
    (h : ∀ t ∈ e.args, t.All p q) : e.All p q := by
  refine all_iff.2 ⟨hq.symbol _ _ ?_ hnot, h⟩
  obtain ⟨⟨op, n⟩, args, hop⟩ := e
  cases op <;> first | rfl | exact absurd hop Bool.false_ne_true

namespace Expression

theorem all_isTrue {t : Term} (h : t.All p q) : (isTrue t).All p q :=
  all_of_args hq nofun (List.forall_mem_singleton.2 h)

theorem all_ofTerm {t : Term} (h : t.All p q) : (ofTerm t).All p q := by
  unfold ofTerm
  cases he : ofTerm? t with
  | none => exact all_isTrue hq h
  | some e =>
    rw [Option.getD_some, Expression.All, toTerm_of_ofTerm? he]
    exact h

theorem all_eq {s t : Term} (hs : s.All p q) (ht : t.All p q) : (eq s t).All p q := by
  apply all_of_args hq
  · nofun
  · simpa [eq] using ⟨hs, ht⟩

theorem all_or {es : List Expression} (h : ∀ e ∈ es, e.All p q) : (or es).All p q := by
  apply all_of_args hq
  · nofun
  intro t ht
  obtain ⟨e, he, rfl⟩ := List.mem_map.1 ht
  exact h e he

theorem all_conjunctsOf {t : Term} (h : t.All p q) : ∀ c ∈ conjunctsOf t, c.All p q := by
  have hall (ts : List Term) (ih : ∀ t ∈ ts, ∀ c ∈ conjunctsOf t, c.All p q) :
      ∀ c ∈ conjunctsOfAll ts, c.All p q := by
    induction ts with
    | nil => exact fun _ hc => absurd hc List.not_mem_nil
    | cons t ts ihs =>
      rw [List.forall_mem_cons] at ih
      rw [conjunctsOfAll]
      intro c hc
      rcases List.mem_append.1 hc with hc | hc
      · exact ih.1 c hc
      · exact ihs ih.2 c hc
  induction t using Term.inductionOn with
  | var x => simpa [conjunctsOf] using all_isTrue hq h
  | const c => simpa [conjunctsOf] using all_isTrue hq h
  | app f args ih =>
    unfold conjunctsOf
    split
    · split
      · exact hall args fun t ht => ih t ht ((Term.all_app.1 h).2 t ht)
      · rw [List.forall_mem_singleton]
        exact h
    · rw [List.forall_mem_singleton]
      exact all_isTrue hq h

theorem all_conjuncts {e c : Expression} (h : e.All p q) (hc : c ∈ e.conjuncts) : c.All p q :=
  all_conjunctsOf hq h c hc

theorem all_conjunction {es : List Expression} (h : ∀ e ∈ es, e.All p q) :
    ∀ e ∈ conjunction es, e.All p q := by
  have hparts : ∀ c ∈ (es.flatMap conjuncts).eraseDups, c.All p q := by
    intro c hc
    obtain ⟨e, he, hc⟩ := List.mem_flatMap.1 (List.mem_eraseDups.1 hc)
    exact all_conjuncts hq (h e he) hc
  unfold conjunction
  split
  · simp
  · next e he =>
    rw [he, List.forall_mem_singleton] at hparts
    simpa using hparts
  · rintro _ ⟨⟩
    apply all_of_args hq
    · nofun
    intro t ht
    obtain ⟨c, hc, rfl⟩ := List.mem_map.1 ht
    exact hparts c hc

theorem all_andOptional {e? e'? : Option Expression} (h : ∀ e ∈ e?, e.All p q)
    (h' : ∀ e ∈ e'?, e.All p q) : ∀ e ∈ andOptional e? e'?, e.All p q := by
  apply all_conjunction hq
  intro e he
  rcases List.mem_append.1 he with he | he
  · exact h e (Option.mem_toList.1 he)
  · exact h' e (Option.mem_toList.1 he)

theorem all_and {e e' : Expression} (h : e.All p q) (h' : e'.All p q) : (e.and e').All p q := by
  have hboth : ∀ c ∈ [e, e'], c.All p q := by
    rw [List.forall_mem_cons, List.forall_mem_singleton]
    exact ⟨h, h'⟩
  unfold and
  cases hc : conjunction [e, e'] with
  | none => exact h
  | some c => exact all_conjunction hq hboth c hc

end Expression

-- ---------------------------------------------------------------------------
-- Verdicts
-- ---------------------------------------------------------------------------

namespace Verdict

theorem all_ofConstant (c : Constant) : (ofConstant c).All p q := by
  cases c with
  | boolean b => exact all_ofBool b
  | null => simp [ofConstant, Verdict.All, residual?]
  | _ => exact all_residual.2 (Expression.all_isTrue hq .const)

theorem all_conjoin {logic : Logic} {vs : List Verdict} (h : ∀ v ∈ vs, v.All p q) :
    (conjoin logic vs).All p q := by
  unfold conjoin
  split
  · simp [Verdict.All, residual?]
  · dsimp only
    split
    · simp [Verdict.All, residual?]
    · next e he =>
      split
      · simp [Verdict.All, residual?]
      · refine all_residual.2 (Expression.all_conjunction hq ?_ e he)
        intro c hc
        rcases List.mem_append.1 hc with hc | hc
        · obtain ⟨r, hr, hc⟩ := List.mem_flatMap.1 hc
          obtain ⟨v, hv, hr⟩ := List.mem_filterMap.1 hr
          exact Expression.all_conjuncts hq (h v hv r hr) hc
        · split at hc
          · rw [List.mem_singleton] at hc
            exact hc ▸ Expression.all_isTrue hq .const
          · exact absurd hc List.not_mem_nil

theorem all_disjuncts {es operands : List Expression} (hes : ∀ e ∈ es, e.All p q)
    (h : ∀ e ∈ operands, e.All p q) : ∀ e ∈ es.foldl disjunctsWith operands, e.All p q := by
  induction es generalizing operands with
  | nil => exact h
  | cons e es ih =>
    rw [List.forall_mem_cons] at hes
    apply ih hes.2
    intro c hc
    unfold disjunctsWith at hc
    split at hc
    · rcases List.mem_append.1 hc with hc | hc
      · exact h c hc
      · obtain ⟨t, ht, rfl⟩ := List.mem_map.1 hc
        exact Expression.all_ofTerm hq ((Expression.all_iff.1 hes.1).2 t ht)
    · split at hc
      · exact h c hc
      · rcases List.mem_append.1 hc with hc | hc
        · exact h c hc
        · rw [List.mem_singleton] at hc
          exact hc ▸ hes.1

theorem all_disjoin {logic : Logic} {vs : List Verdict} (h : ∀ v ∈ vs, v.All p q) :
    (disjoin logic vs).All p q := by
  have hundecided : ∀ e ∈ (vs.filterMap residual?).foldl disjunctsWith [], e.All p q := by
    refine all_disjuncts hq ?_ fun _ hc => absurd hc List.not_mem_nil
    intro e he
    obtain ⟨v, hv, he⟩ := List.mem_filterMap.1 he
    exact h v hv e he
  unfold disjoin
  split
  · simp [Verdict.All, residual?]
  · dsimp only
    split
    · split
      · simp [Verdict.All, residual?]
      · refine all_residual.2 (Expression.all_or hq ?_)
        rw [List.forall_mem_append, List.forall_mem_singleton]
        exact ⟨hundecided, Expression.all_isTrue hq .const⟩
    · split
      · simp [Verdict.All, residual?]
      · next he =>
        rw [he, List.forall_mem_singleton] at hundecided
        exact all_residual.2 hundecided
      · exact all_residual.2 (Expression.all_or hq hundecided)

theorem all_negate {v : Verdict} (hnot : q ⟨.not, 1⟩ 1) (h : v.All p q) :
    v.negate.All p q := by
  cases v with
  | residual e =>
    have hargs := (Expression.all_iff.1 (all_residual.1 h)).2
    refine all_residual.2 ?_
    unfold negateResidual
    split
    · next t _ ha =>
      rw [ha, List.forall_mem_singleton] at hargs
      exact Expression.all_ofTerm hq hargs
    · next t _ ha =>
      rw [ha] at hargs
      exact Expression.all_of_args hq nofun hargs
    · next t _ ha =>
      rw [ha] at hargs
      exact Expression.all_of_args hq nofun hargs
    · have hall : e.not.All p q :=
        Expression.all_iff.2 ⟨hnot, List.forall_mem_singleton.2 (all_residual.1 h)⟩
      exact hall
  | _ => simp [negate, Verdict.All, residual?]

end Verdict

-- ---------------------------------------------------------------------------
-- Simplified operands
-- ---------------------------------------------------------------------------

namespace Evaluation

theorem all_simplifyValue {n : Nullability} {f : Symbol} {args : List Term}
    (hf : q f args.length) (h : ∀ t ∈ args, t.All p q) : (simplifyValue n f args).All p q := by
  have hchoices : ∀ t ∈ choices n args, t.All p q := fun t ht => h t (mem_of_mem_choices ht)
  unfold simplifyValue
  split
  · split
    · exact .const
    · next t he =>
      rw [he, List.forall_mem_singleton] at hchoices
      exact hchoices
    · exact .app (hq.symbol _ _ rfl nofun) hchoices
  · split
    · exact .const
    · split
      · exact .const
      · exact .app hf h

theorem all_testNull {n : Nullability} {expectNull : Bool} {t : Term} (h : t.All p q) :
    (testNull n expectNull t).All p q := by
  unfold testNull
  split
  · exact Verdict.all_ofBool _
  · split
    · exact Verdict.all_ofBool _
    · rw [Verdict.all_residual]
      split <;> exact Expression.all_of_args hq nofun (List.forall_mem_singleton.2 h)

theorem all_injectiveEqualities {s t : Term} {equalities : List Term} (hs : s.All p q)
    (ht : t.All p q) (h : injectiveEqualities? s t = some equalities) :
    ∀ u ∈ equalities, u.All p q := by
  unfold injectiveEqualities? at h
  split at h
  · next f ss g ts =>
    split at h
    · cases h
      intro u hu
      obtain ⟨i, hi, rfl⟩ := List.mem_iff_getElem.1 hu
      rw [List.getElem_zipWith]
      exact Expression.all_eq hq ((Term.all_app.1 hs).2 _ (List.getElem_mem _))
        ((Term.all_app.1 ht).2 _ (List.getElem_mem _))
    · cases h
  · cases h

theorem all_equality {n : Nullability} {logic : Logic} {judge : Term → Verdict} {s t : Term}
    (hjudge : ∀ u : Term, u.All p q → (judge u).All p q) (hs : s.All p q) (ht : t.All p q) :
    (equality n logic judge s t).All p q := by
  have heq : (Verdict.residual (.eq s t)).All p q := Verdict.all_residual.2 (Expression.all_eq hq hs ht)
  unfold equality
  split
  · simp [Verdict.All, Verdict.residual?]
  · split
    · exact Verdict.all_ofBool _
    · split
      · split
        · simp [Verdict.All, Verdict.residual?]
        · split
          · exact Verdict.all_residual.2 (Expression.all_of_args hq nofun (List.forall_mem_singleton.2 hs))
          · exact heq
      · split
        · next equalities he =>
          apply Verdict.all_conjoin hq
          intro v hv
          obtain ⟨u, hu, rfl⟩ := List.mem_map.1 hv
          exact hjudge u (all_injectiveEqualities hq hs ht he u hu)
        · exact heq

theorem all_inequality {n : Nullability} {s t : Term} (hs : s.All p q) (ht : t.All p q) :
    (inequality n s t).All p q := by
  unfold inequality
  split
  · simp [Verdict.All, Verdict.residual?]
  · split
    · exact Verdict.all_ofBool _
    · split
      · simp [Verdict.All, Verdict.residual?]
      · refine Verdict.all_residual.2 (Expression.all_of_args hq nofun ?_)
        simpa [Expression.neq] using ⟨hs, ht⟩

theorem all_comparison {c : Comparison} {s t : Term} (hs : s.All p q) (ht : t.All p q) :
    (comparison c s t).All p q := by
  unfold comparison
  split
  · simp [Verdict.All, Verdict.residual?]
  · split
    · exact Verdict.all_ofBool _
    · refine Verdict.all_residual.2 (Expression.all_of_args hq ?_ ?_)
      · cases c <;> nofun
      · simpa [Comparison.expression] using ⟨hs, ht⟩

theorem all_opaqueCondition {e : Expression} {args : List Term} (hnot : e.operation ≠ .not) (h : ∀ t ∈ args, t.All p q) :
    (opaqueCondition e args).All p q := by
  unfold opaqueCondition
  split
  · simp [Verdict.All, Verdict.residual?]
  · exact Verdict.all_residual.2 (Expression.all_of_args hq hnot h)

-- ---------------------------------------------------------------------------
-- Evaluation
-- ---------------------------------------------------------------------------

variable {n : Nullability}

/-- Nothing that is in a term is lost by a step of evaluation if it is not lost one level deeper. -/
structure Keeps (p : Variable → Prop) (q : Symbol → Nat → Prop) (n : Nullability) (depth : Nat) :
    Prop where
  simplify : ∀ t : Term, t.All p q → (simplifyTo n depth t).All p q
  judge : ∀ logic (t : Term), t.All p q → (judgeTo n logic depth t).All p q
  evaluate : ∀ logic (e : Expression), e.All p q → (evaluateTo n logic depth e).All p q

omit hq in
theorem Keeps.map_simplify {depth : Nat} (h : Keeps p q n depth) {ts : List Term}
    (hts : ∀ t ∈ ts, t.All p q) : ∀ t ∈ ts.map (simplifyTo n depth), t.All p q := by
  intro u hu
  obtain ⟨t, ht, rfl⟩ := List.mem_map.1 hu
  exact h.simplify t (hts t ht)

omit hq in
theorem Keeps.map_judge {depth : Nat} (h : Keeps p q n depth) {logic : Logic} {ts : List Term}
    (hts : ∀ t ∈ ts, t.All p q) : ∀ v ∈ ts.map (judgeTo n logic depth), v.All p q := by
  intro v hv
  obtain ⟨t, ht, rfl⟩ := List.mem_map.1 hv
  exact h.judge logic t (hts t ht)

theorem keeps_evaluate_succ {depth : Nat} (ih : Keeps p q n depth) {logic : Logic}
    {e : Expression} (h : e.All p q) : (evaluateTo n logic (depth + 1) e).All p q := by
  have hargs := (Expression.all_iff.1 h).2
  rw [evaluateTo]
  split
  case h_1 => exact Verdict.all_conjoin hq (ih.map_judge hargs)
  case h_2 => exact Verdict.all_disjoin hq (ih.map_judge hargs)
  case h_3 t _ hop ha =>
    have hnot : q ⟨.not, 1⟩ 1 := hq.negation _ _ hop (Expression.all_iff.1 h).1
    exact Verdict.all_negate hq hnot (ih.judge _ t (hargs t (ha ▸ .head _)))
  case h_4 t _ _ ha => exact all_testNull hq (ih.simplify t (hargs t (ha ▸ .head _)))
  case h_5 t _ _ ha => exact all_testNull hq (ih.simplify t (hargs t (ha ▸ .head _)))
  case h_6 t _ _ ha =>
    have hs := ih.simplify t (hargs t (ha ▸ .head _))
    split
    · exact Verdict.all_ofConstant hq _
    · split
      · next inner he =>
        apply ih.evaluate
        rw [Expression.All, Expression.toTerm_of_ofTerm? he]
        exact hs
      · exact Verdict.all_residual.2 (Expression.all_isTrue hq hs)
  case h_13 hop =>
    have hnot : e.operation ≠ .not := by rw [hop]; nofun
    exact all_opaqueCondition hq hnot (ih.map_simplify hargs)
  case h_14 => exact Verdict.all_residual.2 h
  all_goals
    next s t _ ha =>
    have hs := ih.simplify s (hargs s (ha ▸ .head _))
    have ht := ih.simplify t (hargs t (ha ▸ .tail _ (.head _)))
    first
      | exact all_equality hq (ih.judge logic) hs ht
      | exact all_inequality hq hs ht
      | exact all_comparison hq hs ht

/-- Whatever holds of everything in a term still does once it is simplified or judged. -/
theorem all_to (depth : Nat) : Keeps p q n depth := by
  induction depth with
  | zero =>
    exact ⟨fun _ h => h, fun _ _ h => Verdict.all_residual.2 (Expression.all_ofTerm hq h),
      fun _ _ h => Verdict.all_residual.2 h⟩
  | succ depth ih =>
    have hsimplify (t : Term) (h : t.All p q) : (simplifyTo n (depth + 1) t).All p q := by
      cases t with
      | app f args =>
        rw [simplifyTo]
        split
        · exact Verdict.all_toTerm (ih.evaluate _ _ h)
        · apply all_simplifyValue hq
          · rw [List.length_map]
            exact (Term.all_app.1 h).1
          · exact ih.map_simplify (Term.all_app.1 h).2
      | _ => exact h
    have hjudge (logic : Logic) (t : Term) (h : t.All p q) :
        (judgeTo n logic (depth + 1) t).All p q := by
      cases t with
      | var x => exact Verdict.all_residual.2 (Expression.all_isTrue hq h)
      | const c => exact Verdict.all_ofConstant hq c
      | app f args =>
        rw [judgeTo]
        split
        · exact ih.evaluate _ _ h
        · have hs := ih.simplify _ h
          split
          · exact Verdict.all_ofConstant hq _
          · exact Verdict.all_residual.2 (Expression.all_isTrue hq hs)
    exact ⟨hsimplify, hjudge, fun _ _ h => keeps_evaluate_succ hq ih h⟩

end Evaluation

include hq in
/-- Whatever holds of everything in a condition holds of what evaluation leaves of it. -/
theorem Expression.All.residual {e e' : Expression} (h : e.All p q)
    (he : e.evaluateTwoValued n = .residual e') : e'.All p q := by
  have hall : (e.evaluateTwoValued n).All p q := (Evaluation.all_to hq _).evaluate .twoValued e h
  rw [he] at hall
  exact Verdict.all_residual.1 hall

end Closed

-- ---------------------------------------------------------------------------
-- Admissible terms
-- ---------------------------------------------------------------------------

/-- A term over `xs` of admissible symbols. -/
def Term.AdmissibleOver (xs : VarSet) : Term → Prop := Term.All (· ∈ xs) Symbol.Admissible

def Expression.AdmissibleOver (xs : VarSet) (e : Expression) : Prop :=
  e.All (· ∈ xs) Symbol.Admissible

/-- An expression of admissible symbols, over any variables. -/
def Expression.Admissible (e : Expression) : Prop := e.All (fun _ => True) Symbol.Admissible

namespace Term.AdmissibleOver

variable {xs ys : VarSet} {t : Term}

theorem vars_subset (h : t.AdmissibleOver xs) : t.vars ⊆ xs := All.vars_mem h

theorem wellApplied (h : t.AdmissibleOver xs) : t.WellApplied :=
  All.mono h (fun _ _ => trivial) fun _ _ hf => hf.2

theorem mono (h : t.AdmissibleOver xs) (hxs : xs ⊆ ys) : t.AdmissibleOver ys :=
  All.mono h hxs fun _ _ hf => hf

theorem of_vars_subset (h : t.AdmissibleOver xs) (hys : t.vars ⊆ ys) : t.AdmissibleOver ys :=
  All.over h hys

theorem apply {s : Substitution} (h : t.AdmissibleOver xs)
    (hs : ∀ x ∈ xs, (s.applyVar x).AdmissibleOver ys) : (s.apply t).AdmissibleOver ys :=
  All.apply h hs

end Term.AdmissibleOver

namespace Expression

variable {xs ys : VarSet} {e e' : Expression}

theorem AdmissibleOver.vars_subset (h : e.AdmissibleOver xs) : e.vars ⊆ xs :=
  Term.AdmissibleOver.vars_subset (t := e.toTerm) h

theorem AdmissibleOver.mono (h : e.AdmissibleOver xs) (hxs : xs ⊆ ys) : e.AdmissibleOver ys :=
  Term.AdmissibleOver.mono h hxs

theorem AdmissibleOver.admissible (h : e.AdmissibleOver xs) : e.Admissible :=
  Term.All.mono h (fun _ _ => trivial) fun _ _ hf => hf

theorem AdmissibleOver.apply {s : Substitution} (h : e.AdmissibleOver xs)
    (hs : ∀ x ∈ xs, (s.applyVar x).AdmissibleOver ys) :
    (s.applyExpression e).AdmissibleOver ys :=
  Term.All.apply h hs

/-- What evaluation leaves of a condition is admissible as the condition is. -/
theorem AdmissibleOver.residual {n : Nullability} (h : e.AdmissibleOver xs)
    (he : e.evaluateTwoValued n = .residual e') : e'.AdmissibleOver xs :=
  All.residual introducible_admissible h he

theorem Admissible.over (h : e.Admissible) (hxs : e.vars ⊆ xs) : e.AdmissibleOver xs :=
  Term.All.over (t := e.toTerm) h hxs

theorem Admissible.wellApplied (h : e.Admissible) : e.WellApplied :=
  Term.All.mono h (fun _ _ => trivial) fun _ _ hf => hf.2

theorem Admissible.negationFree (h : e.Admissible) : e.NegationFree :=
  Term.All.mono h (fun _ _ => trivial) fun _ _ hf => hf.1

theorem WellApplied.residual {n : Nullability} (h : e.WellApplied)
    (he : e.evaluateTwoValued n = .residual e') : e'.WellApplied :=
  All.residual introducible_binary h he

theorem WellApplied.apply {s : Substitution} (h : e.WellApplied)
    (hs : ∀ x, (s.applyVar x).WellApplied) : (s.applyExpression e).WellApplied :=
  Term.All.apply h fun x _ => hs x

end Expression

-- ---------------------------------------------------------------------------
-- Variables
-- ---------------------------------------------------------------------------

variable {s : Substitution} {xs ys : VarSet}

theorem Term.vars_simplify_subset {t : Term} (h : t.vars ⊆ xs) (n : Nullability) :
    (t.simplify n).vars ⊆ xs :=
  ((Evaluation.all_to introducible_true _).simplify t (all_vars.2 h)).vars_mem

namespace Expression

variable {e e' : Expression}

theorem vars_subset_iff : e.vars ⊆ xs ↔ e.All (· ∈ xs) fun _ _ => True :=
  (Term.all_vars (p := (· ∈ xs)) (t := e.toTerm)).symm

theorem vars_applyExpression_subset (h : ∀ x ∈ e.vars, (s.applyVar x).vars ⊆ xs) :
    (s.applyExpression e).vars ⊆ xs := Substitution.vars_apply_subset (t := e.toTerm) h

theorem vars_eq_subset {t u : Term} (ht : t.vars ⊆ xs) (hu : u.vars ⊆ xs) :
    (eq t u).vars ⊆ xs :=
  vars_subset_iff.2 (all_eq introducible_true (Term.all_vars.2 ht) (Term.all_vars.2 hu))

theorem vars_and_subset (h : e.vars ⊆ xs) (h' : e'.vars ⊆ xs) : (e.and e').vars ⊆ xs :=
  vars_subset_iff.2 (all_and introducible_true (vars_subset_iff.1 h) (vars_subset_iff.1 h'))

/-- What evaluation leaves of a condition has no other variables. -/
theorem vars_residual_subset {n : Nullability} (h : e.vars ⊆ xs)
    (he : e.evaluateTwoValued n = .residual e') : e'.vars ⊆ xs :=
  vars_subset_iff.2 (All.residual introducible_true (vars_subset_iff.1 h) he)

end Expression

namespace Tree

variable {es : List Expression} {condition? condition'? : Option Expression}

theorem conditionVars_subset_iff :
    conditionVars condition? ⊆ xs ↔ ∀ e ∈ condition?, e.vars ⊆ xs := by
  cases condition? with
  | none => exact iff_of_true (fun x hx => absurd hx (SortedSet.not_mem_empty x)) nofun
  | some e => simp [conditionVars]

theorem conditionVars_conjunction (h : ∀ e ∈ es, e.vars ⊆ xs) :
    conditionVars (Expression.conjunction es) ⊆ xs := by
  have hall := Expression.all_conjunction introducible_true fun e he =>
    Expression.vars_subset_iff.1 (h e he)
  exact conditionVars_subset_iff.2 fun e he => Expression.vars_subset_iff.2 (hall e he)

theorem conditionVars_andOptional (h : conditionVars condition? ⊆ xs)
    (h' : conditionVars condition'? ⊆ xs) :
    conditionVars (Expression.andOptional condition? condition'?) ⊆ xs := by
  rw [conditionVars_subset_iff] at h h' ⊢
  have hall := Expression.all_andOptional introducible_true
    (fun e he => Expression.vars_subset_iff.1 (h e he))
    fun e he => Expression.vars_subset_iff.1 (h' e he)
  exact fun e he => Expression.vars_subset_iff.2 (hall e he)

theorem conditionVars_map (h : conditionVars condition? ⊆ xs)
    (hs : ∀ x ∈ xs, (s.applyVar x).vars ⊆ ys) :
    conditionVars (condition?.map s.applyExpression) ⊆ ys := by
  rw [conditionVars_subset_iff] at h ⊢
  intro _ he
  obtain ⟨e, hmem, rfl⟩ := Option.mem_map.1 he
  exact Expression.vars_applyExpression_subset fun x hx => hs x (h e hmem x hx)

end Tree

end QueryAlgebra
