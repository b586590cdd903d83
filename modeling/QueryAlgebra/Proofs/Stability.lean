import QueryAlgebra.Proofs.Stability.Connectives

/-!
# Evaluating twice

What evaluation leaves of a condition need not be something that it leaves alone: a double negation
under two-valued logic uncovers a condition that was evaluated under three-valued logic, and the
operands of a disjunction within a disjunction are taken over without looking for repetitions. For
steady conditions, in which this does not happen, a second evaluation changes nothing.

Every rule has a lemma that says when its outcome is in normal form, given that the operands are;
`Term.normalizes` puts them together by induction on terms. Main statements:
`Expression.evaluate_stable`, and `Expression.not_evaluate_stable` for conditions that are not
steady.
-/

namespace QueryAlgebra

open Evaluation

variable {n : Nullability} {logic : Logic} {heads : Operation → Prop} {s t : Term}
  {e c : Expression}

namespace Evaluation

open Verdict (normal_ofBool normal_null normal_residual)

-- ---------------------------------------------------------------------------
-- Rules for simplified operands
-- ---------------------------------------------------------------------------

theorem normal_testNull {expectNull : Bool} (hs : s.simplify n = s) :
    (testNull n expectNull s).Normal n t heads logic := by
  unfold testNull
  split
  · exact normal_ofBool _
  · next hnull =>
    split
    · exact normal_ofBool _
    · next hnullable =>
      rw [Bool.not_eq_true] at hnull
      rw [Bool.not_eq_true, Bool.not_eq_false'] at hnullable
      exact normal_residual.2 (Expression.normal_nullTest _ hs hnull hnullable)

/-- An equality of simplified terms is in normal form if those that an injective symbol is taken
apart into are. -/
theorem normal_equality_of {u : Term} (hs : s.simplify n = s) (hu : u.simplify n = u)
    (hnull : logic = .threeValued → (s.isNull || u.isNull) = true → ¬t.NullFree)
    (hparts : logic = .twoValued → ∀ equalities ∈ injectiveEqualities? s u,
      ∀ v ∈ equalities.map (·.judge .twoValued n), v.Normal n t heads .twoValued) :
    (equality n logic (·.judge logic n) s u).Normal n t heads logic := by
  have heq : (Expression.eq s u).evaluate logic n
      = equality n logic (·.judge logic n) (s.simplify n) (u.simplify n) := Expression.evaluate_eq _
  rw [hs, hu] at heq
  have hrest (h : equality n logic (·.judge logic n) s u = .residual (.eq s u)) :
      (Verdict.residual (.eq s u)).Normal n t heads logic :=
    normal_residual.2 (Expression.normal_of_test (heq.trans h) nofun nofun nofun)
  generalize hv : equality n logic (·.judge logic n) s u = v at hrest
  unfold equality at hv
  split at hv
  · next h =>
    rw [← hv]
    exact normal_null fun hlogic => hnull hlogic h
  · next hs' =>
    rw [Bool.not_eq_true, Bool.or_eq_false_iff] at hs'
    split at hv
    · rw [← hv]
      exact normal_ofBool _
    · split at hv
      · next hsame =>
        split at hv
        · rw [← hv]
          exact normal_ofBool true
        · next hnullable =>
          rw [Bool.not_eq_true, Bool.not_eq_false'] at hnullable
          split at hv
          · rw [← hv]
            exact normal_residual.2 (Expression.normal_nullTest false hs hs'.1 hnullable)
          · rw [← hv]
            exact hrest hv.symm
      · split at hv
        · next equalities he =>
          have hjudged := hparts rfl equalities he
          rw [← hv]
          refine Verdict.normal_conjoin hjudged (fun v hv e he => ?_) nofun
          exact ((hjudged v hv).residual e he).nullOperand_not_mem nofun
        · rw [← hv]
          exact hrest hv.symm

theorem map_simplify_eq_self {ts : List Term} :
    ts.map (·.simplify n) = ts ↔ ∀ t ∈ ts, t.simplify n = t := by
  have hmap := List.map_inj_left (l := ts) (f := (·.simplify n)) (g := id)
  rwa [List.map_id] at hmap

/-- The arguments of a simplified injective application are simplified. -/
theorem simplify_args_of_injective {f : Symbol} {args : List Term} (hf : f.isInjective = true)
    (h : (Term.app f args).simplify n = .app f args) : ∀ t ∈ args, t.simplify n = t := by
  obtain ⟨op, k⟩ := f
  cases op with
  | template pattern =>
    rw [Term.simplify_app rfl, simplifyValue, if_neg nofun] at h
    split at h
    · cases h
    · split at h
      · cases h
      · exact map_simplify_eq_self.1 (Term.app.inj h).2
  | _ => cases hf

theorem mem_injectiveEqualities {u : Term} {equalities : List Term}
    (h : injectiveEqualities? s u = some equalities) :
    ∃ f ss us, s = .app f ss ∧ u = .app f us ∧ f.isInjective = true ∧
      ∀ q ∈ equalities, ∃ a ∈ ss, ∃ b ∈ us, q = (Expression.eq a b).toTerm := by
  unfold injectiveEqualities? at h
  split at h
  · next f ss g us =>
    split at h
    · next hsame =>
      obtain ⟨rfl, hinjective, -⟩ := hsame
      cases h
      refine ⟨f, ss, us, rfl, rfl, hinjective, fun q hq => ?_⟩
      obtain ⟨i, hi, rfl⟩ := List.mem_iff_getElem.1 hq
      rw [List.getElem_zipWith]
      exact ⟨_, List.getElem_mem _, _, List.getElem_mem _, rfl⟩
    · cases h
  · cases h

theorem normal_equality {u : Term} (hs : s.simplify n = s) (hu : u.simplify n = u)
    (hnull : logic = .threeValued → (s.isNull || u.isNull) = true → ¬t.NullFree) :
    (equality n logic (·.judge logic n) s u).Normal n t heads logic := by
  induction s using Term.inductionOn generalizing u logic with
  | var x => exact normal_equality_of hs hu hnull fun _ equalities he => nomatch he
  | const k => exact normal_equality_of hs hu hnull fun _ equalities he => nomatch he
  | app f args ih =>
    refine normal_equality_of hs hu hnull fun _ equalities he v hv => ?_
    obtain ⟨q, hq, rfl⟩ := List.mem_map.1 hv
    obtain ⟨g, ss, us, hss, rfl, hinjective, hparts⟩ := mem_injectiveEqualities he
    obtain ⟨rfl, rfl⟩ := Term.app.inj hss
    obtain ⟨a, ha, b, hb, rfl⟩ := hparts q hq
    have ha' := simplify_args_of_injective hinjective hs a ha
    have hb' := simplify_args_of_injective hinjective hu b hb
    have heq : (Expression.eq a b).evaluate .twoValued n
        = equality n .twoValued (·.judge .twoValued n) (a.simplify n) (b.simplify n) :=
      Expression.evaluate_eq _
    rw [ha', hb'] at heq
    rw [Term.judge_toTerm, heq]
    exact ih a ha ha' hb' nofun

theorem normal_inequality {u : Term} (hs : s.simplify n = s) (hu : u.simplify n = u)
    (hnull : (s.isNull || u.isNull) = true → ¬t.NullFree) :
    (inequality n s u).Normal n t heads logic := by
  have hneq : (Expression.neq s u).evaluate logic n = inequality n (s.simplify n) (u.simplify n) :=
    Expression.evaluate_eq _
  rw [hs, hu] at hneq
  generalize hv : inequality n s u = v at hneq
  unfold inequality at hv
  split at hv
  · next h =>
    rw [← hv]
    exact normal_null fun _ => hnull h
  · split at hv
    · rw [← hv]
      exact normal_ofBool _
    · split at hv
      · rw [← hv]
        exact normal_ofBool false
      · rw [← hv] at hneq ⊢
        exact normal_residual.2 (Expression.normal_of_test hneq nofun nofun nofun)

theorem normal_comparison {c : Comparison} {u : Term} (hs : s.simplify n = s)
    (hu : u.simplify n = u) (hnull : (s.isNull || u.isNull) = true → ¬t.NullFree) :
    (comparison c s u).Normal n t heads logic := by
  have hcomparison : (c.expression s u).evaluate logic n
      = comparison c (s.simplify n) (u.simplify n) := by
    cases c <;> exact Expression.evaluate_eq _
  rw [hs, hu] at hcomparison
  generalize hv : comparison c s u = v at hcomparison
  unfold comparison at hv
  split at hv
  · next h =>
    rw [← hv]
    exact normal_null fun _ => hnull h
  · split at hv
    · rw [← hv]
      exact normal_ofBool _
    · rw [← hv] at hcomparison ⊢
      refine normal_residual.2 ?_
      cases c <;> exact Expression.normal_of_test hcomparison nofun nofun nofun

theorem normal_opaqueCondition {name : String} {args : List Term}
    (hop : e.operation = .booleanDb name) (hargs : ∀ s ∈ args, s.simplify n = s)
    (hnull : ∀ s ∈ args, s.isNull = true → ¬t.NullFree) :
    (opaqueCondition e args).Normal n t heads logic := by
  have hopaque : (⟨e.symbol, args, e.boolean⟩ : Expression).evaluate logic n
      = opaqueCondition e args := by
    have hop' : (⟨e.symbol, args, e.boolean⟩ : Expression).operation = .booleanDb name := hop
    rw [Expression.evaluate_eq, verdictWith, hop']
    exact congrArg (opaqueCondition e) (map_simplify_eq_self.2 hargs)
  generalize hv : opaqueCondition e args = v at hopaque
  unfold opaqueCondition at hv
  split at hv
  · next h =>
    rw [← hv]
    refine normal_null fun _ => ?_
    obtain ⟨s, hs, hsnull⟩ := List.any_eq_true.1 (Bool.and_eq_true_iff.1 h).2
    exact hnull s hs hsnull
  · rw [← hv] at hopaque ⊢
    have hne (o : Operation) (h : o ≠ .booleanDb name) :
        (⟨e.symbol, args, e.boolean⟩ : Expression).operation ≠ o := fun he => h (he.symm.trans hop)
    exact normal_residual.2 (Expression.normal_of_test hopaque (hne _ Operation.noConfusion)
      (hne _ Operation.noConfusion) (hne _ Operation.noConfusion))

theorem choices_choices (ts : List Term) : choices n (choices n ts) = choices n ts := by
  induction ts with
  | nil => rfl
  | cons t ts ih =>
    rw [choices]
    split
    · exact ih
    · next hnull =>
      split
      · next hnullable => rw [choices, if_neg hnull, if_pos hnullable, ih]
      · next hnullable => rw [choices, if_neg hnull, if_neg hnullable]

theorem isNull_of_choices_eq_nil {ts : List Term} (h : choices n ts = []) :
    ∀ t ∈ ts, t.isNull = true := by
  induction ts with
  | nil => exact fun _ ht => absurd ht List.not_mem_nil
  | cons t ts ih =>
    rw [choices] at h
    split at h
    · next hnull => exact List.forall_mem_cons.2 ⟨hnull, ih h⟩
    · split at h <;> cases h

end Evaluation

namespace Term

variable {f : Symbol} {args : List Term}

theorem Simplified.of_value (hfixed : s.simplify n = s) (hnull : s.isNull = true → ¬t.NullFree)
    (hvalue : s.isBoolean = false) : Simplified n t s := by
  refine ⟨hfixed, hnull, fun _ => hvalue, fun e he => ?_⟩
  rw [Expression.ofTerm?_eq_none_iff.2 hvalue] at he
  cases he

theorem simplified_null (h : ¬t.NullFree) : Simplified n t null := .of_value rfl (fun _ => h) rfl

/-- A simplified argument may stand for the whole term, if it is a value. -/
theorem Simplified.of_arg (ht : t ∈ args) (hvalue : t.isBoolean = false) (h : Simplified n t s) :
    Simplified n (.app f args) s :=
  .of_value h.fixed (fun hnull hfree => h.null hnull (hfree.of_mem ht)) (h.value hvalue)

theorem map_simplify_simplified (h : ∀ t ∈ args, Simplified n t (t.simplify n)) :
    (args.map (·.simplify n)).map (·.simplify n) = args.map (·.simplify n) := by
  rw [List.map_map]
  exact List.map_congr_left fun t ht => (h t ht).fixed

/-- What is left of a choice among values: NULL, one of them, or a choice that is not narrowed any
further. -/
theorem simplified_choice (hf : f.operation = .coalesce)
    (hchoice : ∀ t ∈ args, t.isBoolean = false)
    (h : ∀ t ∈ args, Simplified n t (t.simplify n)) :
    Simplified n (.app f args) (simplifyValue n f (args.map (·.simplify n))) := by
  have hfixed := map_simplify_eq_self.1 (map_simplify_simplified h)
  generalize hv : simplifyValue n f (args.map (·.simplify n)) = v
  rw [simplifyValue, if_pos hf] at hv
  split at hv
  · next hnil =>
    rw [← hv]
    refine simplified_null fun hfree => ?_
    have hargs : args ≠ [] := by
      cases hfree with
      | app hne _ => exact hne hf
    obtain ⟨t, ht⟩ := List.exists_mem_of_ne_nil args hargs
    exact (h t ht).null (isNull_of_choices_eq_nil hnil _ (List.mem_map_of_mem ht))
      (hfree.of_mem ht)
  · next s hone =>
    rw [← hv]
    have hs : s ∈ args.map (·.simplify n) :=
      mem_of_mem_choices (n := n) (by rw [hone]; exact .head _)
    obtain ⟨t, ht, rfl⟩ := List.mem_map.1 hs
    exact (h t ht).of_arg ht (hchoice t ht)
  · next hnil hone =>
    rw [← hv]
    have hchosen := map_simplify_eq_self.2 fun s hs => hfixed s (mem_of_mem_choices (n := n) hs)
    refine .of_value ?_ (fun h => absurd h Bool.false_ne_true) rfl
    rw [coalesce, simplify_app rfl, hchosen, simplifyValue, if_pos rfl, choices_choices]
    split
    · next hnil' => exact absurd hnil' hnil
    · next hone' => exact absurd hone' (hone _)
    · rfl

/-- A value function on simplified arguments is simplified. -/
theorem simplified_value (hf : f.isBoolean = false)
    (hchoice : f.operation = .coalesce → ∀ t ∈ args, t.isBoolean = false)
    (h : ∀ t ∈ args, Simplified n t (t.simplify n)) :
    Simplified n (.app f args) ((app f args).simplify n) := by
  rw [simplify_app hf]
  by_cases hcoalesce : f.operation = .coalesce
  · exact simplified_choice hcoalesce (hchoice hcoalesce) h
  · have hfixed := map_simplify_simplified h
    have hmem {s : Term} (hs : s ∈ args.map (·.simplify n)) : ∃ t ∈ args, t.simplify n = s :=
      List.mem_map.1 hs
    generalize args.map (·.simplify n) = ts at hfixed hmem
    generalize hv : simplifyValue n f ts = v
    rw [simplifyValue, if_neg hcoalesce] at hv
    split at hv
    · next hstrict =>
      rw [← hv]
      obtain ⟨s, hs, hsnull⟩ := List.any_eq_true.1 (Bool.and_eq_true_iff.1 hstrict).2
      obtain ⟨t, ht, rfl⟩ := hmem hs
      exact simplified_null fun hfree => (h t ht).null hsnull (hfree.of_mem ht)
    · next hstrict =>
      split at hv
      · rw [← hv]
        exact .of_value rfl (fun h => absurd h Bool.false_ne_true) rfl
      · next hfold =>
        rw [← hv]
        refine .of_value ?_ (fun h => absurd h Bool.false_ne_true) hf
        rw [simplify_app hf, hfixed, simplifyValue, if_neg hcoalesce, if_neg hstrict, hfold]

/-- A condition in the place of a value is simplified once its verdict is in normal form. -/
theorem simplified_toTerm {v : Verdict} (ht : t.isBoolean = true)
    (h : v.Normal n t t.Leaves .threeValued) : Simplified n t v.toTerm := by
  have hvalue : t.isBoolean = false → v.toTerm.isBoolean = false := fun h => by
    rw [ht] at h
    cases h
  cases v with
  | truth => exact ⟨rfl, nofun, hvalue, nofun⟩
  | falsity => exact ⟨rfl, nofun, hvalue, nofun⟩
  | null => exact simplified_null (h.null rfl rfl)
  | residual e =>
    have he := Verdict.normal_residual.1 h
    refine ⟨?_, nofun, hvalue, fun d hd => ?_⟩
    · rw [Verdict.toTerm, simplify_toTerm, he.settled]
      rfl
    · rw [Verdict.toTerm, Expression.ofTerm?_toTerm, Option.mem_some_iff] at hd
      exact hd ▸ he

-- ---------------------------------------------------------------------------
-- Steady terms evaluate to normal forms
-- ---------------------------------------------------------------------------

/-- A steady term is taken to its normal form, whether it stands for a value or for a condition. -/
structure Normalizes (n : Nullability) (t : Term) : Prop where
  simplify : t.Steady .threeValued → Simplified n t (t.simplify n)
  judge : ∀ logic, t.Steady logic → (t.judge logic n).Normal n t t.Leaves logic

end Term

namespace Expression

variable {args : List Term}

theorem normal_conjunction (hop : e.operation = .and) (hf : e.symbol.SteadyOver logic e.args)
    (hargs : ∀ t ∈ e.args, (t.judge logic n).Normal n t t.Leaves logic) :
    (Verdict.conjoin logic (e.args.map (·.judge logic n))).Normal n e.toTerm e.toTerm.Leaves
      logic := by
  refine Verdict.normal_conjoin (fun v hv => ?_) (fun v hv d hd => ?_) fun _ => hop ▸ .here
  · obtain ⟨t, ht, rfl⟩ := List.mem_map.1 hv
    exact ((hargs t ht).mono fun _ => .operand (.inl hop) ht).of_arg ht
  · obtain ⟨t, ht, rfl⟩ := List.mem_map.1 hv
    have hnormal := (hargs t ht).residual d hd
    exact hnormal.nullOperand_not_mem fun hlogic => hf.conjunction hop hlogic t ht

theorem normal_disjunction (hop : e.operation = .or) (hf : e.symbol.SteadyOver logic e.args)
    (hargs : ∀ t ∈ e.args, (t.judge logic n).Normal n t t.Leaves logic) :
    (Verdict.disjoin logic (e.args.map (·.judge logic n))).Normal n e.toTerm e.toTerm.Leaves
      logic := by
  refine Verdict.normal_disjoin (fun v hv => ?_) (fun v hv d hd => ?_) (hop ▸ .here)
  · obtain ⟨t, ht, rfl⟩ := List.mem_map.1 hv
    exact ((hargs t ht).mono fun _ => .operand (.inr (.inl hop)) ht).of_arg ht
  · obtain ⟨t, ht, rfl⟩ := List.mem_map.1 hv
    have hnormal := (hargs t ht).residual d hd
    exact fun hor => hf.disjunction hop t ht (hor ▸ hnormal.head (.inl hor))

theorem normal_negation (hop : e.operation = .not) (hf : e.symbol.SteadyOver logic e.args)
    (ht : t ∈ e.args) (h : (t.judge .threeValued n).Normal n t t.Leaves .threeValued) :
    (t.judge .threeValued n).negate.Normal n e.toTerm e.toTerm.Leaves logic := by
  refine (Verdict.normal_negate h (fun _ h => h.not_lacks) (hop ▸ .here) ?_ ?_).of_arg ht
  · exact fun hlogic => hf.negation hop hlogic t ht
  · exact fun hnot op hlacks => .negand hop ht hnot hlacks

/-- What a truth test of a condition leaves was evaluated under three-valued logic, so under
two-valued logic the argument must be a value. -/
theorem normal_truthTest (hop : e.operation = .isTrue) (hf : e.symbol.SteadyOver logic e.args)
    (ha : e.args = t :: args) (hs : Term.Simplified n t (t.simplify n)) :
    (e.evaluate logic n).Normal n e.toTerm e.toTerm.Leaves logic := by
  have ht : t ∈ e.args := ha ▸ .head _
  rw [evaluate_eq, verdictWith, hop, ha]
  dsimp only
  split
  · next k hk =>
    rw [hk] at hs
    exact (Verdict.normal_ofConstant hs.null).of_arg ht
  · next hconst =>
    split
    · next inner he =>
      cases logic with
      | twoValued =>
        rw [ofTerm?_eq_none_iff.2 (hs.value (hf.truthTest hop rfl t ht))] at he
        cases he
      | threeValued =>
        have hinner := hs.condition inner he
        rw [hinner.settled]
        refine Verdict.normal_residual.2 (Normal.of_arg ht ?_)
        exact hinner.mono fun _ => .operand (.inr (.inr hop)) ht
    · next hnone =>
      exact Verdict.normal_residual.2
        (normal_isTrue hs.fixed hconst (ofTerm?_eq_none_iff.1 hnone))

theorem normal_evaluate (ih : ∀ t ∈ e.args, t.Normalizes n) (h : e.toTerm.Steady logic) :
    (e.evaluate logic n).Normal n e.toTerm e.toTerm.Leaves logic := by
  obtain ⟨hf, hargs⟩ := Term.steady_app.1 h
  have hjudge (hop : e.operation = .and ∨ e.operation = .or) :
      ∀ t ∈ e.args, (t.judge logic n).Normal n t t.Leaves logic := by
    rw [Logic.under_of_connective hop] at hargs
    exact fun t ht => (ih t ht).judge logic (hargs t ht)
  have hbelow (hand : e.operation ≠ .and) (hor : e.operation ≠ .or) {t : Term} (ht : t ∈ e.args) :
      t.Steady .threeValued := by
    have hsteady := hargs t ht
    rwa [Logic.under_of_test hand hor] at hsteady
  have hsimplify (hand : e.operation ≠ .and) (hor : e.operation ≠ .or) {t : Term}
      (ht : t ∈ e.args) : Term.Simplified n t (t.simplify n) :=
    (ih t ht).simplify (hbelow hand hor ht)
  have hnull (hand : e.operation ≠ .and) (hor : e.operation ≠ .or) {t : Term} (ht : t ∈ e.args)
      (hnull : (t.simplify n).isNull = true) : ¬e.toTerm.NullFree := fun hfree =>
    (hsimplify hand hor ht).null hnull (hfree.of_mem ht)
  generalize hv : e.evaluate logic n = v
  have hv' := hv
  rw [evaluate_eq, verdictWith] at hv
  split at hv
  case h_1 hop => exact hv ▸ normal_conjunction hop hf (hjudge (.inl hop))
  case h_2 hop => exact hv ▸ normal_disjunction hop hf (hjudge (.inr hop))
  case h_3 t _ hop ha =>
    have ht : t ∈ e.args := ha ▸ .head _
    have hsteady := hbelow (by simp [hop]) (by simp [hop]) ht
    exact hv ▸ normal_negation hop hf ht ((ih t ht).judge _ hsteady)
  case h_4 t _ hop ha =>
    have ht : t ∈ e.args := ha ▸ .head _
    rw [← hv]
    exact normal_testNull (hsimplify (by simp [hop]) (by simp [hop]) ht).fixed
  case h_5 t _ hop ha =>
    have ht : t ∈ e.args := ha ▸ .head _
    rw [← hv]
    exact normal_testNull (hsimplify (by simp [hop]) (by simp [hop]) ht).fixed
  case h_6 t _ hop ha =>
    have ht : t ∈ e.args := ha ▸ .head _
    exact hv' ▸ normal_truthTest hop hf ha (hsimplify (by simp [hop]) (by simp [hop]) ht)
  case h_13 hop =>
    have hand : e.operation ≠ .and := by simp [hop]
    have hor : e.operation ≠ .or := by simp [hop]
    rw [← hv]
    refine normal_opaqueCondition hop (List.forall_mem_map.2 fun t ht => ?_)
      (List.forall_mem_map.2 fun t ht => hnull hand hor ht)
    exact (hsimplify hand hor ht).fixed
  case h_14 hand hor _ hnot _ _ _ _ _ _ _ _ _ =>
    rw [← hv] at hv' ⊢
    refine Verdict.normal_residual.2 (normal_of_ne_and hv' hand ?_ fun d hd => ?_)
    -- a negation that is left here is one of nothing
    · exact fun _ => .here
    · unfold negand? at hd
      split at hd
      · next t hop ha => exact absurd ha (hnot t [] hop)
      · cases hd
  all_goals
    next s t hop ha =>
    have hand : e.operation ≠ .and := by simp [hop]
    have hor : e.operation ≠ .or := by simp [hop]
    have hs : s ∈ e.args := ha ▸ .head _
    have ht : t ∈ e.args := ha ▸ .tail _ (.head _)
    have hs' := (hsimplify hand hor hs).fixed
    have ht' := (hsimplify hand hor ht).fixed
    have hnull' (h : ((s.simplify n).isNull || (t.simplify n).isNull) = true) :
        ¬e.toTerm.NullFree :=
      (Bool.or_eq_true_iff.1 h).elim (hnull hand hor hs) (hnull hand hor ht)
    rw [← hv]
    first
      | exact normal_equality hs' ht' fun _ => hnull'
      | exact normal_inequality hs' ht' hnull'
      | exact normal_comparison hs' ht' hnull'

end Expression

theorem Term.normalizes (t : Term) : t.Normalizes n := by
  induction t using Term.inductionOn with
  | var x =>
    exact ⟨fun _ => ⟨rfl, nofun, fun _ => rfl, nofun⟩,
      fun _ _ => Verdict.normal_residual.2 (Expression.normal_isTrue rfl nofun rfl)⟩
  | const k =>
    have hnull (h : k.isNull = true) : ¬(Term.const k).NullFree := by
      intro hfree
      cases hfree with
      | const hk => cases k <;> first | exact hk rfl | cases h
    exact ⟨fun _ => ⟨rfl, hnull, fun _ => rfl, nofun⟩, fun _ _ => Verdict.normal_ofConstant hnull⟩
  | app f args ih =>
    cases hf : f.isBoolean with
    | true =>
      have hevaluate (logic : Logic) (h : (Term.app f args).Steady logic) :
          ((⟨f, args, hf⟩ : Expression).evaluate logic n).Normal n (.app f args)
            (app f args).Leaves logic :=
        Expression.normal_evaluate (e := ⟨f, args, hf⟩) ih h
      refine ⟨fun h => ?_, fun logic h => ?_⟩
      · have hsimplify := Term.simplify_toTerm (n := n) ⟨f, args, hf⟩
        exact hsimplify ▸ simplified_toTerm hf (hevaluate .threeValued h)
      · have hjudge : (app f args).judge logic n = Expression.evaluate ⟨f, args, hf⟩ logic n :=
          Term.judge_toTerm ⟨f, args, hf⟩
        exact hjudge ▸ hevaluate logic h
    | false =>
      have hsimplify (logic : Logic) (h : (Term.app f args).Steady logic) :
          Simplified n (.app f args) ((app f args).simplify n) := by
        obtain ⟨hsteady, hargs⟩ := steady_app.1 h
        have hne (op : Operation) (hop : op.isBoolean = true) : f.operation ≠ op := by
          rintro rfl
          exact Bool.noConfusion (hop.symm.trans hf)
        rw [Logic.under_of_test (hne .and rfl) (hne .or rfl)] at hargs
        exact simplified_value hf hsteady.choice fun t ht => (ih t ht).simplify (hargs t ht)
      refine ⟨hsimplify .threeValued, fun logic h => ?_⟩
      have hs := hsimplify logic h
      rw [judge_app hf]
      split
      · next k hk =>
        rw [hk] at hs
        exact Verdict.normal_ofConstant hs.null
      · next hconst =>
        exact Verdict.normal_residual.2 (Expression.normal_isTrue hs.fixed hconst (hs.value hf))

namespace Expression

/-- Evaluated again, what stays undecided of a steady condition stays as it is. -/
theorem evaluate_stable {e r : Expression} (h : e.toTerm.Steady logic)
    (hr : e.evaluate logic n = .residual r) : r.evaluate logic n = .residual r := by
  have hnormal := (e.toTerm.normalizes (n := n)).judge logic h
  rw [Term.judge_toTerm, hr] at hnormal
  exact (Verdict.normal_residual.1 hnormal).settled

/-- A disjunction of an equality between applications of an injective symbol and the negation of a
disjunction: the first evaluation takes the equality apart, the second changes nothing. -/
theorem evaluate_stable_of_disjunction :
    let x : Term := .var ⟨"x"⟩
    let y : Term := .var ⟨"y"⟩
    let n : Nullability := .allNullable (.ofList [⟨"x"⟩, ⟨"y"⟩])
    let pattern (t : Term) : Term := .app ⟨.template "a", 1⟩ [t]
    let tests : Expression := .not (.or [.isNull x, .eq y (.integer 1)])
    let e : Expression := .or [.eq (pattern x) (pattern y), tests]
    e.toTerm.Steady .twoValued ∧ e.evaluate .twoValued n = .residual (.or [.eq x y, tests]) ∧
      (or [.eq x y, tests]).evaluate .twoValued n = .residual (.or [.eq x y, tests]) := by
  intro x y n pattern tests e
  have hsteady : e.toTerm.Steady .twoValued := by
    simp [e, tests, pattern, x, y, toTerm, or, not, eq, isNull, Term.integer, Logic.under,
      Symbol.steadyOver_iff]
  have hresidual : e.evaluate .twoValued n = .residual (.or [.eq x y, tests]) := by decide +kernel
  exact ⟨hsteady, hresidual, evaluate_stable hsteady hresidual⟩

/-- A second evaluation may change what the first one left: below a double negation, where a
disjunction is an operand of a disjunction, where NULL is an operand of a conjunction within a
three-valued conjunction, and where a choice comes down to a condition. -/
theorem not_evaluate_stable :
    let x : Term := .var ⟨"x"⟩
    let y : Term := .var ⟨"y"⟩
    let n : Nullability := .allNullable (.ofList [⟨"x"⟩, ⟨"y"⟩])
    let a : Expression := .eq x y
    let b : Expression := .eq x (.integer 1)
    let withNull : Expression := ⟨⟨.and, 2⟩, [a, .null], rfl⟩
    let notChoice : Expression := ⟨⟨.not, 1⟩, [.coalesce [a]], rfl⟩
    ((eq x x).not.not.evaluate .twoValued n = .residual (.eq x x) ∧
      (eq x x).evaluate .twoValued n = .residual (.isNotNull x)) ∧
    ((or [or [a, b], or [a, b]]).evaluate .twoValued n = .residual (.or [a, b, a, b]) ∧
      (or [a, b, a, b]).evaluate .twoValued n = .residual (.or [a, b])) ∧
    ((allOf [withNull, b]).evaluate .threeValued n
        = .residual (allOf [a, Verdict.nullOperand, b]) ∧
      (allOf [a, Verdict.nullOperand, b]).evaluate .threeValued n
        = .residual (allOf [a, b, Verdict.nullOperand])) ∧
    (notChoice.evaluate .twoValued n = .residual (isTrue a).not ∧
      (isTrue a).not.evaluate .twoValued n = .residual a.not) := by
  decide +kernel

end Expression

end QueryAlgebra
