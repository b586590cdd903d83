import QueryAlgebra.Proofs.EvaluationWeight

/-!
# Evaluation goes deep enough

An expression met at depth 0 is handed back undecided. That is right, but what is handed back may
have a conjunct `x = x`, which a unifier drops although it is not true of NULL. So it matters that
evaluation gets to the end of every condition, and not only that it is sound.

Main statement: `Expression.resolved_evaluateTwoValued` — where nothing is negated, no conjunct of what
stays undecided equates a term with itself. Below a negation the logic is three-valued, under which
`x = x` has to stay.
-/

namespace QueryAlgebra

-- ---------------------------------------------------------------------------
-- Conjuncts
-- ---------------------------------------------------------------------------

namespace Expression

variable {e c : Expression}

/-- What is no conjunction is its own conjunct. -/
theorem conjuncts_of_ne_and (h : e.operation ≠ .and) : e.conjuncts = [e] := by
  rw [conjuncts, toTerm, conjunctsOf, dif_pos e.boolean]
  exact if_neg h

theorem conjuncts_of_and (h : e.operation = .and) : e.conjuncts = conjunctsOfAll e.args := by
  rw [conjuncts, toTerm, conjunctsOf, dif_pos e.boolean]
  exact if_pos h

theorem operation_ne_and_of_mem_conjuncts (h : c ∈ e.conjuncts) : c.operation ≠ .and := by
  have htest (t : Term) (hc : c ∈ [isTrue t]) : c.operation ≠ .and := by
    rw [List.mem_singleton.1 hc]
    nofun
  have hterm (t : Term) : c ∈ conjunctsOf t → c.operation ≠ .and := by
    induction t using Term.inductionOn with
    | var x => exact htest _
    | const k => exact htest _
    | app f args ih =>
      unfold conjunctsOf
      split
      · split
        · intro hc
          have hall (ts : List Term) (ih : ∀ t ∈ ts, c ∈ conjunctsOf t → c.operation ≠ .and)
              (hc : c ∈ conjunctsOfAll ts) : c.operation ≠ .and := by
            induction ts with
            | nil => exact absurd hc List.not_mem_nil
            | cons t ts ihs =>
              rw [List.forall_mem_cons] at ih
              rw [conjunctsOfAll] at hc
              exact (List.mem_append.1 hc).elim ih.1 (ihs ih.2)
          exact hall args ih hc
        · next hne =>
          intro hc
          rw [List.mem_singleton.1 hc]
          exact hne
      · exact htest _
  exact hterm e.toTerm h

theorem conjuncts_of_mem_conjuncts (h : c ∈ e.conjuncts) : c.conjuncts = [c] :=
  conjuncts_of_ne_and (operation_ne_and_of_mem_conjuncts h)

theorem conjunctsOfAll_toTerm {es : List Expression} (h : ∀ e ∈ es, e.conjuncts = [e]) :
    conjunctsOfAll (es.map toTerm) = es := by
  induction es with
  | nil => rfl
  | cons e es ih =>
    rw [List.forall_mem_cons] at h
    rw [List.map_cons, conjunctsOfAll, ih h.2, ← conjuncts, h.1]
    rfl

/-- A conjunction is taken apart into what its operands are taken apart into. -/
theorem mem_conjuncts_conjunction {es : List Expression} (h : conjunction es = some e) :
    c ∈ e.conjuncts ↔ ∃ e' ∈ es, c ∈ e'.conjuncts := by
  have hmem (d : Expression) : d ∈ (es.flatMap conjuncts).eraseDups ↔ ∃ e' ∈ es, d ∈ e'.conjuncts :=
    List.mem_eraseDups.trans List.mem_flatMap
  have hself : ∀ d ∈ (es.flatMap conjuncts).eraseDups, d.conjuncts = [d] := by
    intro d hd
    obtain ⟨e', -, hd⟩ := (hmem d).1 hd
    exact conjuncts_of_mem_conjuncts hd
  rw [← hmem]
  unfold conjunction at h
  split at h
  · cases h
  · next d hd =>
    cases h
    rw [hd, hself e (by simp [hd])]
  · cases h
    rw [conjuncts_of_and rfl, conjunctsOfAll_toTerm hself]

-- ---------------------------------------------------------------------------
-- What is left undecided
-- ---------------------------------------------------------------------------

/-- An equality of a term with itself. -/
def IsTrivial (e : Expression) : Prop := e.operation = .eq ∧ ∃ t, e.args = [t, t]

/-- Evaluated to the end: no conjunct equates a term with itself, and none is a disjunction of a
single operand. -/
def Resolved (e : Expression) : Prop :=
  ∀ c ∈ e.conjuncts, ¬c.IsTrivial ∧ (c.operation = .or → c.args.length ≠ 1)

theorem resolved_of_conjunct (hand : e.operation ≠ .and) (htrivial : ¬e.IsTrivial)
    (hor : e.operation = .or → e.args.length ≠ 1) : e.Resolved := by
  intro c hc
  rw [conjuncts_of_ne_and hand, List.mem_singleton] at hc
  rw [hc]
  exact ⟨htrivial, hor⟩

theorem resolved_of_test (hand : e.operation ≠ .and) (heq : e.operation ≠ .eq)
    (hor : e.operation ≠ .or) : e.Resolved :=
  resolved_of_conjunct hand (fun h => heq h.1) fun h => absurd h hor

theorem resolved_isTrue (t : Term) : (isTrue t).Resolved := resolved_of_test nofun nofun nofun

theorem resolved_isNotNull (t : Term) : (isNotNull t).Resolved :=
  resolved_of_test nofun nofun nofun

end Expression

/-- Whatever the verdict leaves is evaluated to the end. -/
def Verdict.Resolved (v : Verdict) : Prop := ∀ e ∈ v.residual?, e.Resolved

namespace Verdict

theorem resolved_residual {e : Expression} : (residual e).Resolved ↔ e.Resolved := by
  simp [Resolved, residual?]

theorem resolved_ofBool (b : Bool) : (ofBool b).Resolved := by
  cases b <;> nofun

theorem resolved_ofConstant (c : Constant) : (ofConstant c).Resolved := by
  cases c with
  | boolean b => exact resolved_ofBool b
  | null => nofun
  | _ => exact resolved_residual.2 (Expression.resolved_isTrue _)

theorem resolved_conjoin {logic : Logic} {vs : List Verdict} (h : ∀ v ∈ vs, v.Resolved) :
    (conjoin logic vs).Resolved := by
  unfold conjoin
  split
  · nofun
  · dsimp only
    split
    · nofun
    · next e he =>
      split
      · nofun
      · rw [resolved_residual]
        intro c hc
        obtain ⟨e', he', hc⟩ := (Expression.mem_conjuncts_conjunction he).1 hc
        rcases List.mem_append.1 he' with he' | he'
        · obtain ⟨r, hr, hr'⟩ := List.mem_flatMap.1 he'
          obtain ⟨v, hv, hvr⟩ := List.mem_filterMap.1 hr
          rw [Expression.conjuncts_of_mem_conjuncts hr', List.mem_singleton] at hc
          exact h v hv r hvr c (hc ▸ hr')
        · split at he'
          · rw [List.mem_singleton.1 he'] at hc
            exact Expression.resolved_isTrue .null c hc
          · exact absurd he' List.not_mem_nil

/-- A disjunction that comes down to one operand comes down to one of those that went in. -/
theorem resolved_disjuncts {es operands : List Expression} (hes : ∀ e ∈ es, e.Resolved)
    (h : operands.length = 1 → ∀ e ∈ operands, e.Resolved)
    (hone : (es.foldl disjunctsWith operands).length = 1) :
    ∀ e ∈ es.foldl disjunctsWith operands, e.Resolved := by
  induction es generalizing operands with
  | nil => exact h hone
  | cons e es ih =>
    rw [List.forall_mem_cons] at hes
    apply ih hes.2 _ hone
    intro hlength
    unfold disjunctsWith at hlength ⊢
    split at hlength
    · next hor =>
      -- a disjunction with one operand does not occur, so this one has none
      have hargs : e.args.length ≠ 1 := (hes.1 e (by
        rw [Expression.conjuncts_of_ne_and (by rw [hor]; nofun)]
        exact .head _)).2 hor
      rw [List.length_append, List.length_map] at hlength
      have hnil : e.args = [] := List.length_eq_zero_iff.1 (by omega)
      rw [if_pos hor, hnil, List.map_nil, List.append_nil]
      exact h (by rw [hnil, List.length_nil] at hlength; omega)
    · next hor =>
      rw [if_neg hor]
      split at hlength
      · next hmem =>
        rw [if_pos hmem]
        exact h hlength
      · next hmem =>
        rw [List.length_append, List.length_singleton] at hlength
        have hnil : operands = [] := List.length_eq_zero_iff.1 (by omega)
        rw [if_neg hmem, hnil, List.nil_append, List.forall_mem_singleton]
        exact hes.1

theorem resolved_disjoin {vs : List Verdict} (h : ∀ v ∈ vs, v.Resolved) :
    (disjoin .twoValued vs).Resolved := by
  have hresiduals : ∀ e ∈ vs.filterMap residual?, e.Resolved := by
    intro e he
    obtain ⟨v, hv, hr⟩ := List.mem_filterMap.1 he
    exact h v hv e hr
  have hone := @resolved_disjuncts _ [] hresiduals nofun
  unfold disjoin
  split
  · nofun
  · dsimp only
    rw [if_neg (by nofun)]
    split
    · nofun
    · next e he =>
      rw [he] at hone
      exact resolved_residual.2 (hone rfl e (.head _))
    · next es _ hne =>
      refine resolved_residual.2 (Expression.resolved_of_conjunct nofun nofun fun _ hlength => ?_)
      rw [Expression.or, List.length_map] at hlength
      obtain ⟨e, he⟩ := List.length_eq_one_iff.1 hlength
      exact hne e he

end Verdict

namespace Evaluation

variable {n : Nullability}

/-- What is light enough for the depth is evaluated to the end. -/
structure Resolves (n : Nullability) (depth : Nat) : Prop where
  judge : ∀ t : Term, t.NegationFree → 2 * t.conditionWeight < depth →
    (judgeTo n .twoValued depth t).Resolved
  evaluate : ∀ e : Expression, e.NegationFree → 2 * e.weight ≤ depth →
    (evaluateTo n .twoValued depth e).Resolved

theorem Resolves.map_judge {depth : Nat} (h : Resolves n depth) {ts : List Term}
    (hts : ∀ t ∈ ts, t.NegationFree) (hweight : 2 * Term.conditionWeights ts < depth) :
    ∀ v ∈ ts.map (judgeTo n .twoValued depth), v.Resolved := by
  intro v hv
  obtain ⟨t, ht, rfl⟩ := List.mem_map.1 hv
  have hle := Term.conditionWeight_le_conditionWeights ht
  exact h.judge t (hts t ht) (by omega)

theorem resolved_equality {depth : Nat} (h : Resolves n depth) {s t : Term}
    (hs : s.NegationFree) (ht : t.NegationFree) (hweight : 2 * (Expression.eq s t).weight ≤ depth + 1) :
    (equality n .twoValued (judgeTo n .twoValued depth) s t).Resolved := by
  unfold equality
  split
  · nofun
  · split
    · exact Verdict.resolved_ofBool _
    · split
      · split
        · nofun
        · exact Verdict.resolved_residual.2 (Expression.resolved_isNotNull s)
      · next hne =>
        split
        · next equalities _ he =>
          have hless := weights_injectiveEqualities he
          apply Verdict.resolved_conjoin
          apply h.map_judge
          · exact all_injectiveEqualities introducible_negationFree hs ht he
          · omega
        · refine Verdict.resolved_residual.2 (Expression.resolved_of_conjunct nofun ?_ nofun)
          rintro ⟨-, u, hu⟩
          cases hu
          exact hne rfl

theorem resolved_comparison (c : Comparison) (s t : Term) : (comparison c s t).Resolved := by
  unfold comparison
  split
  · nofun
  · split
    · exact Verdict.resolved_ofBool _
    · apply Verdict.resolved_residual.2
      cases c <;> exact Expression.resolved_of_test nofun nofun nofun

theorem resolved_testNull (expectNull : Bool) (t : Term) :
    (testNull n expectNull t).Resolved := by
  unfold testNull
  split
  · exact Verdict.resolved_ofBool _
  · split
    · exact Verdict.resolved_ofBool _
    · apply Verdict.resolved_residual.2
      split <;> exact Expression.resolved_of_test nofun nofun nofun

theorem resolved_inequality (s t : Term) : (inequality n s t).Resolved := by
  unfold inequality
  split
  · nofun
  · split
    · exact Verdict.resolved_ofBool _
    · split
      · nofun
      · exact Verdict.resolved_residual.2 (Expression.resolved_of_test nofun nofun nofun)

theorem resolved_opaqueCondition {e : Expression} {name : String}
    (hop : e.operation = .booleanDb name) (args : List Term) :
    (opaqueCondition e args).Resolved := by
  have hop' (o : Operation) (h : o ≠ .booleanDb name) : e.operation ≠ o := fun he =>
    h (he.symm.trans hop)
  unfold opaqueCondition
  split
  · rintro _ ⟨⟩
  · exact Verdict.resolved_residual.2 (Expression.resolved_of_test
      (hop' _ Operation.noConfusion) (hop' _ Operation.noConfusion) (hop' _ Operation.noConfusion))

theorem resolves_evaluate_succ {depth : Nat} (ih : Resolves n depth) {e : Expression}
    (h : e.NegationFree) (hweight : 2 * e.weight ≤ depth + 1) :
    (evaluateTo n .twoValued (depth + 1) e).Resolved := by
  have hargs := (Expression.all_iff.1 h).2
  have hweights := e.weights_lt_weight
  have hfree {t : Term} (ht : t ∈ e.args) : (simplifyTo n depth t).NegationFree :=
    (all_to introducible_negationFree depth).simplify t (hargs t ht)
  have hlight (t : Term) := (lightens (n := n) depth).simplify t
  rw [evaluateTo]
  split
  case h_1 hop =>
    rw [Expression.weight_of_connective (.inl hop)] at hweight
    exact Verdict.resolved_conjoin (ih.map_judge hargs (by omega))
  case h_2 hop =>
    rw [Expression.weight_of_connective (.inr (.inl hop))] at hweight
    exact Verdict.resolved_disjoin (ih.map_judge hargs (by omega))
  case h_3 hop _ => exact absurd hop (Expression.all_iff.1 h).1
  case h_4 t _ _ ha => exact resolved_testNull true _
  case h_5 t _ _ ha => exact resolved_testNull false _
  case h_6 t _ _ ha =>
    split
    · exact Verdict.resolved_ofConstant _
    · split
      · next inner he =>
        have hs := hlight t
        have hinner := Expression.toTerm_of_ofTerm? he
        apply ih.evaluate
        · have hs' := hfree (t := t) (ha ▸ .head _)
          rwa [← hinner] at hs'
        · rw [ha, Term.weights] at hweights
          rw [← hinner] at hs
          change inner.weight ≤ _ at hs
          omega
      · exact Verdict.resolved_residual.2 (Expression.resolved_isTrue _)
  case h_7 s t _ ha =>
    have hs := hlight s
    have ht := hlight t
    rw [ha, Term.weights, Term.weights, Term.weights] at hweights
    apply resolved_equality ih (hfree (ha ▸ .head _)) (hfree (ha ▸ .tail _ (.head _)))
    rw [Expression.weight_eq]
    omega
  case h_8 => exact resolved_inequality _ _
  case h_13 hop => exact resolved_opaqueCondition hop _
  case h_14 hand hor _ _ _ _ _ heq _ _ _ _ _ =>
    refine Verdict.resolved_residual.2
      (Expression.resolved_of_conjunct hand ?_ fun h => absurd h hor)
    rintro ⟨hop, t, ht⟩
    exact heq t t hop ht
  all_goals exact resolved_comparison _ _ _

/-- Enough depth for the weight is enough to evaluate to the end. -/
theorem resolves (depth : Nat) : Resolves n depth := by
  induction depth with
  | zero =>
    refine ⟨fun t _ h => absurd h (Nat.not_lt_zero _), fun e _ h => ?_⟩
    have hpos : 0 < e.weight := e.toTerm.weight_pos
    omega
  | succ depth ih =>
    refine ⟨fun t h hweight => ?_, fun e h hweight => resolves_evaluate_succ ih h hweight⟩
    cases t with
    | var x => exact Verdict.resolved_residual.2 (Expression.resolved_isTrue _)
    | const c => exact Verdict.resolved_ofConstant c
    | app f args =>
      rw [judgeTo]
      split
      · next hf =>
        have he := Expression.conditionWeight_toTerm ⟨f, args, hf⟩
        change (Term.app f args).conditionWeight = _ at he
        exact ih.evaluate ⟨f, args, hf⟩ h (by omega)
      · split
        · exact Verdict.resolved_ofConstant _
        · exact Verdict.resolved_residual.2 (Expression.resolved_isTrue _)

end Evaluation

/-- Where nothing is negated, what stays of a filter condition is evaluated to the end. -/
theorem Expression.resolved_evaluateTwoValued {e : Expression} (h : e.NegationFree)
    (n : Nullability) : (e.evaluateTwoValued n).Resolved := by
  have hweight : e.weight < 2 * e.toTerm.size := e.toTerm.weight_lt
  apply (Evaluation.resolves _).evaluate e h
  rw [Evaluation.depthFor]
  omega

end QueryAlgebra
