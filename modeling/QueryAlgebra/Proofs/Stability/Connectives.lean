import QueryAlgebra.Proofs.Stability.Basic

/-!
# Connectives of normal forms

Conjunction, disjunction and negation of normal forms give normal forms again. The operands of a
conjunction are flat and without repetition, and so are those of a disjunction as long as none of
them is a disjunction itself; a negation cancels or is put in front.
-/

namespace QueryAlgebra

open Evaluation

variable {n : Nullability} {logic : Logic} {heads : Operation → Prop} {s t : Term}
  {e c : Expression}

namespace Verdict

variable {vs : List Verdict}

-- ---------------------------------------------------------------------------
-- Operands
-- ---------------------------------------------------------------------------

/-- The operand that stands for NULL, where there is one. -/
def marker (null : Bool) : List Expression := if null then [nullOperand] else []

/-- The verdict NULL, where there is one. -/
def nulls (null : Bool) : List Verdict := if null then [.null] else []

theorem eq_nullOperand_of_mem_marker {null : Bool} (h : c ∈ marker null) :
    c = nullOperand ∧ null = true := by
  cases null with
  | true => exact ⟨List.mem_singleton.1 h, rfl⟩
  | false => exact absurd h List.not_mem_nil

theorem evaluate_marker (null : Bool) :
    (marker null).map (·.evaluate logic n) = nulls null := by
  cases null with
  | true => exact congrArg (fun v => [v]) Expression.evaluate_nullOperand
  | false => rfl

theorem conjuncts_of_mem_operands {es : List Expression} (null : Bool)
    (hes : ∀ e ∈ es, e.conjuncts = [e]) : ∀ e ∈ es ++ marker null, e.conjuncts = [e] := by
  intro e he
  rcases List.mem_append.1 he with he | he
  · exact hes e he
  · rw [(eq_nullOperand_of_mem_marker he).1]
    exact Expression.conjuncts_of_ne_and nofun

theorem nodup_operands {es : List Expression} {null : Bool} (hnodup : es.Nodup)
    (hes : nullOperand ∉ es) : (es ++ marker null).Nodup := by
  refine hnodup.append ?_ fun e he hm => hes ((eq_nullOperand_of_mem_marker hm).1 ▸ he)
  cases null with
  | true => exact List.nodup_singleton _
  | false => exact .nil

theorem eraseDups_operands {es : List Expression} {null : Bool} (hes : nullOperand ∉ es) :
    (es ++ marker null).eraseDups = es.eraseDups ++ marker null := by
  rw [List.eraseDups_append]
  cases null with
  | true =>
    have hsingle : [nullOperand].eraseDups = [nullOperand] := rfl
    simp [marker, List.removeAll, hes, hsingle]
  | false => rfl

theorem undecided_eq (es : List Expression) (null : Bool) :
    (es.map residual ++ nulls null).filterMap residual? = es := by
  have hes : (es.map residual).filterMap residual? = es := by
    rw [List.filterMap_map]
    exact List.filterMap_some
  have hnulls : (nulls null).filterMap residual? = [] := by cases null <;> rfl
  rw [List.filterMap_append, hes, hnulls, List.append_nil]

theorem null_mem_iff (es : List Expression) (null : Bool) :
    .null ∈ es.map residual ++ nulls null ↔ null = true := by
  cases null <;> simp [nulls]

theorem judge_operands {es : List Expression} (null : Bool)
    (hes : ∀ e ∈ es, e.evaluate logic n = .residual e) :
    ((es ++ marker null).map Expression.toTerm).map (·.judge logic n)
      = es.map residual ++ nulls null := by
  have hmarker : (marker null).map (·.evaluate logic n) = nulls null := evaluate_marker null
  rw [List.map_map, ← hmarker, List.map_append]
  congr 1
  · exact List.map_congr_left fun e he => (Term.judge_toTerm e).trans (hes e he)
  · exact List.map_congr_left fun e _ => Term.judge_toTerm e

/-- Operands that are flat and without repetition are put together again as they are. -/
theorem conjoin_residuals {es : List Expression} {null : Bool}
    (hself : ∀ e ∈ es, e.conjuncts = [e]) (hnodup : (es ++ marker null).Nodup)
    (hlength : 2 ≤ (es ++ marker null).length) (hnull : null = true → logic = .threeValued) :
    conjoin logic (es.map residual ++ nulls null)
      = .residual (.allOf (es ++ marker null)) := by
  have hdecided : ¬(.falsity ∈ es.map residual ++ nulls null ∨
      logic = .twoValued ∧ .null ∈ es.map residual ++ nulls null) := by
    rw [null_mem_iff]
    rintro (h | ⟨hlogic, h⟩)
    · cases null <;> simp [nulls] at h
    · rw [hnull h] at hlogic
      cases hlogic
  have hmarker : (if .null ∈ es.map residual ++ nulls null then [nullOperand] else [])
      = marker null := by
    simp only [null_mem_iff]
    rfl
  rw [conjoin, if_neg hdecided]
  dsimp only
  rw [undecided_eq, hmarker, Expression.flatMap_conjuncts hself,
    Expression.conjunction_of_flat (conjuncts_of_mem_operands null hself) hnodup hlength]
  exact if_neg Expression.allOf_ne_nullOperand

/-- Several normal forms put together. -/
theorem normal_all {es : List Expression} {null : Bool} (hes : ∀ e ∈ es, e.Normal n t heads logic)
    (hself : ∀ e ∈ es, e.conjuncts = [e]) (hnodup : es.Nodup)
    (hlength : 2 ≤ (es ++ marker null).length)
    (hnull : null = true → logic = .threeValued ∧ ¬t.NullFree)
    (hand : logic = .threeValued → heads .and) :
    (Expression.allOf (es ++ marker null)).Normal n t heads logic := by
  have hfree : nullOperand ∉ es := fun h =>
    Expression.ne_nullOperand_of_settled (hes _ h).settled rfl
  have hconjuncts : (Expression.allOf (es ++ marker null)).conjuncts = es ++ marker null :=
    (Expression.conjuncts_of_and rfl).trans
      (Expression.conjunctsOfAll_toTerm (conjuncts_of_mem_operands null hself))
  have hjudge := judge_operands null fun e he => (hes e he).settled
  constructor
  · rw [Expression.evaluate_eq]
    exact (congrArg (conjoin logic) hjudge).trans
      (conjoin_residuals hself (nodup_operands hnodup hfree) hlength fun h => (hnull h).1)
  · rw [hconjuncts]
    intro c hc hne
    rcases List.mem_append.1 hc with hc | hc
    · exact (hes c hc).settled
    · exact absurd (eq_nullOperand_of_mem_marker hc).1 hne
  · rw [hconjuncts]
    intro hc
    rcases List.mem_append.1 hc with hc | hc
    · exact absurd hc hfree
    · exact hnull (eq_nullOperand_of_mem_marker hc).2
  · exact fun hlogic _ => hand hlogic
  · rw [hconjuncts]
    intro c hc hop
    rcases List.mem_append.1 hc with hc | hc
    · exact (hes c hc).head hop
    · rw [(eq_nullOperand_of_mem_marker hc).1] at hop
      exact absurd hop (not_or.2 ⟨nofun, nofun⟩)
  · rw [hconjuncts]
    intro c hc d hd
    rcases List.mem_append.1 hc with hc | hc
    · exact ((hes c hc).negand hd).1
    · rw [(eq_nullOperand_of_mem_marker hc).1] at hd
      cases hd
  · rw [hconjuncts]
    intro c hc d hd
    rcases List.mem_append.1 hc with hc | hc
    · exact ((hes c hc).negand hd).2
    · rw [(eq_nullOperand_of_mem_marker hc).1] at hd
      cases hd

/-- What the verdicts leave, taken apart: flat conjuncts in normal form, none of which stands for
NULL. -/
theorem normal_parts (h : ∀ v ∈ vs, v.Normal n t heads logic)
    (hmarker : ∀ v ∈ vs, ∀ e ∈ v.residual?, nullOperand ∉ e.conjuncts) :
    ∀ c ∈ (vs.filterMap residual?).flatMap Expression.conjuncts,
      c.conjuncts = [c] ∧ c ≠ nullOperand ∧ c.Normal n t heads logic := by
  intro c hc
  obtain ⟨e, he, hc⟩ := List.mem_flatMap.1 hc
  obtain ⟨v, hv, he⟩ := List.mem_filterMap.1 he
  have hne : c ≠ nullOperand := fun hcn => hmarker v hv e he (hcn ▸ hc)
  exact ⟨Expression.conjuncts_of_mem_conjuncts hc, hne, ((h v hv).residual e he).conjunct hc hne⟩

/-- A conjunction of such parts, with or without the operand that stands for NULL. -/
theorem normal_conjunction_parts {us : List Expression} {null : Bool}
    (hpart : ∀ c ∈ us, c.conjuncts = [c] ∧ c ≠ nullOperand ∧ c.Normal n t heads logic)
    (hnull : null = true → logic = .threeValued ∧ ¬t.NullFree)
    (hand : logic = .threeValued → heads .and)
    (he : Expression.conjunction (us ++ marker null) = some e) :
    (if e = nullOperand then Verdict.null else .residual e).Normal n t heads logic := by
  have hfree : nullOperand ∉ us := fun hc => (hpart _ hc).2.1 rfl
  have hself := conjuncts_of_mem_operands null fun e he => (hpart e he).1
  have hoperands := Expression.conjunction_eq_some he
  rw [Expression.flatMap_conjuncts hself, eraseDups_operands hfree] at hoperands
  rcases hoperands with hsingle | ⟨hlength, rfl⟩
  · have hmem : e ∈ us ++ marker null := by
      rw [← List.mem_eraseDups, eraseDups_operands hfree, hsingle]
      exact .head _
    split
    · next heq =>
      have hmarked := (List.mem_append.1 hmem).resolve_left fun he => hfree (heq ▸ he)
      exact normal_null fun _ => (hnull (eq_nullOperand_of_mem_marker hmarked).2).2
    · next hne =>
      have he := (List.mem_append.1 hmem).resolve_right fun he =>
        hne (eq_nullOperand_of_mem_marker he).1
      exact normal_residual.2 (hpart e he).2.2
  · rw [if_neg Expression.allOf_ne_nullOperand]
    have hpart' : ∀ c ∈ us.eraseDups,
        c.conjuncts = [c] ∧ c ≠ nullOperand ∧ c.Normal n t heads logic :=
      fun c hc => hpart c (List.mem_eraseDups.1 hc)
    exact normal_residual.2 (normal_all (fun e he => (hpart' e he).2.2)
      (fun e he => (hpart' e he).1) (Expression.nodup_eraseDups us) hlength hnull hand)

theorem normal_conjoin (h : ∀ v ∈ vs, v.Normal n t heads logic)
    (hmarker : ∀ v ∈ vs, ∀ e ∈ v.residual?, nullOperand ∉ e.conjuncts)
    (hand : logic = .threeValued → heads .and) : (conjoin logic vs).Normal n t heads logic := by
  unfold conjoin
  split
  · exact ⟨fun _ => nofun, nofun⟩
  · next hdecided =>
    have hnull : decide (.null ∈ vs) = true → logic = .threeValued ∧ ¬t.NullFree := by
      intro hmem
      rw [decide_eq_true_eq] at hmem
      cases logic with
      | twoValued => exact absurd (.inr ⟨rfl, hmem⟩) hdecided
      | threeValued => exact ⟨rfl, (h _ hmem).null rfl rfl⟩
    have hmark : (if .null ∈ vs then [nullOperand] else []) = marker (decide (.null ∈ vs)) := by
      simp [marker]
    dsimp only
    rw [hmark]
    split
    · exact ⟨fun _ => nofun, nofun⟩
    · next he => exact normal_conjunction_parts (normal_parts h hmarker) hnull hand he

theorem disjuncts_of_nodup {es operands : List Expression} (hor : ∀ e ∈ es, e.operation ≠ .or)
    (hnodup : (operands ++ es).Nodup) : es.foldl disjunctsWith operands = operands ++ es := by
  induction es generalizing operands with
  | nil => exact (List.append_nil _).symm
  | cons e es ih =>
    rw [List.forall_mem_cons] at hor
    have hnew : e ∉ operands := fun h => (List.nodup_append.1 hnodup).2.2 e h e (.head _) rfl
    rw [List.append_cons] at hnodup ⊢
    rw [List.foldl_cons, disjunctsWith, if_neg hor.1, if_neg hnew, ih hor.2 hnodup]

/-- Disjuncts that are no disjunctions themselves are taken over once each. -/
theorem disjuncts_spec {es operands : List Expression} (hor : ∀ e ∈ es, e.operation ≠ .or)
    (hnodup : operands.Nodup) : (es.foldl disjunctsWith operands).Nodup ∧
      ∀ e ∈ es.foldl disjunctsWith operands, e ∈ operands ∨ e ∈ es := by
  induction es generalizing operands with
  | nil => exact ⟨hnodup, fun _ he => .inl he⟩
  | cons e es ih =>
    rw [List.forall_mem_cons] at hor
    rw [List.foldl_cons, disjunctsWith, if_neg hor.1]
    split
    · obtain ⟨hn, hmem⟩ := ih hor.2 hnodup
      exact ⟨hn, fun c hc => (hmem c hc).imp_right (.tail _)⟩
    · next hnew =>
      obtain ⟨hn, hmem⟩ := ih hor.2 (hnodup.append (List.nodup_singleton e)
        (List.disjoint_singleton.2 hnew))
      refine ⟨hn, fun c hc => ?_⟩
      rcases hmem c hc with hc | hc
      · rcases List.mem_append.1 hc with hc | hc
        · exact .inl hc
        · exact .inr (List.mem_singleton.1 hc ▸ .head _)
      · exact .inr (.tail _ hc)

/-- Several normal forms as the operands of a disjunction. -/
theorem normal_or {es : List Expression} (null : Bool)
    (hes : ∀ e ∈ es, e.Normal n t heads logic) (hor : ∀ e ∈ es, e.operation ≠ .or) (hnodup : es.Nodup)
    (hlength : 2 ≤ (es ++ marker null).length) (hnull : null = true → logic = .threeValued)
    (hheads : heads .or) : (Expression.or (es ++ marker null)).Normal n t heads logic := by
  have hjudge := judge_operands null fun e he => (hes e he).settled
  have htruth : .truth ∉ es.map residual ++ nulls null := by cases null <;> simp [nulls]
  have hundecided : es.foldl disjunctsWith [] = es := disjuncts_of_nodup hor hnodup
  refine Expression.normal_of_ne_and ?_ nofun (fun _ => hheads) ?_
  · rw [Expression.evaluate_eq]
    refine (congrArg (disjoin logic) hjudge).trans ?_
    rw [disjoin, if_neg htruth]
    dsimp only
    rw [undecided_eq, hundecided]
    cases null with
    | true =>
      have hne : es.isEmpty = false := by
        cases es with
        | nil => simp [marker] at hlength
        | cons _ _ => rfl
      rw [if_pos ⟨hnull rfl, (null_mem_iff es true).2 rfl⟩, hne]
      rfl
    | false =>
      rw [if_neg fun h => Bool.false_ne_true ((null_mem_iff es false).1 h.2)]
      rw [marker, if_neg nofun, List.append_nil] at hlength ⊢
      match es, hlength with
      | _ :: _ :: _, _ => rfl
  · have hnot : (Expression.or (es ++ marker null)).operation ≠ .not := nofun
    rw [Expression.negand?_of_ne_not hnot]
    nofun

theorem normal_disjoin (h : ∀ v ∈ vs, v.Normal n t heads logic)
    (hor : ∀ v ∈ vs, ∀ e ∈ v.residual?, e.operation ≠ .or) (hheads : heads .or) :
    (disjoin logic vs).Normal n t heads logic := by
  unfold disjoin
  split
  · exact ⟨fun _ => nofun, nofun⟩
  · have hresiduals : ∀ e ∈ vs.filterMap residual?,
        e.Normal n t heads logic ∧ e.operation ≠ .or := by
      intro e he
      obtain ⟨v, hv, he⟩ := List.mem_filterMap.1 he
      exact ⟨(h v hv).residual e he, hor v hv e he⟩
    obtain ⟨hnodup, hmem⟩ := disjuncts_spec (fun e he => (hresiduals e he).2) List.nodup_nil
    dsimp only
    generalize (vs.filterMap residual?).foldl disjunctsWith [] = es at hnodup hmem ⊢
    have hes (e) (he : e ∈ es) : e.Normal n t heads logic ∧ e.operation ≠ .or :=
      hresiduals e ((hmem e he).resolve_left List.not_mem_nil)
    split
    · next hnull =>
      split
      · exact normal_null fun hlogic => (h _ hnull.2).null hlogic rfl
      · next hne =>
        refine normal_residual.2 (normal_or true (fun e he => (hes e he).1)
          (fun e he => (hes e he).2) hnodup ?_ (fun _ => hnull.1) hheads)
        have hpos : 0 < es.length := List.length_pos_iff.2 fun h => hne (List.isEmpty_iff.2 h)
        rw [List.length_append, marker, if_pos rfl, List.length_singleton]
        omega
    · split
      · exact ⟨fun _ => nofun, nofun⟩
      · exact normal_residual.2 (hes _ (.head _)).1
      · next hnil hsingle =>
        have hlength : 2 ≤ es.length := by
          match es with
          | [] => exact absurd rfl hnil
          | [e] => exact absurd rfl (hsingle e)
          | _ :: _ :: _ => exact Nat.le_add_left 2 _
        have hnormal := normal_or false (fun e he => (hes e he).1)
          (fun e he => (hes e he).2) hnodup
        rw [marker, if_neg nofun, List.append_nil] at hnormal
        exact normal_residual.2 (hnormal hlength nofun hheads)

end Verdict

-- ---------------------------------------------------------------------------
-- Tests and negations
-- ---------------------------------------------------------------------------

namespace Expression

/-- The test for NULL, or against it. -/
def nullTest (expectNull : Bool) (t : Term) : Expression :=
  if expectNull then isNull t else isNotNull t

theorem evaluate_nullTest (expectNull : Bool) (t : Term) :
    (nullTest expectNull t).evaluate logic n = testNull n expectNull (t.simplify n) := by
  cases expectNull <;> exact evaluate_eq _

theorem normal_nullTest (expectNull : Bool) (hs : s.simplify n = s) (hnull : s.isNull = false)
    (hnullable : n.isTermNullable s = true) : (nullTest expectNull s).Normal n t heads logic := by
  have hsettled : (nullTest expectNull s).evaluate logic n = .residual (nullTest expectNull s) := by
    rw [evaluate_nullTest, hs, testNull, hnull, hnullable]
    rfl
  cases expectNull <;> exact normal_of_test hsettled nofun nofun nofun

theorem ofTerm?_eq_none_iff : ofTerm? s = none ↔ s.isBoolean = false := by
  cases s with
  | app f args => simp [ofTerm?, Term.isBoolean]
  | _ => exact iff_of_true rfl rfl

theorem normal_isTrue (hs : s.simplify n = s) (hconst : ∀ k, s ≠ .const k)
    (hvalue : s.isBoolean = false) : (isTrue s).Normal n t heads logic := by
  have hop : (isTrue s).operation = .isTrue := rfl
  have ha : (isTrue s).args = [s] := rfl
  refine normal_of_test ?_ (by simp [hop]) (by simp [hop]) (by simp [hop])
  rw [evaluate_eq, verdictWith, hop, ha]
  dsimp only
  rw [hs]
  cases s with
  | var x => rfl
  | const k => exact absurd rfl (hconst k)
  | app f args =>
    dsimp only
    rw [ofTerm?_eq_none_iff.2 hvalue]

theorem testNull_eq_residual {expectNull : Bool} (h : testNull n expectNull s = .residual e) :
    s.isNull = false ∧ n.isTermNullable s = true ∧ nullTest expectNull s = e := by
  unfold testNull at h
  split at h
  · cases expectNull <;> cases h
  · next hnull =>
    split at h
    · cases expectNull <;> cases h
    · next hnullable =>
      rw [Bool.not_eq_true] at hnull
      rw [Bool.not_eq_true, Bool.not_eq_false'] at hnullable
      exact ⟨hnull, hnullable, Verdict.residual.inj h⟩

/-- A test that evaluation leaves alone is one of a simplified term, and so is its opposite. -/
theorem normal_opposite (expectNull : Bool)
    (hop : e.operation = if expectNull then .isNull else .isNotNull) (ha : e.args = [s])
    (h : e.evaluate .threeValued n = .residual e) :
    (nullTest (!expectNull) s).Normal n t heads logic := by
  have htest : testNull n expectNull (s.simplify n) = .residual e := by
    rw [← h, evaluate_eq, verdictWith, hop, ha]
    cases expectNull <;> rfl
  obtain ⟨hnull, hnullable, rfl⟩ := testNull_eq_residual htest
  have hs : s.simplify n = s := by
    cases expectNull <;> exact (List.cons.inj ha).1
  rw [hs] at hnull hnullable
  exact normal_nullTest _ hs hnull hnullable

end Expression

namespace Verdict

/-- A negation cancels or is put in front. Under two-valued logic it must not cancel: what it
negates was evaluated under three-valued logic. -/
theorem normal_negateResidual {heads' : Operation → Prop} (h : e.Normal n t heads .threeValued)
    (hheads : ∀ op, heads op → ¬t.Lacks op) (hnot : heads' .not)
    (hsingle : logic = .twoValued → ¬heads .not)
    (hdouble : heads .not → ∀ op, ¬t.Lacks op → heads' op) :
    (negateResidual e).Normal n t heads' logic := by
  have hneg : e.not.evaluate logic n = .residual (negateResidual e) := by
    rw [Expression.evaluate_eq]
    exact congrArg negate ((Term.judge_toTerm e).trans h.settled)
  unfold negateResidual at hneg ⊢
  split
  · next u hop ha =>
    have hhead : heads .not := hop ▸ h.head (.inr hop)
    cases logic with
    | twoValued => exact absurd hhead (hsingle rfl)
    | threeValued =>
      have hnegand : .ofTerm u ∈ e.negand? := by simp [Expression.negand?, hop, ha]
      exact (h.negand hnegand).2.mono (hdouble hhead)
  · next u hop ha => exact Expression.normal_opposite true hop ha h.settled
  · next u hop ha => exact Expression.normal_opposite false hop ha h.settled
  · next hnegation hnull hnotNull =>
    have hnone : e.negand? = none := by
      unfold Expression.negand?
      split
      · next u hop ha => exact absurd ha (hnegation u hop)
      · rfl
    refine Expression.normal_of_ne_and ?_ nofun (fun _ => hnot) ?_
    · split at hneg
      · next u hop ha => exact absurd ha (hnegation u hop)
      · next u hop ha => exact absurd ha (hnull u hop)
      · next u hop ha => exact absurd ha (hnotNull u hop)
      · exact hneg
    · intro d hd
      have hd' : d = e := by
        rw [Expression.negand?] at hd
        simpa [Expression.not, Expression.operation, Expression.ofTerm, eq_comm] using hd
      exact hd' ▸ ⟨hnone, h.mono hheads⟩

theorem normal_negate {heads' : Operation → Prop} {v : Verdict}
    (h : v.Normal n t heads .threeValued) (hheads : ∀ op, heads op → ¬t.Lacks op)
    (hnot : heads' .not) (hsingle : logic = .twoValued → ¬heads .not)
    (hdouble : heads .not → ∀ op, ¬t.Lacks op → heads' op) : v.negate.Normal n t heads' logic := by
  cases v with
  | truth => exact normal_ofBool false
  | falsity => exact normal_ofBool true
  | null => exact normal_null fun _ => h.null rfl rfl
  | residual e =>
    exact normal_residual.2
      (normal_negateResidual (normal_residual.1 h) hheads hnot hsingle hdouble)

end Verdict

end QueryAlgebra
