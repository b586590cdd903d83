import QueryAlgebra.Proofs.EvaluationDepth
import QueryAlgebra.Proofs.EvaluationEquations

/-!
# Normal forms of conditions

What evaluation leaves of a condition is put together from what it leaves of the operands, some of
them evaluated under another logic. `Expression.Normal` says of such a condition that a second
evaluation leaves it alone, and what has to be known of its conjuncts and negations for that still
to hold once it is an operand itself.

Not every condition is taken to such a form, so the terms for which this works are singled out
first: `Term.Steady`.
-/

namespace QueryAlgebra

open Evaluation

-- ---------------------------------------------------------------------------
-- Steady terms
-- ---------------------------------------------------------------------------

namespace Term

/-- The operation does not occur. -/
def Lacks (t : Term) (op : Operation) : Prop := t.All (fun _ => True) fun f _ => f.operation ≠ op

/-- NULL is not written out, not even as a COALESCE of nothing. -/
inductive NullFree : Term → Prop where
  | var {x : Variable} : NullFree (.var x)
  | const {k : Constant} (hk : k ≠ .null) : NullFree (.const k)
  | app {f : Symbol} {args : List Term} (hf : f.operation = .coalesce → args ≠ [])
      (hargs : ∀ t ∈ args, NullFree t) : NullFree (.app f args)

/-- The operation may head what evaluation leaves of the term. A connective may come down to one of
its operands, a truth test to what it tests, and a negation below a negation goes away with it. -/
inductive Leaves : Term → Operation → Prop where
  | here {f : Symbol} {args : List Term} : Leaves (.app f args) f.operation
  | operand {f : Symbol} {args : List Term} {t : Term} {op : Operation}
      (hf : f.operation = .and ∨ f.operation = .or ∨ f.operation = .isTrue) (ht : t ∈ args)
      (h : Leaves t op) : Leaves (.app f args) op
  | negand {f : Symbol} {args : List Term} {t : Term} {op : Operation}
      (hf : f.operation = .not) (ht : t ∈ args) (hnot : Leaves t .not) (hop : ¬t.Lacks op) :
      Leaves (.app f args) op

end Term

/-- The logic of the operands of a symbol: only through conjunctions and disjunctions does it stay
what it is. -/
def Logic.under (logic : Logic) (f : Symbol) : Logic :=
  if f.operation = .and ∨ f.operation = .or then logic else .threeValued

/-- What a symbol asks of its arguments so that what is left is settled: a disjunction within a
disjunction is taken over with its repetitions, the operand that stands for NULL goes to the end of
a three-valued conjunction, what a double negation or a truth test uncovers was evaluated under
three-valued logic, and a choice may uncover a condition. -/
@[mk_iff]
structure Symbol.SteadyOver (logic : Logic) (f : Symbol) (args : List Term) : Prop where
  disjunction : f.operation = .or → ∀ t ∈ args, ¬t.Leaves .or
  conjunction : f.operation = .and → logic = .threeValued → ∀ t ∈ args, ¬t.Leaves .and ∨ t.NullFree
  negation : f.operation = .not → logic = .twoValued → ∀ t ∈ args, ¬t.Leaves .not
  truthTest : f.operation = .isTrue → logic = .twoValued → ∀ t ∈ args, t.isBoolean = false
  choice : f.operation = .coalesce → ∀ t ∈ args, t.isBoolean = false

/-- Every symbol of the term is settled where it stands. -/
inductive Term.Steady : Logic → Term → Prop where
  | var {logic : Logic} {x : Variable} : Steady logic (.var x)
  | const {logic : Logic} {k : Constant} : Steady logic (.const k)
  | app {logic : Logic} {f : Symbol} {args : List Term} (hf : f.SteadyOver logic args)
      (hargs : ∀ t ∈ args, Steady (logic.under f) t) : Steady logic (.app f args)

theorem Logic.under_of_connective {logic : Logic} {f : Symbol}
    (h : f.operation = .and ∨ f.operation = .or) : logic.under f = logic := if_pos h

theorem Logic.under_of_test {logic : Logic} {f : Symbol} (hand : f.operation ≠ .and)
    (hor : f.operation ≠ .or) : logic.under f = .threeValued := if_neg (not_or.2 ⟨hand, hor⟩)

namespace Term

variable {f : Symbol} {args : List Term} {t : Term} {logic : Logic}

@[simp] theorem steady_var {x : Variable} : (var x).Steady logic := .var

@[simp] theorem steady_const {k : Constant} : (const k).Steady logic := .const

@[simp] theorem steady_app : (app f args).Steady logic ↔
    f.SteadyOver logic args ∧ ∀ t ∈ args, t.Steady (logic.under f) :=
  ⟨fun h => by cases h; exact ⟨‹_›, ‹_›⟩, fun h => .app h.1 h.2⟩

@[simp] theorem not_leaves_var {x : Variable} {op : Operation} : ¬(var x).Leaves op := nofun

@[simp] theorem not_leaves_const {k : Constant} {op : Operation} : ¬(const k).Leaves op := nofun

@[simp] theorem leaves_app {op : Operation} : (app f args).Leaves op ↔ f.operation = op ∨
    ((f.operation = .and ∨ f.operation = .or ∨ f.operation = .isTrue) ∧ ∃ t ∈ args, t.Leaves op) ∨
    f.operation = .not ∧ ∃ t ∈ args, t.Leaves .not ∧ ¬t.Lacks op := by
  constructor
  · intro h
    cases h with
    | here => exact .inl rfl
    | operand hf ht h => exact .inr (.inl ⟨hf, _, ht, h⟩)
    | negand hf ht hnot hop => exact .inr (.inr ⟨hf, _, ht, hnot, hop⟩)
  · rintro (rfl | ⟨hf, t, ht, h⟩ | ⟨hf, t, ht, hnot, hop⟩)
    · exact .here
    · exact .operand hf ht h
    · exact .negand hf ht hnot hop

theorem NullFree.of_mem (h : NullFree (Term.app f args)) (ht : t ∈ args) : t.NullFree := by
  cases h with
  | app _ hargs => exact hargs t ht

theorem Lacks.of_mem {op : Operation} (h : (Term.app f args).Lacks op) (ht : t ∈ args) :
    t.Lacks op :=
  (all_app.1 h).2 t ht

theorem Leaves.not_lacks {op : Operation} (h : t.Leaves op) : ¬t.Lacks op := by
  induction h with
  | here => exact fun hlacks => (all_app.1 hlacks).1 rfl
  | operand _ ht _ ih => exact fun hlacks => ih (hlacks.of_mem ht)
  | negand _ ht _ hop _ => exact fun hlacks => hop (hlacks.of_mem ht)

end Term

-- ---------------------------------------------------------------------------
-- Operands
-- ---------------------------------------------------------------------------

variable {n : Nullability} {logic : Logic} {heads : Operation → Prop} {s t : Term}
  {e c : Expression}

open Verdict (nullOperand)

namespace Expression

theorem nodup_eraseDups {α : Type} [DecidableEq α] (l : List α) : l.eraseDups.Nodup := by
  match l with
  | [] => exact .nil
  | a :: l =>
    rw [List.eraseDups_cons, List.nodup_cons]
    refine ⟨fun h => ?_, nodup_eraseDups _⟩
    simpa using List.mem_eraseDups.1 h
termination_by l.length
decreasing_by exact Nat.lt_succ_of_le (List.length_filter_le _ _)

theorem eraseDups_of_nodup {α : Type} [DecidableEq α] {l : List α} (h : l.Nodup) :
    l.eraseDups = l := by
  induction l with
  | nil => rfl
  | cons a l ih =>
    rw [List.nodup_cons] at h
    rw [List.eraseDups_cons, List.filter_eq_self.2, ih h.2]
    intro b hb
    simpa using fun hba : b = a => h.1 (hba ▸ hb)

/-- What a negation negates. -/
def negand? (e : Expression) : Option Expression :=
  match e.operation, e.args with
  | .not, [t] => some (.ofTerm t)
  | _, _ => none

theorem negand?_of_ne_not (h : e.operation ≠ .not) : e.negand? = none := by
  unfold negand?
  split
  · next hop _ => exact absurd hop h
  · rfl

theorem isBoolean_and (arity : Nat) : (⟨.and, arity⟩ : Symbol).isBoolean = true := rfl

/-- All of the conditions hold. -/
def allOf (es : List Expression) : Expression :=
  ⟨⟨.and, es.length⟩, es.map toTerm, isBoolean_and _⟩

theorem flatMap_conjuncts {es : List Expression} (h : ∀ e ∈ es, e.conjuncts = [e]) :
    es.flatMap conjuncts = es := by
  rw [List.flatMap_congr h, List.flatMap_singleton']

/-- Several operands that are flat and without repetition make the conjunction of all of them. -/
theorem conjunction_of_flat {es : List Expression} (hself : ∀ e ∈ es, e.conjuncts = [e])
    (hnodup : es.Nodup) (hlength : 2 ≤ es.length) : conjunction es = some (allOf es) := by
  rw [conjunction, flatMap_conjuncts hself, eraseDups_of_nodup hnodup]
  match es, hlength with
  | e :: e' :: es, _ => rfl

/-- A conjunction is its only operand, or all of several. -/
theorem conjunction_eq_some {es : List Expression} (h : conjunction es = some e) :
    (es.flatMap conjuncts).eraseDups = [e] ∨
      2 ≤ (es.flatMap conjuncts).eraseDups.length ∧ e = allOf (es.flatMap conjuncts).eraseDups := by
  unfold conjunction at h
  split at h
  · cases h
  · next hes =>
    cases h
    exact .inl hes
  · next hnil hsingle =>
    cases h
    refine .inr ⟨?_, rfl⟩
    match hes : (es.flatMap conjuncts).eraseDups with
    | [] => exact absurd hes hnil
    | [c] => exact absurd hes (hsingle c)
    | _ :: _ :: _ => exact Nat.le_add_left 2 _

theorem allOf_ne_nullOperand {es : List Expression} : allOf es ≠ nullOperand := by
  intro h
  have hop : Operation.and = .isTrue := congrArg operation h
  cases hop

theorem evaluate_nullOperand : nullOperand.evaluate logic n = .null := by
  rw [evaluate_eq]
  rfl

theorem ne_nullOperand_of_settled (h : e.evaluate logic n = .residual e) : e ≠ nullOperand := by
  rintro rfl
  rw [evaluate_nullOperand] at h
  cases h

-- ---------------------------------------------------------------------------
-- Normal forms
-- ---------------------------------------------------------------------------

/-- Something that is left of `t`, headed by one of `heads` if by a connective, and left alone by a
second evaluation. So are its conjuncts, except for the operand that stands for NULL, and what its
negations negate. -/
inductive Normal (n : Nullability) (t : Term) :
    (Operation → Prop) → Logic → Expression → Prop where
  | intro {heads : Operation → Prop} {logic : Logic} {e : Expression}
      (settled : e.evaluate logic n = .residual e)
      (conjuncts : ∀ c ∈ e.conjuncts, c ≠ nullOperand → c.evaluate logic n = .residual c)
      (marker : nullOperand ∈ e.conjuncts → logic = .threeValued ∧ ¬t.NullFree)
      (conjunction : logic = .threeValued → e.operation = .and → heads .and)
      (head : ∀ c ∈ e.conjuncts, c.operation = .or ∨ c.operation = .not → heads c.operation)
      (single : ∀ c ∈ e.conjuncts, ∀ d ∈ c.negand?, d.negand? = none)
      (negand : ∀ c ∈ e.conjuncts, ∀ d ∈ c.negand?, Normal n t (¬t.Lacks ·) .threeValued d) :
      Normal n t heads logic e

theorem normal_of_ne_and (hsettled : e.evaluate logic n = .residual e) (hand : e.operation ≠ .and)
    (hhead : e.operation = .or ∨ e.operation = .not → heads e.operation)
    (hnot : ∀ d ∈ e.negand?, d.negand? = none ∧ d.Normal n t (¬t.Lacks ·) .threeValued) :
    e.Normal n t heads logic := by
  have hself := conjuncts_of_ne_and hand
  constructor
  · exact hsettled
  · rw [hself, List.forall_mem_singleton]
    exact fun _ => hsettled
  · rw [hself, List.mem_singleton]
    exact fun h => absurd h.symm (ne_nullOperand_of_settled hsettled)
  · exact fun _ hop => absurd hop hand
  · rw [hself, List.forall_mem_singleton]
    exact hhead
  · rw [hself]
    exact List.forall_mem_singleton.2 fun d hd => (hnot d hd).1
  · rw [hself]
    exact List.forall_mem_singleton.2 fun d hd => (hnot d hd).2

/-- A test that evaluation leaves alone. -/
theorem normal_of_test (hsettled : e.evaluate logic n = .residual e) (hand : e.operation ≠ .and)
    (hor : e.operation ≠ .or) (hnot : e.operation ≠ .not) : e.Normal n t heads logic :=
  normal_of_ne_and hsettled hand (fun h => (h.elim hor hnot).elim)
    (by rw [negand?_of_ne_not hnot]; nofun)

namespace Normal

theorem settled (h : e.Normal n t heads logic) : e.evaluate logic n = .residual e := by
  cases h; assumption

theorem conjunct (h : e.Normal n t heads logic) (hc : c ∈ e.conjuncts) (hne : c ≠ nullOperand) :
    c.Normal n t heads logic := by
  obtain ⟨-, hconjuncts, -, -, hhead, hsingle, hnegand⟩ := h
  exact normal_of_ne_and (hconjuncts c hc hne) (operation_ne_and_of_mem_conjuncts hc)
    (hhead c hc) fun d hd => ⟨hsingle c hc d hd, hnegand c hc d hd⟩

theorem head (h : e.Normal n t heads logic) (hop : e.operation = .or ∨ e.operation = .not) :
    heads e.operation := by
  obtain ⟨-, -, -, -, hhead, -, -⟩ := h
  refine hhead e ?_ hop
  rw [conjuncts_of_ne_and (by rcases hop with hop | hop <;> rw [hop] <;> nofun)]
  exact .head _

theorem negand {d : Expression} (h : e.Normal n t heads logic) (hd : d ∈ e.negand?) :
    d.negand? = none ∧ d.Normal n t (¬t.Lacks ·) .threeValued := by
  obtain ⟨-, -, -, -, -, hsingle, hnegand⟩ := h
  have hnot : e.operation = .not := by
    by_contra hne
    rw [negand?_of_ne_not hne] at hd
    cases hd
  have hself : e ∈ e.conjuncts := by
    rw [conjuncts_of_ne_and (by rw [hnot]; nofun)]
    exact .head _
  exact ⟨hsingle e hself d hd, hnegand e hself d hd⟩

/-- Where nothing is left of a three-valued conjunction, or NULL is not written out, the operand
that stands for NULL is not among the conjuncts. -/
theorem nullOperand_not_mem (h : e.Normal n t heads logic)
    (ht : logic = .threeValued → ¬heads .and ∨ t.NullFree) : nullOperand ∉ e.conjuncts := by
  have hsettled := h.settled
  obtain ⟨-, -, hmarker, hand, -, -, -⟩ := h
  intro hmem
  obtain ⟨hlogic, hnull⟩ := hmarker hmem
  rcases ht hlogic with ht | ht
  · rw [conjuncts_of_ne_and fun hop => ht (hand hlogic hop), List.mem_singleton] at hmem
    exact ne_nullOperand_of_settled hsettled hmem.symm
  · exact hnull ht

theorem mono {heads' : Operation → Prop} (hheads : ∀ op, heads op → heads' op)
    (h : e.Normal n t heads logic) : e.Normal n t heads' logic := by
  obtain ⟨hsettled, hconjuncts, hmarker, hand, hhead, hsingle, hnegand⟩ := h
  exact ⟨hsettled, hconjuncts, hmarker, fun hl hop => hheads _ (hand hl hop),
    fun c hc hop => hheads _ (hhead c hc hop), hsingle, hnegand⟩

/-- What is left of an argument is left of the whole term. -/
theorem of_arg {f : Symbol} {args : List Term} (ht : t ∈ args) (h : e.Normal n t heads logic) :
    e.Normal n (.app f args) heads logic := by
  induction h with
  | intro hsettled hconjuncts hmarker hand hhead hsingle _ ih =>
    refine ⟨hsettled, hconjuncts, fun h => ⟨(hmarker h).1, fun hfree => ?_⟩, hand, hhead, hsingle,
      fun c hc d hd => (ih c hc d hd).mono fun op hop hlacks => hop (hlacks.of_mem ht)⟩
    exact (hmarker h).2 (hfree.of_mem ht)

end Normal

end Expression

/-- What a verdict on `t` leaves is in normal form, and under three-valued logic the verdict is NULL
only if NULL is written out somewhere. -/
structure Verdict.Normal (n : Nullability) (t : Term) (heads : Operation → Prop) (logic : Logic)
    (v : Verdict) : Prop where
  null : logic = .threeValued → v = .null → ¬t.NullFree
  residual : ∀ e ∈ v.residual?, e.Normal n t heads logic

/-- What evaluation makes of `t` in the place of a value, left alone by a second evaluation. -/
structure Term.Simplified (n : Nullability) (t s : Term) : Prop where
  fixed : s.simplify n = s
  null : s.isNull = true → ¬t.NullFree
  value : t.isBoolean = false → s.isBoolean = false
  condition : ∀ e ∈ Expression.ofTerm? s, e.Normal n t t.Leaves .threeValued

namespace Verdict

theorem normal_residual :
    (Verdict.residual e).Normal n t heads logic ↔ e.Normal n t heads logic :=
  ⟨fun h => h.residual e rfl, fun h => ⟨fun _ => nofun, fun _ he => Option.some.inj he ▸ h⟩⟩

theorem normal_ofBool (b : Bool) : (ofBool b).Normal n t heads logic := by
  cases b <;> exact ⟨fun _ => nofun, nofun⟩

theorem normal_null (h : logic = .threeValued → ¬t.NullFree) : null.Normal n t heads logic :=
  ⟨fun hlogic _ => h hlogic, nofun⟩

theorem normal_ofConstant {k : Constant} (h : k.isNull = true → ¬t.NullFree) :
    (ofConstant k).Normal n t heads logic := by
  cases k with
  | boolean b => exact normal_ofBool b
  | null => exact normal_null fun _ => h rfl
  | _ =>
    refine normal_residual.2 (Expression.normal_of_test ?_ nofun nofun nofun)
    rw [Expression.evaluate_eq]
    rfl

namespace Normal

variable {v : Verdict}

theorem mono {heads' : Operation → Prop} (hheads : ∀ op, heads op → heads' op)
    (h : v.Normal n t heads logic) : v.Normal n t heads' logic :=
  ⟨h.null, fun e he => (h.residual e he).mono hheads⟩

theorem of_arg {f : Symbol} {args : List Term} (ht : t ∈ args) (h : v.Normal n t heads logic) :
    v.Normal n (.app f args) heads logic :=
  ⟨fun hlogic hv hfree => h.null hlogic hv (hfree.of_mem ht),
    fun e he => (h.residual e he).of_arg ht⟩

end Normal

end Verdict

end QueryAlgebra
