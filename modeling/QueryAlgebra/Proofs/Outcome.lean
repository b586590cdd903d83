import Mathlib.Data.List.Forall2

/-!
# Computations that may fail

What is said of a computation in `Except`, put together from what is said of its steps: that it gives
a value with a property whenever it gives one (`Except.Returns`), that it gives such a value unless
there is a reason to fail (`Except.Yields`), and that it also fails only with certain errors
(`Except.Ends`).
-/

namespace QueryAlgebra

namespace Except

variable {ε α β : Type}

theorem bind_eq_ok {x : Except ε α} {f : α → Except ε β} {b : β} :
    (x >>= f) = .ok b ↔ ∃ a, x = .ok a ∧ f a = .ok b := by
  cases x with
  | error e => simp [bind, Except.bind]
  | ok a => simp [bind, Except.bind]

theorem bind_unit_eq_ok {x : Except ε Unit} {f : Unit → Except ε β} {b : β} :
    (x >>= f) = .ok b ↔ x = .ok () ∧ f () = .ok b := by
  rw [bind_eq_ok]
  exact ⟨fun ⟨_, hx, hf⟩ => ⟨hx, hf⟩, fun ⟨hx, hf⟩ => ⟨(), hx, hf⟩⟩

/-- Going through a list succeeds exactly when every step does. -/
theorem forM_eq_ok {xs : List α} {f : α → Except ε Unit} :
    xs.forM f = .ok () ↔ ∀ x ∈ xs, f x = .ok () := by
  induction xs with
  | nil => simp [List.forM, pure, Except.pure]
  | cons x xs ih =>
    rw [List.forall_mem_cons, ← ih]
    exact bind_unit_eq_ok

/-- Whether a computation gives a value that satisfies `P` is found out by running it. -/
instance decidableExistsOkAnd (x : Except ε α) (P : α → Prop) [DecidablePred P] :
    Decidable (∃ a, x = .ok a ∧ P a) :=
  match x with
  | .ok a => decidable_of_iff (P a) (by simp)
  | .error _ => isFalse (by simp)

instance decidableExistsOk (x : Except ε α) : Decidable (∃ a, x = .ok a) :=
  decidable_of_iff (∃ a, x = .ok a ∧ True) (by simp)

/-- A computation gives a value that satisfies `P`, or fails for a reason. -/
def Yields (P : α → Prop) (reason : Prop) : Except ε α → Prop
  | .ok a => P a
  | .error _ => reason

theorem Yields.of_imp {P : α → Prop} {reason reason' : Prop} {x : Except ε α}
    (h : Yields P reason x) (hreason : reason → reason') : Yields P reason' x := by
  cases x with
  | error e => exact hreason h
  | ok a => exact h

theorem Yields.bind {P : α → Prop} {P' : β → Prop} {reason : Prop} {x : Except ε α}
    {f : α → Except ε β} (h : Yields P reason x) (hf : ∀ a, P a → Yields P' reason (f a)) :
    Yields P' reason (x >>= f) := by
  cases x with
  | error e => exact h
  | ok a => exact hf a h

/-- Whatever the computation gives satisfies `P`. -/
def Returns (P : α → Prop) (x : Except ε α) : Prop := ∀ a, x = .ok a → P a

namespace Returns

variable {P Q : α → Prop} {x : Except ε α}

theorem ok {a : α} (h : P a) : Returns P (.ok a : Except ε α) := by
  rintro _ ⟨⟩
  exact h

theorem error {e : ε} : Returns P (.error e : Except ε α) := nofun

theorem imp (h : Returns P x) (hPQ : ∀ a, P a → Q a) : Returns Q x := fun a ha => hPQ a (h a ha)

theorem bind {P' : β → Prop} {f : α → Except ε β} (h : Returns P x)
    (hf : ∀ a, P a → Returns P' (f a)) : Returns P' (x >>= f) := by
  intro b hb
  obtain ⟨a, ha, hfa⟩ := bind_eq_ok.1 hb
  exact hf a (h a ha) b hfa

theorem ite {y : Except ε α} {c : Prop} [Decidable c] (h : c → Returns P x)
    (h' : ¬c → Returns P y) : Returns P (if c then x else y) := by
  split
  · next hc => exact h hc
  · next hc => exact h' hc

/-- What is computed for each element of a list satisfies what it does for that element. -/
theorem mapM {R : α → β → Prop} {f : α → Except ε β} {xs : List α}
    (h : ∀ x ∈ xs, Returns (R x) (f x)) : Returns (List.Forall₂ R xs) (xs.mapM f) := by
  induction xs with
  | nil =>
    rw [List.mapM_nil]
    exact ok .nil
  | cons x xs ih =>
    rw [List.forall_mem_cons] at h
    rw [List.mapM_cons]
    exact h.1.bind fun y hy => (ih h.2).bind fun ys hys => ok (.cons hy hys)

end Returns

/-- A computation gives a value that satisfies `P`, or an error that satisfies `Q`. -/
def Ends (P : α → Prop) (Q : ε → Prop) : Except ε α → Prop
  | .ok a => P a
  | .error e => Q e

theorem returns_iff_ends {P : α → Prop} {x : Except ε α} :
    Returns P x ↔ Ends P (fun _ => True) x := by
  cases x with
  | error e => exact iff_of_true .error trivial
  | ok a => exact ⟨fun h => h a rfl, fun h => .ok h⟩

/-- What never fails gives a value that satisfies `P`. -/
theorem ends_false_iff {P : α → Prop} {x : Except ε α} :
    Ends P (fun _ => False) x ↔ ∃ a, x = .ok a ∧ P a := by
  cases x with
  | error e => exact iff_of_false id nofun
  | ok a => exact ⟨fun h => ⟨a, rfl, h⟩, by rintro ⟨_, ⟨⟩, h⟩; exact h⟩

namespace Ends

variable {P P' : α → Prop} {Q : ε → Prop} {x y : Except ε α}

/-- Nothing is said of the outcome. -/
theorem any (x : Except ε α) : Ends (fun _ => True) (fun _ => True) x := by
  cases x with
  | error e => trivial
  | ok a => trivial

theorem returns (h : Ends P Q x) : Returns P x := by
  rintro a rfl
  exact h

/-- Where no error can be, there is a value. -/
theorem exists_ok (h : Ends P Q x) (hQ : ∀ e, ¬Q e) : ∃ a, x = .ok a ∧ P a := by
  cases x with
  | error e => exact absurd h (hQ e)
  | ok a => exact ⟨a, rfl, h⟩

/-- What is known of the errors stays known with what is known of the values. -/
theorem of_returns (h : Ends P Q x) (h' : Returns P' x) : Ends P' Q x := by
  cases x with
  | error e => exact h
  | ok a => exact h' a rfl

/-- What is known in two ways. -/
theorem and {Q' : ε → Prop} (h : Ends P Q x) (h' : Ends P' Q' x) :
    Ends (fun a => P a ∧ P' a) (fun e => Q e ∧ Q' e) x := by
  cases x with
  | error e => exact ⟨h, h'⟩
  | ok a => exact ⟨h, h'⟩

theorem imp_error {Q' : ε → Prop} (h : Ends P Q x) (hQQ' : ∀ e, Q e → Q' e) : Ends P Q' x := by
  cases x with
  | error e => exact hQQ' e h
  | ok a => exact h

theorem imp (h : Ends P Q x) (hPP' : ∀ a, P a → P' a) : Ends P' Q x := by
  cases x with
  | error e => exact h
  | ok a => exact hPP' a h

theorem bind {R : β → Prop} {f : α → Except ε β} (h : Ends P Q x)
    (hf : ∀ a, P a → Ends R Q (f a)) : Ends R Q (x >>= f) := by
  cases x with
  | error e => exact h
  | ok a => exact hf a h

theorem ite {c : Prop} [Decidable c] (h : c → Ends P Q x) (h' : ¬c → Ends P Q y) :
    Ends P Q (if c then x else y) := by
  by_cases hc : c
  · rw [if_pos hc]
    exact h hc
  · rw [if_neg hc]
    exact h' hc

/-- What is computed for each element of a list satisfies what it does for that element. -/
theorem mapM {R : α → β → Prop} {f : α → Except ε β} {xs : List α}
    (h : ∀ x ∈ xs, Ends (R x) Q (f x)) : Ends (List.Forall₂ R xs) Q (xs.mapM f) := by
  induction xs with
  | nil => exact .nil
  | cons x xs ih =>
    rw [List.forall_mem_cons] at h
    rw [List.mapM_cons]
    exact h.1.bind fun y hy => (ih h.2).bind fun ys hys => .cons hy hys

/-- Going through a list fails only as one of its steps does. -/
theorem forM {f : α → Except ε Unit} {xs : List α}
    (h : ∀ x ∈ xs, Ends (fun _ => True) Q (f x)) : Ends (fun _ => True) Q (xs.forM f) := by
  induction xs with
  | nil => trivial
  | cons x xs ih =>
    rw [List.forall_mem_cons] at h
    exact h.1.bind fun _ _ => ih h.2

end Ends

end Except

theorem exists_of_mem_right {α β : Type} {R : α → β → Prop} {xs : List α} {ys : List β}
    (h : List.Forall₂ R xs ys) {b : β} (hb : b ∈ ys) : ∃ a ∈ xs, R a b := by
  induction h with
  | nil => cases hb
  | cons hab _ ih =>
    rcases List.mem_cons.1 hb with rfl | hb
    · exact ⟨_, .head _, hab⟩
    · obtain ⟨a, ha, hab⟩ := ih hb
      exact ⟨a, .tail _ ha, hab⟩

end QueryAlgebra
