/-!
# Finite sets in increasing order

A `SortedSet` lists its members in strictly increasing order, and the type says so. Two sets with
the same members are therefore one and the same value (`SortedSet.ext`), and every traversal
meets the members in the order in which answers show them.

Each operation has one lemma that says which members its result has: `mem_insert`, `mem_ofList`,
`mem_union`, `mem_inter`, `mem_diff`, `mem_filter`, `mem_unions`.
-/

namespace QueryAlgebra

/-- Two lists that an asymmetric relation orders, and that have the same members, are equal. -/
theorem eq_of_pairwise_of_mem_iff {α : Type} {r : α → α → Prop} (asymm : ∀ a b, r a b → ¬ r b a)
    {l m : List α} (hl : l.Pairwise r) (hm : m.Pairwise r) (h : ∀ a, a ∈ l ↔ a ∈ m) : l = m := by
  induction l generalizing m with
  | nil => cases m with
    | nil => rfl
    | cons b m => exact absurd ((h b).2 (.head _)) List.not_mem_nil
  | cons a l ih => cases m with
    | nil => exact absurd ((h a).1 (.head _)) List.not_mem_nil
    | cons b m =>
      obtain ⟨ha, hl'⟩ := List.pairwise_cons.1 hl
      obtain ⟨hb, hm'⟩ := List.pairwise_cons.1 hm
      have hab : a = b := by
        rcases List.mem_cons.1 ((h a).1 (.head _)) with h₁ | h₁
        · exact h₁
        · rcases List.mem_cons.1 ((h b).2 (.head _)) with h₂ | h₂
          · exact h₂.symm
          · exact absurd (hb a h₁) (asymm _ _ (ha b h₂))
      subst hab
      refine congrArg (a :: ·) (ih hl' hm' fun c => ⟨fun hc => ?_, fun hc => ?_⟩)
      · rcases List.mem_cons.1 ((h c).1 (.tail _ hc)) with rfl | h'
        · exact absurd (ha c hc) (asymm c c (ha c hc))
        · exact h'
      · rcases List.mem_cons.1 ((h c).2 (.tail _ hc)) with rfl | h'
        · exact absurd (hb c hc) (asymm c c (hb c hc))
        · exact h'

/-- A strict comparison holds in one direction only. -/
theorem asymm_of_compare {α : Type} [Ord α] [Std.TransOrd α] {a b : α}
    (h : compare a b = .lt) : ¬ compare b a = .lt := by
  rw [Std.OrientedOrd.eq_swap, h]; decide

/-- A finite set, held as its members in strictly increasing order. -/
structure SortedSet (α : Type) [Ord α] where
  toList : List α
  increasing : toList.Pairwise fun a b => compare a b = .lt

namespace SortedSet

variable {α : Type} [Ord α]

-- ---------------------------------------------------------------------------
-- Membership and comparison
-- ---------------------------------------------------------------------------

instance [DecidableEq α] : DecidableEq (SortedSet α) := fun s t =>
  decidable_of_iff (s.toList = t.toList) <| by
    cases s; cases t; simp

instance : Membership α (SortedSet α) := ⟨fun s a => a ∈ s.toList⟩

theorem mem_toList {s : SortedSet α} {a : α} : a ∈ s.toList ↔ a ∈ s := Iff.rfl

instance [DecidableEq α] (a : α) (s : SortedSet α) : Decidable (a ∈ s) :=
  inferInstanceAs (Decidable (a ∈ s.toList))

instance : HasSubset (SortedSet α) := ⟨fun s t => ∀ a ∈ s.toList, a ∈ t⟩

instance [DecidableEq α] (s t : SortedSet α) : Decidable (s ⊆ t) :=
  inferInstanceAs (Decidable (∀ a ∈ s.toList, a ∈ t))

/-- The two sets have no member in common. -/
def Disjoint (s t : SortedSet α) : Prop := ∀ a ∈ s.toList, a ∉ t

instance [DecidableEq α] (s t : SortedSet α) : Decidable (s.Disjoint t) :=
  inferInstanceAs (Decidable (∀ a ∈ s.toList, a ∉ t))

/-- Sets compare as the lists of their members. -/
instance : Ord (SortedSet α) := ⟨compareOn toList⟩

instance [Std.TransOrd α] : Std.TransOrd (SortedSet α) :=
  inferInstanceAs (Std.TransCmp (compareOn (toList : SortedSet α → List α)))

instance [Std.LawfulEqOrd α] : Std.LawfulEqOrd (SortedSet α) where
  compare_self {s} := Std.compare_self (a := s.toList)
  eq_of_compare {s t} h := by
    have : s.toList = t.toList := Std.compare_eq_iff_eq.1 h
    cases s; cases t; simp_all

-- ---------------------------------------------------------------------------
-- Operations
-- ---------------------------------------------------------------------------

/-- The set without members. -/
def empty : SortedSet α := ⟨[], .nil⟩

instance : EmptyCollection (SortedSet α) := ⟨empty⟩

instance : Inhabited (SortedSet α) := ⟨empty⟩

/-- Whether the set has no member. -/
def isEmpty (s : SortedSet α) : Bool := s.toList.isEmpty

/-- The number of members. -/
def size (s : SortedSet α) : Nat := s.toList.length

/-- Puts `a` at its place in an increasing list; a member stays as it is. -/
def place (a : α) : List α → List α
  | [] => [a]
  | b :: l => match compare a b with
    | .lt => a :: b :: l
    | .eq => b :: l
    | .gt => b :: place a l

theorem eq_or_mem_of_mem_place {a c : α} {l : List α} (h : c ∈ place a l) : c = a ∨ c ∈ l := by
  induction l with
  | nil => simpa [place] using h
  | cons b l ih =>
    unfold place at h
    split at h
    · simpa using h
    · exact .inr h
    · rcases List.mem_cons.1 h with rfl | h
      · exact .inr (.head _)
      · exact (ih h).imp_right (.tail _)

theorem place_increasing [Std.TransOrd α] (a : α) {l : List α}
    (h : l.Pairwise fun a b => compare a b = .lt) :
    (place a l).Pairwise fun a b => compare a b = .lt := by
  induction l with
  | nil => simp [place]
  | cons b l ih =>
    have ⟨hb, hl⟩ := List.pairwise_cons.1 h
    unfold place
    split
    · next hab =>
      refine List.pairwise_cons.2 ⟨fun c hc => ?_, h⟩
      rcases List.mem_cons.1 hc with rfl | hc
      · exact hab
      · exact Std.TransCmp.lt_trans hab (hb c hc)
    · exact h
    · next hab =>
      refine List.pairwise_cons.2 ⟨fun c hc => ?_, ih hl⟩
      rcases eq_or_mem_of_mem_place hc with rfl | hc
      · exact Std.OrientedCmp.lt_of_gt hab
      · exact hb c hc

/-- The set with `a` added. -/
def insert [Std.TransOrd α] (a : α) (s : SortedSet α) : SortedSet α :=
  ⟨place a s.toList, place_increasing a s.increasing⟩

/-- The members of a list; order and repetition do not matter. -/
def ofList [Std.TransOrd α] (l : List α) : SortedSet α := l.foldr insert empty

/-- The set with one member. -/
def singleton (a : α) : SortedSet α := ⟨[a], List.pairwise_singleton _ _⟩

/-- The members that satisfy `p`. -/
def filter (p : α → Bool) (s : SortedSet α) : SortedSet α :=
  ⟨s.toList.filter p, s.increasing.filter p⟩

/-- The members of either set. -/
def union [Std.TransOrd α] (s t : SortedSet α) : SortedSet α := s.toList.foldr insert t

/-- The members of both sets. -/
def inter [DecidableEq α] (s t : SortedSet α) : SortedSet α := s.filter (· ∈ t)

/-- The members of the first set that the second lacks. -/
def diff [DecidableEq α] (s t : SortedSet α) : SortedSet α := s.filter (· ∉ t)

instance [Std.TransOrd α] : Union (SortedSet α) := ⟨union⟩

instance [DecidableEq α] : Inter (SortedSet α) := ⟨inter⟩

instance [DecidableEq α] : SDiff (SortedSet α) := ⟨diff⟩

/-- The members of at least one of the sets. -/
def unions [Std.TransOrd α] (sets : List (SortedSet α)) : SortedSet α := sets.foldr union empty

-- ---------------------------------------------------------------------------
-- Members of each result
-- ---------------------------------------------------------------------------

theorem subset_iff {s t : SortedSet α} : s ⊆ t ↔ ∀ a, a ∈ s → a ∈ t := Iff.rfl

theorem disjoint_iff {s t : SortedSet α} : s.Disjoint t ↔ ∀ a, a ∈ s → a ∉ t := Iff.rfl

@[simp] theorem not_mem_empty (a : α) : a ∉ (∅ : SortedSet α) := List.not_mem_nil

@[simp] theorem mem_singleton {a b : α} : a ∈ singleton b ↔ a = b := List.mem_singleton

@[simp] theorem mem_filter {p : α → Bool} {s : SortedSet α} {a : α} :
    a ∈ s.filter p ↔ a ∈ s ∧ p a := List.mem_filter

@[simp] theorem mem_inter [DecidableEq α] {s t : SortedSet α} {a : α} :
    a ∈ s ∩ t ↔ a ∈ s ∧ a ∈ t :=
  mem_filter.trans <| by simp

@[simp] theorem mem_diff [DecidableEq α] {s t : SortedSet α} {a : α} :
    a ∈ s \ t ↔ a ∈ s ∧ a ∉ t :=
  mem_filter.trans <| by simp

theorem mem_place [Std.LawfulEqOrd α] {a c : α} {l : List α} : c ∈ place a l ↔ c = a ∨ c ∈ l := by
  refine ⟨eq_or_mem_of_mem_place, fun h => ?_⟩
  induction l with
  | nil => simpa [place] using h
  | cons b l ih =>
    unfold place
    split
    · simpa using h
    · next hab =>
      rcases h with rfl | h
      · exact Std.LawfulEqCmp.eq_of_compare hab ▸ .head _
      · exact h
    · rcases h with rfl | h
      · exact .tail _ (ih (.inl rfl))
      · rcases List.mem_cons.1 h with rfl | h
        · exact .head _
        · exact .tail _ (ih (.inr h))

section Lawful

variable [Std.TransOrd α] [Std.LawfulEqOrd α]

@[simp] theorem mem_insert {a c : α} {s : SortedSet α} : c ∈ s.insert a ↔ c = a ∨ c ∈ s :=
  mem_place

theorem mem_foldr_insert {c : α} {l : List α} {s : SortedSet α} :
    c ∈ l.foldr insert s ↔ c ∈ l ∨ c ∈ s := by
  induction l with
  | nil => simp
  | cons b l ih => simp [ih, or_assoc]

@[simp] theorem mem_ofList {c : α} {l : List α} : c ∈ ofList l ↔ c ∈ l :=
  mem_foldr_insert.trans <| or_iff_left (not_mem_empty c)

@[simp] theorem mem_union {c : α} {s t : SortedSet α} : c ∈ s ∪ t ↔ c ∈ s ∨ c ∈ t :=
  mem_foldr_insert

theorem subset_union_left {s t : SortedSet α} : s ⊆ s ∪ t := fun _ h => mem_union.2 (.inl h)

theorem subset_union_right {s t : SortedSet α} : t ⊆ s ∪ t := fun _ h => mem_union.2 (.inr h)

theorem union_subset_iff {s t u : SortedSet α} : s ∪ t ⊆ u ↔ s ⊆ u ∧ t ⊆ u := by
  simp only [subset_iff, mem_union, or_imp, forall_and]

@[simp] theorem mem_unions {c : α} {sets : List (SortedSet α)} :
    c ∈ unions sets ↔ ∃ s ∈ sets, c ∈ s := by
  induction sets with
  | nil => exact ⟨fun h => absurd h (not_mem_empty c), fun h => by simp at h⟩
  | cons s sets ih => exact (mem_union (s := s) (t := unions sets)).trans <| by simp [ih]

end Lawful

/-- A set is determined by its members. -/
@[ext] theorem ext [Std.TransOrd α] {s t : SortedSet α} (h : ∀ a, a ∈ s ↔ a ∈ t) : s = t := by
  have := eq_of_pairwise_of_mem_iff (fun _ _ => asymm_of_compare) s.increasing t.increasing h
  cases s; cases t; simp_all

-- ---------------------------------------------------------------------------
-- Number of members
-- ---------------------------------------------------------------------------

/-- A list without repetition is no longer than a list that has all its members. -/
theorem length_le_of_forall_mem {α : Type} [DecidableEq α] {l m : List α} (hl : l.Nodup)
    (h : ∀ a ∈ l, a ∈ m) : l.length ≤ m.length := by
  induction l generalizing m with
  | nil => exact Nat.zero_le _
  | cons a l ih =>
    have ⟨ha, hl⟩ := List.nodup_cons.1 hl
    have ham := h a (.head _)
    have := ih (m := m.erase a) hl fun b hb => by
      have hne : b ≠ a := fun e => ha (e ▸ hb)
      exact (List.mem_erase_of_ne hne).2 (h b (.tail _ hb))
    rw [List.length_erase_of_mem ham] at this
    have := List.length_pos_of_mem ham
    simp only [List.length_cons]
    omega

theorem nodup [Std.LawfulEqOrd α] (s : SortedSet α) : s.toList.Nodup :=
  s.increasing.imp fun h e => by simp [e, Std.ReflCmp.compare_self] at h

theorem size_le_of_subset [DecidableEq α] [Std.LawfulEqOrd α] {s t : SortedSet α} (h : s ⊆ t) :
    s.size ≤ t.size :=
  length_le_of_forall_mem s.nodup h

theorem size_lt_of_subset [DecidableEq α] [Std.LawfulEqOrd α] {s t : SortedSet α} {a : α}
    (h : s ⊆ t) (ha : a ∈ t) (hs : a ∉ s) : s.size < t.size := by
  have : (a :: s.toList).length ≤ t.size :=
    length_le_of_forall_mem (List.nodup_cons.2 ⟨hs, s.nodup⟩) fun b hb => by
      rcases List.mem_cons.1 hb with rfl | hb
      · exact ha
      · exact h b hb
  exact this

@[simp] theorem isEmpty_iff {s : SortedSet α} : s.isEmpty = true ↔ s = ∅ := by
  obtain ⟨l, hl⟩ := s
  cases l with
  | nil => exact ⟨fun _ => rfl, fun _ => rfl⟩
  | cons a l => exact ⟨fun h => (nomatch h), fun h => (nomatch congrArg toList h)⟩

theorem exists_mem_of_isEmpty_eq_false {s : SortedSet α} (h : s.isEmpty = false) :
    ∃ a, a ∈ s := by
  obtain ⟨l, hl⟩ := s
  cases l with
  | nil => cases h
  | cons a l => exact ⟨a, .head l⟩

end SortedSet

end QueryAlgebra
