import QueryAlgebra.Sorted.Set

/-!
# Finite maps in key order

A `SortedMap` lists its entries by strictly increasing key. As for sets, the order is part of the
type, so two maps that answer every look-up alike are equal (`SortedMap.ext`).

Each operation has one lemma through `find?`: `find?_insert`, `find?_filter`, `find?_mapValues`,
`find?_overlay`, `find?_ofList`, and `mem_keys` says what the keys are.
-/

namespace QueryAlgebra

/-- A finite map, held as its entries in strictly increasing order of the keys. -/
structure SortedMap (κ ν : Type) [Ord κ] where
  entries : List (κ × ν)
  increasing : entries.Pairwise fun p q => compare p.1 q.1 = .lt

namespace SortedMap

variable {κ ν : Type} [Ord κ]

instance [DecidableEq κ] [DecidableEq ν] : DecidableEq (SortedMap κ ν) := fun s t =>
  decidable_of_iff (s.entries = t.entries) <| by
    cases s; cases t; simp

-- ---------------------------------------------------------------------------
-- Operations
-- ---------------------------------------------------------------------------

/-- The map without entries. -/
def empty : SortedMap κ ν := ⟨[], .nil⟩

instance : EmptyCollection (SortedMap κ ν) := ⟨empty⟩

instance : Inhabited (SortedMap κ ν) := ⟨empty⟩

/-- Whether the map has no entry. -/
def isEmpty (m : SortedMap κ ν) : Bool := m.entries.isEmpty

/-- The number of entries. -/
def size (m : SortedMap κ ν) : Nat := m.entries.length

/-- The first value listed for `k`. -/
def lookIn [DecidableEq κ] (k : κ) : List (κ × ν) → Option ν
  | [] => none
  | (k', v) :: l => if k' = k then some v else lookIn k l

/-- The value at `k`. -/
def find? [DecidableEq κ] (m : SortedMap κ ν) (k : κ) : Option ν := lookIn k m.entries

/-- Whether `k` has a value. -/
def contains [DecidableEq κ] (m : SortedMap κ ν) (k : κ) : Bool := (m.find? k).isSome

/-- Puts an entry at its place in an increasing list, in place of one with the same key. -/
def place (k : κ) (v : ν) : List (κ × ν) → List (κ × ν)
  | [] => [(k, v)]
  | (k', v') :: l => match compare k k' with
    | .lt => (k, v) :: (k', v') :: l
    | .eq => (k, v) :: l
    | .gt => (k', v') :: place k v l

theorem fst_of_mem_place {k : κ} {v : ν} {p : κ × ν} {l : List (κ × ν)} (h : p ∈ place k v l) :
    p = (k, v) ∨ p ∈ l := by
  induction l with
  | nil => simpa [place] using h
  | cons q l ih =>
    obtain ⟨k', v'⟩ := q
    unfold place at h
    split at h
    · simpa using h
    · exact (List.mem_cons.1 h).imp_right (.tail _)
    · rcases List.mem_cons.1 h with rfl | h
      · exact .inr (.head _)
      · exact (ih h).imp_right (.tail _)

theorem place_increasing [Std.TransOrd κ] [Std.LawfulEqOrd κ] (k : κ) (v : ν) {l : List (κ × ν)}
    (h : l.Pairwise fun p q => compare p.1 q.1 = .lt) :
    (place k v l).Pairwise fun p q => compare p.1 q.1 = .lt := by
  induction l with
  | nil => simp [place]
  | cons q l ih =>
    obtain ⟨k', v'⟩ := q
    have ⟨hq, hl⟩ := List.pairwise_cons.1 h
    unfold place
    split
    · next hk =>
      refine List.pairwise_cons.2 ⟨fun p hp => ?_, h⟩
      rcases List.mem_cons.1 hp with rfl | hp
      · exact hk
      · exact Std.TransCmp.lt_trans hk (hq p hp)
    · next hk =>
      cases Std.LawfulEqCmp.eq_of_compare hk
      exact List.pairwise_cons.2 ⟨hq, hl⟩
    · next hk =>
      refine List.pairwise_cons.2 ⟨fun p hp => ?_, ih hl⟩
      rcases fst_of_mem_place hp with rfl | hp
      · exact Std.OrientedCmp.lt_of_gt hk
      · exact hq p hp

/-- The keys that have a value. -/
def keys (m : SortedMap κ ν) : SortedSet κ :=
  ⟨m.entries.map Prod.fst, List.pairwise_map.2 m.increasing⟩

/-- The values, in the order of their keys. -/
def values (m : SortedMap κ ν) : List ν := m.entries.map Prod.snd

/-- The entries that satisfy `p`. -/
def filter (p : κ → ν → Bool) (m : SortedMap κ ν) : SortedMap κ ν :=
  ⟨m.entries.filter fun e => p e.1 e.2, m.increasing.filter _⟩

/-- Every value replaced by its image. -/
def mapValues {μ : Type} (f : ν → μ) (m : SortedMap κ ν) : SortedMap κ μ :=
  ⟨m.entries.map fun e => (e.1, f e.2), List.pairwise_map.2 m.increasing⟩

-- ---------------------------------------------------------------------------
-- Look-ups
-- ---------------------------------------------------------------------------

section LookUp

variable [DecidableEq κ]

theorem mem_of_lookIn {κ ν : Type} [DecidableEq κ] {k : κ} {v : ν} {l : List (κ × ν)}
    (h : lookIn k l = some v) : (k, v) ∈ l := by
  induction l with
  | nil => exact nomatch h
  | cons p l ih =>
    obtain ⟨k', v'⟩ := p
    unfold lookIn at h
    split at h
    · next hk => cases hk; cases h; exact .head _
    · exact .tail _ (ih h)

theorem lookIn_append {κ ν : Type} [DecidableEq κ] {k : κ} {l₁ l₂ : List (κ × ν)} :
    lookIn k (l₁ ++ l₂) = (lookIn k l₁).or (lookIn k l₂) := by
  induction l₁ with
  | nil => rfl
  | cons p l₁ ih =>
    obtain ⟨k', v'⟩ := p
    by_cases h : k' = k <;> simp [lookIn, h, ih]

theorem lookIn_of_mem {κ ν : Type} [DecidableEq κ] {k : κ} {v : ν} {l : List (κ × ν)}
    (hl : l.Pairwise fun p q => p.1 ≠ q.1) (h : (k, v) ∈ l) : lookIn k l = some v := by
  induction l with
  | nil => exact absurd h List.not_mem_nil
  | cons p l ih =>
    obtain ⟨k', v'⟩ := p
    have ⟨hp, hl⟩ := List.pairwise_cons.1 hl
    rcases List.mem_cons.1 h with h | h
    · cases h; simp [lookIn]
    · simp only [lookIn, if_neg (hp _ h)]
      exact ih hl h

omit [DecidableEq κ] in
/-- No two entries have the same key. -/
theorem distinct [Std.LawfulEqOrd κ] (m : SortedMap κ ν) :
    m.entries.Pairwise fun p q => p.1 ≠ q.1 :=
  m.increasing.imp fun h e => by simp [e, Std.ReflCmp.compare_self] at h

@[simp] theorem find?_empty (k : κ) : (∅ : SortedMap κ ν).find? k = none := rfl

variable [Std.LawfulEqOrd κ]

/-- A look-up answers exactly what the entries hold. -/
theorem find?_eq_some_iff {m : SortedMap κ ν} {k : κ} {v : ν} :
    m.find? k = some v ↔ (k, v) ∈ m.entries :=
  ⟨mem_of_lookIn, lookIn_of_mem m.distinct⟩

@[simp] theorem find?_filter {p : κ → ν → Bool} {m : SortedMap κ ν} {k : κ} :
    (m.filter p).find? k = (m.find? k).filter (p k) := by
  apply Option.ext
  intro v
  rw [find?_eq_some_iff, Option.filter_eq_some_iff, find?_eq_some_iff]
  exact List.mem_filter

@[simp] theorem find?_mapValues {μ : Type} {f : ν → μ} {m : SortedMap κ ν} {k : κ} :
    (m.mapValues f).find? k = (m.find? k).map f := by
  apply Option.ext
  intro w
  rw [find?_eq_some_iff, Option.map_eq_some_iff]
  simp only [mapValues, List.mem_map, Prod.mk.injEq, Prod.exists]
  exact ⟨fun ⟨_, v, hv, hk, hw⟩ => ⟨v, find?_eq_some_iff.2 (hk ▸ hv), hw⟩,
    fun ⟨v, hv, hw⟩ => ⟨k, v, find?_eq_some_iff.1 hv, rfl, hw⟩⟩

theorem mem_keys {m : SortedMap κ ν} {k : κ} : k ∈ m.keys ↔ ∃ v, m.find? k = some v :=
  List.mem_map.trans
    ⟨fun ⟨⟨_, v⟩, h, e⟩ => ⟨v, find?_eq_some_iff.2 (e ▸ h)⟩,
      fun ⟨v, h⟩ => ⟨(k, v), find?_eq_some_iff.1 h, rfl⟩⟩

theorem contains_iff {m : SortedMap κ ν} {k : κ} : m.contains k = true ↔ k ∈ m.keys :=
  Option.isSome_iff_exists.trans mem_keys.symm

/-- A map is determined by its look-ups. -/
theorem ext [Std.TransOrd κ] {s t : SortedMap κ ν} (h : ∀ k, s.find? k = t.find? k) : s = t := by
  have mem (p : κ × ν) : p ∈ s.entries ↔ p ∈ t.entries := by
    rw [← find?_eq_some_iff, ← find?_eq_some_iff, h]
  have := eq_of_pairwise_of_mem_iff (fun _ _ => asymm_of_compare) s.increasing t.increasing mem
  cases s; cases t; simp_all

end LookUp

-- ---------------------------------------------------------------------------
-- Insertion
-- ---------------------------------------------------------------------------

section Insertion

variable [Std.TransOrd κ] [Std.LawfulEqOrd κ]

/-- The map with value `v` at `k`. -/
def insert (k : κ) (v : ν) (m : SortedMap κ ν) : SortedMap κ ν :=
  ⟨place k v m.entries, place_increasing k v m.increasing⟩

/-- The map of a list of entries; a later entry replaces an earlier one with its key. -/
def ofList (l : List (κ × ν)) : SortedMap κ ν := l.foldl (fun m e => m.insert e.1 e.2) empty

/-- The entries of both maps; where both have a value, that of `n` counts. -/
def overlay (m n : SortedMap κ ν) : SortedMap κ ν :=
  n.entries.foldl (fun m e => m.insert e.1 e.2) m

variable [DecidableEq κ]

@[simp] theorem find?_insert {m : SortedMap κ ν} {k c : κ} {v : ν} :
    (m.insert k v).find? c = if k = c then some v else m.find? c := by
  obtain ⟨l, hl⟩ := m
  simp only [find?, insert]
  clear hl
  induction l with
  | nil => simp [place, lookIn]
  | cons p l ih =>
    obtain ⟨k', v'⟩ := p
    unfold place
    split
    · simp [lookIn]
    · next hk =>
      cases Std.LawfulEqCmp.eq_of_compare hk
      by_cases h : k = c <;> simp [lookIn, h]
    · next hk =>
      have hne : k ≠ k' := fun e => by simp [e, Std.ReflCmp.compare_self] at hk
      by_cases h : k' = c
      · cases h; simp [lookIn, hne]
      · simp [lookIn, h, ih]

theorem find?_foldl_insert {l : List (κ × ν)} {m : SortedMap κ ν} {c : κ} :
    (l.foldl (fun m e => m.insert e.1 e.2) m).find? c
      = (lookIn c l.reverse).or (m.find? c) := by
  induction l generalizing m with
  | nil => rfl
  | cons p l ih =>
    simp only [List.foldl_cons, List.reverse_cons, ih, find?_insert, lookIn_append]
    by_cases h : p.1 = c <;> simp [lookIn, h]

/-- The last entry for a key counts. -/
theorem find?_ofList {l : List (κ × ν)} {c : κ} : (ofList l).find? c = lookIn c l.reverse :=
  find?_foldl_insert.trans <| by
    simp only [show (empty : SortedMap κ ν).find? c = none from rfl, Option.or_none]

@[simp] theorem find?_overlay {m n : SortedMap κ ν} {k : κ} :
    (m.overlay n).find? k = (n.find? k).or (m.find? k) := by
  rw [overlay, find?_foldl_insert]
  congr 1
  apply Option.ext
  intro v
  rw [find?_eq_some_iff]
  refine ⟨fun h => List.mem_reverse.1 (mem_of_lookIn h), fun h => ?_⟩
  exact lookIn_of_mem (List.pairwise_reverse.2 (n.distinct.imp Ne.symm)) (List.mem_reverse.2 h)

end Insertion

end SortedMap

end QueryAlgebra
