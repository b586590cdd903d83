import QueryAlgebra.Proofs.Bags
import QueryAlgebra.Proofs.Validity
import QueryAlgebra.Tree.SelfJoin

/-!
# Atoms that add nothing to a join

An atom is redundant beside another one of the same relation when they have the same arguments, up to
variables that nobody else reads. Whatever tuple the other atom is matched with then fits this one
too, so the join without it has no more rows than the join with it. What it loses is that the atom's
variables are compared and so are not NULL; guards make up for that. Where occurrences count, the
arguments that match cover a key, so no second tuple fits.

Main statement: `Tree.joinRows_drop` — the rows of a join, cut down to what is read, are those of the
join without the redundant atom that pass the guards.
-/

namespace QueryAlgebra

-- ---------------------------------------------------------------------------
-- Atoms that every row is built from
-- ---------------------------------------------------------------------------

namespace Tree

variable {D : Source}

/-- The row is built from a tuple that the atom is matched with. -/
def BuiltFrom (D : Source) (b : Atom Relation) (σ : Row) : Prop :=
  ∃ tuple ∈ D.table b.predicate, D.Fits b.args tuple ∧
    Row.AgreeOn b.vars σ (Source.assign b.args tuple)

theorem mem_requiredAtomsOf {b : Atom Relation} {ts : List Tree} :
    b ∈ requiredAtomsOf ts ↔ ∃ t ∈ ts, b ∈ requiredAtoms t := by
  induction ts with
  | nil => simp [requiredAtomsOf]
  | cons t ts ih => simp [requiredAtomsOf, ih]

theorem forall_mem_requiredAtomsOf_middle {p : Atom Relation → Prop} {t : Tree}
    {before after : List Tree} :
    (∀ b ∈ requiredAtomsOf (before ++ t :: after), p b) ↔
      (∀ b ∈ requiredAtoms t, p b) ∧ ∀ b ∈ requiredAtomsOf (before ++ after), p b := by
  simp only [mem_requiredAtomsOf, List.mem_append, List.mem_cons]
  grind

/-- Atoms that are not well formed are found when the nodes are checked. -/
theorem isWellFormed_of_mem_requiredAtoms {b : Atom Relation} {t : Tree}
    (ht : ∀ u ∈ t.nodes, (∀ m q, u ≠ leaf m (.native q)) → u.checkNode = .ok ())
    (h : b ∈ requiredAtoms t) : b.isWellFormed = true := by
  induction t using inductionOn with
  | step t ih =>
    obtain ⟨hroot, hchildren⟩ := forall_mem_nodes.1 ht
    cases t with
    | leaf _ l =>
      cases l with
      | extensional atom =>
        rw [requiredAtoms, List.mem_singleton] at h
        exact h ▸ checkNode_eq_ok.1 (hroot (by simp))
      | _ => exact absurd h List.not_mem_nil
    | filter _ condition child => exact ih child (.head _) (hchildren child (.head _)) h
    | join _ condition? ts =>
      obtain ⟨t, ht, hb⟩ := mem_requiredAtomsOf.1 h
      exact ih t ht (hchildren t ht) hb
    | _ => exact absurd h List.not_mem_nil

theorem vars_subset_of_mem_requiredAtoms {b : Atom Relation} {t : Tree}
    (h : b ∈ requiredAtoms t) : b.vars ⊆ t.vars := by
  induction t using inductionOn with
  | step t ih =>
    cases t with
    | leaf _ l =>
      cases l with
      | extensional atom =>
        rw [requiredAtoms, List.mem_singleton] at h
        exact fun x hx => h ▸ hx
      | _ => exact absurd h List.not_mem_nil
    | filter _ condition child => exact ih child (.head _) h
    | join _ condition? ts =>
      obtain ⟨t, ht, hb⟩ := mem_requiredAtomsOf.1 h
      exact fun x hx => mem_varsOf.2 ⟨t, ht, ih t ht hb x hx⟩
    | _ => exact absurd h List.not_mem_nil

theorem builtFrom_of_mem_rows {b : Atom Relation} {t : Tree} (h : b ∈ requiredAtoms t) :
    ∀ σ ∈ t.rows D, BuiltFrom D b σ := by
  induction t using inductionOn with
  | step t ih =>
    cases t with
    | leaf _ l =>
      cases l with
      | extensional atom =>
        rw [requiredAtoms, List.mem_singleton] at h
        subst h
        intro σ hσ
        obtain ⟨tuple, htuple, hfits, rfl⟩ := Source.mem_matching.1 hσ
        exact ⟨tuple, htuple, hfits, fun _ _ => rfl⟩
      | _ => exact absurd h List.not_mem_nil
    | filter _ condition child =>
      exact fun σ hσ => ih child (.head _) h σ (List.mem_of_mem_filter hσ)
    | join _ condition? ts =>
      intro σ hσ
      obtain ⟨t, ht, hb⟩ := mem_requiredAtomsOf.1 h
      obtain ⟨ρ, hρ, hagree⟩ := exists_of_mem_joinRows (List.mem_of_mem_filter hσ) t ht
      obtain ⟨tuple, htuple, hfits, hvalues⟩ := ih t ht hb ρ hρ
      refine ⟨tuple, htuple, hfits, fun x hx => ?_⟩
      rw [hagree x (vars_subset_of_mem_requiredAtoms hb x hx)]
      exact hvalues x hx
    | _ => exact absurd h List.not_mem_nil

theorem builtFrom_of_mem_joinRows {b : Atom Relation} {ts : List Tree}
    (h : b ∈ requiredAtomsOf ts) {σ : Row} (hσ : σ ∈ joinRows D ts) : BuiltFrom D b σ :=
  builtFrom_of_mem_rows (t := join false none ts) h σ
    (List.mem_filter.2 ⟨hσ, decide_eq_true Interpretation.holdsOptional_none⟩)

end Tree

-- ---------------------------------------------------------------------------
-- Two atoms
-- ---------------------------------------------------------------------------

namespace Atom

variable {a b : Atom Relation} {demand : Demand}

theorem predicate_eq (h : a.isRedundantBeside b demand = true) : a.predicate = b.predicate := by
  simp only [isRedundantBeside, Bool.and_eq_true, decide_eq_true_eq] at h
  exact h.1.1.1

theorem length_args_eq (h : a.isRedundantBeside b demand = true) (ha : a.isWellFormed = true)
    (hb : b.isWellFormed = true) : a.args.length = b.args.length := by
  rw [isWellFormed, Bool.and_eq_true, decide_eq_true_iff] at ha hb
  rw [ha.1, hb.1, predicate_eq h]

theorem identifiesRow_of_redundant (h : a.isRedundantBeside b demand = true)
    (hset : demand.setOnly = false) :
    a.predicate.identifiesRow (a.differingPositions b) = true := by
  simp only [isRedundantBeside, hset, Bool.false_or, Bool.and_eq_true] at h
  exact h.2

/-- Arguments that are no variables are ground. -/
theorem isGround_of_isWellFormed (ha : a.isWellFormed = true) {t : Term} (ht : t ∈ a.args)
    (hvariable : t.isVariable = false) : t.isGround = true :=
  (arg_of_isWellFormed ha t ht).resolve_left (Bool.eq_false_iff.1 hvariable)

theorem arg_of_not_differing {p : Nat} (hp : p ∉ a.differingPositions b) {t : Term}
    (ht : a.args[p]? = some t) : b.args[p]? = some t := by
  by_contra hne
  refine hp (List.mem_filter.2 ⟨List.mem_range.2 (List.getElem?_eq_some_iff.1 ht).1, ?_⟩)
  rw [decide_eq_true_iff, ht]
  exact fun he => hne he.symm

/-- An argument of a redundant atom is one of the other too, or a variable of its own that is
discarded. -/
theorem arg_of_redundant (h : a.isRedundantBeside b demand = true) {p : Nat} {t : Term}
    (hp : a.args[p]? = some t) :
    b.args[p]? = some t ∨
      ∃ x ∈ demand.discarded, t = .var x ∧ a.args.count (.var x) = 1 := by
  simp only [isRedundantBeside, Bool.and_eq_true, List.all_eq_true] at h
  by_cases hdiffers : p ∈ a.differingPositions b
  · right
    have hfree := h.1.2 p hdiffers
    rw [isFreeAt, hp] at hfree
    cases t with
    | var x =>
      rw [Bool.and_eq_true, decide_eq_true_iff, beq_iff_eq] at hfree
      exact ⟨x, hfree.1, rfl, hfree.2⟩
    | _ => cases hfree
  · exact .inl (arg_of_not_differing hdiffers hp)

/-- A variable that is read stands at the same places in the other atom. -/
theorem arg_of_not_discarded (h : a.isRedundantBeside b demand = true) {p : Nat} {x : Variable}
    (hp : a.args[p]? = some (.var x)) (hx : x ∉ demand.discarded) : b.args[p]? = some (.var x) := by
  rcases arg_of_redundant h hp with he | ⟨y, hy, he, -⟩
  · exact he
  · cases he
    exact absurd hy hx

theorem mem_vars_of_getElem? {π : Type} {atom : Atom π} {p : Nat} {x : Variable}
    (hp : atom.args[p]? = some (.var x)) : x ∈ atom.vars :=
  Term.mem_varsOf.2 ⟨_, List.mem_of_getElem? hp, Term.mem_vars_var.2 rfl⟩

theorem mem_vars_of_not_discarded (h : a.isRedundantBeside b demand = true)
    (ha : a.isWellFormed = true) {x : Variable} (hxa : x ∈ a.vars) (hx : x ∉ demand.discarded) :
    x ∈ b.vars := by
  obtain ⟨p, hp⟩ := List.mem_iff_getElem?.1 (mem_args_of_isWellFormed ha hxa)
  exact mem_vars_of_getElem? (arg_of_not_discarded h hp hx)

end Atom

-- ---------------------------------------------------------------------------
-- Tuples of two atoms
-- ---------------------------------------------------------------------------

namespace Source

variable {D : Source} {args : List Term} {tuple : List Constant}

/-- A variable has the value that stands at the first of its places. -/
theorem exists_place (hlength : args.length = tuple.length) {x : Variable}
    (hx : Term.var x ∈ args) :
    ∃ q : Nat, args[q]? = some (.var x) ∧ tuple[q]? = some (assign args tuple x) := by
  obtain ⟨p, hp⟩ := List.mem_iff_getElem?.1 hx
  have hlt : p < tuple.length := hlength ▸ (List.getElem?_eq_some_iff.1 hp).1
  have hmem : (Term.var x, tuple[p]) ∈ args.zip tuple := by
    rw [List.mem_iff_getElem?]
    exact ⟨p, List.getElem?_zip_eq_some.2 ⟨hp, List.getElem?_eq_getElem hlt⟩⟩
  obtain ⟨v, hv⟩ := SortedMap.exists_lookIn_of_mem hmem
  obtain ⟨q, hq⟩ := List.mem_iff_getElem?.1 (SortedMap.mem_of_lookIn hv)
  obtain ⟨hargs, htuple⟩ := List.getElem?_zip_eq_some.1 hq
  refine ⟨q, hargs, ?_⟩
  rw [htuple, assign, hv]
  rfl

theorem getElem?_eq_assign (hlength : args.length = tuple.length) {p : Nat} {x : Variable}
    (hp : args[p]? = some (.var x)) (hcount : args.count (Term.var x) = 1) :
    tuple[p]? = some (assign args tuple x) := by
  obtain ⟨q, hargs, htuple⟩ := exists_place hlength (List.mem_of_getElem? hp)
  have hsingle : Atom.positionsOf ⟨(), args⟩ x = [p] := Atom.positionsOf_eq_singleton hp hcount
  have hplace : q ∈ Atom.positionsOf ⟨(), args⟩ x :=
    List.mem_filter.2 ⟨List.mem_range.2 (List.getElem?_eq_some_iff.1 hargs).1, by simpa using hargs⟩
  rw [hsingle, List.mem_singleton] at hplace
  rwa [hplace] at htuple

/-- Arguments fit a tuple once every place has the right value: a variable the same one at all of
its places, anything else the value that it denotes. -/
theorem fits_of_places {ρ : Row} (hlength : args.length = tuple.length)
    (hvar : ∀ (p : Nat) (x : Variable), args[p]? = some (.var x) →
      tuple[p]? = some (ρ x) ∧ (ρ x = .null → args.count (Term.var x) = 1))
    (hother : ∀ (p : Nat) (t : Term), args[p]? = some t → t.isVariable = false →
      ∃ v, v ≠ .null ∧ tuple[p]? = some v ∧ ∀ σ, D.eval σ t = v) :
    D.Fits args tuple ∧ ∀ x, .var x ∈ args → assign args tuple x = ρ x := by
  have hassign : ∀ x, Term.var x ∈ args → assign args tuple x = ρ x := by
    intro x hx
    obtain ⟨q, hargs, htuple⟩ := exists_place hlength hx
    exact Option.some.inj (htuple.symm.trans (hvar q x hargs).1)
  refine ⟨⟨hlength, fun pair hpair => ?_⟩, hassign⟩
  obtain ⟨p, hp⟩ := List.mem_iff_getElem?.1 hpair
  obtain ⟨hargs, htuple⟩ := List.getElem?_zip_eq_some.1 hp
  obtain ⟨t, v⟩ := pair
  cases hvariable : t.isVariable with
  | true =>
    cases t with
    | var x =>
      have hvalue : v = ρ x := Option.some.inj (htuple.symm.trans (hvar p x hargs).1)
      refine ⟨?_, fun hnull => ⟨rfl, (hvar p x hargs).2 (hvalue ▸ hnull)⟩⟩
      rw [Interpretation.eval_var, hassign x (List.mem_of_getElem? hargs), hvalue]
    | _ => cases hvariable
  | false =>
    obtain ⟨w, hne, hw, heval⟩ := hother p t hargs hvariable
    have hvalue : v = w := Option.some.inj (htuple.symm.trans hw)
    exact ⟨(heval _).trans hvalue.symm, fun hnull => absurd (hvalue ▸ hnull) hne⟩

/-- An argument that is no variable denotes what stands at its place. -/
theorem Fits.exists_value (h : D.Fits args tuple) {p : Nat} {t : Term} (hp : args[p]? = some t)
    (hground : t.isGround = true) (hvariable : t.isVariable = false) :
    ∃ v, v ≠ .null ∧ tuple[p]? = some v ∧ ∀ σ, D.eval σ t = v := by
  obtain ⟨hlength, hfits⟩ := h
  have hlt : p < tuple.length := hlength ▸ (List.getElem?_eq_some_iff.1 hp).1
  have hmem : (t, tuple[p]) ∈ args.zip tuple := by
    rw [List.mem_iff_getElem?]
    exact ⟨p, List.getElem?_zip_eq_some.2 ⟨hp, List.getElem?_eq_getElem hlt⟩⟩
  obtain ⟨heval, hnull⟩ := hfits _ hmem
  refine ⟨tuple[p], fun he => ?_, List.getElem?_eq_getElem hlt, fun σ => ?_⟩
  · rw [(hnull he).1] at hvariable
    cases hvariable
  · refine (Interpretation.eval_congr fun x hx => ?_).trans heval
    exact absurd hx (Term.not_mem_vars_of_isGround hground)

variable {a b : Atom Relation} {demand : Demand} {σ : Row}

/-- The tuple of the other atom fits a redundant one as well, unless a variable that is read is
NULL. -/
theorem fits_of_redundant (h : a.isRedundantBeside b demand = true) (ha : a.isWellFormed = true)
    (hb : b.isWellFormed = true) (hread : ∀ x ∈ a.vars, x ∈ b.vars → x ∉ demand.discarded)
    (hfits : D.Fits b.args tuple) (hagree : Row.AgreeOn b.vars σ (Source.assign b.args tuple))
    (hguard : ∀ x ∈ a.vars, x ∉ demand.discarded → σ x ≠ .null) :
    D.Fits a.args tuple ∧
      ∀ x ∈ a.vars, x ∉ demand.discarded → Source.assign a.args tuple x = σ x := by
  have hlength : a.args.length = tuple.length :=
    (Atom.length_args_eq h ha hb).trans hfits.1
  -- a variable of its own takes what it finds, any other what the row has
  let ρ : Row := fun x => if x ∈ demand.discarded then Source.assign a.args tuple x else σ x
  obtain ⟨hfits', hvalues⟩ := Source.fits_of_places (D := D) (ρ := ρ) hlength
    (fun p x hp => by
      rcases Atom.arg_of_redundant h hp with hb | ⟨y, hy, he, hcount⟩
      · have hxb : x ∈ b.vars := Atom.mem_vars_of_getElem? hb
        have hx := hread x (Atom.mem_vars_of_getElem? hp) hxb
        have hρ : ρ x = σ x := if_neg hx
        rw [hρ, hagree x hxb]
        refine ⟨hfits.getElem?_eq hb, fun hnull => ?_⟩
        have hne := hguard x (Atom.mem_vars_of_getElem? hp) hx
        exact absurd ((hagree x hxb).trans hnull) hne
      · cases he
        have hρ : ρ x = Source.assign a.args tuple x := if_pos hy
        rw [hρ]
        exact ⟨Source.getElem?_eq_assign hlength hp hcount, fun _ => hcount⟩)
    (fun p t hp hvariable => by
      rcases Atom.arg_of_redundant h hp with hb | ⟨y, hy, rfl, hcount⟩
      · have hground := Atom.isGround_of_isWellFormed ha (List.mem_of_getElem? hp) hvariable
        exact hfits.exists_value hb hground hvariable
      · cases hvariable)
  refine ⟨hfits', fun x hxa hx => ?_⟩
  rw [hvalues x (Atom.mem_args_of_isWellFormed ha hxa)]
  exact if_neg hx

/-- Tuples that fit the same atom are the same where the other atom has the same argument, if they
agree on what is read. -/
theorem getElem?_eq_of_not_differing (ha : a.isWellFormed = true)
    (hread : ∀ x ∈ a.vars, x ∈ b.vars → x ∉ demand.discarded) {tuple' : List Constant}
    (hfits : D.Fits a.args tuple) (hfits' : D.Fits a.args tuple')
    (hagree : ∀ x ∈ a.vars, x ∉ demand.discarded →
      Source.assign a.args tuple x = Source.assign a.args tuple' x)
    {p : Nat} (hp : p ∉ a.differingPositions b) : tuple[p]? = tuple'[p]? := by
  cases harg : a.args[p]? with
  | none =>
    rw [List.getElem?_eq_none_iff] at harg
    rw [List.getElem?_eq_none (hfits.1 ▸ harg), List.getElem?_eq_none (hfits'.1 ▸ harg)]
  | some t =>
    have hb := Atom.arg_of_not_differing hp harg
    cases hvariable : t.isVariable with
    | true =>
      cases t with
      | var x =>
        have hx := hread x (Atom.mem_vars_of_getElem? harg) (Atom.mem_vars_of_getElem? hb)
        rw [hfits.getElem?_eq harg, hfits'.getElem?_eq harg,
          hagree x (Atom.mem_vars_of_getElem? harg) hx]
      | _ => cases hvariable
    | false =>
      have hground := Atom.isGround_of_isWellFormed ha (List.mem_of_getElem? harg) hvariable
      obtain ⟨v, -, hv, heval⟩ := hfits.exists_value harg hground hvariable
      obtain ⟨w, -, hw, heval'⟩ := hfits'.exists_value harg hground hvariable
      rw [hv, hw, ← heval .blank, heval' .blank]

/-- Where the arguments that match cover a constraint, one tuple at most fits the row. -/
theorem KeepsKeys.length_le_one (hD : D.KeepsKeys) {r : Relation} {differing : List Nat}
    (h : r.identifiesRow differing = true) {fits : List Constant → Bool}
    (hsame : ∀ tuple ∈ D.table r, ∀ tuple' ∈ D.table r, fits tuple = true → fits tuple' = true →
      ∀ p, p ∉ differing → tuple[p]? = tuple'[p]?) :
    ((D.table r).filter fits).length ≤ 1 := by
  obtain ⟨positions, hpositions, hcovered⟩ := List.any_eq_true.1 h
  simp only [Bool.and_eq_true, List.all_eq_true, Bool.not_eq_true', List.contains_eq_mem,
    decide_eq_false_iff_not] at hcovered
  have hunique := (hD r positions hpositions fun p hp => (hcovered.2 p hp).1).sublist
    (List.filter_sublist (p := fits))
  match hrows : (D.table r).filter fits with
  | [] | [_] => simp
  | tuple :: tuple' :: _ =>
    have hmem : tuple ∈ (D.table r).filter fits := by simp [hrows]
    have hmem' : tuple' ∈ (D.table r).filter fits := by simp [hrows]
    rw [hrows] at hunique
    obtain ⟨p, hp, hdiffer⟩ := (List.pairwise_cons.1 hunique).1 tuple' (.head _)
    obtain ⟨htuple, hfits⟩ := List.mem_filter.1 hmem
    obtain ⟨htuple', hfits'⟩ := List.mem_filter.1 hmem'
    exact absurd (hsame tuple htuple tuple' htuple' hfits hfits' p (hcovered.2 p hp).2) hdiffer

end Source

-- ---------------------------------------------------------------------------
-- Dropping an atom
-- ---------------------------------------------------------------------------

namespace Tree

variable {D : Source}

theorem joinRows_oneRow (ts : List Tree) : joinRows D (oneRow :: ts) = joinRows D ts :=
  Row.blank_joinPairs _

/-- The row has a value for each of the variables. -/
def Guarded (xs : VarSet) (σ : Row) : Prop := ∀ x ∈ xs.toList, σ x ≠ .null

instance (xs : VarSet) (σ : Row) : Decidable (Guarded xs σ) :=
  inferInstanceAs (Decidable (∀ x ∈ xs.toList, σ x ≠ .null))

variable {a : Atom Relation} {demand : Demand} {kept : VarSet}

/-- Each row of the other operands, with the tuples that the atom finds for it. -/
theorem joinRows_atom_perm (m : Bool) (before after : List Tree) :
    (joinRows D (before ++ leaf m (.extensional a) :: after)).Perm
      ((joinRows D (before ++ after)).flatMap fun σ =>
        ((D.table a.predicate).filter fun tuple => D.Fits a.args tuple ∧
          Row.Joins a.vars (varsOf (before ++ after)) (Source.assign a.args tuple) σ).map
          fun tuple => Row.merge a.vars (Source.assign a.args tuple) σ) := by
  refine (joinRows_perm List.perm_middle).trans ((Row.joinPairs_perm_flatMap _ _).trans ?_)
  refine List.Perm.of_eq (List.flatMap_congr fun σ _ => ?_)
  show ((D.matching a.args (D.table a.predicate)).filter _).map _ = _
  rw [Source.matching, List.filter_map, List.map_map, List.filter_filter]
  congr 1
  apply List.filter_congr
  intro tuple _
  rw [Function.comp_apply, ← Bool.decide_and, decide_eq_decide]
  exact and_comm

/-- What is read of a redundant atom, its siblings have. -/
theorem mem_varsOf_of_isRedundantAmong {m : Bool} {siblings : List Tree}
    (h : isRedundantAmong siblings demand (leaf m (.extensional a)) = true)
    (ha : a.isWellFormed = true) {x : Variable} (hx : x ∈ a.vars) (hxd : x ∉ demand.discarded) :
    x ∈ varsOf siblings := by
  obtain ⟨b, hb, hredundant⟩ := List.any_eq_true.1 h
  obtain ⟨t, ht, hbt⟩ := mem_requiredAtomsOf.1 hb
  have hxb := Atom.mem_vars_of_not_discarded hredundant ha hx hxd
  exact mem_varsOf.2 ⟨t, ht, vars_subset_of_mem_requiredAtoms hbt x hxb⟩

/-- The rows of a join are those of the join without a redundant atom that pass its guards. -/
theorem joinRows_drop (hD : D.KeepsKeys) {m : Bool} {before after : List Tree}
    (h : isRedundantAmong (before ++ after) demand (leaf m (.extensional a)) = true)
    (ha : a.isWellFormed = true)
    (hwell : ∀ b ∈ requiredAtomsOf (before ++ after), b.isWellFormed = true)
    (hkept : ∀ x ∈ a.vars, x ∈ kept → x ∉ demand.discarded)
    (hread : ∀ x ∈ a.vars, x ∈ varsOf (before ++ after) → x ∉ demand.discarded) :
    Alike demand.setOnly
      ((joinRows D (before ++ leaf m (.extensional a) :: after)).map (Row.cut kept))
      (((joinRows D (before ++ oneRow :: after)).filter fun σ =>
        Guarded (a.vars \ demand.discarded) σ).map (Row.cut kept)) := by
  obtain ⟨b, hb, hredundant⟩ := List.any_eq_true.1 h
  have hother : b.vars ⊆ varsOf (before ++ after) := by
    obtain ⟨t, ht, hbt⟩ := mem_requiredAtomsOf.1 hb
    exact fun x hx => mem_varsOf.2 ⟨t, ht, vars_subset_of_mem_requiredAtoms hbt x hx⟩
  have hread' : ∀ x ∈ a.vars, x ∈ b.vars → x ∉ demand.discarded :=
    fun x hx hxb => hread x hx (hother x hxb)
  have hshared : ∀ x ∈ a.vars, x ∉ demand.discarded → x ∈ varsOf (before ++ after) :=
    fun x => mem_varsOf_of_isRedundantAmong h ha
  have hdropped : (joinRows D (before ++ oneRow :: after)).Perm (joinRows D (before ++ after)) :=
    (joinRows_perm List.perm_middle).trans (List.Perm.of_eq (joinRows_oneRow _))
  refine (Alike.of_perm ((joinRows_atom_perm m before after).map _)).trans
    (Alike.trans ?_ (Alike.of_perm ((hdropped.filter _).map _)).symm)
  rw [List.map_flatMap]
  -- what a joined tuple gives the variables that are read is in the row already
  have hjoined : ∀ {σ : Row} {tuple : List Constant},
      Row.Joins a.vars (varsOf (before ++ after)) (Source.assign a.args tuple) σ →
      ∀ x ∈ a.vars, x ∉ demand.discarded → Source.assign a.args tuple x = σ x ∧ σ x ≠ .null := by
    intro σ tuple hjoins x hx hxd
    obtain ⟨he, hne⟩ := hjoins x hx (hshared x hx hxd)
    exact ⟨he, he ▸ hne⟩
  refine flatMap_alike_map_filter ?value ?once ?any
  case value =>
    intro σ hσ ν hν
    obtain ⟨ρ, hρ, rfl⟩ := List.mem_map.1 hν
    obtain ⟨tuple, htuple, rfl⟩ := List.mem_map.1 hρ
    obtain ⟨-, hjoins⟩ := of_decide_eq_true (List.mem_filter.1 htuple).2
    refine Row.cut_eq_cut_iff.2 fun x hx => ?_
    by_cases hxa : x ∈ a.vars
    · rw [Row.merge_left hxa]
      exact (hjoined hjoins x hxa (hkept x hxa hx)).1
    · exact if_neg hxa
  case once =>
    intro hset σ hσ
    rw [List.length_map, List.length_map]
    apply hD.length_le_one (Atom.identifiesRow_of_redundant hredundant hset)
    intro tuple _ tuple' _ hfits hfits' p hp
    obtain ⟨hfits, hjoins⟩ := of_decide_eq_true hfits
    obtain ⟨hfits', hjoins'⟩ := of_decide_eq_true hfits'
    refine Source.getElem?_eq_of_not_differing ha hread' hfits hfits' ?_ hp
    intro x hx hxd
    rw [(hjoined hjoins x hx hxd).1, (hjoined hjoins' x hx hxd).1]
  case any =>
    intro σ hσ
    rw [decide_eq_true_iff, Ne, List.map_eq_nil_iff, List.map_eq_nil_iff, List.filter_eq_nil_iff]
    constructor
    · intro hsome x hx
      push Not at hsome
      obtain ⟨tuple, -, hfits⟩ := hsome
      obtain ⟨-, hjoins⟩ := of_decide_eq_true hfits
      obtain ⟨hxa, hxd⟩ := SortedSet.mem_diff.1 hx
      exact (hjoined hjoins x hxa hxd).2
    · intro hguarded hnone
      obtain ⟨tuple, htuple, hfits, hvalues⟩ := builtFrom_of_mem_joinRows hb hσ
      obtain ⟨hfits', hassign⟩ := Source.fits_of_redundant hredundant ha (hwell b hb) hread' hfits
        hvalues fun x hx hxd => hguarded x (SortedSet.mem_diff.2 ⟨hx, hxd⟩)
      refine hnone tuple (Atom.predicate_eq hredundant ▸ htuple) (decide_eq_true ⟨hfits', ?_⟩)
      intro x hx hxv
      have hxd := hread x hx hxv
      rw [hassign x hx hxd]
      exact ⟨rfl, hguarded x (SortedSet.mem_diff.2 ⟨hx, hxd⟩)⟩

end Tree

end QueryAlgebra
