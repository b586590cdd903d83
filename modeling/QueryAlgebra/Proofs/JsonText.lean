import QueryAlgebra.Json.Parser
import QueryAlgebra.Json.Printer
import Mathlib.Data.List.DropRight

/-!
# Written values read back

`Json.parse?` reads what `Json.pretty` writes. Each shape of value has its lemma, for values whose
parts read back (`readsBack_ofString`, `readsBack_bool`, `readsBack_array`,
`readsBack_ofMembers`), so that an encoding is shown to read back by following how it is put
together. Numbers are left out: what follows a number may belong to it.

That a value reads back is said for all that may follow its text, and within as many steps as the
text has characters (`ReadsBack`).

Main statement: `ReadsBack.parse?_pretty`.
-/

namespace QueryAlgebra.Json

variable {fuel level : Nat} {cs cs' rest : List Char} {s key : String} {j : Json}
  {items : List Json} {members : List (String × Json)}

-- ---------------------------------------------------------------------------
-- Blanks
-- ---------------------------------------------------------------------------

theorem skipBlank_skipBlank : skipBlank (skipBlank cs) = skipBlank cs :=
  List.dropWhile_idempotent _ _

theorem skipBlank_newline : skipBlank ((newline level).toList ++ cs) = skipBlank cs := by
  refine List.dropWhile_append_of_pos fun c hc => ?_
  simp only [newline, String.toList_append, String.toList_ofList, List.mem_append] at hc
  rcases hc with hc | hc
  · obtain rfl : c = '\n' := by simpa using hc
    rfl
  · obtain rfl := List.eq_of_mem_replicate hc
    rfl

theorem newline_pos (level : Nat) : 0 < (newline level).length := by
  rw [newline, String.length_append]
  exact Nat.add_pos_left (by decide) _

/-- Blanks before a value make no difference. -/
theorem value?_congr (h : skipBlank cs = skipBlank cs') : value? fuel cs = value? fuel cs' := by
  cases fuel with
  | zero => rfl
  | succ fuel => rw [value?, value?, h]

theorem items?_congr (h : skipBlank cs = skipBlank cs') : items? fuel cs = items? fuel cs' := by
  cases fuel with
  | zero => rfl
  | succ fuel => rw [items?, items?, value?_congr h]

theorem members?_congr (h : skipBlank cs = skipBlank cs') :
    members? fuel cs = members? fuel cs' := by
  cases fuel with
  | zero => rfl
  | succ fuel => rw [members?, members?, h]

-- ---------------------------------------------------------------------------
-- Strings
-- ---------------------------------------------------------------------------

theorem hex?_control :
    ∀ n < 0x20, hex? ['0', '0', hexDigit (n / 16), hexDigit (n % 16)] = some n := by
  decide

/-- A character is read as one unit, however it is escaped. -/
theorem scanString_escaped (c : Char) :
    scanString (escaped c ++ rest) = (scanString rest).map fun p => (c.toNat :: p.1, p.2) := by
  have hunit (scanned : Option (List Nat × List Char)) :
      (scanned.bind fun p => some (c.toNat :: p.1, p.2)) =
        scanned.map fun p => (c.toNat :: p.1, p.2) := by
    cases scanned <;> rfl
  unfold escaped
  split
  case h_8 hquote hbackslash _ _ _ _ _ =>
    split
    · next hcontrol =>
      change (hex? ['0', '0', hexDigit (c.toNat / 16), hexDigit (c.toNat % 16)]).bind _ = _
      rw [hex?_control _ hcontrol]
      exact hunit _
    · next hcontrol =>
      change scanString (c :: rest) = _
      rw [scanString]
      · rw [if_neg hcontrol]
        exact hunit _
      · exact hquote
      · exact fun _ _ _ _ _ hc _ => hbackslash hc
      · exact fun _ _ hc _ => hbackslash hc
  all_goals exact hunit _

theorem scanString_flatMap_escaped (text : List Char) :
    scanString (text.flatMap escaped ++ '"' :: rest) = some (text.map Char.toNat, rest) := by
  induction text with
  | nil => rfl
  | cons c text ih =>
    rw [List.flatMap_cons, List.append_assoc, scanString_escaped, ih]
    rfl

/-- The code point of a character is no half of a surrogate pair. -/
theorem not_surrogate_toNat (c : Char) : isLead c.toNat = false ∧ isTrail c.toNat = false := by
  have hvalid := c.valid
  simp only [UInt32.isValidChar, Nat.isValidChar] at hvalid
  simp only [isLead, isTrail, Char.toNat]
  grind

theorem joinUnits?_toNat (text : List Char) : joinUnits? (text.map Char.toNat) = some text := by
  induction text with
  | nil => rfl
  | cons c text ih =>
    obtain ⟨hlead, htrail⟩ := not_surrogate_toNat c
    cases text with
    | nil => simp [joinUnits?, hlead, htrail]
    | cons d text =>
      rw [List.map_cons] at ih
      rw [List.map_cons, List.map_cons, joinUnits?, htrail, hlead, ih]
      simp only [Bool.false_eq_true, if_false, Option.map_some, Char.ofNat_toNat]

theorem toList_quoted : (quoted s).toList = '"' :: (s.toList.flatMap escaped ++ ['"']) := by
  simp [quoted, String.toList_append]

theorem map_joinUnits?_toNat :
    (joinUnits? (s.toList.map Char.toNat)).map String.ofList = some s := by
  rw [joinUnits?_toNat, Option.map_some, String.ofList_toList]

-- ---------------------------------------------------------------------------
-- Values
-- ---------------------------------------------------------------------------

/-- The text of a value, whatever follows it, is read as the value, in as many steps as it has
characters. -/
def ReadsBack (j : Json) : Prop :=
  ∀ level fuel rest, (j.prettyAt level).length ≤ fuel →
    value? (fuel + 1) ((j.prettyAt level).toList ++ rest) = some (j, rest)

theorem readsBack_bool (b : Bool) : ReadsBack (bool b) := by
  intro level fuel rest _
  cases b with
  | false => rw [prettyAt]; rfl
  | true => rw [prettyAt]; rfl

theorem readsBack_ofString (s : String) : ReadsBack (ofString s) := by
  intro level fuel rest _
  rw [ofString, prettyAt, Option.getD_some, toList_quoted, List.cons_append, List.append_assoc]
  change (scanString (s.toList.flatMap escaped ++ '"' :: rest)).bind _ = _
  rw [scanString_flatMap_escaped]
  change some (string ((joinUnits? (s.toList.map Char.toNat)).map String.ofList), rest) = _
  rw [map_joinUnits?_toNat]

theorem value?_array (h : items? fuel cs = some (items, rest)) :
    value? (fuel + 1) ('[' :: cs) = some (array items, rest) := by
  rw [← items?_congr skipBlank_skipBlank] at h
  have hopen : skipBlank ('[' :: cs) = '[' :: cs := rfl
  simp only [value?, hopen]
  split
  · next hclose =>
    -- no item starts with a closing bracket
    rw [hclose] at h
    rcases fuel with _ | _ | fuel <;> cases h
  · rw [h]
    rfl

theorem value?_object {members : List (Option String × Json)}
    (h : members? fuel cs = some (members, rest)) :
    value? (fuel + 1) ('\x7b' :: cs) = some (object members, rest) := by
  rw [← members?_congr skipBlank_skipBlank] at h
  have hopen : skipBlank ('\x7b' :: cs) = '\x7b' :: cs := rfl
  simp only [value?, hopen]
  split
  · next hclose =>
    -- no member starts with a closing brace
    rw [hclose] at h
    cases fuel <;> cases h
  · rw [h]
    rfl

/-- The members of an object that is written from named values. -/
abbrev named (members : List (String × Json)) : List (Option String × Json) :=
  members.map fun m => (some m.1, m.2)

theorem prettyAt_array (hne : items ≠ []) :
    (array items).prettyAt level = "[" ++ prettyItems level items ++ newline level ++ "]" := by
  rw [prettyAt]
  exact hne

theorem prettyItems_cons (hne : items ≠ []) : prettyItems level (j :: items) =
    newline (level + 1) ++ j.prettyAt (level + 1) ++ "," ++ prettyItems level items := by
  rw [prettyItems]
  exact hne

/-- An item is read, and what follows decides whether there are more. -/
theorem items?_of_value? (hvalue : value? fuel cs = some (j, cs')) :
    (skipBlank cs' = ']' :: rest → items? (fuel + 1) cs = some ([j], rest)) ∧
      (skipBlank cs' = ',' :: rest →
        items? (fuel + 1) cs = (items? fuel rest).bind fun p => some (j :: p.1, p.2)) := by
  constructor
  all_goals
    intro hcs
    simp only [items?, Option.bind_eq_bind, Option.bind_some, hvalue, hcs]

/-- The items of an array up to the closing bracket. -/
theorem items?_pretty (hitems : ∀ j ∈ items, ReadsBack j) (hne : items ≠ [])
    (hfuel : (prettyItems level items).length ≤ fuel) :
    items? (fuel + 1) ((prettyItems level items).toList ++
        ((newline level).toList ++ ']' :: rest)) =
      some (items, rest) := by
  induction items generalizing fuel with
  | nil => exact absurd rfl hne
  | cons j items ih =>
    rw [List.forall_mem_cons] at hitems
    have hpos := newline_pos (level + 1)
    by_cases hlast : items = []
    · subst hlast
      simp only [prettyItems, String.length_append] at hfuel
      obtain ⟨fuel, rfl⟩ := Nat.exists_eq_succ_of_ne_zero (show fuel ≠ 0 by omega)
      rw [prettyItems, String.toList_append, List.append_assoc, items?_congr skipBlank_newline]
      exact (items?_of_value? (hitems.1 _ _ _ (by omega))).1 skipBlank_newline
    · rw [prettyItems_cons hlast] at hfuel ⊢
      simp only [String.length_append] at hfuel
      obtain ⟨fuel, rfl⟩ := Nat.exists_eq_succ_of_ne_zero (show fuel ≠ 0 by omega)
      simp only [String.toList_append, List.append_assoc]
      rw [items?_congr skipBlank_newline, (items?_of_value? (hitems.1 _ _ _ (by omega))).2 rfl]
      change (items? (fuel + 1) ((prettyItems level items).toList ++ _)).bind _ = _
      rw [ih hitems.2 hlast (by omega)]
      rfl

theorem readsBack_array (hitems : ∀ j ∈ items, ReadsBack j) : ReadsBack (array items) := by
  intro level fuel rest hfuel
  by_cases hne : items = []
  · rw [hne, prettyAt]
    rfl
  rw [prettyAt_array hne] at hfuel ⊢
  simp only [String.length_append] at hfuel
  have hpos := newline_pos level
  obtain ⟨fuel, rfl⟩ := Nat.exists_eq_succ_of_ne_zero (show fuel ≠ 0 by omega)
  simp only [String.toList_append, List.append_assoc]
  exact value?_array (items?_pretty hitems hne (by omega))

theorem prettyAt_object (hne : members ≠ []) : (ofMembers members).prettyAt level =
    "\x7b" ++ prettyMembers level (named members) ++ newline level ++ "\x7d" := by
  rw [ofMembers, prettyAt]
  exact fun h => hne (List.map_eq_nil_iff.1 h)

theorem prettyMembers_cons (hne : members ≠ []) :
    prettyMembers level (named ((key, j) :: members)) =
      newline (level + 1) ++ quoted key ++ ": " ++ j.prettyAt (level + 1) ++ ","
        ++ prettyMembers level (named members) := by
  rw [named, List.map_cons, prettyMembers]
  · rfl
  · exact fun h => hne (List.map_eq_nil_iff.1 h)

/-- A member is read with its key, and what follows decides whether there are more. -/
theorem members?_quoted {text : List Char} (hvalue : value? fuel text = some (j, cs)) :
    let read := members? (fuel + 1) ((quoted key).toList ++ (": ".toList ++ text))
    (skipBlank cs = '\x7d' :: rest → read = some ([(some key, j)], rest)) ∧
      (skipBlank cs = ',' :: rest →
        read = (members? fuel rest).bind fun p => some ((some key, j) :: p.1, p.2)) := by
  intro read
  have hopen (cs : List Char) : skipBlank ('"' :: cs) = '"' :: cs := rfl
  have hcolon (cs : List Char) : skipBlank (':' :: cs) = ':' :: cs := rfl
  have htext : ": ".toList ++ text = ':' :: ' ' :: text := rfl
  have hspaced : value? fuel (' ' :: text) = some (j, cs) := by
    rw [← hvalue]
    exact value?_congr rfl
  constructor
  all_goals
    intro hcs
    simp only [read, members?, toList_quoted, List.cons_append, List.append_assoc, List.nil_append,
      htext, hopen, hcolon, scanString_flatMap_escaped, Option.bind_eq_bind, Option.bind_some,
      hspaced, hcs, map_joinUnits?_toNat]

/-- The members of an object up to the closing brace. -/
theorem members?_pretty (hmembers : ∀ m ∈ members, ReadsBack m.2) (hne : members ≠ [])
    (hfuel : (prettyMembers level (named members)).length ≤ fuel) :
    members? (fuel + 1) ((prettyMembers level (named members)).toList ++
        ((newline level).toList ++ '\x7d' :: rest)) =
      some (named members, rest) := by
  induction members generalizing fuel with
  | nil => exact absurd rfl hne
  | cons m members ih =>
    obtain ⟨key, j⟩ := m
    obtain ⟨hj : ReadsBack j, hmembers⟩ := List.forall_mem_cons.1 hmembers
    have hpos := newline_pos (level + 1)
    by_cases hlast : members = []
    · subst hlast
      simp only [named, List.map_cons, List.map_nil, prettyMembers, Option.getD_some,
        String.length_append, String.toList_append, List.append_assoc] at hfuel ⊢
      obtain ⟨fuel, rfl⟩ := Nat.exists_eq_succ_of_ne_zero (show fuel ≠ 0 by omega)
      rw [members?_congr skipBlank_newline]
      exact (members?_quoted (hj _ _ _ (by omega))).1 skipBlank_newline
    · rw [prettyMembers_cons hlast] at hfuel ⊢
      simp only [String.length_append] at hfuel
      obtain ⟨fuel, rfl⟩ := Nat.exists_eq_succ_of_ne_zero (show fuel ≠ 0 by omega)
      simp only [String.toList_append, List.append_assoc]
      rw [members?_congr skipBlank_newline, (members?_quoted (hj _ _ _ (by omega))).2 rfl]
      change (members? (fuel + 1) ((prettyMembers level (named members)).toList ++ _)).bind _ = _
      rw [ih hmembers hlast (by omega)]
      rfl

theorem readsBack_ofMembers (hmembers : ∀ m ∈ members, ReadsBack m.2) :
    ReadsBack (ofMembers members) := by
  intro level fuel rest hfuel
  by_cases hne : members = []
  · rw [hne, ofMembers, List.map_nil, prettyAt]
    rfl
  rw [prettyAt_object hne] at hfuel ⊢
  simp only [String.length_append] at hfuel
  have hpos := newline_pos level
  obtain ⟨fuel, rfl⟩ := Nat.exists_eq_succ_of_ne_zero (show fuel ≠ 0 by omega)
  simp only [String.toList_append, List.append_assoc]
  exact value?_object (members?_pretty hmembers hne (by omega))

/-- The text of a value is a document of the value. -/
theorem ReadsBack.parse?_pretty (hj : ReadsBack j) : parse? j.pretty = some j := by
  have hread := hj 0 (2 * j.pretty.length + 1) [] (by rw [pretty]; omega)
  rw [List.append_nil] at hread
  unfold parse?
  dsimp only
  rw [String.length_toList]
  change (value? (2 * j.pretty.length + 1 + 1) (j.prettyAt 0).toList).bind _ = _
  rw [hread]
  rfl

end QueryAlgebra.Json
