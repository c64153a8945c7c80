import ClassicZip.Proofs.Path.Descent

/-!
# The names that entries are given

An entry is named after a path: by the parts of a prefix and the names on the path, which are
decoded by then. The parts are never empty and have no slash, but a prefix may climb, and any part
may have backslashes, which are read as slashes when the name is followed. The name is followed just
when this does no harm.
-/

namespace ClassicZip.Path

-- ---------------------------------------------------------------------------
-- Parts
-- ---------------------------------------------------------------------------

def leadingParts (leadingPath : Option String) : List String :=
  leadingPath.toList.flatMap fun text => (pieces text).filter (· ≠ "")

def nameParts (leadingPath : Option String) (relative : List Component) : List String :=
  leadingParts leadingPath ++ relative.filterMap Component.name?

theorem entryName_eq (leadingPath : Option String) (relative : List Component) :
    entryName leadingPath relative = ofNames (nameParts leadingPath relative) := by
  cases leadingPath with
  | none => rfl
  | some text => simp [entryName, nameParts, leadingParts]

theorem mem_leadingParts {leadingPath : Option String} {part : String} :
    part ∈ leadingParts leadingPath ↔ ∃ text, leadingPath = some text ∧
      part ∈ pieces text ∧ part ≠ "" := by
  simp [leadingParts]

theorem isName_of_mem_drop {path text : String} {above : Nat}
    (h : text ∈ ((components path).drop above).filterMap Component.name?) : IsName text := by
  obtain ⟨component, hmem, hname⟩ := List.mem_filterMap.mp h
  cases component with
  | name other =>
    obtain rfl := Option.some.inj hname
    exact isName_of_mem_components (List.mem_of_mem_drop hmem)
  | root => cases hname
  | here => cases hname
  | up => cases hname

section
variable {leadingPath : Option String} {path : String} {above : Nat}

theorem ne_empty_of_mem_nameParts {part : String}
    (h : part ∈ nameParts leadingPath ((components path).drop above)) : part ≠ "" := by
  rcases List.mem_append.mp h with h | h
  · obtain ⟨_, -, -, hempty⟩ := mem_leadingParts.mp h
    exact hempty
  · exact (isName_of_mem_drop h).ne_empty

theorem slash_notMem_of_mem_nameParts {part : String}
    (h : part ∈ nameParts leadingPath ((components path).drop above)) : '/' ∉ part.toList := by
  rcases List.mem_append.mp h with h | h
  · obtain ⟨_, -, hpiece, -⟩ := mem_leadingParts.mp h
    exact slash_notMem_of_mem_pieces hpiece
  · exact (isName_of_mem_drop h).slash

/-- Only a prefix leads up. -/
theorem dots_mem_nameParts_iff : ".." ∈ nameParts leadingPath ((components path).drop above) ↔
    ∃ text, leadingPath = some text ∧ ".." ∈ pieces text := by
  rw [nameParts, List.mem_append, or_iff_left fun h => (isName_of_mem_drop h).ne_dots rfl,
    mem_leadingParts]
  simp

end

-- ---------------------------------------------------------------------------
-- Names made of parts
-- ---------------------------------------------------------------------------

section
variable {parts : List String}

theorem ofNames_eq_empty_iff (hempty : "" ∉ parts) : ofNames parts = "" ↔ parts = [] := by
  cases parts with
  | nil => exact ⟨fun _ => rfl, fun _ => rfl⟩
  | cons first rest =>
    have hfirst : first ≠ "" := fun h => hempty (h ▸ List.mem_cons_self)
    cases rest with
    | nil => simpa [ofNames] using hfirst
    | cons next more => simp [ofNames, hfirst]

theorem isAbsolute_slashed_iff {name : String} : isAbsolute (slashed name) = true ↔
    name.toList.head? = some '/' ∨ name.toList.head? = some '\\' := by
  rw [isAbsolute, beq_iff_eq, slashed, String.toList_ofList, List.head?_map]
  cases name.toList.head? with
  | none => simp
  | some c =>
    by_cases hback : c = '\\'
    · simp [hback]
    · simp [hback]

theorem head_ofNames_ne_slash (hempty : "" ∉ parts) (hslash : ∀ part ∈ parts, '/' ∉ part.toList) :
    (ofNames parts).toList.head? ≠ some '/' := by
  intro h
  by_cases hne : parts = []
  · subst hne
    cases h
  obtain ⟨first, rest, hparts⟩ := List.exists_cons_of_ne_nil hne
  have hpieces := pieces_ofNames_of_slash hne hslash
  have hfirst := (head_pieces_eq_empty_iff (hpieces.trans hparts)).mpr (.inr (beq_iff_eq.mpr h))
  exact hempty (hparts ▸ hfirst ▸ List.mem_cons_self)

theorem pieces_slashed_ofNames (hne : parts ≠ []) :
    pieces (slashed (ofNames parts)) = parts.flatMap fun part => pieces (slashed part) := by
  rw [slashed_ofNames, pieces_ofNames (by simpa using hne), List.flatMap_map]

/-- A name is followed unless its first part starts with a backslash, some part leads up, or all of
it says nothing. -/
theorem isSome_safe?_ofNames_iff (hne : parts ≠ []) (hempty : "" ∉ parts)
    (hslash : ∀ part ∈ parts, '/' ∉ part.toList) : (safe? (ofNames parts)).isSome = true ↔
      (ofNames parts).toList.head? ≠ some '\\' ∧
      (∀ part ∈ parts, ".." ∉ pieces (slashed part)) ∧
      ∃ part ∈ parts, ∃ piece ∈ pieces (slashed part), piece ≠ "" ∧ piece ≠ "." := by
  have habsolute : isAbsolute (slashed (ofNames parts)) = false ↔
      (ofNames parts).toList.head? ≠ some '\\' := by
    rw [← Bool.not_eq_true, isAbsolute_slashed_iff,
      or_iff_right (head_ofNames_ne_slash hempty hslash)]
  rw [isSome_safe?_iff, habsolute, pieces_slashed_ofNames hne]
  simp only [List.mem_flatMap, not_exists, not_and]
  refine and_congr_right fun _ => and_congr_right fun _ => ⟨?_, ?_⟩
  · rintro ⟨piece, ⟨part, hpart, hpiece⟩, hsays⟩
    exact ⟨part, hpart, piece, hpiece, hsays⟩
  · rintro ⟨part, hpart, piece, hpiece, hsays⟩
    exact ⟨piece, ⟨part, hpart, hpiece⟩, hsays⟩

theorem isSome_safe?_ofNames_iff_of_plain (hne : parts ≠ []) (hempty : "" ∉ parts)
    (hslash : ∀ part ∈ parts, '/' ∉ part.toList) (hplain : ∀ part ∈ parts, '\\' ∉ part.toList) :
    (safe? (ofNames parts)).isSome = true ↔ ".." ∉ parts ∧ ∃ part ∈ parts, part ≠ "." := by
  have hrelative : isAbsolute (ofNames parts) = false :=
    beq_eq_false_iff_ne.mpr (head_ofNames_ne_slash hempty hslash)
  rw [isSome_safe?_iff, slashed_ofNames_of_plain hplain, pieces_ofNames_of_slash hne hslash,
    hrelative]
  refine (and_iff_right rfl).trans (and_congr_right fun _ => exists_congr fun part =>
    and_congr_right fun hpart => and_iff_right fun h => hempty (h ▸ hpart))

end

theorem safe?_append_slash (name : String) : safe? (name ++ "/") = safe? name := by
  have hslashed : slashed (name ++ "/") = slashed name ++ "/" ++ "" := by
    rw [slashed_append, String.append_empty]
    rfl
  have hpieces : pieces (slashed (name ++ "/")) = pieces (slashed name) ++ [""] := by
    rw [hslashed, pieces_append_slash]
    rfl
  ext names
  rw [safe?_eq_some_iff, safe?_eq_some_iff, hpieces]
  by_cases hempty : slashed name = ""
  · simp [hempty, pieces, split]
  have habsolute : isAbsolute (slashed (name ++ "/")) = isAbsolute (slashed name) := by
    obtain ⟨c, rest, hchars⟩ := List.exists_cons_of_ne_nil (mt String.toList_eq_nil_iff.mp hempty)
    simp [hslashed, isAbsolute, hchars]
  simp [habsolute]

end ClassicZip.Path
