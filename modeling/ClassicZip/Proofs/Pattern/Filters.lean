import ClassicZip.Proofs.Pattern.Matching

/-!
# Filters without wildcards

`ofFilter_plain`: a filter in which no wildcard occurs can be parsed, and it accepts the names that
contain it, whatever the case of their ASCII letters. The brackets that its text is put into then
stand for the characters inside of them.
-/

namespace ClassicZip

namespace Pattern

/-- The characters of a text, with the letters of ASCII in lower case. -/
def folded (text : String) : List Char := text.toList.map Char.toLower

/-- What the parser makes of a character that is escaped and no wildcard. -/
def literal (c : Char) : Token := if c = ']' then .oneOf [.single ']'] else .char c

-- ---------------------------------------------------------------------------
-- Parsing
-- ---------------------------------------------------------------------------

def escaped (chars : List Char) : List Char :=
  chars.flatMap fun c => if c = '?' ∨ c = '*' ∨ c = '[' ∨ c = ']' then ['[', c, ']'] else [c]

theorem escaped_cons_close (chars : List Char) :
    escaped (']' :: chars) = '[' :: ']' :: ']' :: escaped chars := rfl

theorem escaped_cons {c : Char} (chars : List Char) (hstar : c ≠ '*') (hquestion : c ≠ '?')
    (hopen : c ≠ '[') (hclose : c ≠ ']') : escaped (c :: chars) = c :: escaped chars := by
  simp [escaped, hstar, hquestion, hopen, hclose]

theorem exists_escaped_cons {c : Char} (chars : List Char)
    (hplain : c ≠ '*' ∧ c ≠ '?' ∧ c ≠ '[') :
    ∃ first rest, escaped (c :: chars) = first :: rest ∧ first ≠ '*' := by
  by_cases hclose : c = ']'
  · subst hclose
    exact ⟨_, _, escaped_cons_close chars, by decide⟩
  · exact ⟨_, _, escaped_cons chars hplain.1 hplain.2.1 hplain.2.2 hclose, hplain.1⟩

theorem bracketToken?_close (chars : List Char) :
    bracketToken? (']' :: ']' :: chars) = some (literal ']', chars) := by
  simp [bracketToken?, bracket?, CharSet.ofChars, literal]

theorem parseFrom_closed (position : Nat) (previous : Option Char) (tokens : Array Token)
    (chars : List Char) :
    parseFrom position previous tokens ('[' :: ']' :: ']' :: chars) =
      parseFrom (position + 1 + 2) (some ']') (tokens.push (literal ']')) chars := by
  rw [parseFrom]
  split
  · rename_i h
    rw [bracketToken?_close] at h
    cases h
  · rename_i token after h
    obtain ⟨rfl, rfl⟩ := Prod.mk.inj (Option.some.inj ((bracketToken?_close chars).symm.trans h))
    rw [List.length_cons, List.length_cons, Nat.add_assoc chars.length, Nat.add_sub_cancel_left]

theorem parseFrom_char (position : Nat) (previous : Option Char) (tokens : Array Token) {c : Char}
    (chars : List Char) (hstar : c ≠ '*') (hquestion : c ≠ '?') (hopen : c ≠ '[') :
    parseFrom position previous tokens (c :: chars) =
      parseFrom (position + 1) (some c) (tokens.push (.char c)) chars := by
  rw [parseFrom]
  all_goals simp_all

theorem parseFrom_escaped {chars : List Char} (hplain : ∀ c ∈ chars, c ≠ '*' ∧ c ≠ '?' ∧ c ≠ '[')
    (position : Nat) (previous : Option Char) (tokens : Array Token) :
    parseFrom position previous tokens (escaped chars ++ ['*']) =
      .ok (tokens ++ (chars.map literal).toArray ++ #[.anySequence]) := by
  induction chars generalizing position previous tokens with
  | nil =>
    rw [escaped, List.flatMap_nil, List.nil_append, parseFrom, parseFrom]
    all_goals simp
  | cons c chars ih =>
    rw [List.forall_mem_cons] at hplain
    obtain ⟨⟨hstar, hquestion, hopen⟩, hplain⟩ := hplain
    by_cases hclose : c = ']'
    · subst hclose
      rw [escaped_cons_close]
      simp only [List.cons_append]
      rw [parseFrom_closed, ih hplain]
      simp
    · rw [escaped_cons chars hstar hquestion hopen hclose, List.cons_append,
        parseFrom_char _ _ _ _ hstar hquestion hopen, ih hplain]
      simp [literal, hclose]

/-- The tokens of a filter: its characters between two stars, or for no characters two stars at
once. -/
def filterTokens (chars : List Char) : List Token :=
  if chars = [] then [.anyDirectories]
  else .anySequence :: (chars.map literal ++ [.anySequence])

theorem parse_enclosed {text : String} (hplain : ∀ c ∈ text.toList, c ≠ '*' ∧ c ≠ '?' ∧ c ≠ '[') :
    parse ("*" ++ escape text ++ "*") = .ok (filterTokens text.toList) := by
  have hchars : ("*" ++ escape text ++ "*").toList = '*' :: (escaped text.toList ++ ['*']) := by
    simp [escape, escaped]
  rw [parse, hchars]
  cases hcases : text.toList with
  | nil =>
    -- Two stars in a row are one token of their own.
    rw [escaped, List.flatMap_nil, List.nil_append, parseFrom]
    · simp [filterTokens, pushDirectories, Except.map]
  | cons c chars =>
    rw [hcases] at hplain
    obtain ⟨first, more, hfirst, hstar⟩ := exists_escaped_cons chars
      (List.forall_mem_cons.mp hplain).1
    have hrest := parseFrom_escaped hplain 1 (some '*') #[.anySequence]
    rw [hfirst, List.cons_append] at hrest ⊢
    rw [parseFrom]
    · simp [hrest, filterTokens, Except.map]
    all_goals
      intro rest heq
      exact hstar (List.cons.inj heq).1

-- ---------------------------------------------------------------------------
-- Matching
-- ---------------------------------------------------------------------------

theorem meets_literal_iff {c d : Char} : meets c (literal d) = true ↔ c.toLower = d.toLower := by
  unfold literal
  split
  · rename_i hclose
    subst hclose
    simp [meets, CharSet.contains]
  · simp [meets]

theorem matches_literal_iff {d : Char} {tokens : List Token} {chars : List Char} :
    Matches (literal d :: tokens) chars ↔
      ∃ c rest, chars = c :: rest ∧ c.toLower = d.toLower ∧ Matches tokens rest := by
  have hsequence : literal d ≠ .anySequence := by unfold literal; split <;> nofun
  have hdirectories : literal d ≠ .anyDirectories := by unfold literal; split <;> nofun
  constructor
  · intro h
    generalize htoken : literal d = token at h hsequence hdirectories
    cases h with
    | single _ _ hmeets hrest => exact ⟨_, _, rfl, meets_literal_iff.mp (htoken ▸ hmeets), hrest⟩
    | sequence => exact absurd rfl hsequence
    | directories => exact absurd rfl hdirectories
  · rintro ⟨c, rest, rfl, hlower, hrest⟩
    exact .single hsequence hdirectories (meets_literal_iff.mpr hlower) hrest

theorem matches_anySequence_iff {tokens : List Token} {chars : List Char} :
    Matches (.anySequence :: tokens) chars ↔
      ∃ front rest, chars = front ++ rest ∧ Matches tokens rest := by
  constructor
  · intro h
    cases h with
    | single hsequence => exact absurd rfl hsequence
    | sequence hleaves hrest =>
      obtain ⟨front, hchars, -⟩ := hleaves
      exact ⟨front, _, hchars, hrest⟩
  · rintro ⟨front, rest, hchars, hrest⟩
    exact .sequence ⟨front, hchars, False.elim⟩ hrest

theorem matches_literals_iff {text : List Char} {tokens : List Token} {chars : List Char} :
    Matches (text.map literal ++ tokens) chars ↔
      ∃ front rest, chars = front ++ rest ∧ front.map Char.toLower = text.map Char.toLower ∧
        Matches tokens rest := by
  induction text generalizing chars with
  | nil => simp
  | cons d text ih =>
    rw [List.map_cons, List.cons_append, matches_literal_iff]
    simp only [ih]
    constructor
    · rintro ⟨c, _, rfl, hlower, front, rest, rfl, hfront, hrest⟩
      exact ⟨c :: front, rest, rfl, by rw [List.map_cons, List.map_cons, hlower, hfront], hrest⟩
    · rintro ⟨front, rest, rfl, hfront, hrest⟩
      obtain ⟨c, front, rfl, hlower, hfront⟩ := List.map_eq_cons_iff.mp hfront
      exact ⟨c, _, rfl, hlower, front, rest, rfl, hfront, hrest⟩

theorem matches_filterTokens_iff {text : List Char} {chars : List Char} :
    Matches (filterTokens text) chars ↔ text.map Char.toLower <:+: chars.map Char.toLower := by
  unfold filterTokens
  split
  · rename_i hnil
    rw [hnil, List.map_nil]
    exact iff_of_true (.directories (leaves_end ..) .done) (List.nil_infix)
  · have hend (rest : List Char) : Matches [.anySequence] rest :=
      matches_anySequence_iff.mpr ⟨rest, [], (List.append_nil _).symm, .done⟩
    rw [matches_anySequence_iff]
    simp only [matches_literals_iff]
    constructor
    · rintro ⟨front, _, rfl, middle, rest, rfl, hmiddle, -⟩
      exact ⟨front.map Char.toLower, rest.map Char.toLower, by simp [hmiddle]⟩
    · rintro ⟨before, behind, hchars⟩
      obtain ⟨_, rest, rfl, hstart, -⟩ := List.map_eq_append_iff.mp hchars.symm
      obtain ⟨front, middle, rfl, -, hmiddle⟩ := List.map_eq_append_iff.mp hstart
      exact ⟨front, _, List.append_assoc .., middle, rest, rfl, hmiddle, hend rest⟩

/-- A filter without wildcards accepts the names that contain it, ASCII letters in either case. -/
theorem ofFilter_plain (text : String) (hplain : ∀ c ∈ text.toList, c ≠ '*' ∧ c ≠ '?' ∧ c ≠ '[') :
    ∃ tokens, ofFilter text = .ok tokens ∧
      ∀ name, accepts tokens name = true ↔ folded text <:+: folded name := by
  have hparse := parse_enclosed hplain
  have hwildcard : hasWildcard text = false := by
    rw [hasWildcard, List.any_eq_false]
    intro c hc
    obtain ⟨hstar, hquestion, hopen⟩ := hplain c hc
    simp [hstar, hquestion, hopen]
  refine ⟨filterTokens text.toList, by rw [ofFilter, hwildcard]; exact hparse, fun name => ?_⟩
  rw [accepts_iff_matches hparse, matches_filterTokens_iff]
  rfl

/-- A filter with a bracket, a hyphen and a slash finds itself in a name with a leading dot, in the
other case, and not in one that lacks its last character. -/
theorem ofFilter_plain_brackets :
    ∃ tokens, ofFilter "x]!-/" = .ok tokens ∧ accepts tokens ".a/X]!-/b" = true ∧
      accepts tokens ".a/x]!-" = false := by
  obtain ⟨tokens, htokens, haccepts⟩ := ofFilter_plain "x]!-/" (by simp)
  refine ⟨tokens, htokens, (haccepts _).mpr ?_, ?_⟩
  · exact ⟨['.', 'a', '/'], ['b'], by simp [folded]⟩
  · rw [← Bool.not_eq_true, haccepts]
    simp [folded, List.infix_cons_iff]

end Pattern

end ClassicZip
