import Mathlib.Data.List.Chain
import ClassicZip.Pattern

/-!
# What a pattern accepts

`Matches` says token by token which names a pattern stands for. The search goes back over its
choices and gives them all up as soon as one of them has exhausted the name. `accepts_iff_matches`:
for every pattern that can be parsed it finds a match just where there is one. That needs two stars
to stand behind a slash, as the parser demands.
-/

namespace ClassicZip

namespace Pattern

/-- Where tokens behind stars can go on in `chars`; with whole directories only at the start, behind
a slash, or at the end. -/
def Leaves (wholeDirectories : Prop) (chars rest : List Char) : Prop :=
  ∃ front, chars = front ++ rest ∧
    (wholeDirectories → front = [] ∨ front.getLast? = some '/' ∨ rest = [])

inductive Matches : List Token → List Char → Prop
  | done : Matches [] []
  | single {token tokens c chars} (hsequence : token ≠ .anySequence)
      (hdirectories : token ≠ .anyDirectories) (hmeets : meets c token = true)
      (hrest : Matches tokens chars) : Matches (token :: tokens) (c :: chars)
  | sequence {tokens chars rest} (hleaves : Leaves False chars rest) (hrest : Matches tokens rest) :
      Matches (.anySequence :: tokens) chars
  | directories {tokens chars rest} (hleaves : Leaves True chars rest)
      (hrest : Matches tokens rest) : Matches (.anyDirectories :: tokens) chars

-- ---------------------------------------------------------------------------
-- Going on behind stars
-- ---------------------------------------------------------------------------

section
variable {wholeDirectories : Prop} {chars middle last : List Char}

theorem leaves_refl (wholeDirectories : Prop) (chars : List Char) :
    Leaves wholeDirectories chars chars := ⟨[], rfl, fun _ => .inl rfl⟩

theorem leaves_end (wholeDirectories : Prop) (chars : List Char) :
    Leaves wholeDirectories chars [] := ⟨chars, (List.append_nil _).symm, fun _ => .inr (.inr rfl)⟩

theorem Leaves.trans (h : Leaves wholeDirectories chars middle)
    (hlast : Leaves wholeDirectories middle last) : Leaves wholeDirectories chars last := by
  obtain ⟨front, rfl, hfront⟩ := h
  obtain ⟨more, rfl, hmore⟩ := hlast
  refine ⟨front ++ more, (List.append_assoc ..).symm, fun hwhole => ?_⟩
  rcases hmore hwhole with rfl | hslash | rfl
  · rw [List.append_nil]
    exact hfront hwhole
  · exact .inr (.inl (by rw [List.getLast?_append, hslash, Option.some_or]))
  · exact .inr (.inr rfl)

theorem Leaves.mono {other : Prop} (h : Leaves wholeDirectories chars last)
    (himp : other → wholeDirectories) : Leaves other chars last := by
  obtain ⟨front, hchars, hfront⟩ := h
  exact ⟨front, hchars, fun hother => hfront (himp hother)⟩

/-- Where the search goes on behind more than nothing. -/
def Passes (wholeDirectories : Prop) (chars rest : List Char) : Prop :=
  ∃ front, chars = front ++ rest ∧
    (rest = [] ∨ front ≠ [] ∧ (wholeDirectories → front.getLast? = some '/'))

theorem leaves_iff_passes :
    Leaves wholeDirectories chars last ↔ last = chars ∨ Passes wholeDirectories chars last := by
  constructor
  · rintro ⟨front, rfl, hfront⟩
    by_cases hnil : front = []
    · exact .inl (by rw [hnil, List.nil_append])
    · refine .inr ⟨front, rfl, or_iff_not_imp_left.mpr fun hlast => ⟨hnil, fun hwhole => ?_⟩⟩
      exact ((hfront hwhole).resolve_left hnil).resolve_right hlast
  · rintro (rfl | ⟨front, rfl, rfl | ⟨-, hslash⟩⟩)
    · exact leaves_refl ..
    · rw [List.append_nil]
      exact leaves_end ..
    · exact ⟨front, rfl, fun hwhole => .inr (.inl (hslash hwhole))⟩

theorem passes_nil_iff : Passes wholeDirectories [] last ↔ last = [] := by
  constructor
  · rintro ⟨front, hchars, -⟩
    exact (List.append_eq_nil_iff.mp hchars.symm).2
  · rintro rfl
    exact ⟨[], rfl, .inl rfl⟩

theorem passes_cons_iff {c : Char} :
    Passes wholeDirectories (c :: chars) last ↔
      last = chars ∧ (wholeDirectories → c = '/') ∨ Passes wholeDirectories chars last := by
  constructor
  · rintro ⟨front, hchars, hfront⟩
    rcases List.cons_eq_append_iff.mp hchars with ⟨rfl, rfl⟩ | ⟨front, rfl, rfl⟩
    · simp at hfront
    · by_cases hnil : front = []
      · subst hnil
        rcases hfront with rfl | ⟨-, hslash⟩
        · exact .inr (passes_nil_iff.mpr rfl)
        · exact .inl ⟨rfl, fun hwhole => by simpa using hslash hwhole⟩
      · refine .inr ⟨front, rfl, hfront.imp_right fun hfound => ⟨hnil, fun hwhole => ?_⟩⟩
        rw [← hfound.2 hwhole, List.getLast?_cons_of_ne_nil hnil]
  · rintro (⟨rfl, hslash⟩ | ⟨front, rfl, hfront⟩)
    · exact ⟨[c], rfl, .inr ⟨List.cons_ne_nil _ _, fun hwhole => by rw [hslash hwhole]; rfl⟩⟩
    · refine ⟨c :: front, rfl, hfront.imp_right ?_⟩
      rintro ⟨hne, hslash⟩
      refine ⟨List.cons_ne_nil _ _, fun hwhole => ?_⟩
      rw [List.getLast?_cons_of_ne_nil hne, hslash hwhole]

end

-- ---------------------------------------------------------------------------
-- The search
-- ---------------------------------------------------------------------------

section
variable {wholeDirectories : Bool} {rest : List Char → Verdict} {chars : List Char}

/-- An exhausted name is met by none of what the search would still try. -/
def GivesUp (wholeDirectories : Prop) (rest : List Char → Verdict) : Prop :=
  ∀ chars last, rest chars = .exhausted → Leaves wholeDirectories chars last → rest last ≠ .matched

theorem scan_eq_matched_iff (hrest : GivesUp (wholeDirectories = true) rest) :
    scan wholeDirectories rest chars = .matched ↔
      ∃ last, Passes (wholeDirectories = true) chars last ∧ rest last = .matched := by
  induction chars with
  | nil => simp only [scan, passes_nil_iff, exists_eq_left]
  | cons c chars ih =>
    simp only [scan, passes_cons_iff]
    split
    · rename_i hskip
      rw [ih]
      have hslash (last : List Char) :
          ¬(last = chars ∧ (wholeDirectories = true → c = '/')) := fun h => hskip.2 (h.2 hskip.1)
      simp only [hslash, false_or]
    · rename_i hslash
      simp only [not_and, Decidable.not_not] at hslash
      split
      · rename_i hmismatch
        rw [ih]
        constructor
        · rintro ⟨last, hpasses, hmatched⟩
          exact ⟨last, .inr hpasses, hmatched⟩
        · rintro ⟨last, ⟨rfl, -⟩ | hpasses, hmatched⟩
          · rw [hmismatch] at hmatched
            cases hmatched
          · exact ⟨last, hpasses, hmatched⟩
      · rename_i hstop
        constructor
        · intro hmatched
          exact ⟨chars, .inl ⟨rfl, hslash⟩, hmatched⟩
        · rintro ⟨last, hlast, hmatched⟩
          -- Neither a mismatch nor, with something to be found behind it, exhausted.
          have hleaves : Leaves (wholeDirectories = true) chars last :=
            leaves_iff_passes.mpr (hlast.imp_left And.left)
          cases hverdict : rest chars with
          | matched => rfl
          | mismatch => exact absurd hverdict hstop
          | exhausted => exact absurd hmatched (hrest chars last hverdict hleaves)

def spread (wholeDirectories : Bool) (rest : List Char → Verdict) (chars : List Char) : Verdict :=
  match rest chars with
  | .mismatch => scan wholeDirectories rest chars
  | verdict => verdict

theorem spread_eq_matched_iff (hrest : GivesUp (wholeDirectories = true) rest) :
    spread wholeDirectories rest chars = .matched ↔
      ∃ last, Leaves (wholeDirectories = true) chars last ∧ rest last = .matched := by
  unfold spread
  cases hverdict : rest chars with
  | matched => exact iff_of_true rfl ⟨chars, leaves_refl .., hverdict⟩
  | exhausted =>
    refine iff_of_false nofun ?_
    rintro ⟨last, hleaves, hmatched⟩
    exact hrest chars last hverdict hleaves hmatched
  | mismatch =>
    rw [scan_eq_matched_iff hrest]
    simp only [leaves_iff_passes]
    constructor
    · rintro ⟨last, hpasses, hmatched⟩
      exact ⟨last, .inr hpasses, hmatched⟩
    · rintro ⟨last, rfl | hpasses, hmatched⟩
      · rw [hverdict] at hmatched
        cases hmatched
      · exact ⟨last, hpasses, hmatched⟩

/-- So the stars give up rightly where the tokens behind them do. -/
theorem givesUp_spread (hrest : GivesUp (wholeDirectories = true) rest) :
    GivesUp (wholeDirectories = true) (spread wholeDirectories rest) := by
  intro chars middle hexhausted hleaves hmatched
  obtain ⟨last, hlast, hfound⟩ := (spread_eq_matched_iff hrest).mp hmatched
  have hspread := (spread_eq_matched_iff hrest).mpr ⟨last, hleaves.trans hlast, hfound⟩
  rw [hexhausted] at hspread
  cases hspread

end

-- ---------------------------------------------------------------------------
-- The tokens
-- ---------------------------------------------------------------------------

/-- Two stars stand at the start, behind a slash, or behind two other stars. -/
def Anchored (tokens : List Token) : Prop :=
  tokens.IsChain fun token next =>
    next = .anyDirectories → token = .char '/' ∨ token = .anyDirectories

section
variable {token : Token} {tokens : List Token} {c : Char} {chars : List Char}

theorem attempt_anySequence :
    attempt (.anySequence :: tokens) chars = spread false (attempt tokens) chars := rfl

theorem attempt_anyDirectories :
    attempt (.anyDirectories :: tokens) chars = spread true (attempt tokens) chars := rfl

theorem attempt_single_nil (hs : token ≠ .anySequence) (hd : token ≠ .anyDirectories) :
    attempt (token :: tokens) [] = .exhausted := by
  cases token <;> simp_all [attempt]

theorem attempt_single_cons (hs : token ≠ .anySequence) (hd : token ≠ .anyDirectories) :
    attempt (token :: tokens) (c :: chars) =
      if meets c token then attempt tokens chars else .mismatch := by
  cases token <;> simp_all [attempt]

theorem eq_slash_of_meets (h : meets c (.char '/') = true) : c = '/' := by
  have hlower : c.toLower = '/' := by simpa [meets] using h
  unfold Char.toLower at hlower
  split at hlower
  · -- A capital letter has a small one, which is no slash.
    rename_i hupper
    have hvalue := congrArg (fun c : Char => c.val.toNat) hlower
    have hrange : 65 ≤ c.val.toNat ∧ c.val.toNat ≤ 90 := by simpa [UInt32.le_iff_toNat_le] using hupper
    have hsmall : (c.val.toNat + 32) % 2 ^ 32 = 47 := by simpa using hvalue
    omega
  · exact hlower

theorem Anchored.behind (h : Anchored (token :: tokens)) : Anchored tokens := List.IsChain.tail h

theorem Anchored.before (h : Anchored (token :: tokens))
    (hhead : tokens.head? = some .anyDirectories) :
    token = .char '/' ∨ token = .anyDirectories := by
  obtain ⟨tokens, rfl⟩ := List.head?_eq_some_iff.mp hhead
  exact (List.isChain_cons_cons.mp h).1 rfl

theorem GivesUp.of_anySequence {rest : List Char → Verdict} (h : Anchored (.anySequence :: tokens))
    (hrest : GivesUp (tokens.head? = some .anyDirectories) rest) : GivesUp (false = true) rest := by
  intro chars last hexhausted hleaves
  refine hrest chars last hexhausted (hleaves.mono fun hhead => ?_)
  simpa using h.before hhead

theorem GivesUp.of_anyDirectories {rest : List Char → Verdict}
    (hrest : GivesUp (tokens.head? = some .anyDirectories) rest) : GivesUp (true = true) rest :=
  fun chars last hexhausted hleaves =>
    hrest chars last hexhausted (hleaves.mono fun _ => rfl)

/-- The search stops only where nothing behind can match. -/
theorem givesUp_attempt (h : Anchored tokens) :
    GivesUp (tokens.head? = some .anyDirectories) (attempt tokens) := by
  induction tokens with
  | nil =>
    intro chars last hexhausted
    simp only [attempt] at hexhausted
    split at hexhausted <;> cases hexhausted
  | cons token tokens ih =>
    have hrest := ih h.behind
    rintro chars last hexhausted hleaves
    by_cases hs : token = .anySequence
    · subst hs
      exact givesUp_spread (hrest.of_anySequence h) chars last hexhausted (hleaves.mono nofun)
    by_cases hd : token = .anyDirectories
    · subst hd
      exact givesUp_spread hrest.of_anyDirectories chars last hexhausted (hleaves.mono fun _ => rfl)
    -- What comes behind one character comes, where it matters, behind a slash.
    intro hmatched
    obtain ⟨front, rfl, -⟩ := hleaves
    cases last with
    | nil =>
      rw [attempt_single_nil hs hd] at hmatched
      cases hmatched
    | cons d last =>
      rw [attempt_single_cons hs hd] at hmatched
      split at hmatched
      case isFalse => cases hmatched
      rename_i hmeets
      cases front with
      | nil =>
        rw [List.nil_append, attempt_single_cons hs hd, if_pos hmeets, hmatched] at hexhausted
        cases hexhausted
      | cons c front =>
        rw [List.cons_append, attempt_single_cons hs hd] at hexhausted
        split at hexhausted
        case isFalse => cases hexhausted
        refine hrest _ last hexhausted ⟨front ++ [d], by simp, fun hhead => .inr (.inl ?_)⟩ hmatched
        obtain rfl := (h.before hhead).resolve_right hd
        rw [List.getLast?_concat, eq_slash_of_meets hmeets]

/-- The search finds a match just where there is one. -/
theorem attempt_eq_matched_iff (h : Anchored tokens) :
    attempt tokens chars = .matched ↔ Matches tokens chars := by
  induction tokens generalizing chars with
  | nil =>
    cases chars with
    | nil => exact iff_of_true rfl .done
    | cons c chars => exact iff_of_false nofun nofun
  | cons token tokens ih =>
    have hrest := givesUp_attempt h.behind
    have ih (chars : List Char) : attempt tokens chars = .matched ↔ Matches tokens chars :=
      ih h.behind
    by_cases hs : token = .anySequence
    · subst hs
      rw [attempt_anySequence, spread_eq_matched_iff (hrest.of_anySequence h)]
      simp only [ih, Bool.false_eq_true]
      constructor
      · rintro ⟨last, hleaves, hmatches⟩
        exact .sequence hleaves hmatches
      · intro hmatches
        cases hmatches with
        | single hsequence => exact absurd rfl hsequence
        | sequence hleaves hmatches => exact ⟨_, hleaves, hmatches⟩
    by_cases hd : token = .anyDirectories
    · subst hd
      rw [attempt_anyDirectories, spread_eq_matched_iff hrest.of_anyDirectories]
      simp only [ih]
      constructor
      · rintro ⟨last, hleaves, hmatches⟩
        exact .directories hleaves hmatches
      · intro hmatches
        cases hmatches with
        | single _ hdirectories => exact absurd rfl hdirectories
        | directories hleaves hmatches => exact ⟨_, hleaves, hmatches⟩
    cases chars with
    | nil =>
      rw [attempt_single_nil hs hd]
      refine iff_of_false nofun fun hmatches => ?_
      cases hmatches with
      | sequence => exact hs rfl
      | directories => exact hd rfl
    | cons c chars =>
      rw [attempt_single_cons hs hd]
      constructor
      · intro hmatched
        split at hmatched
        case isFalse => cases hmatched
        rename_i hmeets
        exact .single hs hd hmeets ((ih chars).mp hmatched)
      · intro hmatches
        cases hmatches with
        | single _ _ hmeets hmatches => rwa [if_pos hmeets, ih]
        | sequence => exact absurd rfl hs
        | directories => exact absurd rfl hd

end

-- ---------------------------------------------------------------------------
-- Parsed patterns
-- ---------------------------------------------------------------------------

/-- The tokens of what stands in front of a place, where the parser lets two stars stand only if
they are anchored. -/
structure AnchoredBehind (previous : Option Char) (tokens : Array Token) : Prop where
  anchored : Anchored tokens.toList
  start : previous = none → tokens = #[]
  slash : previous = some '/' →
    tokens.back? = some (.char '/') ∨ tokens.back? = some .anyDirectories

section
variable {previous : Option Char} {tokens : Array Token} {token : Token}

theorem Anchored.push (h : Anchored tokens.toList)
    (hlast : token = .anyDirectories → ∀ last, tokens.back? = some last →
      last = .char '/' ∨ last = .anyDirectories) : Anchored (tokens.push token).toList := by
  rw [Array.toList_push]
  refine List.isChain_append.mpr ⟨h, List.isChain_singleton _, ?_⟩
  intro last hmem next hnext
  obtain rfl := Option.some.inj hnext
  exact fun htoken => hlast htoken last (by simpa [← Array.getLast?_toList] using hmem)

theorem AnchoredBehind.push {c : Char} (h : AnchoredBehind previous tokens)
    (hd : token ≠ .anyDirectories) (hslash : c = '/' → token = .char '/') :
    AnchoredBehind (some c) (tokens.push token) where
  anchored := h.anchored.push fun htoken => absurd htoken hd
  start := nofun
  slash := fun hc => .inl (by rw [Array.back?_push, hslash (Option.some.inj hc)])

theorem AnchoredBehind.pushDirectories (h : AnchoredBehind previous tokens)
    (hprevious : previous = none ∨ previous = some '/') :
    AnchoredBehind (some '/') (pushDirectories tokens) := by
  unfold Pattern.pushDirectories
  split
  · rename_i hlast
    exact ⟨h.anchored, nofun, fun _ => .inr hlast.2⟩
  · refine ⟨h.anchored.push fun _ last hlast => ?_, nofun, fun _ => .inr Array.back?_push⟩
    rcases hprevious with hnone | hslash
    · rw [h.start hnone] at hlast
      cases hlast
    · have hback := h.slash hslash
      rw [hlast, Option.some.injEq, Option.some.injEq] at hback
      exact hback

theorem bracketToken?_ne {chars after : List Char} (h : bracketToken? chars = some (token, after)) :
    token ≠ .anyDirectories := by
  unfold bracketToken? at h
  split at h
  all_goals
    obtain ⟨_, -, heq⟩ := Option.map_eq_some_iff.mp h
    rw [← (Prod.mk.inj heq).1]
    nofun

theorem anchored_of_parseFrom {position : Nat} {result : Array Token} {chars : List Char}
    (h : AnchoredBehind previous tokens)
    (hparse : parseFrom position previous tokens chars = .ok result) : Anchored result.toList := by
  fun_induction parseFrom position previous tokens chars with
  | case1 => exact Except.ok.inj hparse ▸ h.anchored
  | case2 _ _ _ _ ih => exact ih (h.push nofun nofun) hparse
  | case3 => cases hparse
  | case4 _ _ _ hprevious => exact Except.ok.inj hparse ▸ (h.pushDirectories hprevious).anchored
  | case5 _ _ _ hprevious _ _ ih => exact ih (h.pushDirectories hprevious) hparse
  | case6 => cases hparse
  | case7 => cases hparse
  | case8 _ _ _ _ _ _ ih => exact ih (h.push nofun nofun) hparse
  | case9 => cases hparse
  | case10 _ _ _ _ _ _ hbracket ih => exact ih (h.push (bracketToken?_ne hbracket) nofun) hparse
  | case11 _ _ _ _ _ _ _ _ _ _ ih => exact ih (h.push nofun fun hc => hc ▸ rfl) hparse

end

/-- A parsed pattern accepts the names that its tokens stand for. -/
theorem accepts_iff_matches {text : String} {tokens : List Token} (h : parse text = .ok tokens)
    (name : String) : accepts tokens name = true ↔ Matches tokens name.toList := by
  have hanchored : Anchored tokens := by
    unfold parse at h
    cases hparse : parseFrom 0 none #[] text.toList with
    | error fault =>
      rw [hparse] at h
      cases h
    | ok result =>
      rw [hparse] at h
      rw [← Except.ok.inj h]
      have hstart : AnchoredBehind none #[] := ⟨List.isChain_nil, fun _ => rfl, nofun⟩
      exact anchored_of_parseFrom hstart hparse
  rw [accepts, beq_iff_eq, attempt_eq_matched_iff hanchored]

end Pattern

end ClassicZip
