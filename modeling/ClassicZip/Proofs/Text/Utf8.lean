import Mathlib.Data.List.TakeWhile
import ClassicZip.Text.Utf8

/-!
# Text that is UTF-8

The bytes of a text are decoded to this text: nothing of it is replaced.
-/

namespace ClassicZip.Text

-- ---------------------------------------------------------------------------
-- Lead bytes and what follows them
-- ---------------------------------------------------------------------------

section
variable {lead first low high : UInt8} {count : Nat} {rest : List UInt8}

theorem tailOf?_of_two (lead : UInt8) (hlow : 0xC2 ≤ lead.toNat) (hhigh : lead.toNat ≤ 0xDF) :
    tailOf? lead = some (1, 0x80, 0xBF) := by
  have h : (0xC2 ≤ lead && lead ≤ 0xDF) = true := by
    simpa [UInt8.le_iff_toNat_le] using ⟨hlow, hhigh⟩
  rw [tailOf?, if_pos h]

/-- The second of three bytes keeps out overlong forms and surrogates. -/
theorem tailOf?_of_three (lead : UInt8) (hlow : 0xE0 ≤ lead.toNat) (hhigh : lead.toNat ≤ 0xEF) :
    ∃ low high, tailOf? lead = some (2, low, high) ∧
      low.toNat = (if lead.toNat = 0xE0 then 0xA0 else 0x80) ∧
      high.toNat = (if lead.toNat = 0xED then 0x9F else 0xBF) := by
  unfold tailOf?
  simp only [Bool.and_eq_true, decide_eq_true_eq, beq_iff_eq, UInt8.le_iff_toNat_le,
    ← UInt8.toNat_inj, UInt8.reduceToNat]
  rw [if_neg (by omega)]
  by_cases hfirst : lead.toNat = 0xE0
  · rw [if_pos hfirst]
    exact ⟨_, _, rfl, by rw [if_pos hfirst]; rfl, by rw [if_neg (by omega)]; rfl⟩
  rw [if_neg hfirst]
  by_cases hlast : lead.toNat = 0xED
  · rw [if_pos hlast]
    exact ⟨_, _, rfl, by rw [if_neg hfirst]; rfl, by rw [if_pos hlast]; rfl⟩
  · rw [if_neg hlast, if_pos (by omega)]
    exact ⟨_, _, rfl, by rw [if_neg hfirst]; rfl, by rw [if_neg hlast]; rfl⟩

/-- The second of four bytes keeps out overlong forms and what lies behind the last character. -/
theorem tailOf?_of_four (lead : UInt8) (hlow : 0xF0 ≤ lead.toNat) (hhigh : lead.toNat ≤ 0xF4) :
    ∃ low high, tailOf? lead = some (3, low, high) ∧
      low.toNat = (if lead.toNat = 0xF0 then 0x90 else 0x80) ∧
      high.toNat = (if lead.toNat = 0xF4 then 0x8F else 0xBF) := by
  unfold tailOf?
  simp only [Bool.and_eq_true, decide_eq_true_eq, beq_iff_eq, UInt8.le_iff_toNat_le,
    ← UInt8.toNat_inj, UInt8.reduceToNat]
  rw [if_neg (by omega), if_neg (by omega), if_neg (by omega), if_neg (by omega)]
  by_cases hfirst : lead.toNat = 0xF0
  · rw [if_pos hfirst]
    exact ⟨_, _, rfl, by rw [if_pos hfirst]; rfl, by rw [if_neg (by omega)]; rfl⟩
  rw [if_neg hfirst]
  by_cases hlast : lead.toNat = 0xF4
  · rw [if_neg (by omega), if_pos hlast]
    exact ⟨_, _, rfl, by rw [if_neg hfirst]; rfl, by rw [if_pos hlast]; rfl⟩
  · rw [if_pos (by omega)]
    exact ⟨_, _, rfl, by rw [if_neg hfirst]; rfl, by rw [if_neg hlast]; rfl⟩

theorem decodeHead_of_tail (others : List UInt8) (hlead : 0x80 ≤ lead)
    (htail : tailOf? lead = some (count, low, high)) (hlow : low ≤ first) (hhigh : first ≤ high)
    (hothers : ∀ byte ∈ others, isContinuation byte = true) (hcount : others.length + 1 = count) :
    decodeHead lead (first :: (others ++ rest)) =
      (Char.ofNat ((first :: others).foldl (fun bits byte => bits * 64 + byte.toNat % 64)
        (leadBits lead count)), count) := by
  subst hcount
  have hmore :
      ((others ++ rest).take (others.length + 1 - 1)).takeWhile isContinuation = others := by
    rw [Nat.add_sub_cancel, List.take_left, List.takeWhile_eq_self_iff.mpr hothers]
  have hrange : ¬(first < low || high < first) = true := by
    simpa [UInt8.not_lt] using ⟨hlow, hhigh⟩
  simp only [decodeHead, if_neg (UInt8.not_lt.mpr hlead), htail, if_neg hrange, hmore,
    Nat.lt_irrefl, if_false]

end

-- ---------------------------------------------------------------------------
-- Characters and texts
-- ---------------------------------------------------------------------------

def continuation (bits : Nat) : UInt8 := UInt8.ofNat (bits % 64 + 128)

theorem toNat_continuation (bits : Nat) : (continuation bits).toNat = bits % 64 + 128 :=
  UInt8.toNat_ofNat_of_lt' (show bits % 64 + 128 < 256 by omega)

theorem isContinuation_continuation (bits : Nat) : isContinuation (continuation bits) = true := by
  simp only [isContinuation, Bool.and_eq_true, decide_eq_true_eq, UInt8.le_iff_toNat_le,
    toNat_continuation, UInt8.reduceToNat]
  omega

section
variable {value : Nat} (rest : List UInt8)

theorem decodeHead_one (h : value ≤ 0x7F) :
    decodeHead (UInt8.ofNat value) rest = (Char.ofNat value, 0) := by
  have hbyte : (UInt8.ofNat value).toNat = value :=
    UInt8.toNat_ofNat_of_lt' (show value < 256 by omega)
  rw [decodeHead, if_pos (UInt8.lt_iff_toNat_lt.mpr (show _ < 0x80 by omega)), hbyte]

theorem decodeHead_two (hlow : 0x7F < value) (hhigh : value ≤ 0x7FF) :
    decodeHead (UInt8.ofNat (value / 64 % 32 + 0xC0)) (continuation value :: rest) =
      (Char.ofNat value, 1) := by
  have hlead : (UInt8.ofNat (value / 64 % 32 + 0xC0)).toNat = value / 64 % 32 + 0xC0 :=
    UInt8.toNat_ofNat_of_lt' (show _ < 256 by omega)
  have htail := tailOf?_of_two (UInt8.ofNat (value / 64 % 32 + 0xC0)) (by omega) (by omega)
  refine (decodeHead_of_tail [] (UInt8.le_iff_toNat_le.mpr (show 0x80 ≤ _ by omega))
    htail (UInt8.le_iff_toNat_le.mpr ?_) (UInt8.le_iff_toNat_le.mpr ?_) (by simp) rfl).trans ?_
  · rw [toNat_continuation]
    exact Nat.le_add_left 0x80 _
  · rw [toNat_continuation]
    show _ ≤ 0xBF
    omega
  · simp only [List.foldl_cons, List.foldl_nil, leadBits, hlead, toNat_continuation]
    congr 2
    omega

theorem decodeHead_three (hlow : 0x7FF < value) (hhigh : value ≤ 0xFFFF)
    (hvalid : value < 0xD800 ∨ 0xDFFF < value) :
    decodeHead (UInt8.ofNat (value / 4096 % 16 + 0xE0))
        (continuation (value / 64) :: continuation value :: rest) = (Char.ofNat value, 2) := by
  have hlead : (UInt8.ofNat (value / 4096 % 16 + 0xE0)).toNat = value / 4096 % 16 + 0xE0 :=
    UInt8.toNat_ofNat_of_lt' (show _ < 256 by omega)
  obtain ⟨low, high, htail, hlowest, hhighest⟩ :=
    tailOf?_of_three (UInt8.ofNat (value / 4096 % 16 + 0xE0)) (by omega) (by omega)
  refine (decodeHead_of_tail [continuation value]
    (UInt8.le_iff_toNat_le.mpr (show 0x80 ≤ _ by omega)) htail (UInt8.le_iff_toNat_le.mpr ?_)
    (UInt8.le_iff_toNat_le.mpr ?_) (by simp [isContinuation_continuation]) rfl).trans ?_
  · rw [toNat_continuation, hlowest, hlead]
    split <;> omega
  · rw [toNat_continuation, hhighest, hlead]
    split <;> omega
  · simp only [List.foldl_cons, List.foldl_nil, leadBits, hlead, toNat_continuation]
    congr 2
    omega

theorem decodeHead_four (hlow : 0xFFFF < value) (hhigh : value < 0x110000) :
    decodeHead (UInt8.ofNat (value / 262144 % 8 + 0xF0)) (continuation (value / 4096) ::
      continuation (value / 64) :: continuation value :: rest) = (Char.ofNat value, 3) := by
  have hlead : (UInt8.ofNat (value / 262144 % 8 + 0xF0)).toNat = value / 262144 % 8 + 0xF0 :=
    UInt8.toNat_ofNat_of_lt' (show _ < 256 by omega)
  obtain ⟨low, high, htail, hlowest, hhighest⟩ :=
    tailOf?_of_four (UInt8.ofNat (value / 262144 % 8 + 0xF0)) (by omega) (by omega)
  refine (decodeHead_of_tail [continuation (value / 64), continuation value]
    (UInt8.le_iff_toNat_le.mpr (show 0x80 ≤ _ by omega)) htail (UInt8.le_iff_toNat_le.mpr ?_)
    (UInt8.le_iff_toNat_le.mpr ?_) (by simp [isContinuation_continuation]) rfl).trans ?_
  · rw [toNat_continuation, hlowest, hlead]
    split <;> omega
  · rw [toNat_continuation, hhighest, hlead]
    split <;> omega
  · simp only [List.foldl_cons, List.foldl_nil, leadBits, hlead, toNat_continuation]
    congr 2
    omega

end

theorem decodeHead_utf8EncodeChar (c : Char) (rest : List UInt8) : ∃ lead others,
    String.utf8EncodeChar c = lead :: others ∧
      decodeHead lead (others ++ rest) = (c, others.length) := by
  have hvalid : c.val.toNat < 0xD800 ∨ 0xDFFF < c.val.toNat ∧ c.val.toNat < 0x110000 := c.valid
  have hchar : Char.ofNat c.val.toNat = c := Char.ofNat_toNat c
  rw [String.utf8EncodeChar]
  by_cases hone : c.val.toNat ≤ 0x7F
  · rw [if_pos hone]
    exact ⟨_, _, rfl, (decodeHead_one _ hone).trans (by rw [hchar]; rfl)⟩
  rw [if_neg hone]
  by_cases htwo : c.val.toNat ≤ 0x7FF
  · rw [if_pos htwo]
    exact ⟨_, _, rfl, (decodeHead_two _ (by omega) htwo).trans (by rw [hchar]; rfl)⟩
  rw [if_neg htwo]
  by_cases hthree : c.val.toNat ≤ 0xFFFF
  · rw [if_pos hthree]
    exact ⟨_, _, rfl, (decodeHead_three _ (by omega) hthree (by omega)).trans (by rw [hchar]; rfl)⟩
  · rw [if_neg hthree]
    exact ⟨_, _, rfl, (decodeHead_four _ (by omega) (by omega)).trans (by rw [hchar]; rfl)⟩

theorem decodeLossyList_utf8EncodeChar (c : Char) (rest : List UInt8) :
    decodeLossyList (String.utf8EncodeChar c ++ rest) = c :: decodeLossyList rest := by
  obtain ⟨lead, others, hbytes, hhead⟩ := decodeHead_utf8EncodeChar c rest
  rw [hbytes, List.cons_append, decodeLossyList, hhead, List.drop_left]

theorem decodeLossy_toUTF8 (text : String) : decodeLossy text.toUTF8 = text := by
  have hbytes : text.toUTF8.data.toList = text.toList.flatMap String.utf8EncodeChar := by
    rw [String.toUTF8_eq_toByteArray, ← String.utf8Encode_toList, List.utf8Encode]
    exact List.toList_data_toByteArray
  have hchars (chars : List Char) :
      decodeLossyList (chars.flatMap String.utf8EncodeChar) = chars := by
    induction chars with
    | nil => rw [List.flatMap_nil, decodeLossyList]
    | cons c rest ih => rw [List.flatMap_cons, decodeLossyList_utf8EncodeChar, ih]
  rw [decodeLossy, hbytes, hchars, String.ofList_toList]

end ClassicZip.Text
