import ClassicZip.Bytes

/-!
# Words and slices of concatenations

A word that was written reads back, and a read inside a concatenation is a read in the part that
it lies in. Byte strings of one size are equal once all their bytes are.
-/

namespace ClassicZip.Bytes

-- ---------------------------------------------------------------------------
-- Words as numbers
-- ---------------------------------------------------------------------------

private theorem or_shiftLeft_eq_add {low high : Nat} (count : Nat) (h : low < 2 ^ count) :
    low ||| high <<< count = low + high * 2 ^ count := by
  rw [Nat.or_comm, ← Nat.shiftLeft_add_eq_or_of_lt h, Nat.shiftLeft_eq, Nat.add_comm]

theorem toNat_u16At (bytes : ByteArray) (index : Nat) :
    (u16At bytes index).toNat =
      (byteAt bytes index).toNat + (byteAt bytes (index + 1)).toNat * 2 ^ 8 := by
  have h0 := (byteAt bytes index).toNat_lt
  have h1 := (byteAt bytes (index + 1)).toNat_lt
  have fits : (byteAt bytes (index + 1)).toNat <<< 8 < 2 ^ 16 := by
    rw [Nat.shiftLeft_eq]; omega
  simp only [u16At, UInt16.toNat_or, UInt16.toNat_shiftLeft, UInt8.toNat_toUInt16]
  rw [show UInt16.toNat 8 % 16 = 8 from rfl, Nat.mod_eq_of_lt fits, or_shiftLeft_eq_add 8 h0]

theorem toNat_u32At (bytes : ByteArray) (index : Nat) :
    (u32At bytes index).toNat =
      (byteAt bytes index).toNat + (byteAt bytes (index + 1)).toNat * 2 ^ 8 +
        (byteAt bytes (index + 2)).toNat * 2 ^ 16 + (byteAt bytes (index + 3)).toNat * 2 ^ 24 := by
  have h0 := (byteAt bytes index).toNat_lt
  have h1 := (byteAt bytes (index + 1)).toNat_lt
  have h2 := (byteAt bytes (index + 2)).toNat_lt
  have h3 := (byteAt bytes (index + 3)).toNat_lt
  have fits {byte : UInt8} {count : Nat} (h : count ≤ 24) : byte.toNat <<< count < 2 ^ 32 := by
    rw [Nat.shiftLeft_eq]
    calc byte.toNat * 2 ^ count < 2 ^ 8 * 2 ^ count :=
          Nat.mul_lt_mul_of_pos_right byte.toNat_lt (Nat.two_pow_pos count)
      _ ≤ 2 ^ 8 * 2 ^ 24 := Nat.mul_le_mul_left _ (Nat.pow_le_pow_right (by decide) h)
  simp only [u32At, UInt32.toNat_or, UInt32.toNat_shiftLeft, UInt8.toNat_toUInt32]
  rw [show UInt32.toNat 8 % 32 = 8 from rfl, show UInt32.toNat 16 % 32 = 16 from rfl,
    show UInt32.toNat 24 % 32 = 24 from rfl, Nat.mod_eq_of_lt (fits (by decide)),
    Nat.mod_eq_of_lt (fits (by decide)), Nat.mod_eq_of_lt (fits (by decide)),
    or_shiftLeft_eq_add 8 h0, or_shiftLeft_eq_add 16 (by omega), or_shiftLeft_eq_add 24 (by omega)]

@[simp] theorem u16At_le16 (value : UInt16) : u16At (le16 value) 0 = value := by
  apply UInt16.toNat_inj.mp
  have h0 : byteAt (le16 value) 0 = value.toUInt8 := rfl
  have h1 : byteAt (le16 value) 1 = (value >>> 8).toUInt8 := rfl
  have hv := value.toNat_lt
  simp only [toNat_u16At, h0, h1, UInt16.toNat_toUInt8, UInt16.toNat_shiftRight]
  rw [show UInt16.toNat 8 % 16 = 8 from rfl, Nat.shiftRight_eq_div_pow]
  omega

@[simp] theorem u32At_le32 (value : UInt32) : u32At (le32 value) 0 = value := by
  apply UInt32.toNat_inj.mp
  have h0 : byteAt (le32 value) 0 = value.toUInt8 := rfl
  have h1 : byteAt (le32 value) 1 = (value >>> 8).toUInt8 := rfl
  have h2 : byteAt (le32 value) 2 = (value >>> 16).toUInt8 := rfl
  have h3 : byteAt (le32 value) 3 = (value >>> 24).toUInt8 := rfl
  have hv := value.toNat_lt
  simp only [toNat_u32At, h0, h1, h2, h3, UInt32.toNat_toUInt8, UInt32.toNat_shiftRight]
  rw [show UInt32.toNat 8 % 32 = 8 from rfl, show UInt32.toNat 16 % 32 = 16 from rfl,
    show UInt32.toNat 24 % 32 = 24 from rfl]
  simp only [Nat.shiftRight_eq_div_pow]
  omega

-- ---------------------------------------------------------------------------
-- Single bytes
-- ---------------------------------------------------------------------------

instance lawfulBEqByteArray : LawfulBEq ByteArray where
  eq_of_beq {first _} h := ByteArray.ext (eq_of_beq (a := first.data) h)
  rfl {bytes} := beq_self_eq_true bytes.data

theorem byteAt_of_lt {bytes : ByteArray} {index : Nat} (h : index < bytes.size) :
    byteAt bytes index = bytes[index] := dif_pos h

theorem byteAt_of_le {bytes : ByteArray} {index : Nat} (h : bytes.size ≤ index) :
    byteAt bytes index = 0 := dif_neg (Nat.not_lt_of_le h)

theorem byteAt_append_left {first second : ByteArray} {index : Nat} (h : index < first.size) :
    byteAt (first ++ second) index = byteAt first index := by
  rw [byteAt_of_lt h, byteAt_of_lt (by simp; omega), ByteArray.getElem_append_left h]

theorem byteAt_append_right {first second : ByteArray} {index : Nat} (h : first.size ≤ index) :
    byteAt (first ++ second) index = byteAt second (index - first.size) := by
  rcases Nat.lt_or_ge (index - first.size) second.size with hlt | hge
  · rw [byteAt_of_lt hlt, byteAt_of_lt (by simp; omega), ByteArray.getElem_append_right h]
  · rw [byteAt_of_le hge, byteAt_of_le (by simp; omega)]

theorem byteAt_extract {bytes : ByteArray} {start stop index : Nat}
    (h : start + index < stop) : byteAt (bytes.extract start stop) index =
      byteAt bytes (start + index) := by
  rcases Nat.lt_or_ge (start + index) bytes.size with hlt | hge
  · rw [byteAt_of_lt hlt, byteAt_of_lt (by simp; omega), ByteArray.getElem_extract]
  · rw [byteAt_of_le hge, byteAt_of_le (by simp; omega)]

theorem byteAt_slice {bytes : ByteArray} {start count index : Nat} (h : index < count) :
    byteAt (slice bytes start count) index = byteAt bytes (start + index) :=
  byteAt_extract (by omega)

theorem byteAt_zeros (count index : Nat) : byteAt (zeros count) index = 0 := by
  rcases Nat.lt_or_ge index (zeros count).size with hlt | hge
  · rw [byteAt_of_lt hlt]
    simp [zeros, ByteArray.getElem_eq_getElem_data]
  · exact byteAt_of_le hge

theorem ext_byteAt {first second : ByteArray} (hs : first.size = second.size)
    (hb : ∀ index < first.size, byteAt first index = byteAt second index) : first = second := by
  apply ByteArray.ext_getElem hs
  intro index hf hg
  rw [← byteAt_of_lt hf, ← byteAt_of_lt hg, hb index hf]

-- ---------------------------------------------------------------------------
-- Words inside
-- ---------------------------------------------------------------------------

theorem u16At_congr {first second : ByteArray} {index other : Nat}
    (h : ∀ k < 2, byteAt first (index + k) = byteAt second (other + k)) :
    u16At first index = u16At second other := by
  have h0 := h 0 (by decide)
  have h1 := h 1 (by decide)
  simp only [Nat.add_zero] at h0
  simp only [u16At, h0, h1]

theorem u32At_congr {first second : ByteArray} {index other : Nat}
    (h : ∀ k < 4, byteAt first (index + k) = byteAt second (other + k)) :
    u32At first index = u32At second other := by
  have h0 := h 0 (by decide)
  have h1 := h 1 (by decide)
  have h2 := h 2 (by decide)
  have h3 := h 3 (by decide)
  simp only [Nat.add_zero] at h0
  simp only [u32At, h0, h1, h2, h3]

theorem u32At_eq_zero {bytes : ByteArray} {index : Nat}
    (h : ∀ k < 4, byteAt bytes (index + k) = 0) : u32At bytes index = 0 := by
  have hword : u32At bytes index = u32At (zeros 4) 0 :=
    u32At_congr fun k hk => by rw [h k hk, byteAt_zeros]
  exact hword.trans (by decide)

section
variable {first second bytes : ByteArray} {index start count : Nat}

theorem u16At_append_left (h : index + 2 ≤ first.size) :
    u16At (first ++ second) index = u16At first index :=
  u16At_congr fun k hk => byteAt_append_left (by omega)

theorem u16At_append_right (h : first.size ≤ index) :
    u16At (first ++ second) index = u16At second (index - first.size) :=
  u16At_congr fun k hk => by rw [byteAt_append_right (by omega), Nat.sub_add_comm h]

theorem u32At_append_left (h : index + 4 ≤ first.size) :
    u32At (first ++ second) index = u32At first index :=
  u32At_congr fun k hk => byteAt_append_left (by omega)

theorem u32At_append_right (h : first.size ≤ index) :
    u32At (first ++ second) index = u32At second (index - first.size) :=
  u32At_congr fun k hk => by rw [byteAt_append_right (by omega), Nat.sub_add_comm h]

theorem u16At_slice (h : index + 2 ≤ count) :
    u16At (slice bytes start count) index = u16At bytes (start + index) :=
  u16At_congr fun k hk => by rw [byteAt_slice (by omega), Nat.add_assoc]

theorem u32At_slice (h : index + 4 ≤ count) :
    u32At (slice bytes start count) index = u32At bytes (start + index) :=
  u32At_congr fun k hk => by rw [byteAt_slice (by omega), Nat.add_assoc]

end

section
variable (word : UInt16) (long : UInt32) (rest : ByteArray) (index : Nat)

@[simp] theorem u16At_le16_append : u16At (le16 word ++ rest) 0 = word := by
  rw [u16At_append_left (Nat.le_refl 2), u16At_le16]

@[simp] theorem u16At_le16_append_add : u16At (le16 word ++ rest) (index + 2) = u16At rest index :=
  u16At_append_right (Nat.le_add_left 2 index)

@[simp] theorem u16At_le32_append_add : u16At (le32 long ++ rest) (index + 4) = u16At rest index :=
  u16At_append_right (Nat.le_add_left 4 index)

@[simp] theorem u32At_le32_append : u32At (le32 long ++ rest) 0 = long := by
  rw [u32At_append_left (Nat.le_refl 4), u32At_le32]

@[simp] theorem u32At_le16_append_add : u32At (le16 word ++ rest) (index + 2) = u32At rest index :=
  u32At_append_right (Nat.le_add_left 2 index)

@[simp] theorem u32At_le32_append_add : u32At (le32 long ++ rest) (index + 4) = u32At rest index :=
  u32At_append_right (Nat.le_add_left 4 index)

end

-- ---------------------------------------------------------------------------
-- Slices inside
-- ---------------------------------------------------------------------------

section
variable {first second bytes : ByteArray} {start count : Nat}

theorem size_slice_le (bytes : ByteArray) (start count : Nat) :
    (slice bytes start count).size ≤ count := by
  rw [slice, ByteArray.size_extract]
  omega

theorem slice_congr (hf : start + count ≤ first.size) (hs : start + count ≤ second.size)
    (hb : ∀ index, start ≤ index → index < start + count →
      byteAt first index = byteAt second index) :
    slice first start count = slice second start count := by
  apply ext_byteAt
  · rw [size_slice hf, size_slice hs]
  · intro k hk
    rw [size_slice hf] at hk
    rw [byteAt_slice hk, byteAt_slice hk, hb _ (by omega) (by omega)]

theorem slice_append_left (h : start + count ≤ first.size) :
    slice (first ++ second) start count = slice first start count :=
  slice_congr (by simp; omega) h fun _ _ hi => byteAt_append_left (by omega)

theorem slice_append_right (h : first.size ≤ start) :
    slice (first ++ second) start count = slice second (start - first.size) count := by
  obtain ⟨gap, rfl⟩ := Nat.exists_eq_add_of_le h
  simp only [slice, Nat.add_sub_cancel_left, Nat.add_assoc]
  exact ByteArray.extract_append_size_add

theorem slice_eq_self : slice bytes 0 bytes.size = bytes := by
  simp [slice]

theorem slice_append_append (first second third : ByteArray) :
    slice (first ++ (second ++ third)) first.size second.size = second := by
  rw [slice_append_right (Nat.le_refl _), Nat.sub_self, slice_append_left (by omega), slice_eq_self]

/-- An image that is the same from `back` on differs only in what stands in front. -/
theorem exists_front_of_agree {front back : ByteArray} (hsize : bytes.size = (front ++ back).size)
    (hb : ∀ index, front.size ≤ index → byteAt bytes index = byteAt (front ++ back) index) :
    ∃ other, other.size = front.size ∧ bytes = other ++ back := by
  have hfit : 0 + front.size ≤ bytes.size := by
    rw [hsize, ByteArray.size_append]
    omega
  have hfront : (slice bytes 0 front.size).size = front.size := size_slice hfit
  refine ⟨slice bytes 0 front.size, hfront, ext_byteAt ?_ fun index _ => ?_⟩
  · rw [hsize, ByteArray.size_append, ByteArray.size_append, hfront]
  · rcases Nat.lt_or_ge index front.size with hlt | hge
    · rw [byteAt_append_left (by omega), byteAt_slice hlt, Nat.zero_add]
    · rw [hb index hge, byteAt_append_right hge, byteAt_append_right (by omega), hfront]

theorem slice_append_slice {next more : Nat}
    (h : next = start + count) :
    slice bytes start count ++ slice bytes next more = slice bytes start (count + more) := by
  subst h
  simp only [slice, ByteArray.extract_append_extract]
  congr 1 <;> omega

theorem slice_slice {inner size : Nat} (h : inner + size ≤ count) :
    slice (slice bytes start count) inner size = slice bytes (start + inner) size := by
  simp only [slice, ByteArray.extract_extract]
  congr 1
  omega

theorem slice_of_append {part rest : ByteArray} (h : slice bytes start count = part ++ rest) :
    slice bytes start part.size = part := by
  have hfit : part.size ≤ count := by
    have hsize := size_slice_le bytes start count
    rw [h, ByteArray.size_append] at hsize
    omega
  calc slice bytes start part.size
      = slice (slice bytes start count) 0 part.size := by
        rw [slice_slice (by omega), Nat.add_zero]
    _ = part := by rw [h, slice_append_left (by omega), slice_eq_self]

end

-- ---------------------------------------------------------------------------
-- Words as slices
-- ---------------------------------------------------------------------------

theorem le16_u16At {bytes : ByteArray} {index : Nat} (h : index + 2 ≤ bytes.size) :
    le16 (u16At bytes index) = slice bytes index 2 := by
  have hword := toNat_u16At bytes index
  have hlow := (byteAt bytes index).toNat_lt
  have hhigh := (byteAt bytes (index + 1)).toNat_lt
  refine ext_byteAt (by rw [size_slice h, size_le16]) fun k hk => ?_
  rw [size_le16] at hk
  rw [byteAt_slice hk]
  apply UInt8.toNat_inj.mp
  match k, hk with
  | 0, _ =>
    show (u16At bytes index).toUInt8.toNat = (byteAt bytes index).toNat
    rw [UInt16.toNat_toUInt8]
    omega
  | 1, _ =>
    show ((u16At bytes index) >>> 8).toUInt8.toNat = (byteAt bytes (index + 1)).toNat
    rw [UInt16.toNat_toUInt8, UInt16.toNat_shiftRight, show UInt16.toNat 8 % 16 = 8 from rfl,
      Nat.shiftRight_eq_div_pow]
    omega

theorem le32_u32At {bytes : ByteArray} {index : Nat} (h : index + 4 ≤ bytes.size) :
    le32 (u32At bytes index) = slice bytes index 4 := by
  have hword := toNat_u32At bytes index
  have h0 := (byteAt bytes index).toNat_lt
  have h1 := (byteAt bytes (index + 1)).toNat_lt
  have h2 := (byteAt bytes (index + 2)).toNat_lt
  have h3 := (byteAt bytes (index + 3)).toNat_lt
  have hbyte (count : UInt32) (hcount : count.toNat < 32) :
      ((u32At bytes index) >>> count).toUInt8.toNat =
        (u32At bytes index).toNat / 2 ^ count.toNat % 2 ^ 8 := by
    rw [UInt32.toNat_toUInt8, UInt32.toNat_shiftRight, Nat.mod_eq_of_lt hcount,
      Nat.shiftRight_eq_div_pow]
  refine ext_byteAt (by rw [size_slice h, size_le32]) fun k hk => ?_
  rw [size_le32] at hk
  rw [byteAt_slice hk]
  apply UInt8.toNat_inj.mp
  match k, hk with
  | 0, _ =>
    show (u32At bytes index).toUInt8.toNat = (byteAt bytes index).toNat
    rw [UInt32.toNat_toUInt8]
    omega
  | 1, _ =>
    refine (hbyte 8 (by decide)).trans ?_
    rw [show UInt32.toNat 8 = 8 from rfl]
    omega
  | 2, _ =>
    refine (hbyte 16 (by decide)).trans ?_
    rw [show UInt32.toNat 16 = 16 from rfl]
    omega
  | 3, _ =>
    refine (hbyte 24 (by decide)).trans ?_
    rw [show UInt32.toNat 24 = 24 from rfl]
    omega

-- ---------------------------------------------------------------------------
-- Concatenations of lists
-- ---------------------------------------------------------------------------

def concat (parts : List ByteArray) : ByteArray := parts.foldr (· ++ ·) ByteArray.empty

@[simp] theorem concat_nil : concat [] = ByteArray.empty := rfl

@[simp] theorem concat_cons (part : ByteArray) (parts : List ByteArray) :
    concat (part :: parts) = part ++ concat parts := rfl

@[simp] theorem concat_append (front back : List ByteArray) :
    concat (front ++ back) = concat front ++ concat back := by
  induction front with
  | nil => simp
  | cons part front ih => simp [ih, ByteArray.append_assoc]

theorem foldl_append_eq_concat {α : Type} (bytesOf : α → ByteArray) (items : List α)
    (initial : ByteArray) :
    items.foldl (fun bytes item => bytes ++ bytesOf item) initial =
      initial ++ concat (items.map bytesOf) := by
  induction items generalizing initial with
  | nil => simp
  | cons item items ih => simp [ih, ByteArray.append_assoc]

end ClassicZip.Bytes
