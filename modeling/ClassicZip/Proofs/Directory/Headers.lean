import ClassicZip.Directory
import ClassicZip.Proofs.Cursor.Ahead

/-!
# The headers of a directory

A directory is parsed header by header, and each header is one run of bytes. An entry keeps every
field of its header but one, the disk on which the entry starts: listed again it starts on the first
disk.
-/

namespace ClassicZip

open Bytes

/-- A header of a directory, and the name, the extra field and the comment behind it. -/
structure ListedHeader where
  header : DirectoryHeader
  name : ByteArray
  extra : ByteArray
  comment : ByteArray

namespace ListedHeader

def bytes (listed : ListedHeader) : ByteArray :=
  le32 DirectoryHeader.signature ++ listed.header.encode ++ listed.name ++ listed.extra ++
    listed.comment

def pack (headers : List ListedHeader) : ByteArray := concat (headers.map bytes)

def entry (listed : ListedHeader) (index : Nat) : Entry :=
  .ofHeader index listed.header listed.name listed.extra listed.comment

def onFirstDisk (listed : ListedHeader) : ListedHeader :=
  { listed with header := { listed.header with startDisk := 0 } }

/-- The header gives the lengths of the parts behind it. -/
structure Fits (listed : ListedHeader) : Prop where
  name_eq : listed.header.nameLength.toNat = listed.name.size
  extra_eq : listed.header.extraLength.toNat = listed.extra.size
  comment_eq : listed.header.commentLength.toNat = listed.comment.size

@[simp] theorem pack_nil : pack [] = ByteArray.empty := rfl

@[simp] theorem pack_cons (listed : ListedHeader) (rest : List ListedHeader) :
    pack (listed :: rest) = listed.bytes ++ pack rest := rfl

theorem size_bytes (listed : ListedHeader) :
    listed.bytes.size = 4 + DirectoryHeader.bodySize + listed.name.size + listed.extra.size +
      listed.comment.size := by
  simp [bytes]

/-- Only the disk on which the entry starts is lost. -/
theorem directoryBytes_entry {listed : ListedHeader} (h : listed.Fits) (index : Nat) :
    (listed.entry index).directoryBytes = listed.onFirstDisk.bytes := by
  have hheader : (listed.entry index).directoryHeader = listed.onFirstDisk.header := by
    simp only [entry, Entry.ofHeader, Entry.directoryHeader, onFirstDisk, Method.id_ofId,
      ← h.name_eq, ← h.extra_eq, ← h.comment_eq, UInt16.ofNat_toNat]
  rw [Entry.directoryBytes, hheader]
  rfl

theorem bytes_onFirstDisk_iff (listed : ListedHeader) :
    listed.onFirstDisk.bytes = listed.bytes ↔ listed.header.startDisk = 0 := by
  constructor
  · intro h
    simp only [bytes, onFirstDisk, ByteArray.append_left_inj, ByteArray.append_right_inj] at h
    have hheader := congrArg DirectoryHeader.decode h
    rw [DirectoryHeader.decode_encode, DirectoryHeader.decode_encode] at hheader
    exact (congrArg DirectoryHeader.startDisk hheader).symm
  · intro h
    rw [onFirstDisk, ← h]

theorem pack_onFirstDisk_iff (headers : List ListedHeader) :
    pack (headers.map onFirstDisk) = pack headers ↔
      ∀ listed ∈ headers, listed.header.startDisk = 0 := by
  induction headers with
  | nil => simp
  | cons listed rest ih =>
    rw [List.forall_mem_cons, ← ih, ← bytes_onFirstDisk_iff, List.map_cons, pack_cons, pack_cons]
    constructor
    · intro h
      have hfirst : listed.onFirstDisk.bytes = listed.bytes :=
        ByteArray.append_inj_left h (by rw [size_bytes, size_bytes]; rfl)
      rw [hfirst, ByteArray.append_right_inj] at h
      exact ⟨hfirst, h⟩
    · rintro ⟨hfirst, hrest⟩
      rw [hfirst, hrest]

theorem size_pack_onFirstDisk (headers : List ListedHeader) :
    (pack (headers.map onFirstDisk)).size = (pack headers).size := by
  induction headers with
  | nil => rfl
  | cons listed rest ih =>
    rw [List.map_cons, pack_cons, pack_cons, ByteArray.size_append, ByteArray.size_append, ih,
      size_bytes, size_bytes]
    rfl

end ListedHeader

-- ---------------------------------------------------------------------------
-- Parsing
-- ---------------------------------------------------------------------------

namespace Entry

theorem take_ahead (base index : Nat) {listed : ListedHeader} {cursor : Cursor} {rest : ByteArray}
    (h : listed.Fits) (ha : cursor.Ahead (listed.bytes ++ rest)) :
    ∃ next, take base index cursor = .ok (listed.entry index, next) ∧ next.Ahead rest := by
  simp only [ListedHeader.bytes, ByteArray.append_assoc] at ha
  obtain ⟨atHeader, hs, ha⟩ := Cursor.takeU32_ahead ha
  obtain ⟨atName, hh, ha⟩ := Cursor.takeDirectoryHeader_ahead ha
  obtain ⟨atExtra, hn, ha⟩ := Cursor.take_ahead ha
  obtain ⟨atComment, he, ha⟩ := Cursor.take_ahead ha
  obtain ⟨next, hc, ha⟩ := Cursor.take_ahead ha
  rw [← h.name_eq] at hn
  rw [← h.extra_eq] at he
  rw [← h.comment_eq] at hc
  refine ⟨next, ?_, ha⟩
  simp only [take, bind_eq_ok, mapError_eq_ok, guard_eq_ok, pure_eq_ok]
  exact ⟨_, hs, by simp, _, hh, _, hn, _, he, _, hc, rfl⟩

section
variable {base : Nat} {cursor : Cursor} {ahead : ByteArray}

theorem take_listed {index : Nat} {next : Cursor} {entry : Entry} (ha : cursor.Ahead ahead)
    (h : take base index cursor = .ok (entry, next)) :
    ∃ listed rest, ListedHeader.Fits listed ∧ entry = listed.entry index ∧
      ahead = listed.bytes ++ rest ∧ next.Ahead rest ∧ next.buffer = cursor.buffer := by
  simp only [take, bind_eq_ok, mapError_eq_ok, guard_eq_ok, pure_eq_ok] at h
  obtain ⟨⟨_, atHeader⟩, hs, hsig, ⟨header, atName⟩, hh, ⟨name, atExtra⟩, hn, ⟨extra, atComment⟩,
    he, ⟨comment, after⟩, hc, hr⟩ := h
  obtain ⟨_, htake, rfl⟩ := Cursor.takeU32_ok.mp hs
  obtain ⟨_, hbody, hheader⟩ := Cursor.takeDirectoryHeader_ok.mp hh
  obtain ⟨hfour, rfl, rfl⟩ := Cursor.take_ok.mp htake
  obtain ⟨hfixed, rfl, rfl⟩ := Cursor.take_ok.mp hbody
  obtain ⟨hnameIn, hname, rfl⟩ := Cursor.take_ok.mp hn
  obtain ⟨hextraIn, hextra, rfl⟩ := Cursor.take_ok.mp he
  obtain ⟨hcommentIn, hcomment, rfl⟩ := Cursor.take_ok.mp hc
  obtain ⟨rfl, rfl⟩ := Prod.mk.inj hr
  dsimp only at *
  rw [Decidable.not_not] at hsig
  have hsignature : le32 DirectoryHeader.signature = slice cursor.buffer cursor.position 4 := by
    rw [← hsig, le32_u32At (Nat.le_of_eq (size_slice hfour).symm), slice_slice (Nat.le_refl 4)]
    rfl
  have hencode : header.encode =
      slice cursor.buffer (cursor.position + 4) DirectoryHeader.bodySize := by
    rw [hheader, DirectoryHeader.encode_decode (size_slice hfixed)]
  obtain ⟨listed, hlisted⟩ : ∃ listed, listed = ListedHeader.mk header name extra comment :=
    ⟨_, rfl⟩
  have hfits : listed.Fits :=
    hlisted ▸ ⟨by rw [hname, size_slice hnameIn], by rw [hextra, size_slice hextraIn],
      by rw [hcomment, size_slice hcommentIn]⟩
  have hsize : listed.bytes.size = 4 + DirectoryHeader.bodySize + header.nameLength.toNat +
      header.extraLength.toNat + header.commentLength.toNat := by
    rw [ListedHeader.size_bytes, ← hfits.name_eq, ← hfits.extra_eq, ← hfits.comment_eq, hlisted]
  have hbytes : slice cursor.buffer cursor.position listed.bytes.size = listed.bytes := by
    rw [hsize, ListedHeader.bytes, hlisted]
    dsimp only
    rw [hsignature, hencode, hname, hextra, hcomment,
      slice_append_slice rfl, slice_append_slice (Nat.add_assoc _ _ _),
      slice_append_slice (by omega), slice_append_slice (by omega)]
  obtain ⟨rest, hahead, hrest⟩ := ha.split hbytes
  have hnext : cursor.position + 4 + DirectoryHeader.bodySize + header.nameLength.toNat +
      header.extraLength.toNat + header.commentLength.toNat =
        cursor.position + listed.bytes.size := by
    rw [hsize]
    omega
  refine ⟨listed, rest, hfits, by rw [hlisted]; rfl, hahead, ?_, rfl⟩
  rw [hnext]
  exact hrest

/-- The fault of a place with `ahead` in front of the directory's end, where no header starts. -/
def headerFault (ahead : ByteArray) (offset : Nat) : Fault :=
  if 4 ≤ ahead.size ∧ u32At ahead 0 ≠ DirectoryHeader.signature then
    .badSignature DirectoryHeader.signature (u32At ahead 0) offset
  else .truncated .directoryHeader offset

theorem take_error {index : Nat} {fault : Fault} (ha : cursor.Ahead ahead)
    (h : take base index cursor = .error fault) :
    fault = headerFault ahead (base + cursor.position) := by
  have hsize := ha.size_eq
  simp only [take, guard_eq] at h
  rcases bind_eq_error.mp h with hshort | ⟨⟨signature, atHeader⟩, hs, h⟩
  · obtain ⟨cause, hcause, rfl⟩ := mapError_eq_error.mp hshort
    have hfew : ¬cursor.position + 4 ≤ cursor.buffer.size := fun hfit => by
      rw [Cursor.takeU32_ok.mpr ⟨_, Cursor.take_ok.mpr ⟨hfit, rfl, rfl⟩, rfl⟩] at hcause
      cases hcause
    rw [headerFault, if_neg fun hbad => hfew (by omega)]
  · obtain ⟨_, htake, rfl⟩ := Cursor.takeU32_ok.mp (mapError_eq_ok.mp hs)
    obtain ⟨hfit, rfl, rfl⟩ := Cursor.take_ok.mp htake
    rw [u32At_slice (Nat.le_refl 4), Nat.add_zero, ha.u32At_eq] at h
    split at h
    · rename_i hsig
      rw [headerFault, if_pos ⟨by omega, hsig⟩]
      exact (Except.error.inj h).symm
    · rename_i hsig
      rw [headerFault, if_neg fun hbad => hsig hbad.2]
      -- Behind the signature only the end of the buffer can be in the way.
      simp only [bind_eq_error, mapError_eq_error, pure_ne_error, and_false, exists_false,
        or_false] at h
      rcases h with ⟨_, -, rfl⟩ | ⟨_, -, ⟨_, -, rfl⟩ | ⟨_, -, ⟨_, -, rfl⟩ | ⟨_, -, _, -, rfl⟩⟩⟩
      all_goals rfl

theorem takeMany_ahead (base : Nat) {headers : List ListedHeader} (taken : Array Entry)
    {rest : ByteArray} (hfits : ∀ listed ∈ headers, listed.Fits)
    (ha : cursor.Ahead (ListedHeader.pack headers ++ rest)) :
    takeMany base headers.length cursor taken = .ok (taken ++
      (headers.mapIdx fun index listed => listed.entry (taken.size + index)).toArray) := by
  induction headers generalizing taken cursor with
  | nil => simp [takeMany]
  | cons listed headers ih =>
    rw [List.forall_mem_cons] at hfits
    rw [ListedHeader.pack_cons, ByteArray.append_assoc] at ha
    obtain ⟨next, htake, ha⟩ := take_ahead base taken.size hfits.1 ha
    simp only [List.length_cons, takeMany, htake]
    rw [ih _ hfits.2 ha]
    simp [List.mapIdx_cons, Nat.add_assoc, Nat.add_comm 1]

theorem takeMany_eq_ok {count : Nat} {taken result : Array Entry} (ha : cursor.Ahead ahead) :
    takeMany base count cursor taken = .ok result ↔
      ∃ headers rest, headers.length = count ∧ (∀ listed ∈ headers, ListedHeader.Fits listed) ∧
        ahead = ListedHeader.pack headers ++ rest ∧ result = taken ++
          (headers.mapIdx fun index listed => listed.entry (taken.size + index)).toArray := by
  constructor
  · intro h
    induction count generalizing cursor taken ahead with
    | zero =>
      obtain rfl := Except.ok.inj h
      exact ⟨[], ahead, rfl, by simp, by simp, by simp⟩
    | succ count ih =>
      simp only [takeMany] at h
      split at h
      · cases h
      · rename_i entry next htake
        obtain ⟨listed, rest, hfits, rfl, rfl, hnext, -⟩ := take_listed ha htake
        obtain ⟨headers, behind, hlength, hall, rfl, rfl⟩ := ih hnext h
        refine ⟨listed :: headers, behind, congrArg (· + 1) hlength,
          List.forall_mem_cons.mpr ⟨hfits, hall⟩, ?_, ?_⟩
        · rw [ListedHeader.pack_cons, ByteArray.append_assoc]
        · simp [List.mapIdx_cons, Nat.add_assoc, Nat.add_comm 1]
  · rintro ⟨headers, rest, rfl, hfits, rfl, rfl⟩
    exact takeMany_ahead base taken hfits ha

theorem takeMany_eq_error {count : Nat} {taken : Array Entry} {fault : Fault}
    (ha : cursor.Ahead ahead) :
    takeMany base count cursor taken = .error fault ↔
      ∃ headers rest, headers.length < count ∧ (∀ listed ∈ headers, ListedHeader.Fits listed) ∧
        ahead = ListedHeader.pack headers ++ rest ∧
        (∀ listed behind, ListedHeader.Fits listed → rest ≠ listed.bytes ++ behind) ∧
        fault = headerFault rest (base + cursor.position + (ListedHeader.pack headers).size) := by
  constructor
  · intro h
    -- Either there is no header to begin with, or it joins those that are found behind it.
    induction count generalizing cursor taken ahead with
    | zero => cases h
    | succ count ih =>
      simp only [takeMany] at h
      split at h
      · rename_i htake
        obtain rfl := Except.error.inj h
        refine ⟨[], ahead, Nat.succ_pos _, by simp, by simp, ?_, take_error ha htake⟩
        rintro listed behind hfits rfl
        obtain ⟨next, hok, -⟩ := take_ahead base taken.size hfits ha
        rw [htake] at hok
        cases hok
      · rename_i entry next htake
        obtain ⟨listed, rest, hfits, rfl, rfl, hnext, hbuffer⟩ := take_listed ha htake
        have hposition := ha.position_of_split hnext hbuffer
        obtain ⟨headers, behind, hlength, hall, rfl, hnone, hfault⟩ := ih hnext h
        refine ⟨listed :: headers, behind, Nat.succ_lt_succ hlength,
          List.forall_mem_cons.mpr ⟨hfits, hall⟩, ?_, hnone, ?_⟩
        · rw [ListedHeader.pack_cons, ByteArray.append_assoc]
        · simp only [hfault, hposition, ListedHeader.pack_cons, ByteArray.size_append,
            Nat.add_assoc]
  · rintro ⟨headers, rest, hlength, hfits, rfl, hnone, rfl⟩
    induction headers generalizing cursor taken count with
    | nil =>
      obtain ⟨count, rfl⟩ := Nat.exists_eq_succ_of_ne_zero (Nat.ne_zero_of_lt hlength)
      rw [ListedHeader.pack_nil, ByteArray.empty_append] at ha
      cases htake : take base taken.size cursor with
      | ok found =>
        obtain ⟨listed, behind, hlisted, -, hrest, -⟩ := take_listed ha htake
        exact absurd hrest (hnone listed behind hlisted)
      | error fault =>
        simp only [takeMany, htake]
        rw [take_error ha htake]
        rfl
    | cons listed headers ih =>
      obtain ⟨count, rfl⟩ := Nat.exists_eq_succ_of_ne_zero (Nat.ne_zero_of_lt hlength)
      rw [List.forall_mem_cons] at hfits
      rw [ListedHeader.pack_cons, ByteArray.append_assoc] at ha
      obtain ⟨next, htake, hnext⟩ := take_ahead base taken.size hfits.1 ha
      obtain ⟨-, -, -, -, -, -, hbuffer⟩ := take_listed ha htake
      have hposition := ha.position_of_split hnext hbuffer
      simp only [takeMany, htake]
      rw [ih (Nat.lt_of_succ_lt_succ hlength) hfits.2 hnext, hposition]
      simp only [ListedHeader.pack_cons, ByteArray.size_append, Nat.add_assoc]

end

end Entry

end ClassicZip
