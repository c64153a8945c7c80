import Mathlib.Data.List.Nodup
import Mathlib.Data.List.Pairwise
import ClassicZip.Proofs.Writer.Reached

/-!
# A deletion in place leaves the others alone

What is read of an entry depends on the bytes of its local header and its data alone, and so does
the way in which a read fails. `eraseInPlace_exact` says what a deletion in place changes, byte for
byte, and that every entry outside of the zeros is read as before. After a run without a rebuild
this holds of all other entries.
-/

namespace ClassicZip

open Bytes

namespace Entry

/-- The byte belongs to the entry's local header or, where that can be found, to its data. -/
def Covers (image : ByteArray) (entry : Entry) (index : Nat) : Prop :=
  entry.localOffset.toNat ≤ index ∧
    (index < entry.localOffset.toNat + LocalHeader.fixedSize ∨
      ∃ here, entry.locate image image.size = .ok here ∧ index < entry.dataEnd here)

def Outside (image : ByteArray) (start stop : Nat) (entry : Entry) : Prop :=
  ∀ index, start ≤ index → index < stop → ¬ entry.Covers image index

/-- Numbered again and read from the other image, the entry gives what it gave before: its data
offset, its stored bytes and its data, or the same faults. -/
structure KeptAs [Codec.Coders] (image other : ByteArray) (entry renumbered : Entry) : Prop where
  dataOffset_eq : ∀ before after : Archive, before.On image → after.On other →
    after.dataOffset renumbered = before.dataOffset entry
  readRaw_eq : ∀ before after : Archive, before.On image → after.On other →
    after.readRaw renumbered = before.readRaw entry
  readData_eq : ∀ before after : Archive, before.On image → after.On other →
    after.readData renumbered = before.readData entry

section
variable {image other : ByteArray} {entry : Entry}

theorem locate_of_agree (hsize : other.size = image.size)
    (hb : ∀ index, entry.Covers image index → byteAt other index = byteAt image index) :
    entry.locate other other.size = entry.locate image image.size := by
  obtain ⟨hsig, hname, hextra⟩ := header_of_agree fun index hfrom hto => hb index ⟨hfrom, .inl hto⟩
  cases hlocate : entry.locate image image.size with
  | ok here =>
    obtain ⟨hsigned, hoff, hdata, hslice⟩ := locate_ok.mp hlocate
    refine locate_ok.mpr ⟨hsig.trans hsigned, ?_, hsize ▸ hdata, ?_⟩
    · rw [hname, hextra]
      exact hoff
    · rw [hextra, hslice]
      refine slice_congr (by omega) (by omega) fun index hfrom hto => ?_
      have hend : here.dataOffset ≤ entry.dataEnd here := Nat.le_add_right _ _
      exact (hb index ⟨by omega, .inr ⟨here, hlocate, by omega⟩⟩).symm
  | error fault =>
    -- The extra field has no part in a fault.
    have hoff : entry.localDataOffset other = entry.localDataOffset image := by
      rw [localDataOffset, localDataOffset, hname, hextra]
    rw [locate_eq] at hlocate ⊢
    rw [hsize, hsig, hoff]
    split at hlocate
    · rename_i hfixed
      rwa [if_pos hfixed]
    · rename_i hfixed
      rw [if_neg hfixed]
      split at hlocate
      · rename_i hsigned
        rwa [if_pos hsigned]
      · rename_i hsigned
        rw [if_neg hsigned]
        split at hlocate
        · rename_i hshort
          rwa [if_pos hshort]
        · cases hlocate

theorem readStored_of_agree (hsize : other.size = image.size)
    (hb : ∀ index, entry.Covers image index → byteAt other index = byteAt image index) :
    entry.readStored other other.size = entry.readStored image image.size := by
  rw [readStored_eq, readStored_eq, locate_of_agree hsize hb, hsize]
  cases hlocate : entry.locate image image.size with
  | error fault => rfl
  | ok here =>
    rw [ok_bind, ok_bind]
    split
    · rfl
    · rename_i hend
      have hoff := (locate_ok.mp hlocate).2.1
      have hin := Nat.le_of_not_lt hend
      have hslice : slice other here.dataOffset entry.storedSize.toNat =
          slice image here.dataOffset entry.storedSize.toNat := by
        refine slice_congr (hsize ▸ hin) hin fun index hfrom hto => ?_
        exact hb index ⟨by omega, .inr ⟨here, hlocate, hto⟩⟩
      rw [hslice]

/-- An image that agrees on what belongs to the entry gives the same reads. -/
theorem keptAs_of_agree [Codec.Coders] (hsize : other.size = image.size)
    (hb : ∀ index, entry.Covers image index → byteAt other index = byteAt image index)
    (index : Nat) : entry.KeptAs image other { entry with index := index } := by
  have hraw (before after : Archive) (hbefore : before.On image) (hafter : after.On other) :
      after.readRaw entry = before.readRaw entry := by
    simp only [Archive.readRaw, hbefore.image_eq, hafter.image_eq, hbefore.imageSize_eq,
      hafter.imageSize_eq, readStored_of_agree hsize hb]
  refine ⟨?_, hraw, ?_⟩
  · intro before after hbefore hafter
    have hlocate := locate_of_agree hsize hb
    show after.dataOffset entry = before.dataOffset entry
    simp only [Archive.dataOffset, hbefore.image_eq, hafter.image_eq, hbefore.imageSize_eq,
      hafter.imageSize_eq, hlocate]
  · intro before after hbefore hafter
    show after.readData entry = before.readData entry
    simp only [Archive.readData, Archive.whileOpen, hbefore.isClosed_eq, hafter.isClosed_eq,
      hraw before after hbefore hafter]

theorem StoredAt.covers {here : LocalEntry} {stored : ByteArray}
    (h : entry.StoredAt image here stored) {index : Nat} (hfrom : entry.localOffset.toNat ≤ index)
    (hto : index < entry.dataEnd here) : entry.Covers image index :=
  ⟨hfrom, .inr ⟨here, h.locate_eq, hto⟩⟩

theorem StoredAt.stop_of_covers {here : LocalEntry} {stored : ByteArray}
    (h : entry.StoredAt image here stored) {index : Nat} (hc : entry.Covers image index) :
    index < entry.dataEnd here := by
  have hdata := h.dataOffset_le
  have hend := h.dataOffset_le_dataEnd
  rcases hc.2 with hheader | ⟨there, hlocate, hlt⟩
  · omega
  · rw [dataEnd, (locate_ok.mp hlocate).2.1, ← h.dataOffset_eq] at hlt
    exact hlt

end

section
variable {image : ByteArray} {start stop : Nat} {entries : List Entry}

namespace Spread

theorem lt_stop_of_covers (h : Spread image stop start entries) {entry : Entry}
    (hmem : entry ∈ entries) {index : Nat} (hcovers : entry.Covers image index) : index < stop := by
  obtain ⟨here, stored, hentry, hend⟩ := h.faithful entry hmem
  exact Nat.lt_of_lt_of_le (hentry.stop_of_covers hcovers) hend

theorem eq_of_covers (h : Spread image stop start entries) {first second : Entry}
    (hfirst : first ∈ entries) (hsecond : second ∈ entries) {index : Nat}
    (hc : first.Covers image index) (hc' : second.Covers image index) : first = second := by
  -- The one in front ends before the other starts, so the order of the two does not matter.
  have happart : entries.Pairwise fun first second =>
      ¬ (first.Covers image index ∧ second.Covers image index) := by
    refine h.pairwise.imp_of_mem fun {first second} hfirst _ hends hboth => ?_
    obtain ⟨here, stored, hentry, -⟩ := h.faithful first hfirst
    have hstop := hentry.stop_of_covers hboth.1
    have hbehind := hends here stored hentry.toStoredAt
    have hstart := hboth.2.1
    omega
  have : Std.Symm fun first second : Entry =>
      ¬ (first.Covers image index ∧ second.Covers image index) :=
    ⟨fun _ _ hapart hboth => hapart hboth.symm⟩
  by_contra hne
  exact happart.forall hfirst hsecond hne ⟨hc, hc'⟩

theorem nodup (h : Spread image stop start entries) : entries.Nodup := by
  refine h.pairwise.imp_of_mem fun {first second} hfirst _ hends heq => ?_
  obtain ⟨here, stored, hentry, -⟩ := h.faithful first hfirst
  have hbehind := hends here stored hentry.toStoredAt
  have hdata := hentry.dataOffset_le
  have hend := hentry.dataOffset_le_dataEnd
  have hpos : 0 < LocalHeader.fixedSize := by decide
  rw [← heq] at hbehind
  omega

end Spread

end

theorem forall₂_numberFrom {related : Entry → Entry → Prop} {entries : List Entry}
    (h : ∀ entry ∈ entries, ∀ index, related entry { entry with index := index }) (first : Nat) :
    List.Forall₂ related entries (numberFrom first entries) := by
  induction entries generalizing first with
  | nil => exact .nil
  | cons entry rest ih =>
    rw [List.forall_mem_cons] at h
    exact .cons (h.1 first) (ih h.2 (first + 1))

end Entry

namespace Draft

section
variable {draft : Draft} {image : ByteArray}

theorem position?_eq_some {name : ByteArray} {position : Nat} :
    draft.position? name = some position ↔
      (∃ entry, draft.entries[position]? = some entry ∧ entry.name = name) ∧
        ∀ earlier < position, ∀ other, draft.entries[earlier]? = some other → other.name ≠ name := by
  rw [position?, Array.findIdx?_eq_some_iff_getElem]
  constructor
  · rintro ⟨hin, hname, hleast⟩
    refine ⟨⟨draft.entries[position], Array.getElem?_eq_getElem hin, eq_of_beq hname⟩, ?_⟩
    rintro earlier hlt other hother heq
    obtain ⟨hearlier, rfl⟩ := Array.getElem?_eq_some_iff.mp hother
    exact hleast earlier hlt (by rw [heq]; exact beq_self_eq_true name)
  · rintro ⟨⟨entry, hat, hname⟩, hleast⟩
    obtain ⟨hin, rfl⟩ := Array.getElem?_eq_some_iff.mp hat
    refine ⟨hin, by rw [hname]; exact beq_self_eq_true name, fun earlier hlt heq => ?_⟩
    exact hleast earlier hlt _ (Array.getElem?_eq_getElem (by omega)) (eq_of_beq heq)

theorem Laid.outside (h : draft.Laid image) {position : Nat} {entry : Entry} {here : LocalEntry}
    {stored : ByteArray} (hat : draft.entries[position]? = some entry)
    (hstored : entry.StoredAt image here stored) :
    ∀ other ∈ draft.entries.toList.eraseIdx position,
      other.Outside image entry.localOffset.toNat (entry.dataEnd here) := by
  rw [← Array.getElem?_toList] at hat
  obtain ⟨hin, rfl⟩ := List.getElem?_eq_some_iff.mp hat
  have hnodup := h.spread.nodup
  intro other hother index hfrom hto hcovers
  rw [← hnodup.erase_getElem position hin, hnodup.mem_erase_iff] at hother
  exact hother.1 (h.spread.eq_of_covers hother.2 (List.getElem_mem hin) hcovers
    (hstored.covers hfrom hto))

end

end Draft

namespace Writer

/-- A deletion in place removes the first entry with the name, and numbers the others again. Zeros
lie over its local header, its data and the descriptor that its flags announce; all other bytes and
the length of the image stay. Every other entry that has no byte there is read as before. After a
run that started anew and made no rebuild none of them has. -/
theorem eraseInPlace_exact [Codec.Coders] {draft : Draft} {image : ByteArray} {name : String}
    {writer : Writer} (h : eraseInPlace ⟨draft, some image⟩ name = (writer, .ok ())) :
    ∃ position entry here stored behind after,
      draft.entries[position]? = some entry ∧ entry.name = name.toUTF8 ∧
      (∀ earlier < position, ∀ other, draft.entries[earlier]? = some other →
        other.name ≠ name.toUTF8) ∧
      entry.readStored image image.size = .ok (here, stored) ∧
      entry.HasDescriptor image (entry.dataEnd here) behind ∧
      writer.image = some after ∧ after.size = image.size ∧
      (∀ index, byteAt after index =
        if entry.localOffset.toNat ≤ index ∧ index < entry.dataEnd here + behind then 0
        else byteAt image index) ∧
      writer.draft = { draft with entries := writer.draft.entries } ∧
      Entry.NumberedFrom 0 writer.draft.entries.toList ∧
      List.Forall₂ (fun old new => new = { old with index := new.index } ∧
          (old.Outside image entry.localOffset.toNat (entry.dataEnd here + behind) →
            old.KeptAs image after new))
        (draft.entries.toList.eraseIdx position) writer.draft.entries.toList ∧
      ((∃ operations, (∀ names, .rebuildWithout names ∉ operations) ∧
          fresh.after operations = ⟨draft, some image⟩) →
        ∀ old ∈ draft.entries.toList.eraseIdx position,
          old.Outside image entry.localOffset.toNat (entry.dataEnd here + behind)) := by
  obtain ⟨position, entry, start, count, hposition, hat, hextent, rfl⟩ := eraseInPlace_ok h
  obtain ⟨⟨first, hfirst, hname⟩, hleast⟩ := Draft.position?_eq_some.mp hposition
  obtain rfl : first = entry := Option.some.inj (hfirst.symm.trans hat)
  obtain ⟨here, stored, behind, hstored, rfl, hend, hfit, hbehind⟩ := Entry.extent_ok hextent
  have hsize : (zeroFill image first.localOffset.toNat count).size = image.size := size_zeroFill hfit
  have hbytes : ∀ index, byteAt (zeroFill image first.localOffset.toNat count) index =
      if first.localOffset.toNat ≤ index ∧ index < first.dataEnd here + behind then 0
      else byteAt image index := by
    intro index
    rw [byteAt_zeroFill_eq (by omega), hend]
  refine ⟨position, first, here, stored, behind, _, hat, hname, hleast,
    Entry.readStored_ok.mpr hstored, hbehind, rfl, hsize, hbytes, rfl, ?_, ?_, ?_⟩
  · rw [Draft.toList_remove]
    exact Entry.numberedFrom_numberFrom 0 _
  · rw [Draft.toList_remove]
    refine Entry.forall₂_numberFrom (fun old _ index => ⟨rfl, fun hout => ?_⟩) 0
    refine Entry.keptAs_of_agree hsize (fun place hcovers => ?_) index
    rw [hbytes, if_neg fun hin => hout place hin.1 hin.2 hcovers]
  · rintro ⟨operations, hno, hrun⟩
    have hreached := Reached.fresh.after (clearAlong_of_no_rebuild hno fresh)
    rw [hrun] at hreached
    have hlaid := hreached.laid image rfl
    rw [hlaid.no_descriptor hat hbehind, Nat.add_zero]
    exact hlaid.outside hat hstored

/-- The second of the two files goes with the twelve bytes that stand for its descriptor. -/
theorem eraseInPlace_exact_pair :
    ∃ writer after, eraseInPlace ⟨.goingOn pairDirectory, some pairImage⟩ "b" = (writer, .ok ()) ∧
      writer.image = some after ∧ after.size = 180 ∧
      (∀ index, byteAt after index =
        if 126 ≤ index ∧ index < 170 then 0 else byteAt pairImage index) ∧
      List.Forall₂ (Entry.KeptAs pairImage after) [(Parcel.letter 0 "a" 94 0).entry]
        writer.draft.entries.toList := by
  have hdone : (eraseInPlace ⟨.goingOn pairDirectory, some pairImage⟩ "b").2 = .ok () := by
    decide +kernel
  obtain ⟨position, entry, here, stored, behind, after, hat, hname, -, hread, hbehind, himage,
    hsize, hbytes, -, -, hothers, -⟩ := eraseInPlace_exact (Prod.ext rfl hdone)
  have hposition : position = 1 := by
    match position, hat with
    | 0, hat =>
      obtain rfl := Option.some.inj hat
      exact absurd hname (by decide)
    | 1, _ => rfl
    | _ + 2, hat => cases hat
  subst hposition
  obtain rfl : (Parcel.letter 1 "b" 126 Entry.descriptorFlag).entry = entry := Option.some.inj hat
  have hends : ∀ parcel ∈ pair, ∃ found bytes, parcel.entry.StoredAt pairImage found bytes ∧
      parcel.entry.dataEnd found = parcel.entry.localOffset.toNat + 32 := by
    have hcheck : ∀ parcel ∈ pair,
        (parcel.entry.readStored pairImage pairImage.size).toOption.map
          (fun found => parcel.entry.dataEnd found.1) =
            some (parcel.entry.localOffset.toNat + 32) := by
      decide +kernel
    intro parcel hparcel
    obtain ⟨⟨found, bytes⟩, hfound, hend⟩ := Option.map_eq_some_iff.mp (hcheck parcel hparcel)
    exact ⟨found, bytes, Entry.readStored_ok.mp (toOption_eq_some.mp hfound), hend⟩
  simp only [pair, List.forall_mem_cons] at hends
  obtain ⟨⟨_, _, hfirst, hfirstEnd⟩, ⟨_, _, hsecond, hsecondEnd⟩, -⟩ := hends
  have hend := (hsecond.dataEnd_unique (Entry.readStored_ok.mp hread)).trans hsecondEnd
  have htwelve : behind = 12 := by
    have hcheck : Entry.descriptorLength pairImage 158 = .ok 12 := by decide +kernel
    rw [Entry.HasDescriptor, if_neg (by decide), hend] at hbehind
    exact Except.ok.inj (hbehind.symm.trans hcheck)
  subst htwelve
  rw [hend] at hbytes hothers
  obtain ⟨new, rest, ⟨-, hkept⟩, hnil, hentries⟩ := List.forall₂_cons_left_iff.mp hothers
  refine ⟨_, after, Prod.ext rfl hdone, himage, hsize, hbytes, ?_⟩
  rw [hentries, List.forall₂_nil_left_iff.mp hnil]
  refine .cons (hkept fun index hfrom _ hcovers => ?_) .nil
  have hstop := hfirst.stop_of_covers hcovers
  rw [hfirstEnd] at hstop
  exact absurd hstop (Nat.not_lt_of_le hfrom)

end Writer

end ClassicZip
