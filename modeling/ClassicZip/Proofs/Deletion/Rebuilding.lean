import Mathlib.Data.List.Forall2
import ClassicZip.Deletion
import ClassicZip.Proofs.Extra.Renewing
import ClassicZip.Proofs.Writer.Reclosing

/-!
# A rebuilt archive keeps the survivors

A rebuild copies each entry that stays: same stored bytes, same listing but for its place and the
mark of a descriptor. The copies lie back to back, the directory follows, and nothing else is in the
new archive.
-/

namespace ClassicZip

open Bytes

-- ---------------------------------------------------------------------------
-- Copies
-- ---------------------------------------------------------------------------

/-- The parcel holds what the image stores for the entry. Its entry differs in its place, and no
descriptor follows. -/
structure Entry.CopiedTo (source : ByteArray) (entry : Entry) (parcel : Parcel) : Prop where
  entry_eq : parcel.entry = { entry.withoutDescriptor with
    index := parcel.entry.index
    localOffset := parcel.entry.localOffset }
  storedAt : ∃ here, entry.StoredAt source here parcel.stored

/-- The parcel is such a copy, with the extra field that a copy gets. -/
structure Entry.RenewedTo (source : ByteArray) (entry : Entry) (parcel : Parcel) : Prop
    extends entry.CopiedTo source parcel where
  renewed : ∀ here stored, entry.StoredAt source here stored →
    Alignment.Renewed here.extra parcel.extra

theorem Draft.paddedExtra_renewed {draft : Draft} {entry : Entry} {extra : ByteArray}
    (hfit : (draft.paddedExtra entry (Alignment.strip extra)
      ((Alignment.find? extra).getD 0)).size ≤ maxLength) :
    Alignment.Renewed extra
      (draft.paddedExtra entry (Alignment.strip extra) ((Alignment.find? extra).getD 0)) := by
  cases hfind : Alignment.find? extra with
  | none => exact .unaligned hfind
  | some alignment =>
    have hpower := Alignment.isPowerOfTwo_of_find? hfind
    rw [hfind, Option.getD_some, paddedExtra,
      if_neg (Alignment.ne_zero_of_isPowerOfTwo hpower)] at hfit
    rw [Option.getD_some, paddedExtra, if_neg (Alignment.ne_zero_of_isPowerOfTwo hpower)]
    dsimp only at hfit ⊢
    refine .aligned _ hfind ?_
    rw [ByteArray.size_append, Alignment.size_block, Alignment.blockHead] at hfit
    omega

theorem Draft.fits_staged {comment : ByteArray} (h : comment.size ≤ maxLength) :
    ({ Draft.empty with comment := comment } : Draft).Fits ByteArray.empty where
  writable := ⟨fits_empty.writable.listable, fits_empty.writable.numbered, h⟩
  cursor_eq := rfl

namespace Writer

theorem size_of_storedAt {source stored : ByteArray} {entry : Entry} {here : LocalEntry}
    (h : entry.StoredAt source here stored) : entry.storedSize.toNat = stored.size := by
  rw [h.stored_eq, size_slice h.dataEnd_le]

theorem copyEntries_ok {source : ByteArray} {entries : List Entry} {draft : Draft}
    {image : ByteArray} {writer : Writer} (hf : draft.Fits image)
    (hl : ∀ entry ∈ entries, entry.Listable)
    (h : copyEntries source entries ⟨draft, some image⟩ = .ok writer) :
    ∃ parcels, Grown draft image parcels writer ∧
      List.Forall₂ (Entry.RenewedTo source) entries parcels ∧
      writer.draft.comment = draft.comment := by
  induction entries generalizing draft image with
  | nil =>
    obtain rfl := Except.ok.inj h
    exact ⟨[], .refl hf, .nil, rfl⟩
  | cons entry rest ih =>
    rw [List.forall_mem_cons] at hl
    simp only [copyEntries] at h
    split at h
    · cases h
    · rename_i here stored hread
      have hstored := Entry.readStored_ok.mp hread
      split at h
      · cases h
      · rename_i next hpush
        obtain ⟨middle, image'⟩ := next
        have hlist : entry.withoutDescriptor.Listable :=
          ⟨hl.1.name_le, hl.1.extra_le, hl.1.comment_le, hl.1.method_eq⟩
        have hsize : entry.storedSize.toNat = stored.size := size_of_storedAt hstored
        obtain ⟨hgrown, hcomment⟩ := push_ok hf (fun _ => hlist) hsize hpush
        obtain rfl : image' = _ := hgrown.image_eq
        obtain ⟨parcels, hrest, hcopied, hlast⟩ := ih hgrown.fits hl.2 h
        have hrenewed := Draft.paddedExtra_renewed hgrown.packed.1.extra_le
        refine ⟨_, hgrown.trans hrest, .cons ⟨⟨rfl, here, hstored⟩, ?_⟩ hcopied,
          hlast.trans hcomment⟩
        intro there bytes hthere
        have hsame := hread.symm.trans (Entry.readStored_ok.mpr hthere)
        obtain ⟨rfl, -⟩ := Prod.mk.inj (Except.ok.inj hsame)
        exact hrenewed

theorem rebuiltImage_renewed {draft : Draft} {source bytes : ByteArray} {names : List String}
    (hw : Directory.Writable draft.entries.toList draft.comment)
    (h : rebuiltImage draft source names = .ok bytes) :
    ∃ parcels, List.Forall₂ (Entry.RenewedTo source) (draft.survivors names) parcels ∧
      Parcel.Packed 0 parcels ∧
      Directory.Writable (parcels.map (·.entry)) draft.comment ∧
      (parcels.map (·.entry)).length ≤ maxLength ∧
      bytes = Parcel.pack parcels ++ Directory.encode (parcels.map (·.entry))
        (Parcel.pack parcels).size draft.comment ∧
      bytes.size ≤ maxOffset := by
  unfold rebuiltImage at h
  dsimp only at h
  split at h
  · cases h
  · rename_i staged hcopy
    have hf := Draft.fits_staged hw.comment_le
    have hl : ∀ entry ∈ draft.survivors names, entry.Listable := fun entry he =>
      hw.listable entry (List.mem_of_mem_filter he)
    obtain ⟨parcels, hgrown, hcopied, hcomment⟩ := copyEntries_ok hf hl hcopy
    obtain ⟨final, rfl⟩ :
        ∃ final, staged = ⟨final, some (ByteArray.empty ++ Parcel.pack parcels)⟩ :=
      ⟨staged.draft, by rw [← hgrown.image_eq]⟩
    have hbehind : ∀ old, final.oldTrailer = some old → final.cursor ≠ old.stop := by
      intro old hold
      rw [hgrown.oldTrailer_eq] at hold
      cases hold
    obtain ⟨hmany, -, -⟩ := (toBytes_ok hgrown.fits.cursor_eq
      (Nat.le_of_eq (Draft.bodyEnd_of_behind hbehind))).mp h
    obtain ⟨hbytes, hsize⟩ := toBytes_appends hgrown.fits hbehind h
    have hentries : final.entries.toList = parcels.map (·.entry) := by
      simpa [Draft.empty] using hgrown.entries_eq
    have hfits := hgrown.fits.writable
    dsimp only at hcomment hfits
    rw [hentries, hcomment] at hfits
    rw [← Array.length_toList, hentries] at hmany
    rw [hentries, hcomment, ByteArray.empty_append] at hbytes
    exact ⟨parcels, hcopied, hgrown.packed, hfits, hmany, hbytes, hsize⟩

theorem rebuiltImage_ok {draft : Draft} {source bytes : ByteArray} {names : List String}
    (hw : Directory.Writable draft.entries.toList draft.comment)
    (h : rebuiltImage draft source names = .ok bytes) :
    ∃ parcels, List.Forall₂ (Entry.CopiedTo source) (draft.survivors names) parcels ∧
      Parcel.Packed 0 parcels ∧
      Directory.Writable (parcels.map (·.entry)) draft.comment ∧
      bytes = Parcel.pack parcels ++ Directory.encode (parcels.map (·.entry))
        (Parcel.pack parcels).size draft.comment ∧
      bytes.size ≤ maxOffset := by
  obtain ⟨parcels, hrenewed, hpacked, hwritable, -, hbytes⟩ := rebuiltImage_renewed hw h
  exact ⟨parcels, hrenewed.imp fun _ _ hcopy => hcopy.toCopiedTo, hpacked, hwritable, hbytes⟩

theorem rebuildWithout_ok {draft : Draft} {source : ByteArray} {names : List String}
    {rebuilt : Writer} (h : rebuildWithout ⟨draft, some source⟩ names = (rebuilt, .ok ())) :
    ∃ bytes, rebuiltImage draft source names = .ok bytes ∧ ofBytes bytes = .ok rebuilt := by
  simp only [rebuildWithout] at h
  split at h
  · cases h
  · split at h
    · cases h
    · rename_i bytes hbytes
      split at h
      · cases h
      · rename_i writer hwriter
        obtain ⟨rfl, -⟩ := Prod.mk.inj h
        exact ⟨bytes, hbytes, hwriter⟩

end Writer

-- ---------------------------------------------------------------------------
-- The rebuilt archive
-- ---------------------------------------------------------------------------

theorem Draft.survivors_eq (draft : Draft) (names : List String) :
    draft.survivors names =
      draft.entries.toList.filter fun entry : Entry => entry.name ∉ names.map String.toUTF8 := by
  rw [survivors]
  congr 1
  funext entry
  rw [decide_not, List.contains_eq_mem]

section
variable [Codec.Coders]

/-- The entry is in the new archive what it was in the old one, where the parcel holds it now. -/
structure Entry.Survives (old new : Archive) (entry : Entry) (parcel : Parcel) : Prop where
  entry_eq : parcel.entry = { entry with
    index := parcel.entry.index
    localOffset := parcel.entry.localOffset
    flags := entry.flags &&& ~~~Entry.descriptorFlag }
  old_raw : old.readRaw entry = .ok parcel.stored
  new_raw : new.readRaw parcel.entry = .ok parcel.stored
  data_eq : new.readData parcel.entry = old.readData entry

theorem Entry.CopiedTo.survives {old new : Archive} {source image : ByteArray} {entry : Entry}
    {parcel : Parcel} (h : entry.CopiedTo source parcel) (hold : old.On source) (hnew : new.On image)
    (hraw : new.readRaw parcel.entry = .ok parcel.stored) : entry.Survives old new parcel where
  entry_eq := h.entry_eq
  old_raw := hold.readRaw_ok.mpr h.storedAt
  new_raw := hraw
  data_eq := by
    rw [hnew.readData_eq hraw, hold.readData_eq (hold.readRaw_ok.mpr h.storedAt), h.entry_eq]
    rfl

theorem Entry.Survives.of_copies {old new : Archive} {source image : ByteArray}
    {entries : List Entry} {parcels : List Parcel}
    (hcopied : List.Forall₂ (CopiedTo source) entries parcels) (hold : old.On source)
    (hnew : new.On image)
    (hraw : ∀ parcel ∈ parcels, new.readRaw parcel.entry = .ok parcel.stored) :
    List.Forall₂ (Survives old new) entries parcels := by
  induction hcopied with
  | nil => exact .nil
  | cons hcopy _ ih =>
    rw [List.forall_mem_cons] at hraw
    exact .cons (hcopy.survives hold hnew hraw.1) (ih hraw.2)

end

namespace Writer

/-- Where a rebuild succeeds, closing changes nothing more, and the archive can be opened. It holds
the survivors one behind the other and the directory, with the comment of the old one. Every
survivor has kept its stored bytes, what is read of it, and its listing but for place and flag. -/
theorem rebuildWithout_reopened [Codec.Coders] {image bytes : ByteArray} {start rebuilt : Writer}
    {names : List String} (hstart : ofBytes image = .ok start)
    (hrebuild : start.rebuildWithout names = (rebuilt, .ok ()))
    (hbytes : rebuilt.image = some bytes)
    (hfew : (start.draft.survivors names).length < maxLength)
    (hs : EndRecord.SoleSignature bytes start.draft.comment.size) :
    rebuilt.toBytes = .ok bytes ∧
      ∃ archive parcels, Archive.ofBytes bytes = .ok archive ∧
        archive.entries = .ok (parcels.map Parcel.entry).toArray ∧
        Entry.NumberedFrom 0 (parcels.map Parcel.entry) ∧
        archive.comment = .ok start.draft.comment ∧
        Parcel.Packed 0 parcels ∧
        bytes = Parcel.pack parcels ++ Directory.encode (parcels.map Parcel.entry)
          (Parcel.pack parcels).size start.draft.comment ∧
        ((image = ByteArray.empty ∧ start = fresh ∧ parcels = []) ∨
          ∃ old, Archive.ofBytes image = .ok old ∧
            old.entries = .ok start.draft.entries ∧ old.comment = .ok start.draft.comment ∧
            List.Forall₂ (Entry.Survives old archive)
              (start.draft.entries.toList.filter fun entry : Entry =>
                entry.name ∉ names.map String.toUTF8) parcels) := by
  obtain ⟨draft, rfl, hf⟩ := ofBytes_fits hstart
  obtain ⟨bytes, hrebuilt, hof⟩ := rebuildWithout_ok hrebuild
  obtain ⟨_, rfl, -⟩ := ofBytes_fits hof
  obtain rfl := Option.some.inj hbytes
  obtain ⟨parcels, hcopied, hpacked, hwritable, hlayout, hsize⟩ := rebuiltImage_ok hf.writable hrebuilt
  have hfew : (parcels.map Parcel.entry).length < maxLength := by
    rwa [List.length_map, ← hcopied.length_eq]
  subst hlayout
  have hread := Directory.read_encode hwritable hfew hsize hs
  obtain ⟨hopen, hon⟩ := Archive.on_of_read hread
  have hclose := toBytes_goingOn_of_le hread (Nat.le_of_lt hfew) hsize
  rw [ofBytes_of_read hread] at hof
  rw [Directory.rewritten_encode, Except.ok.inj hof] at hclose
  refine ⟨hclose, _, parcels, hopen, hon.entries_eq, hwritable.numbered, hon.comment_eq, hpacked,
    rfl, ?_⟩
  rcases ofBytes_ok hstart with ⟨rfl, hfresh⟩ | ⟨directory, hold, hdraft⟩
  · refine .inl ⟨rfl, hfresh, ?_⟩
    obtain ⟨rfl, -⟩ := Writer.mk.inj hfresh
    exact List.forall₂_nil_left_iff.mp hcopied
  · obtain ⟨rfl, -⟩ := Writer.mk.inj hdraft
    obtain ⟨hopenOld, honOld⟩ := Archive.on_of_read hold
    rw [Draft.survivors_eq] at hcopied
    exact .inr ⟨_, hopenOld, honOld.entries_eq, honOld.comment_eq,
      Entry.Survives.of_copies hcopied honOld hon (hpacked.readRaw_start hon)⟩

/-- Two files behind their directory, of which the second announces a descriptor. -/
def pair : List Parcel := [.letter 0 "a" 94 0, .letter 1 "b" 126 Entry.descriptorFlag]

def pairImage : ByteArray := Parcel.behindDirectory pair ByteArray.empty

def pairDirectory : Directory where
  entries := (pair.map Parcel.entry).toArray
  comment := ByteArray.empty
  offset := 0
  imageSize := 180

theorem read_pairImage : Directory.read pairImage = .ok pairDirectory := by
  decide +kernel

theorem rebuildWithout_reopened_pair :
    ∃ start rebuilt bytes archive parcels old, ofBytes pairImage = .ok start ∧
      start.rebuildWithout ["a"] = (rebuilt, .ok ()) ∧ rebuilt.toBytes = .ok bytes ∧
      Archive.ofBytes bytes = .ok archive ∧
      archive.entries = .ok (parcels.map Parcel.entry).toArray ∧
      Archive.ofBytes pairImage = .ok old ∧
      List.Forall₂ (Entry.Survives old archive) ((pair.drop 1).map Parcel.entry) parcels := by
  have hstart := ofBytes_of_read read_pairImage
  have hdone : (rebuildWithout ⟨.goingOn pairDirectory, some pairImage⟩ ["a"]).2 = .ok () := by
    decide +kernel
  have hcheck : (rebuildWithout ⟨.goingOn pairDirectory, some pairImage⟩ ["a"]).1.image.map
      (fun bytes => decide (EndRecord.SoleSignature bytes 0)) = some true := by
    decide +kernel
  simp only [Option.map_eq_some_iff, decide_eq_true_eq] at hcheck
  obtain ⟨bytes, hbytes, hs⟩ := hcheck
  obtain ⟨hclose, archive, parcels, hopen, hentries, -, -, -, -, hsurvive⟩ :=
    rebuildWithout_reopened hstart (Prod.ext rfl hdone) hbytes (by decide +kernel) hs
  rcases hsurvive with ⟨hempty, -⟩ | ⟨old, hold, -, -, hsurvive⟩
  · exact absurd hempty (by decide +kernel)
  · exact ⟨_, _, bytes, archive, parcels, old, hstart, Prod.ext rfl hdone, hclose, hopen, hentries,
      hold, hsurvive⟩

end Writer

end ClassicZip
