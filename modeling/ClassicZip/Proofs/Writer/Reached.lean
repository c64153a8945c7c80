import ClassicZip.Proofs.LocalEntry.Spread
import ClassicZip.Proofs.Writer.Soundness

/-!
# The entries of a writer are spread over its image

A draft is laid out when its entries are spread over the image in front of the room for its
directory. New writers are laid out, whatever is asked of a writer keeps it so, and so does
reopening what it finished. `Reached.laid_out` says what this means for each entry and for any two
of them.
-/

namespace ClassicZip

open Bytes

/-- The entries are spread over the image, and end before the directory may start. -/
structure Draft.Laid (draft : Draft) (image : ByteArray) : Prop extends draft.Sound image where
  spread : Entry.Spread image draft.bodyEnd 0 draft.entries.toList

def Writer.Laid (writer : Writer) : Prop :=
  ∀ image, writer.image = some image → writer.draft.Laid image

-- ---------------------------------------------------------------------------
-- No entry has a descriptor
-- ---------------------------------------------------------------------------

theorem Entry.flags_ofOptions (name : ByteArray) (options : EntryOptions) :
    (ofOptions name options).flags &&& descriptorFlag = 0 := by
  simp only [ofOptions]
  split <;> decide

theorem Addition.flags_of_make [Codec.Coders] {addition : Addition} {made : Entry}
    {stored : ByteArray} (h : addition.make = .ok (made, stored)) :
    made.flags &&& Entry.descriptorFlag = 0 := by
  cases addition with
  | file name data options =>
    obtain ⟨-, -, -, rfl⟩ := Entry.ofFile_ok h
    exact Entry.flags_ofOptions _ options
  | directory name options =>
    obtain ⟨rfl, -⟩ := Prod.mk.inj (Except.ok.inj h)
    exact Entry.flags_ofOptions _ { options with method := .store }

theorem Addition.KeptIn.flags_eq [Codec.Coders] {addition : Addition} {parcel : Parcel}
    (h : addition.KeptIn parcel) : parcel.entry.flags &&& Entry.descriptorFlag = 0 := by
  obtain ⟨made, hmake, hentry⟩ := h
  rw [hentry]
  have hflags := flags_of_make hmake
  exact hflags

theorem Entry.CopiedTo.flags_eq {source : ByteArray} {entry : Entry} {parcel : Parcel}
    (h : entry.CopiedTo source parcel) : parcel.entry.flags &&& descriptorFlag = 0 := by
  rw [h.entry_eq]
  show entry.flags &&& ~~~descriptorFlag &&& descriptorFlag = 0
  rw [UInt16.and_assoc, show ~~~descriptorFlag &&& descriptorFlag = 0 by decide, UInt16.and_zero]

theorem Parcel.flags_of_forall₂ {α : Type} {source : α → Parcel → Prop} {items : List α}
    {parcels : List Parcel}
    (hflags : ∀ item parcel, source item parcel → parcel.entry.flags &&& Entry.descriptorFlag = 0)
    (h : List.Forall₂ source items parcels) :
    ∀ parcel ∈ parcels, parcel.entry.flags &&& Entry.descriptorFlag = 0 := by
  intro parcel hparcel
  obtain ⟨item, -, hs⟩ := exists_of_forall₂ h parcel hparcel
  exact hflags item parcel hs

-- ---------------------------------------------------------------------------
-- Drafts
-- ---------------------------------------------------------------------------

namespace Draft

theorem laid_empty : Draft.empty.Laid ByteArray.empty where
  toSound := sound_empty
  spread := Nat.zero_le _

section
variable {draft : Draft} {image : ByteArray}

theorem bodyEnd_congr {other : Draft} (hcursor : other.cursor = draft.cursor)
    (hold : other.oldTrailer = draft.oldTrailer) : other.bodyEnd = draft.bodyEnd := by
  rw [bodyEnd, bodyEnd, hcursor, hold]

theorem Laid.no_descriptor (h : draft.Laid image) {position stop length : Nat} {entry : Entry}
    (hat : draft.entries[position]? = some entry)
    (hd : entry.HasDescriptor image stop length) : length = 0 := by
  obtain ⟨_, _, hfaithful, -⟩ := h.spread.faithful entry (Array.mem_of_getElem? hat).val
  rwa [Entry.HasDescriptor, if_pos hfaithful.flags_eq] at hd

theorem Laid.erase (h : draft.Laid image) {position start count : Nat} {entry : Entry}
    (hat : draft.entries[position]? = some entry)
    (hextent : entry.extent image = .ok (start, count)) :
    (draft.remove position).Laid (zeroFill image start count) := by
  obtain ⟨here, stored, behind, hstored, rfl, hend, hfit, hbehind⟩ := Entry.extent_ok hextent
  have hplain := h.no_descriptor hat hbehind
  rw [← Array.getElem?_toList] at hat
  refine ⟨h.toSound.remove hfit, ?_⟩
  rw [toList_remove, show (draft.remove position).bodyEnd = draft.bodyEnd from rfl]
  refine (h.spread.erase hat hstored (Nat.le_of_eq (size_zeroFill hfit).symm) ?_).numberFrom 0
  exact fun index hi => byteAt_zeroFill (by omega) (by omega)

theorem Laid.grown (h : draft.Laid image) {parcels : List Parcel} {writer : Writer}
    (hg : Writer.Grown draft image parcels writer)
    (hflags : ∀ parcel ∈ parcels, parcel.entry.flags &&& Entry.descriptorFlag = 0) :
    writer.draft.Laid (image ++ Parcel.pack parcels) := by
  have hcursor := hg.fits.cursor_eq
  rw [ByteArray.size_append] at hcursor
  refine ⟨hg.sound h.toSound, ?_⟩
  rw [hg.entries_eq]
  -- Only where something was added has the directory left the room of the old one.
  by_cases hnone : parcels = []
  · subst hnone
    have hsame : writer.draft.cursor = draft.cursor := by
      rw [hcursor, h.cursor_eq, Parcel.pack_nil, ByteArray.size_empty, Nat.add_zero]
    rw [bodyEnd_congr hsame hg.oldTrailer_eq]
    simpa using h.spread
  · have hpos := Parcel.size_pack_pos hnone
    have hbehind : writer.draft.bodyEnd = writer.draft.cursor := by
      refine bodyEnd_of_behind fun old hold => ?_
      rw [hg.oldTrailer_eq] at hold
      have hstop := h.stop_le old hold
      rw [h.cursor_eq] at hstop
      omega
    have hbody := h.bodyEnd_le
    rw [h.cursor_eq] at hbody
    have hfront : Entry.Spread (image ++ Parcel.pack parcels) draft.bodyEnd 0
        draft.entries.toList :=
      h.spread.of_agree (by simp) fun index _ hi =>
        byteAt_append_left (Nat.lt_of_lt_of_le hi hbody)
    have hback := hg.packed.spread hflags ByteArray.empty
    rw [ByteArray.append_empty] at hback
    rw [hbehind, hcursor]
    exact (hfront.later hbody).append hback

theorem Laid.finished (h : draft.Laid image) :
    Entry.Spread (draft.finished image) (draft.closingFront image).size 0 draft.entries.toList := by
  have hbody := h.bodyEnd_le
  obtain ⟨hfrom, -, -⟩ := closingStart_spec hbody
  rw [size_closingFront h.cursor_eq hbody]
  exact (h.spread.of_agree h.size_le_finished fun index _ hi =>
    byteAt_finished h.cursor_eq hbody hi).later hfrom

end

end Draft

-- ---------------------------------------------------------------------------
-- Archives that are read again
-- ---------------------------------------------------------------------------

namespace Writer

theorem laid_reread {entries : List Entry} {front comment : ByteArray} {writer : Writer}
    (hw : Directory.Writable entries comment)
    (hsize : (front ++ Directory.encode entries front.size comment).size ≤ maxOffset)
    (hr : Directory.Rereadable (front ++ Directory.encode entries front.size comment)
      entries.length comment.size)
    (hspread : Entry.Spread (front ++ Directory.encode entries front.size comment) front.size 0
      entries)
    (h : ofBytes (front ++ Directory.encode entries front.size comment) = .ok writer) :
    writer.Laid := by
  have hread := Directory.read_encode hw hr.1 hsize hr.2
  obtain rfl := Except.ok.inj ((ofBytes_of_read hread).symm.trans h)
  rintro _ ⟨rfl⟩
  refine ⟨Draft.sound_goingOn hread, ?_⟩
  rw [Draft.bodyEnd_goingOn]
  exact hspread

/-- A rebuild, if it comes to that, reads an archive in which the directory is sure to be found. -/
def Clear (writer : Writer) : Operation → Prop
  | .rebuildWithout names => writer.draft.missingName? names = none →
      ∀ image rebuilt, writer.image = some image →
      rebuiltImage writer.draft image names = .ok rebuilt →
      Directory.Rereadable rebuilt (writer.draft.survivors names).length writer.draft.comment.size
  | _ => True

theorem missingName?_of_rebuildWithout {draft : Draft} {source : ByteArray} {names : List String}
    {rebuilt : Writer} (h : rebuildWithout ⟨draft, some source⟩ names = (rebuilt, .ok ())) :
    draft.missingName? names = none := by
  simp only [rebuildWithout] at h
  split at h
  · cases h
  · assumption

theorem fresh_laid : fresh.Laid := by
  rintro _ ⟨rfl⟩
  exact Draft.laid_empty

theorem reopen_laid {writer next : Writer} {bytes : ByteArray} (h : writer.Laid)
    (hclose : writer.toBytes = .ok bytes)
    (hreread : Directory.Rereadable bytes writer.draft.entries.size writer.draft.comment.size)
    (hof : ofBytes bytes = .ok next) : next.Laid := by
  obtain ⟨draft, _ | image⟩ := writer
  · cases hclose
  · have hd : draft.Laid image := h image rfl
    obtain ⟨-, hsize, rfl⟩ := hd.toBytes_ok.mp hclose
    have hspread := hd.finished
    rw [hd.finished_eq] at hsize hreread hspread hof
    exact laid_reread hd.writable hsize hreread hspread hof

instance (writer : Writer) (operation : Operation) : Decidable (writer.Clear operation) :=
  match operation with
  | .call _ | .eraseInPlace _ | .close => .isTrue trivial
  | .rebuildWithout names =>
    match himage : writer.image with
    | none => .isTrue fun _ _ _ hsome => by rw [himage] at hsome; cases hsome
    | some image =>
      match hrebuilt : rebuiltImage writer.draft image names with
      | .error _ => .isTrue fun _ _ _ hsome hok => by
        obtain rfl := Option.some.inj (himage.symm.trans hsome)
        rw [hrebuilt] at hok
        cases hok
      | .ok rebuilt =>
        decidable_of_iff (writer.draft.missingName? names = none →
            Directory.Rereadable rebuilt (writer.draft.survivors names).length
              writer.draft.comment.size) (by
          constructor
          · intro h hnone _ _ hsome hok
            obtain rfl := Option.some.inj (himage.symm.trans hsome)
            obtain rfl := Except.ok.inj (hrebuilt.symm.trans hok)
            exact h hnone
          · intro h hnone
            exact h hnone image rebuilt himage hrebuilt)

section
variable [Codec.Coders]

/-- Writers that are new, or were asked for something, or took up what such a writer finished. -/
inductive Reached : Writer → Prop
  | fresh : Reached fresh
  | operate {writer : Writer} (operation : Operation) :
      Reached writer → writer.Clear operation → Reached (writer.operate operation).1
  | reopen {writer next : Writer} {bytes : ByteArray} :
      Reached writer → writer.toBytes = .ok bytes →
      Directory.Rereadable bytes writer.draft.entries.size writer.draft.comment.size →
      ofBytes bytes = .ok next → Reached next

def ClearAlong (writer : Writer) : List Operation → Prop
  | [] => True
  | operation :: rest => writer.Clear operation ∧ (writer.operate operation).1.ClearAlong rest

instance decidableClearAlong (writer : Writer) :
    (operations : List Operation) → Decidable (writer.ClearAlong operations)
  | [] => .isTrue trivial
  | operation :: rest =>
    have := decidableClearAlong (writer.operate operation).1 rest
    inferInstanceAs (Decidable (_ ∧ _))

theorem clearAlong_append {writer : Writer} {front back : List Operation} :
    writer.ClearAlong (front ++ back) ↔
      writer.ClearAlong front ∧ (writer.after front).ClearAlong back := by
  induction front generalizing writer with
  | nil => exact (iff_of_eq (true_and _)).symm
  | cons operation rest ih => exact (and_congr_right fun _ => ih).trans and_assoc.symm

theorem clearAlong_of_no_rebuild {operations : List Operation}
    (h : ∀ names, .rebuildWithout names ∉ operations) (writer : Writer) :
    writer.ClearAlong operations := by
  induction operations generalizing writer with
  | nil => trivial
  | cons operation rest ih =>
    refine ⟨?_, ih (fun names hmem => h names (List.mem_cons_of_mem _ hmem)) _⟩
    cases operation with
    | rebuildWithout names => exact absurd List.mem_cons_self (h names)
    | call call => trivial
    | eraseInPlace name => trivial
    | close => trivial

theorem Reached.after {writer : Writer} {operations : List Operation} (h : Reached writer)
    (hclear : writer.ClearAlong operations) : Reached (writer.after operations) := by
  induction operations generalizing writer with
  | nil => exact h
  | cons operation rest ih => exact ih (h.operate operation hclear.1) hclear.2

theorem operate_laid {writer : Writer} (h : writer.Laid) {operation : Operation}
    (hclear : writer.Clear operation) : (writer.operate operation).1.Laid := by
  obtain ⟨draft, _ | image⟩ := writer
  · rw [operate_closed]
    exact h
  have hd : draft.Laid image := h image rfl
  generalize hnext : operate ⟨draft, some image⟩ operation = after
  obtain ⟨next, fault | _⟩ := after
  · rw [operate_error hnext]
    exact h
  cases operation with
  | call call =>
    obtain ⟨parcels, hgrown, hkept⟩ := perform_ok hd.toFits hnext
    intro grown himage
    obtain rfl := Option.some.inj (hgrown.image_eq.symm.trans himage)
    exact hd.grown hgrown (Parcel.flags_of_forall₂ (fun _ _ => Addition.KeptIn.flags_eq) hkept)
  | eraseInPlace name =>
    obtain ⟨position, entry, start, count, -, hat, hextent, rfl⟩ := eraseInPlace_ok hnext
    rintro _ ⟨rfl⟩
    exact hd.erase hat hextent
  | rebuildWithout names =>
    obtain ⟨rebuilt, himage, hof⟩ := rebuildWithout_ok hnext
    have hreread := hclear (missingName?_of_rebuildWithout hnext) image rebuilt rfl himage
    obtain ⟨parcels, hcopied, hpacked, hw, rfl, hsize⟩ := rebuiltImage_ok hd.writable himage
    have hflags := Parcel.flags_of_forall₂ (fun _ _ => Entry.CopiedTo.flags_eq) hcopied
    rw [hcopied.length_eq, ← List.length_map (·.entry)] at hreread
    have hstart : Parcel.Packed ByteArray.empty.size parcels := hpacked
    have hspread := hstart.spread hflags
      (Directory.encode (parcels.map (·.entry)) (Parcel.pack parcels).size draft.comment)
    rw [ByteArray.empty_append, ByteArray.size_empty, Nat.zero_add] at hspread
    exact laid_reread hw hsize hreread hspread hof
  | close =>
    intro image' himage
    rw [image_of_close hnext] at himage
    cases himage

theorem Reached.laid {writer : Writer} (h : Reached writer) : writer.Laid := by
  induction h with
  | fresh => exact fresh_laid
  | operate operation _ hclear ih => exact operate_laid ih hclear
  | reopen _ hclose hreread hof ih => exact reopen_laid ih hclose hreread hof

/-- Of a writer that was started anew and asked for anything, also after its archives were taken up
again, the image ends at the cursor and the entries are numbered in their order. Each can be read
in front of the cursor, where a local header says the same as the entry, and ends before the next
one starts. -/
theorem Reached.laid_out {writer : Writer} {image : ByteArray} (h : Reached writer)
    (himage : writer.image = some image) :
    image.size = writer.draft.cursor ∧
      (∀ position (hp : position < writer.draft.entries.size),
        writer.draft.entries[position].index = position) ∧
      (∀ entry ∈ writer.draft.entries, ∃ here stored,
        entry.readStored image image.size = .ok (here, stored) ∧
          entry.FaithfulAt image here stored ∧ entry.dataEnd here ≤ writer.draft.cursor) ∧
      writer.draft.entries.toList.Pairwise fun first second => ∀ here stored,
        first.readStored image image.size = .ok (here, stored) →
          first.dataEnd here ≤ second.localOffset.toNat := by
  have hlaid := h.laid image himage
  refine ⟨hlaid.cursor_eq.symm, ?_, ?_, ?_⟩
  · intro position hp
    have hp' : position < writer.draft.entries.toList.length := by simpa using hp
    have hindex := hlaid.writable.numbered.index_eq hp'
    rwa [Array.getElem_toList, Nat.zero_add] at hindex
  · intro entry hentry
    obtain ⟨here, stored, hfaithful, hend⟩ := hlaid.spread.faithful entry hentry.val
    exact ⟨here, stored, Entry.readStored_ok.mpr hfaithful.toStoredAt, hfaithful,
      Nat.le_trans hend hlaid.bodyEnd_le⟩
  · refine hlaid.spread.pairwise.imp ?_
    intro first second hends here stored hread
    exact hends here stored (Entry.readStored_ok.mp hread)

end

def twoLetters : Writer := fresh.after [addLetter "a", addLetter "b"]

theorem Reached.laid_out_letters :
    ∃ bytes next image, (twoLetters.rebuildWithout ["b"]).1.toBytes = .ok bytes ∧
      ofBytes bytes = .ok next ∧ (next.operate (addLetter "c")).1.image = some image ∧
      image.size = (next.operate (addLetter "c")).1.draft.cursor ∧
      (next.operate (addLetter "c")).1.draft.entries.size = 2 ∧
      ∀ entry ∈ (next.operate (addLetter "c")).1.draft.entries, ∃ here stored,
        entry.FaithfulAt image here stored := by
  have hletters : Reached twoLetters :=
    Reached.fresh |>.operate (addLetter "a") trivial |>.operate (addLetter "b") trivial
  have hclear : twoLetters.Clear (.rebuildWithout ["b"]) := by
    have hcheck : (twoLetters.image.bind fun image =>
        (rebuiltImage twoLetters.draft image ["b"]).toOption.map fun rebuilt =>
          decide (Directory.Rereadable rebuilt (twoLetters.draft.survivors ["b"]).length
            twoLetters.draft.comment.size)) = some true := by
      decide +kernel
    intro _ image rebuilt himage hrebuilt
    rw [himage, Option.bind_some, hrebuilt] at hcheck
    exact of_decide_eq_true (Option.some.inj hcheck)
  have hcheck : ((twoLetters.rebuildWithout ["b"]).1.toBytes.toOption.bind fun bytes =>
      (ofBytes bytes).toOption.bind fun next =>
        (next.operate (addLetter "c")).1.image.map fun _ =>
          decide (Directory.Rereadable bytes
              (twoLetters.rebuildWithout ["b"]).1.draft.entries.size
              (twoLetters.rebuildWithout ["b"]).1.draft.comment.size ∧
            (next.operate (addLetter "c")).1.draft.entries.size = 2)) = some true := by
    decide +kernel
  simp only [Option.bind_eq_some_iff, Option.map_eq_some_iff, toOption_eq_some,
    decide_eq_true_eq] at hcheck
  obtain ⟨bytes, hclose, next, hof, image, himage, hreread, hsize⟩ := hcheck
  have hreached := (hletters.operate _ hclear).reopen hclose hreread hof
  obtain ⟨hcursor, -, heach, -⟩ := (hreached.operate (addLetter "c") trivial).laid_out himage
  refine ⟨bytes, next, image, hclose, hof, himage, hcursor, hsize, fun entry hentry => ?_⟩
  obtain ⟨here, stored, -, hfaithful, -⟩ := heach entry hentry
  exact ⟨here, stored, hfaithful⟩

end Writer

end ClassicZip
