import ClassicZip.Proofs.Archive.Locators
import ClassicZip.Proofs.Deletion.Copying

/-!
# Archives that are full

A writer takes as many entries as their count can say. To a reader the largest count asks for the
locator of a 64-bit archive, and where that would be the writer has put the end of the last listing.
So a full archive without a comment is opened unless its last listing looks like a locator there.
-/

namespace ClassicZip

open Bytes

namespace Entry

/-- Where a reader looks for a locator the last listing has the signature of one. -/
def EndInLocator (entries : List Entry) : Prop :=
  ∃ front last, entries = front ++ [last] ∧
    u32At last.directoryBytes (last.directoryBytes.size - EndRecord.locatorSize) =
      EndRecord.locatorSignature

theorem endInLocator_append {front : List Entry} {last : Entry} :
    EndInLocator (front ++ [last]) ↔
      u32At last.directoryBytes (last.directoryBytes.size - EndRecord.locatorSize) =
        EndRecord.locatorSignature := by
  constructor
  · rintro ⟨other, found, heq, hsig⟩
    obtain ⟨-, hlast⟩ := List.append_inj' heq rfl
    obtain rfl := List.singleton_inj.mp hlast
    exact hsig
  · exact fun hsig => ⟨front, last, rfl, hsig⟩

theorem size_listing_of_forall {entries : List Entry} {size : Nat}
    (h : ∀ entry ∈ entries, entry.directoryBytes.size = size) :
    (listing entries).size = entries.length * size := by
  induction entries with
  | nil => simp [listing]
  | cons entry rest ih =>
    rw [List.forall_mem_cons] at h
    simp only [listing, List.map_cons, concat_cons, ByteArray.size_append] at ih ⊢
    rw [ih h.2, h.1, List.length_cons, Nat.succ_mul, Nat.add_comm]

theorem u32At_directoryBytes {entry : Entry} (hextra : entry.extra = ByteArray.empty)
    (hcomment : entry.comment = ByteArray.empty)
    (hlong : EndRecord.locatorSize ≤ entry.name.size) :
    u32At entry.directoryBytes (entry.directoryBytes.size - EndRecord.locatorSize) =
      u32At entry.name (entry.name.size - EndRecord.locatorSize) := by
  have hbytes : entry.directoryBytes =
      le32 DirectoryHeader.signature ++ entry.directoryHeader.encode ++ entry.name := by
    rw [directoryBytes, hextra, hcomment, ByteArray.append_empty, ByteArray.append_empty]
  rw [hbytes, ByteArray.size_append, Nat.add_sub_assoc hlong,
    u32At_append_right (Nat.le_add_right _ _), Nat.add_sub_cancel_left]

end Entry

namespace Directory

theorem hasLocator_iff {image : ByteArray} (hfit : EndRecord.fixedSize ≤ image.size) :
    HasLocator image 0 ↔ EndRecord.LocatorAt image (image.size - EndRecord.fixedSize) := by
  obtain ⟨before, tail, rfl, htail, hbefore⟩ := exists_tailOf image
  rw [HasLocator, htail, EndRecord.hasLocatorBefore_iff hbefore]
  rw [ByteArray.size_append] at hfit hbefore ⊢
  have hplace : before.size + (tail.size - (EndRecord.fixedSize + 0)) =
      before.size + tail.size - EndRecord.fixedSize := by
    simp only [EndRecord.searchSpan, EndRecord.fixedSize, EndRecord.bodySize, maxLength] at *
    omega
  rw [hplace]
  refine and_iff_left_of_imp fun hlocator => ?_
  have hle := hlocator.1
  simp only [EndRecord.searchSpan, EndRecord.fixedSize, EndRecord.bodySize, EndRecord.locatorSize,
    maxLength] at *
  omega

theorem locatorAt_encode {entries : List Entry} {front : ByteArray} (hne : entries ≠ []) :
    EndRecord.LocatorAt (front ++ encode entries front.size ByteArray.empty)
        ((front ++ encode entries front.size ByteArray.empty).size - EndRecord.fixedSize) ↔
      Entry.EndInLocator entries := by
  obtain ⟨init, last, rfl⟩ := entries.eq_nil_or_concat'.resolve_left hne
  obtain ⟨ending, hending⟩ : ∃ ending, ending =
      (EndRecord.ofListing (init ++ [last]) front.size ByteArray.empty).ending ByteArray.empty :=
    ⟨_, rfl⟩
  have himage : front ++ encode (init ++ [last]) front.size ByteArray.empty =
      (front ++ Entry.listing init) ++ (last.directoryBytes ++ ending) := by
    rw [encode, Entry.listing_append, ← hending]
    simp [Entry.listing, ByteArray.append_assoc]
  have hsize := last.size_directoryBytes
  have hend : ending.size = EndRecord.fixedSize := by rw [hending, EndRecord.size_ending]; rfl
  have hlocator : EndRecord.locatorSize = 20 := rfl
  have hplace : ((front ++ Entry.listing init) ++ (last.directoryBytes ++ ending)).size -
      EndRecord.fixedSize - EndRecord.locatorSize = (front ++ Entry.listing init).size +
        (last.directoryBytes.size - EndRecord.locatorSize) := by
    simp only [ByteArray.size_append, hend]
    omega
  rw [himage, Entry.endInLocator_append, EndRecord.LocatorAt, hplace,
    u32At_append_right (Nat.le_add_right _ _), Nat.add_sub_cancel_left,
    u32At_append_left (by omega)]
  refine and_iff_right ?_
  simp only [ByteArray.size_append, hend]
  omega

/-- An archive without a comment is opened, unless it is full and its last listing looks like a
locator where a reader looks for one. -/
theorem read_encode_uncommented {entries : List Entry} {front : ByteArray}
    (hw : Writable entries ByteArray.empty) (hle : entries.length ≤ maxLength)
    (hsize : (front ++ encode entries front.size ByteArray.empty).size ≤ maxOffset) :
    (entries.length = maxLength ∧ Entry.EndInLocator entries →
      read (front ++ encode entries front.size ByteArray.empty) = .error (.oversize .endRecord)) ∧
    (¬(entries.length = maxLength ∧ Entry.EndInLocator entries) →
      read (front ++ encode entries front.size ByteArray.empty) =
        .ok ⟨entries.toArray, ByteArray.empty, front.size,
          (front ++ encode entries front.size ByteArray.empty).size⟩) := by
  have hlocator : entries.length = maxLength ∧
      HasLocator (front ++ encode entries front.size ByteArray.empty) 0 ↔
        entries.length = maxLength ∧ Entry.EndInLocator entries := by
    refine and_congr_right fun hfull => ?_
    have hne : entries ≠ [] := by
      rintro rfl
      cases hfull
    rw [hasLocator_iff, locatorAt_encode hne]
    rw [ByteArray.size_append, size_encode]
    omega
  have hread := read_encode_of_unrivalled hw hle hsize (EndRecord.unrivalled_zero _)
  rw [ByteArray.size_empty] at hread
  constructor
  · intro h
    rw [hread, if_pos (hlocator.mpr h)]
  · intro h
    rw [hread, if_neg fun hfull => h (hlocator.mp hfull)]

end Directory

-- ---------------------------------------------------------------------------
-- Sessions that only add
-- ---------------------------------------------------------------------------

namespace Call

theorem additions_map_add (additions : List Addition) :
    Call.additions (additions.map Call.add) = additions := by
  induction additions with
  | nil => rfl
  | cons addition rest ih => exact congrArg (addition :: ·) ih

theorem lastComment_map_add (comment : ByteArray) (additions : List Addition) :
    lastComment comment (additions.map Call.add) = comment := by
  induction additions with
  | nil => rfl
  | cons addition rest ih => exact ih

end Call

theorem Addition.bare_of_make [Codec.Coders] {addition : Addition} {made : Entry}
    {stored : ByteArray} (h : addition.make = .ok (made, stored)) :
    made.extra = ByteArray.empty ∧ made.comment = ByteArray.empty := by
  cases addition with
  | file name data options =>
    obtain ⟨-, -, -, rfl⟩ := Entry.ofFile_ok h
    exact ⟨rfl, rfl⟩
  | directory name options =>
    obtain ⟨rfl, -⟩ := Prod.mk.inj (Except.ok.inj h)
    exact ⟨rfl, rfl⟩

theorem Addition.Makes.bare [Codec.Coders] {addition : Addition} {entry : Entry}
    (h : addition.Makes entry) :
    entry.extra = ByteArray.empty ∧ entry.comment = ByteArray.empty := by
  obtain ⟨made, stored, hmake, hentry⟩ := h
  obtain ⟨hextra, hcomment⟩ := bare_of_make hmake
  rw [hentry]
  exact ⟨hextra, hcomment⟩

namespace Writer

theorem session_additions [Codec.Coders] (writer : Writer) (additions : List Addition) :
    ∃ done : List Addition, (writer.session (additions.map Call.add)).2 = done.map Call.add := by
  induction additions generalizing writer with
  | nil => exact ⟨[], rfl⟩
  | cons addition rest ih =>
    simp only [List.map_cons, session]
    split
    · exact ih _
    · rename_i next _
      obtain ⟨done, hdone⟩ := ih next
      exact ⟨addition :: done, congrArg (Call.add addition :: ·) hdone⟩

theorem run_additions [Codec.Coders] {additions : List Addition} {writer : Writer}
    (h : fresh.run (additions.map Call.add) = .ok writer) :
    ∃ draft image, writer = ⟨draft, some image⟩ ∧ draft.Sound image ∧
      draft.comment = ByteArray.empty ∧
      List.Forall₂ Addition.Makes additions draft.entries.toList := by
  obtain ⟨parcels, hgrown, hkept, hcomment⟩ := run_ok Draft.fits_empty h
  obtain ⟨draft, image⟩ := writer
  obtain rfl : image = _ := hgrown.image_eq
  rw [Call.lastComment_map_add] at hcomment
  rw [Call.additions_map_add] at hkept
  refine ⟨draft, _, rfl, hgrown.sound Draft.sound_empty, hcomment, ?_⟩
  rw [hgrown.entries_eq]
  exact List.forall₂_map_right_iff.mpr (hkept.imp fun _ _ hparcel => hparcel.makes)

/-- From a finished archive without a comment the reader gets the entries, unless it is full and its
last listing looks like a locator. -/
theorem read_uncommented {draft : Draft} {image bytes : ByteArray} (hd : draft.Sound image)
    (hcomment : draft.comment = ByteArray.empty)
    (hclose : toBytes ⟨draft, some image⟩ = .ok bytes) :
    (draft.entries.size = maxLength ∧ Entry.EndInLocator draft.entries.toList →
      Directory.read bytes = .error (.oversize .endRecord)) ∧
    (¬(draft.entries.size = maxLength ∧ Entry.EndInLocator draft.entries.toList) →
      ∃ directory, Directory.read bytes = .ok directory ∧ directory.entries = draft.entries) := by
  obtain ⟨hfew, hsize, rfl⟩ := hd.toBytes_ok.mp hclose
  have hw := hd.writable
  rw [hd.finished_eq, hcomment] at hsize ⊢
  rw [hcomment] at hw
  obtain ⟨hfull, hother⟩ := Directory.read_encode_uncommented hw hfew hsize
  exact ⟨hfull, fun h => ⟨_, hother h, rfl⟩⟩

/-- Whatever is added to a new writer, the finished archive is opened with the entries that the
writer had, unless it is full and its last listing has the signature of a locator where a reader
looks for one: then it is taken for a 64-bit archive. Of a long last name these are bytes of the
name. -/
theorem session_oversize_iff [Codec.Coders] {additions : List Addition} {writer : Writer}
    {done : List Call} {bytes : ByteArray}
    (hsession : fresh.session (additions.map Call.add) = (writer, done))
    (hclose : writer.toBytes = .ok bytes) :
    (Archive.ofBytes bytes = .error (.oversize .endRecord) ↔
      writer.draft.entries.size = maxLength ∧
        Entry.EndInLocator writer.draft.entries.toList) ∧
    (Archive.ofBytes bytes ≠ .error (.oversize .endRecord) →
      ∃ archive, Archive.ofBytes bytes = .ok archive ∧
        archive.entries = .ok writer.draft.entries) ∧
    ∀ front last, writer.draft.entries.toList = front ++ [last] →
      EndRecord.locatorSize ≤ last.name.size →
      (Entry.EndInLocator writer.draft.entries.toList ↔
        u32At last.name (last.name.size - EndRecord.locatorSize) = EndRecord.locatorSignature) := by
  obtain ⟨made, hmade⟩ := session_additions fresh additions
  have hrun := run_session fresh (additions.map Call.add)
  rw [hmade, hsession] at hrun
  obtain ⟨draft, image, rfl, hd, hcomment, hmakes⟩ := run_additions hrun
  obtain ⟨hfull, hother⟩ := read_uncommented hd hcomment hclose
  refine ⟨?_, ?_, ?_⟩
  · rw [Archive.ofBytes_eq_error]
    refine ⟨fun herror => ?_, hfull⟩
    refine Classical.byContradiction fun hnot => ?_
    obtain ⟨directory, hread, -⟩ := hother hnot
    rw [herror] at hread
    cases hread
  · rw [ne_eq, Archive.ofBytes_eq_error]
    intro hopens
    obtain ⟨directory, hread, hentries⟩ := hother fun h => hopens (hfull h)
    obtain ⟨hopen, hon⟩ := Archive.on_of_read hread
    exact ⟨_, hopen, by rw [hon.entries_eq, hentries]⟩
  · intro front last hlast hlong
    have hbare : last.extra = ByteArray.empty ∧ last.comment = ByteArray.empty := by
      have hmem : last ∈ draft.entries.toList := by
        rw [show draft.entries.toList = front ++ [last] from hlast]
        simp
      obtain ⟨addition, -, hadded⟩ := exists_of_forall₂ hmakes last hmem
      exact hadded.bare
    rw [hlast, Entry.endInLocator_append, Entry.u32At_directoryBytes hbare.1 hbare.2 hlong]

def letterAdditions : List Addition := [.file "a" ⟨#[120]⟩ { method := .store, modified := 0 }]

theorem session_oversize_iff_letter :
    ∃ bytes archive, (fresh.session (letterAdditions.map Call.add)).1.toBytes = .ok bytes ∧
      Archive.ofBytes bytes = .ok archive ∧
      archive.entries = .ok (fresh.session (letterAdditions.map Call.add)).1.draft.entries := by
  have hcheck : (fresh.session (letterAdditions.map Call.add)).1.toBytes.toOption.isSome = true ∧
      (fresh.session (letterAdditions.map Call.add)).1.draft.entries.size ≠ maxLength := by
    decide +kernel
  obtain ⟨hsome, hfew⟩ := hcheck
  obtain ⟨bytes, hbytes⟩ := Option.isSome_iff_exists.mp hsome
  have hclose := toOption_eq_some.mp hbytes
  obtain ⟨hiff, hopens, -⟩ := session_oversize_iff rfl hclose
  obtain ⟨archive, hopen, hentries⟩ := hopens fun h => hfew (hiff.mp h).1
  exact ⟨bytes, archive, hclose, hopen, hentries⟩

-- ---------------------------------------------------------------------------
-- The same addition, again and again
-- ---------------------------------------------------------------------------

theorem session_of_run [Codec.Coders] {writer next : Writer} {calls : List Call}
    (h : writer.run calls = .ok next) : writer.session calls = (next, calls) := by
  induction calls generalizing writer with
  | nil => exact congrArg (·, []) (Except.ok.inj h)
  | cons call rest ih =>
    simp only [run] at h
    split at h
    · cases h
    · rename_i middle hcall
      simp only [session, hcall, ih h]

theorem place_of_room {draft : Draft} {entry : Entry} {storedSize : Nat}
    (hname : entry.name.size ≤ maxLength) (hcount : draft.entries.size < maxLength)
    (hroom : draft.cursor + (LocalHeader.fixedSize + entry.name.size + storedSize) ≤ maxOffset) :
    draft.place entry ByteArray.empty 0 storedSize =
      .ok ⟨{ entry with
          index := draft.entries.size
          localOffset := UInt32.ofNat draft.cursor }, draft.cursor,
        Draft.headerBytes entry ByteArray.empty⟩ := by
  have hextra : draft.paddedExtra entry ByteArray.empty 0 = ByteArray.empty := rfl
  simp only [Draft.place, hextra, ByteArray.size_empty]
  rw [if_neg (by omega), if_neg (by omega), if_neg (by omega), if_neg (by omega)]

theorem run_replicate [Codec.Coders] {addition : Addition} {made : Entry} {stored : ByteArray}
    (hmake : addition.make = .ok (made, stored)) (halignment : addition.alignment = 0)
    (hname : made.name.size ≤ maxLength) (count : Nat) (draft : Draft) (image : ByteArray)
    (hcount : draft.entries.size + count ≤ maxLength)
    (hroom : draft.cursor + count * (LocalHeader.fixedSize + made.name.size + stored.size) ≤
      maxOffset) :
    ∃ next after, run ⟨draft, some image⟩ (List.replicate count (.add addition)) =
        .ok ⟨next, some after⟩ ∧
      next.cursor =
        draft.cursor + count * (LocalHeader.fixedSize + made.name.size + stored.size) := by
  induction count generalizing draft image with
  | zero => exact ⟨draft, image, rfl, by simp⟩
  | succ count ih =>
    -- The addition in front takes its share of the room; the rest is left for the others.
    rw [Nat.succ_mul] at hroom
    obtain ⟨placement, hplacement⟩ : ∃ placement, placement = Placement.mk
      { made with index := draft.entries.size, localOffset := UInt32.ofNat draft.cursor }
      draft.cursor (Draft.headerBytes made ByteArray.empty) := ⟨_, rfl⟩
    have hplace : draft.place made ByteArray.empty 0 stored.size = .ok placement := by
      rw [hplacement]
      exact place_of_room hname (by omega) (by omega)
    have hperform : perform ⟨draft, some image⟩ (.add addition) =
        (⟨draft.add placement stored.size, some (placement.write stored image)⟩, .ok ()) := by
      rw [Addition.perform_of_make _ hmake, halignment, push, hplace]
    have hcursor : (draft.add placement stored.size).cursor =
        draft.cursor + (LocalHeader.fixedSize + made.name.size + stored.size) := by
      rw [Draft.add, hplacement]
      simp only [Parcel.size_headerBytes, ByteArray.size_empty, Nat.add_zero, Nat.add_assoc]
    have hentries : (draft.add placement stored.size).entries.size = draft.entries.size + 1 :=
      Array.size_push _
    obtain ⟨next, after, hrun, hnext⟩ := ih (draft.add placement stored.size)
      (placement.write stored image) (by rw [hentries]; omega) (by rw [hcursor]; omega)
    refine ⟨next, after, ?_, ?_⟩
    · simp only [List.replicate_succ, run, hperform]
      exact hrun
    · rw [hnext, hcursor, Nat.succ_mul]
      omega

theorem run_replicate_like [Codec.Coders] {addition : Addition} {made : Entry} {stored : ByteArray}
    (hmake : addition.make = .ok (made, stored)) {count : Nat} {draft : Draft}
    (hmakes : List.Forall₂ Addition.Makes (List.replicate count addition) draft.entries.toList) :
    draft.entries.toList.length = count ∧ ∀ entry ∈ draft.entries.toList,
      entry.name = made.name ∧ entry.extra = ByteArray.empty ∧
        entry.comment = ByteArray.empty := by
  refine ⟨by rw [← hmakes.length_eq, List.length_replicate], fun entry hentry => ?_⟩
  obtain ⟨other, hother, hadded⟩ := exists_of_forall₂ hmakes entry hentry
  obtain rfl := List.eq_of_mem_replicate hother
  refine ⟨?_, hadded.bare⟩
  obtain ⟨found, _, hfound, hsame⟩ := hadded
  obtain ⟨rfl, -⟩ := Prod.mk.inj (Except.ok.inj (hmake.symm.trans hfound))
  rw [hsame]

theorem toBytes_of_room {draft : Draft} {image : ByteArray} (hd : draft.Sound image)
    (hcount : draft.entries.size ≤ maxLength)
    (hroom : draft.cursor + ((Entry.listing draft.entries.toList).size +
      (EndRecord.fixedSize + draft.comment.size)) ≤ maxOffset) :
    toBytes ⟨draft, some image⟩ = .ok (draft.finished image) := by
  obtain ⟨-, hstart, -⟩ := Draft.closingStart_spec hd.bodyEnd_le
  refine hd.toBytes_ok.mpr ⟨hcount, ?_, rfl⟩
  rw [Draft.size_finished hd.cursor_eq hd.bodyEnd_le, Directory.size_encode]
  omega

/-- A directory whose name begins with the signature of a locator, and is just as long as one. -/
def lookalike : Addition := .directory "PK\x06\x07aaaaaaaaaaaaaaa" { modified := 0 }

/-- A new archive full of such directories is taken for a 64-bit archive. -/
theorem session_oversize_lookalikes :
    ∃ (additions : List Addition) (writer : Writer) (done : List Call) (bytes : ByteArray),
      fresh.session (additions.map Call.add) = (writer, done) ∧ writer.toBytes = .ok bytes ∧
      Archive.ofBytes bytes = .error (.oversize .endRecord) := by
  obtain ⟨made, stored, hmake, hname, hstored, hsig⟩ : ∃ made stored,
      lookalike.make = .ok (made, stored) ∧ made.name.size = EndRecord.locatorSize ∧
        stored.size = 0 ∧ u32At made.name 0 = EndRecord.locatorSignature :=
    ⟨_, _, rfl, by decide, rfl, by decide⟩
  obtain ⟨next, after, hrun, hcursor⟩ := run_replicate hmake rfl (by rw [hname]; decide) maxLength
    Draft.empty ByteArray.empty (by decide) (by rw [hname, hstored]; decide)
  rw [← List.map_replicate] at hrun
  obtain ⟨draft, image, heq, hd, hcomment, hmakes⟩ := run_additions hrun
  obtain ⟨rfl, hafter⟩ := Writer.mk.inj heq
  obtain rfl := Option.some.inj hafter
  obtain ⟨hfull, hlike⟩ := run_replicate_like hmake hmakes
  have hlisting : (Entry.listing next.entries.toList).size = maxLength * 66 := by
    rw [← hfull]
    refine Entry.size_listing_of_forall fun entry hentry => ?_
    obtain ⟨hsame, hextra, hbare⟩ := hlike entry hentry
    rw [Entry.size_directoryBytes, hsame, hextra, hbare, hname]
    rfl
  have hlooks : Entry.EndInLocator next.entries.toList := by
    have hne : next.entries.toList ≠ [] := by
      intro hnil
      rw [hnil] at hfull
      cases hfull
    obtain ⟨front, last, hlast⟩ := next.entries.toList.eq_nil_or_concat'.resolve_left hne
    obtain ⟨hsame, hextra, hbare⟩ := hlike last (by rw [hlast]; simp)
    have hlong : EndRecord.locatorSize ≤ last.name.size :=
      Nat.le_of_eq (by rw [hsame, hname])
    rw [hlast, Entry.endInLocator_append, Entry.u32At_directoryBytes hextra hbare hlong, hsame,
      hname, Nat.sub_self, hsig]
  have hclose := toBytes_of_room hd (Nat.le_of_eq hfull) (by
    rw [hcursor, hname, hstored, hlisting, hcomment]
    decide)
  refine ⟨_, _, _, _, session_of_run hrun, hclose, Archive.ofBytes_eq_error.mpr ?_⟩
  exact (read_uncommented hd hcomment hclose).1 ⟨hfull, hlooks⟩

end Writer

end ClassicZip
