import ClassicZip.Proofs.Deletion.Copying

/-!
# Rebuilds compose

A rebuild settles all that a later one looks at: the stored bytes, the alignment and the other
blocks of each extra field. So a rebuild of a rebuilt archive copies just what a single rebuild of
the first archive would have copied, though every offset and every padding has changed in between.
-/

namespace ClassicZip

open Bytes

/-- A copy of `twin` from the image is a copy of `entry` from the source: the stored bytes, the
recorded alignment and the other blocks of the extra field are the same. -/
structure Entry.CopiesAs (source : ByteArray) (entry : Entry) (image : ByteArray) (twin : Entry) :
    Prop where
  entry_eq : twin.withoutDescriptor = { entry.withoutDescriptor with
    index := twin.index
    localOffset := twin.localOffset }
  storedAt : ∃ here there stored, entry.StoredAt source here stored ∧
    twin.StoredAt image there stored ∧ Alignment.Renewed here.extra there.extra

theorem Entry.RenewedTo.copiesAs {source image : ByteArray} {entry : Entry} {parcel : Parcel}
    {there : LocalEntry} (h : entry.RenewedTo source parcel)
    (hthere : parcel.entry.StoredAt image there parcel.stored)
    (hextra : there.extra = parcel.extra) : entry.CopiesAs source image parcel.entry where
  entry_eq := by
    rw [h.entry_eq]
    simp only [withoutDescriptor, UInt16.and_assoc, UInt16.and_self]
  storedAt := by
    obtain ⟨here, hhere⟩ := h.storedAt
    exact ⟨here, there, _, hhere, hthere, hextra ▸ h.renewed here _ hhere⟩

theorem Entry.CopiesAs.name_eq {source image : ByteArray} {entry twin : Entry}
    (h : entry.CopiesAs source image twin) : twin.name = entry.name := by
  have hname := congrArg Entry.name h.entry_eq
  exact hname

theorem Draft.survivors_append_eq (draft : Draft) (names more : List String) :
    draft.survivors (names ++ more) =
      (draft.survivors names).filter fun entry : Entry => entry.name ∉ more.map String.toUTF8 := by
  rw [survivors_eq, survivors_eq, List.filter_filter]
  congr 1
  funext entry
  rw [← Bool.decide_and, decide_eq_decide, List.map_append, List.mem_append, not_or, and_comm]

theorem Draft.survivors_append {draft other : Draft} {source image : ByteArray}
    {names : List String}
    (h : List.Forall₂ (Entry.CopiesAs source · image) (draft.survivors names) other.entries.toList)
    (more : List String) :
    List.Forall₂ (Entry.CopiesAs source · image) (draft.survivors (names ++ more))
      (other.survivors more) := by
  rw [survivors_append_eq, survivors_eq other]
  refine List.rel_filter ?_ h
  intro entry twin halike
  simp only [halike.name_eq]

theorem Draft.missingName?_eq_none {draft : Draft} {names : List String} :
    draft.missingName? names = none ↔
      ∀ name ∈ names, ∃ entry ∈ draft.entries.toList, entry.name = name.toUTF8 := by
  simp only [missingName?, position?, List.find?_eq_none, Option.isNone_iff_eq_none,
    Array.findIdx?_eq_none_iff, beq_eq_false_iff_ne, not_forall, not_not, Array.mem_toList_iff,
    exists_prop]

theorem Draft.missingName?_append {draft other : Draft} {source image : ByteArray}
    {names more : List String}
    (h : List.Forall₂ (Entry.CopiesAs source · image) (draft.survivors names) other.entries.toList)
    (hnames : draft.missingName? names = none) (hmore : other.missingName? more = none) :
    draft.missingName? (names ++ more) = none := by
  rw [missingName?_eq_none] at hnames hmore ⊢
  rw [List.forall_mem_append]
  refine ⟨hnames, fun name hname => ?_⟩
  obtain ⟨twin, htwin, hcalled⟩ := hmore name hname
  obtain ⟨entry, hentry, halike⟩ := exists_of_forall₂ h twin htwin
  exact ⟨entry, (List.mem_filter.mp hentry).1, halike.name_eq.symm.trans hcalled⟩

namespace Writer

theorem copyEntries_eq {source image : ByteArray} {entries twins : List Entry}
    (h : List.Forall₂ (Entry.CopiesAs source · image) entries twins) (writer : Writer) :
    copyEntries image twins writer = copyEntries source entries writer := by
  induction h generalizing writer with
  | nil => rfl
  | @cons entry twin entries twins halike _ ih =>
    obtain ⟨here, there, stored, hhere, hthere, hrenewed⟩ := halike.storedAt
    simp only [copyEntries, Entry.readStored_ok.mpr hhere, Entry.readStored_ok.mpr hthere,
      hrenewed.find?_eq, hrenewed.strip_eq, halike.entry_eq, push_placed]
    split
    · rfl
    · exact ih _

/-- A rebuild of what a rebuild made comes to a rebuild without the names of both. -/
theorem rebuiltImage_append {draft other : Draft} {source image : ByteArray} {names : List String}
    (hcomment : other.comment = draft.comment)
    (h : List.Forall₂ (Entry.CopiesAs source · image) (draft.survivors names) other.entries.toList)
    (more : List String) :
    rebuiltImage other image more = rebuiltImage draft source (names ++ more) := by
  simp only [rebuiltImage, hcomment, copyEntries_eq (Draft.survivors_append h more)]

/-- Where the directory is sure to be found, a rebuilt archive is read as copies of the survivors,
and is closed as it is. -/
theorem rebuiltImage_reread {draft : Draft} {source bytes : ByteArray} {names : List String}
    (hw : Directory.Writable draft.entries.toList draft.comment)
    (h : rebuiltImage draft source names = .ok bytes)
    (hreread : Directory.Rereadable bytes (draft.survivors names).length draft.comment.size) :
    ∃ directory, Directory.read bytes = .ok directory ∧ directory.comment = draft.comment ∧
      List.Forall₂ (Entry.CopiesAs source · bytes) (draft.survivors names)
        directory.entries.toList ∧
      toBytes ⟨.goingOn directory, some bytes⟩ = .ok bytes := by
  obtain ⟨parcels, hrenewed, hpacked, hwritable, -, rfl, hsize⟩ := rebuiltImage_renewed hw h
  rw [hrenewed.length_eq, ← List.length_map (·.entry)] at hreread
  have hread := Directory.read_encode hwritable hreread.1 hsize hreread.2
  have hclose := toBytes_goingOn_of_le hread (Nat.le_of_lt hreread.1) hsize
  rw [Directory.rewritten_encode] at hclose
  refine ⟨_, hread, rfl, ?_, hclose⟩
  have hstart : Parcel.Packed ByteArray.empty.size parcels := hpacked
  have hplaces : ∀ parcel ∈ parcels, ∃ there : LocalEntry, there.extra = parcel.extra ∧
      parcel.entry.StoredAt (Parcel.pack parcels ++ Directory.encode (parcels.map (·.entry))
        (Parcel.pack parcels).size draft.comment) there parcel.stored := by
    intro parcel hparcel
    have hplace := hstart.storedAt hparcel (Directory.encode (parcels.map (·.entry))
      (Parcel.pack parcels).size draft.comment)
    rwa [ByteArray.empty_append] at hplace
  rw [List.toList_toArray, List.forall₂_map_right_iff]
  refine ((List.forall₂_and_left _ _).mpr ⟨hplaces, hrenewed.flip⟩).flip.imp ?_
  rintro entry parcel ⟨⟨there, hextra, hthere⟩, hcopy⟩
  exact hcopy.copiesAs hthere hextra

theorem rebuildWithout_of_rebuilt {draft : Draft} {source bytes : ByteArray} {names : List String}
    {rebuilt : Writer} (hnames : draft.missingName? names = none)
    (hbytes : rebuiltImage draft source names = .ok bytes) (hof : ofBytes bytes = .ok rebuilt) :
    rebuildWithout ⟨draft, some source⟩ names = (rebuilt, .ok ()) := by
  simp only [rebuildWithout, hnames, hbytes, hof]

/-- Two rebuilds in turn leave the same writer as one without the names of both, and that closes
with the same bytes. To rebuild again without further names changes nothing. This needs that both
times the directory is sure to be found in what was written. -/
theorem rebuildWithout_append {image : ByteArray} {start first second : Writer}
    {names more : List String} (hstart : ofBytes image = .ok start)
    (hfirst : start.rebuildWithout names = (first, .ok ()))
    (hsecond : first.rebuildWithout more = (second, .ok ()))
    (hclear : start.Clear (.rebuildWithout names)) (hclear' : first.Clear (.rebuildWithout more)) :
    start.rebuildWithout (names ++ more) = (second, .ok ()) ∧
      first.rebuildWithout [] = (first, .ok ()) ∧
      ∃ bytes, second.image = some bytes ∧ second.toBytes = .ok bytes := by
  obtain ⟨draft, rfl, hf⟩ := ofBytes_fits hstart
  have hnames := missingName?_of_rebuildWithout hfirst
  obtain ⟨bytes, hrebuilt, hof⟩ := rebuildWithout_ok hfirst
  obtain ⟨directory, hread, hcomment, hcopies, -⟩ :=
    rebuiltImage_reread hf.writable hrebuilt (hclear hnames image bytes rfl hrebuilt)
  rw [ofBytes_of_read hread] at hof
  obtain rfl := Except.ok.inj hof
  have happend (more : List String) : rebuiltImage (.goingOn directory) bytes more =
      rebuiltImage draft image (names ++ more) := rebuiltImage_append hcomment hcopies more
  have hmore := missingName?_of_rebuildWithout hsecond
  obtain ⟨bytes', hrebuilt', hof'⟩ := rebuildWithout_ok hsecond
  obtain ⟨directory', hread', -, -, hclose⟩ := rebuiltImage_reread (Draft.fits_goingOn hread).writable
    hrebuilt' (hclear' hmore bytes bytes' rfl hrebuilt')
  have hboth := hrebuilt'
  rw [happend] at hboth
  have hagain := happend []
  rw [List.append_nil, hrebuilt] at hagain
  refine ⟨rebuildWithout_of_rebuilt (Draft.missingName?_append hcopies hnames hmore) hboth hof',
    rebuildWithout_of_rebuilt rfl hagain (ofBytes_of_read hread), bytes', ?_⟩
  rw [ofBytes_of_read hread'] at hof'
  obtain rfl := Except.ok.inj hof'
  exact ⟨rfl, hclose⟩

/-- Three files. The extra field of the first is bare padding, and that of the second has an
alignment block that is too short and two more. -/
def padded : List Parcel := [
  { Parcel.letter 0 "a" 0 0 with extra := zeros 3 },
  { Parcel.letter 1 "b" 35 0 with
    extra := (ExtraBlock.mk Alignment.blockId ⟨#[7]⟩).encode ++ Alignment.block 4 2 ++
      Alignment.block 8 0 },
  Parcel.letter 2 "c" 86 0]

def paddedImage : ByteArray :=
  Parcel.pack padded ++ Directory.encode (padded.map Parcel.entry) 118 ByteArray.empty

theorem rebuildWithout_append_padded :
    ∃ start second bytes, ofBytes paddedImage = .ok start ∧
      start.rebuildWithout ["c", "a"] = (second, .ok ()) ∧
      second.toBytes = .ok bytes ∧ slice bytes 31 9 = Alignment.block 4 3 := by
  have hcheck : ((ofBytes paddedImage).toOption.map fun start =>
      decide ((start.rebuildWithout ["c"]).2.toOption = some () ∧
        start.Clear (.rebuildWithout ["c"]) ∧
        ((start.rebuildWithout ["c"]).1.rebuildWithout ["a"]).2.toOption = some () ∧
        (start.rebuildWithout ["c"]).1.Clear (.rebuildWithout ["a"]) ∧
        (((start.rebuildWithout ["c"]).1.rebuildWithout ["a"]).1.image.map fun bytes =>
          slice bytes 31 9) = some (Alignment.block 4 3))) = some true := by
    decide +kernel
  simp only [Option.map_eq_some_iff, toOption_eq_some, decide_eq_true_eq] at hcheck
  obtain ⟨start, hstart, hfirst, hclear, hsecond, hclear', bytes, himage, hblock⟩ := hcheck
  obtain ⟨hboth, -, bytes', himage', hclose⟩ := rebuildWithout_append hstart
    (Prod.ext rfl hfirst) (Prod.ext rfl hsecond) hclear hclear'
  obtain rfl := Option.some.inj (himage.symm.trans himage')
  exact ⟨start, _, bytes, hstart, hboth, hclose, hblock⟩

end Writer

end ClassicZip
