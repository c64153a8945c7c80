import ClassicZip.Proofs.CommandLine.Outcomes
import ClassicZip.Proofs.Deletion.Partway
import ClassicZip.Proofs.FileWriter.Rebuilding

/-!
# Commands that delete in place

To delete in place the command erases entry after entry in the file. Only at the end it writes the
directory, so where a name is missing the old directory stays, and still lists what was erased.
-/

namespace ClassicZip

open Bytes

-- ---------------------------------------------------------------------------
-- Archives in files
-- ---------------------------------------------------------------------------

section
variable {directory : Directory} {disk : Disk} {path : String} {place : Place} {id : FileId}

theorem FileArchive.open_of_find (hfind : disk.find path = .ok (place, .file id))
    (hread : Directory.read (disk.bytes id) = .ok directory) :
    FileArchive.open disk path =
      .ok ⟨(Path.fileName? path).getD unknownName, directory, some id⟩ := by
  simp only [FileArchive.open, hfind, hread]

theorem FileArchive.on_file (name : String)
    (hread : Directory.read (disk.bytes id) = .ok directory) :
    (FileArchive.on ⟨name, directory, some id⟩ disk).On (disk.bytes id) where
  image_eq := rfl
  imageSize_eq := (Directory.read_ok hread).2.1

/-- Where entries were erased the same archive is opened. -/
theorem FileArchive.open_erased {left : List Entry} {after : ByteArray} (hintact : disk.Intact)
    (hfind : disk.find path = .ok (place, .file id)) (hseals : directory.Seals (disk.bytes id))
    (he : Entry.Erased (disk.bytes id) directory.entries.toList left after) :
    ∃ archive : FileArchive, archive.directory = directory ∧
      FileArchive.open disk path = .ok archive ∧
      FileArchive.open (disk.setBytes id after) path = .ok archive ∧
      (archive.on disk).On (disk.bytes id) ∧ (archive.on (disk.setBytes id after)).On after := by
  have hbytes := Disk.bytes_setBytes after (hintact _ _ (Disk.find_ok.mp hfind).2)
  have hread := hseals.read_erased he
  rw [← hbytes] at hread
  have hfind' : (disk.setBytes id after).find path = .ok (place, .file id) := by
    rwa [Disk.find_setBytes]
  refine ⟨_, rfl, open_of_find hfind hseals.read_eq, open_of_find hfind' hread,
    on_file _ hseals.read_eq, ?_⟩
  have hon := on_file ((Path.fileName? path).getD unknownName) hread
  rwa [hbytes] at hon

end

namespace CommandLine

def missing (name : String) : Report :=
  Report.because s!"Failed to delete {name}" (.entryNotFound name)

theorem because_ne_missing {message : String} (fault : Fault) (name : String)
    (hmessage : message.toList.take 11 ≠ "Failed to d".toList) :
    Report.because message fault ≠ missing name := by
  intro h
  have hsame : message = "Failed to delete " ++ name := congrArg Report.message h
  apply hmessage
  rw [hsame, String.toList_append, List.take_append_of_le_length (by decide)]
  decide

theorem fileReport_ne_missing (cause : FileFault) (name : String) :
    fileReport cause ≠ missing name := by
  intro h
  have hcauses := congrArg Report.causes h
  simp [fileReport, missing, Report.because, Report.chain] at hcauses

theorem missing_inj {first second : String} (h : missing first = missing second) :
    first = second := by
  have hmessage := congrArg (fun report => report.message.toList) h
  exact String.toList_inj.mp (by simpa [missing, Report.because, toString] using hmessage)

def eraseEach (writer : FileWriter) (names : List String) : Work FileWriter :=
  forIn names writer fun name writer => do
    let writer ← change writer (Report.because s!"Failed to delete {name}") fun writer disk =>
      writer.eraseInPlace disk name
    return .yield writer

theorem eraseEach_cons (writer : FileWriter) (name : String) (names : List String) :
    eraseEach writer (name :: names) =
      (change writer (Report.because s!"Failed to delete {name}") fun writer disk =>
        writer.eraseInPlace disk name) >>= fun writer => eraseEach writer names := by
  simp only [eraseEach, List.forIn_cons, bind_assoc, pure_bind]

section
variable {directory : Directory} {disk : Disk} {path : String} {place : Place} {id : FileId}

/-- Until a name is missing the loop takes an entry for each out of the draft and the file. -/
theorem outcome_eraseEach (directory : Directory) (path : String) {image before : ByteArray}
    (comment : ByteArray) {start stop : Nat} {entries left : List Entry} (names : List String)
    (printed : Array Printed) (hthere : id < disk.files.size)
    (hs : Entry.Spread image stop start entries) (he : Entry.Erased image entries left before) :
    ∃ after, Entry.Erased image entries (Entry.strikeNames left names).1 after ∧
      (eraseEach ⟨path, .trimmed directory left comment, some id⟩ names).outcome
          ⟨disk.setBytes id before, printed⟩ =
        (match (Entry.strikeNames left names).2 with
          | none => .ok ⟨path, .trimmed directory (Entry.strikeNames left names).1 comment, some id⟩
          | some name => .error (missing name),
        ⟨disk.setBytes id after, printed⟩) := by
  induction names generalizing left before with
  | nil => exact ⟨before, he, rfl⟩
  | cons name rest ih =>
    have hstep := Writer.eraseInPlace_partway directory comment name he hs
    rw [eraseEach_cons, Work.outcome_bind, Work.outcome_change, Entry.strikeNames]
    simp only [FileWriter.eraseInPlace_eq, Disk.bytes_setBytes before hthere]
    split at hstep
    · rename_i hfound
      obtain ⟨middle, hdone, hmiddle⟩ := hstep
      obtain ⟨after, hafter, hrest⟩ := ih hmiddle
      refine ⟨after, ?_, ?_⟩
      · rwa [if_pos hfound]
      · rw [if_pos hfound]
        simp only [hdone, Option.getD_some, Disk.setBytes_setBytes]
        exact hrest
    · rename_i hmissing
      rw [if_neg hmissing]
      refine ⟨before, he, ?_⟩
      simp only [hstep, Option.getD_some, Disk.setBytes_setBytes]
      rfl

def concludeDeletion (path : String) (count before : Nat) (writer : FileWriter) : Work Unit := do
  closeWriter writer
  let after ← Work.orReport fileReport (sizeOf (← Work.disk) path)
  Work.printLine s!"Deleted {count} entries ({before} -> {after} bytes)"

theorem delete_inPlace (path : String) (names : List String) :
    delete path names true = (do
      let report (cause : FileFault) : Report := ⟨s!"Failed to stat {path}", [cause.message]⟩
      let before ← Work.orReport report (sizeOf (← Work.disk) path)
      let writer ← Work.onDisk (Report.because openFailure) fun disk => FileWriter.append disk path
      let writer ← eraseEach writer names
      concludeDeletion path names.length before writer) := rfl

theorem concludeDeletion_ne_missing {count before : Nat} {writer : FileWriter}
    {progress : Progress} (name : String) :
    ((concludeDeletion path count before writer).outcome progress).1 ≠ .error (missing name) := by
  simp only [concludeDeletion, closeWriter, Work.outcome_bind, Work.outcome_change,
    Work.outcome_orReport, Work.outcome_disk]
  cases (writer.close progress.disk).2.2 with
  | error fault => exact fun h => because_ne_missing fault name (by decide) (Except.error.inj h)
  | ok =>
    simp only [Except.mapError, Except.map, Work.outcome_pure]
    cases sizeOf (writer.close progress.disk).2.1 path with
    | error cause => exact fun h => fileReport_ne_missing cause name (Except.error.inj h)
    | ok after => exact fun h => nomatch h

theorem outcome_delete {names : List String} {printed : Array Printed} (hintact : disk.Intact)
    (hfind : disk.find path = .ok (place, .file id)) (hseals : directory.Seals (disk.bytes id)) :
    ∃ after, Entry.Erased (disk.bytes id) directory.entries.toList
        (Entry.strikeNames directory.entries.toList names).1 after ∧
      match (Entry.strikeNames directory.entries.toList names).2 with
      | none => ∀ name, ((delete path names true).outcome ⟨disk, printed⟩).1 ≠ .error (missing name)
      | some name => (delete path names true).outcome ⟨disk, printed⟩ =
          (.error (missing name), ⟨disk.setBytes id after, printed⟩) := by
  have hthere : id < disk.files.size := hintact _ _ (Disk.find_ok.mp hfind).2
  have heach := outcome_eraseEach directory path directory.comment names printed hthere hseals.spread
    (.refl _ _)
  rw [Disk.setBytes_bytes, Draft.trimmed_all hseals.read_eq] at heach
  obtain ⟨after, hafter, heach⟩ := heach
  refine ⟨after, hafter, ?_⟩
  have hsize : sizeOf disk path = .ok (disk.bytes id).size := by simp only [sizeOf, hfind]
  rw [delete_inPlace]
  simp only [Work.outcome_bind, Work.outcome_disk, Work.outcome_orReport, Work.outcome_onDisk, hsize,
    FileWriter.append_of_find hfind hseals.read_eq, Except.mapError, heach]
  split
  · exact fun name => concludeDeletion_ne_missing name
  · rfl

theorem execute_delete (names : List String) (now : Int) (hintact : disk.Intact)
    (hfind : disk.find path = .ok (place, .file id)) (hseals : directory.Seals (disk.bytes id)) :
    ∃ after, Entry.Erased (disk.bytes id) directory.entries.toList
        (Entry.strikeNames directory.entries.toList names).1 after ∧
      match (Entry.strikeNames directory.entries.toList names).2 with
      | none => ∀ name,
          (Command.execute now disk ⟨path, .delete names true⟩).failure ≠ some (missing name)
      | some name => Command.execute now disk ⟨path, .delete names true⟩ =
          ⟨some (missing name), ⟨disk.setBytes id after, #[]⟩⟩ := by
  have hexecute : Command.execute now disk ⟨path, .delete names true⟩ =
      match (delete path names true).outcome ⟨disk, #[]⟩ with
      | (.ok (), progress) => ⟨none, progress⟩
      | (.error report, progress) => ⟨some report, progress⟩ := rfl
  obtain ⟨after, herased, hend⟩ := outcome_delete hintact hfind hseals
  refine ⟨after, herased, ?_⟩
  rw [hexecute]
  split at hend
  · intro name hfail
    refine hend name ?_
    split at hfail
    · cases hfail
    · rename_i report progress hfailed
      rw [hfailed, Option.some.inj hfail]
  · rw [hend]

-- ---------------------------------------------------------------------------
-- Deletions that stop partway
-- ---------------------------------------------------------------------------

/-- Where a deletion in place finds no entry for a name, it has already erased one for each name in
front of that. The directory stays and lists them still: an entry is read as before just where it is
left, and of the others the local header is gone. So nothing is lost just where the missing name is
the first. -/
theorem Command.delete_partway {writer : Writer} {name : String} {names : List String} {now : Int}
    {outcome : Outcome} (hreached : writer.Reached) (hclose : writer.toBytes = .ok (disk.bytes id))
    (hreread : Directory.Rereadable (disk.bytes id) writer.draft.entries.size
      writer.draft.comment.size)
    (hintact : disk.Intact) (hfind : disk.find path = .ok (place, .file id))
    (hrun : execute now disk ⟨path, .delete names true⟩ = outcome)
    (hfail : outcome.failure = some (missing name)) :
    ∃ archive front rest left after,
      FileArchive.open disk path = .ok archive ∧
      FileArchive.open outcome.progress.disk path = .ok archive ∧
      archive.directory.entries = writer.draft.entries ∧
      names = front ++ name :: rest ∧
      left = Operation.strikeAll Entry.name archive.directory.entries.toList
        (front.map .eraseInPlace) ∧
      left.length + front.length = archive.directory.entries.size ∧
      (∀ entry ∈ left, entry.name ≠ name.toUTF8) ∧
      outcome.progress.disk = disk.setBytes id after ∧
      Entry.Erased (disk.bytes id) archive.directory.entries.toList left after ∧
      (∀ entry ∈ left, (archive.on disk).ReadsAlike (archive.on outcome.progress.disk) entry) ∧
      (∀ entry ∈ archive.directory.entries, entry ∉ left →
        (∃ stored, (archive.on disk).readRaw entry = .ok stored) ∧
        (archive.on outcome.progress.disk).readRaw entry =
          .error (.badSignature LocalHeader.signature 0 entry.localOffset.toNat) ∧
        (entry.isDirectory = false → (archive.on outcome.progress.disk).readData entry =
          .error (.badSignature LocalHeader.signature 0 entry.localOffset.toNat))) ∧
      ((∀ entry ∈ archive.directory.entries,
        (archive.on disk).ReadsAlike (archive.on outcome.progress.disk) entry) ↔ front = []) := by
  obtain ⟨directory, hentries, hseals⟩ := hreached.seals hclose hreread
  obtain ⟨after, herased, hend⟩ := execute_delete names now hintact hfind hseals
  rw [hrun] at hend
  generalize hstrike : Entry.strikeNames directory.entries.toList names = struck at herased hend
  obtain ⟨left, _ | absent⟩ := struck
  · exact absurd hfail (hend name)
  dsimp only at herased hend
  subst hend
  obtain rfl := missing_inj (Option.some.inj hfail)
  obtain ⟨front, rest, hnames, hleft, hlength, habsent⟩ := Entry.strikeNames_missing hstrike
  obtain ⟨archive, rfl, hopen, hopen', hold, hnew⟩ :=
    FileArchive.open_erased hintact hfind hseals herased
  have hs := hseals.spread
  have hmem {entry : Entry} (h : entry ∈ archive.directory.entries) :
      entry ∈ archive.directory.entries.toList := Array.mem_toList_iff.mpr h
  refine ⟨archive, front, rest, left, after, hopen, hopen', hentries, hnames, hleft, hlength, habsent,
    rfl, herased, ?_, ?_, ?_⟩
  · intro entry hentry
    exact (herased.readsAlike_iff hs hold hnew (herased.sublist.subset hentry)).mpr hentry
  · intro entry hentry hgone
    obtain ⟨here, stored, hstored, -⟩ := hs.faithful entry (hmem hentry)
    exact ⟨⟨stored, hold.readRaw_ok.mpr ⟨here, hstored.toStoredAt⟩⟩,
      herased.readRaw_eq hs hnew (hmem hentry) hgone,
      herased.readData_eq hs hnew (hmem hentry) hgone⟩
  · have hall : (∀ entry ∈ archive.directory.entries,
        (archive.on disk).ReadsAlike (archive.on (disk.setBytes id after)) entry) ↔
          ∀ entry ∈ archive.directory.entries.toList, entry ∈ left := by
      simp only [Array.mem_toList_iff]
      exact forall₂_congr fun entry h => herased.readsAlike_iff hs hold hnew (hmem h)
    show (∀ entry ∈ archive.directory.entries,
      (archive.on disk).ReadsAlike (archive.on (disk.setBytes id after)) entry) ↔ front = []
    rw [hall, herased.forall_mem_iff hs, ← hlength, ← List.length_eq_zero_iff]
    omega

end

def plainDisk (bytes : ByteArray) : Disk :=
  (FileWriter.emptyDisk.addFile ["a.zip"] ⟨bytes, Disk.newFileMode⟩).1

theorem plainDisk_spec (bytes : ByteArray) :
    (plainDisk bytes).Intact ∧ (plainDisk bytes).find "a.zip" = .ok (["a.zip"], .file 0) ∧
      (plainDisk bytes).bytes 0 = bytes := by
  have hnode (place : Place) : (plainDisk bytes).node? place =
      if place = ["a.zip"] then some (.file 0) else FileWriter.emptyDisk.node? place :=
    Disk.node?_addFile (List.cons_ne_nil _ _)
  refine ⟨fun place id h => ?_, Disk.find_ok.mpr ⟨FileWriter.resolve_plain rfl, ?_⟩,
    Disk.bytes_addFile FileWriter.emptyDisk _ _⟩
  · rw [hnode] at h
    split at h
    · obtain rfl := Node.file.inj (Option.some.inj h)
      exact Nat.zero_lt_one
    · exact absurd (FileWriter.emptyDisk_intact _ _ h) (Nat.not_lt_zero _)
  · rw [hnode, if_pos rfl]

theorem twoLetters_filed : ∃ disk : Disk, Writer.twoLetters.Reached ∧
    Writer.twoLetters.toBytes = .ok (disk.bytes 0) ∧
    Directory.Rereadable (disk.bytes 0) Writer.twoLetters.draft.entries.size
      Writer.twoLetters.draft.comment.size ∧
    disk.Intact ∧ disk.find "a.zip" = .ok (["a.zip"], .file 0) := by
  have hcheck : (Writer.twoLetters.toBytes.toOption.map fun bytes =>
      decide (Directory.Rereadable bytes Writer.twoLetters.draft.entries.size
        Writer.twoLetters.draft.comment.size)) = some true := by
    decide +kernel
  simp only [Option.map_eq_some_iff, toOption_eq_some, decide_eq_true_eq] at hcheck
  obtain ⟨bytes, hclose, hreread⟩ := hcheck
  obtain ⟨hintact, hfind, hbytes⟩ := plainDisk_spec bytes
  rw [← hbytes] at hclose hreread
  exact ⟨plainDisk bytes, .after .fresh ⟨trivial, trivial, trivial⟩, hclose, hreread, hintact, hfind⟩

/-- Of the second name there is one entry only, so the deletion stops behind it. -/
theorem Command.delete_partway_letters : ∃ disk outcome archive,
    execute 0 disk ⟨"a.zip", .delete ["b", "b", "a"] true⟩ = outcome ∧
    outcome.failure = some (missing "b") ∧
    FileArchive.open disk "a.zip" = .ok archive ∧
    FileArchive.open outcome.progress.disk "a.zip" = .ok archive ∧
    archive.directory.entries = Writer.twoLetters.draft.entries ∧
    ¬ ∀ entry ∈ archive.directory.entries,
      (archive.on disk).ReadsAlike (archive.on outcome.progress.disk) entry := by
  obtain ⟨disk, hreached, hclose, hreread, hintact, hfind⟩ := twoLetters_filed
  obtain ⟨directory, hentries, hseals⟩ := hreached.seals hclose hreread
  obtain ⟨_, -, hend⟩ := execute_delete ["b", "b", "a"] 0 hintact hfind hseals
  have hstrike : (Entry.strikeNames Writer.twoLetters.draft.entries.toList ["b", "b", "a"]).2 =
      some "b" := by
    decide +kernel
  rw [hentries, hstrike] at hend
  obtain ⟨archive, front, rest, left, after, hopen, hopen', hlisted, -, hleft, -, hmissing, -, -,
    -, -, halike⟩ := delete_partway hreached hclose hreread hintact hfind hend rfl
  refine ⟨disk, _, archive, hend, rfl, hopen, hopen', hlisted, fun hall => ?_⟩
  have hthere : ¬ ∀ entry ∈ Writer.twoLetters.draft.entries.toList, entry.name ≠ "b".toUTF8 := by
    decide +kernel
  rw [halike.mp hall, hlisted] at hleft
  rw [hleft] at hmissing
  exact hthere hmissing

/-- The first name is found, the second is not. The archive still lists the first entry, whose
header and data are gone by now. -/
theorem delete_damages_letters : ∃ disk outcome archive,
    Writer.twoLetters.Reached ∧ Writer.twoLetters.toBytes = .ok (disk.bytes 0) ∧
    disk.Intact ∧ disk.find "a.zip" = .ok (["a.zip"], .file 0) ∧
    Command.execute 0 disk ⟨"a.zip", .delete ["a", "c"] true⟩ = outcome ∧
    outcome.failure = some (missing "c") ∧
    FileArchive.open outcome.progress.disk "a.zip" = .ok archive ∧
    archive.directory.entries = Writer.twoLetters.draft.entries ∧
    ∃ entry ∈ archive.directory.entries, entry.name = "a".toUTF8 ∧
      (archive.on disk).readRaw entry = .ok ⟨#[120]⟩ ∧
      (archive.on disk).readData entry = .ok ⟨#[120]⟩ ∧
      (archive.on outcome.progress.disk).readRaw entry =
        .error (.badSignature LocalHeader.signature 0 0) ∧
      (archive.on outcome.progress.disk).readData entry =
        .error (.badSignature LocalHeader.signature 0 0) := by
  obtain ⟨disk, hreached, hclose, hreread, hintact, hfind⟩ := twoLetters_filed
  obtain ⟨directory, hentries, hseals⟩ := hreached.seals hclose hreread
  obtain ⟨after, herased, hend⟩ := execute_delete ["a", "c"] 0 hintact hfind hseals
  have hstrike : (Entry.strikeNames Writer.twoLetters.draft.entries.toList ["a", "c"]).2 =
      some "c" := by
    decide +kernel
  have hcheck : (Writer.twoLetters.draft.entries[0]?.bind fun entry =>
      Writer.twoLetters.toBytes.toOption.bind fun bytes =>
        (entry.readStored bytes bytes.size).toOption.map fun found =>
          decide (found.2 = ⟨#[120]⟩ ∧ entry.decode found.2 = .ok ⟨#[120]⟩ ∧
            entry.name = "a".toUTF8 ∧ entry.localOffset.toNat = 0 ∧ entry.isDirectory = false ∧
            entry ∉ (Entry.strikeNames Writer.twoLetters.draft.entries.toList ["a", "c"]).1)) =
      some true := by
    decide +kernel
  simp only [hclose, Option.bind_eq_some_iff, Option.map_eq_some_iff, toOption_eq_some,
    Except.ok.injEq, decide_eq_true_eq] at hcheck
  obtain ⟨entry, hat, _, rfl, ⟨here, stored⟩, hread, rfl, hdecode, hname, hoffset, hfile, hgone⟩ :=
    hcheck
  obtain ⟨archive, rfl, -, hopen, hold, hnew⟩ :=
    FileArchive.open_erased hintact hfind hseals herased
  rw [hentries, hstrike] at hend
  rw [← hentries] at hat hgone
  have hmem := Array.mem_of_getElem? hat
  have hlisted := Array.mem_toList_iff.mpr hmem
  have hraw := hold.readRaw_ok.mpr ⟨here, Entry.readStored_ok.mp hread⟩
  have hlost := herased.readRaw_eq hseals.spread hnew hlisted hgone
  have hlostData := herased.readData_eq hseals.spread hnew hlisted hgone hfile
  rw [hoffset] at hlost hlostData
  exact ⟨disk, _, archive, hreached, hclose, hintact, hfind, hend, rfl, hopen, hentries, entry, hmem,
    hname, hraw, (hold.readData_eq hraw).trans hdecode, hlost, hlostData⟩

end CommandLine

end ClassicZip
