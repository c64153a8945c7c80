import ClassicZip.Proofs.FileWriter.Operations

/-!
# Rebuilds of archive files that fail

A rebuild that fails leaves the file writer as it was, with the same bytes in its open file. It also
leaves the disk as it was, unless it fails to take up the archive that it built: that one has the
name by then, and what the writer goes on with has none.
-/

namespace ClassicZip

namespace Writer

/-- What a rebuild makes can be taken up where its end record is sure to be found. -/
theorem ofImage_rebuiltImage {draft : Draft} {source rebuilt : ByteArray} {names : List String}
    (hw : Directory.Writable draft.entries.toList draft.comment)
    (h : rebuiltImage draft source names = .ok rebuilt)
    (hr : Directory.Rereadable rebuilt (draft.survivors names).length draft.comment.size) :
    ∃ taken, Draft.ofImage rebuilt = .ok taken := by
  obtain ⟨parcels, hcopied, -, hwritable, rfl, hsize⟩ := rebuiltImage_ok hw h
  rw [hcopied.length_eq, ← List.length_map Parcel.entry] at hr
  exact ⟨_, Draft.ofImage_of_read (Directory.read_encode hwritable hr.1 hsize hr.2)⟩

end Writer

namespace FileWriter

section
variable {path : String} {place : Place} {writer next : FileWriter} {disk after : Disk}
  {names : List String} {id old : FileId} {rebuilt : ByteArray} {fault : Fault}

theorem stage_ok {mode : UInt32} (h : stage disk path = .ok mode) :
    ∃ place node, disk.find path = .ok (place, node) := by
  unfold stage at h
  split at h
  · cases h
  · split at h
    · cases h
    · exact ⟨_, _, by assumption⟩
    · exact ⟨_, _, by assumption⟩

theorem stage_of_found (h : disk.find path = .ok (place, .file old)) :
    stage disk path = .ok (disk.mode old) := by
  simp only [stage, Disk.resolveNew_of_resolve (Disk.find_ok.mp h).1, h]

theorem contents_replaced {file : FileData}
    (hfind : (disk.addFile place file).1.find path = .ok (place, .file disk.files.size)) :
    (disk.addFile place file).1.contents path = .ok file.bytes := by
  rw [Disk.contents_of_find hfind]
  exact congrArg Except.ok (Disk.bytes_addFile disk place file)

theorem rebuildWithout_late (hfile : writer.file = some id)
    (hpresent : writer.draft.missingName? names = none)
    (hfind : disk.find writer.path = .ok (place, .file old))
    (hrebuilt : Writer.rebuiltImage writer.draft (disk.bytes id) names = .ok rebuilt)
    (htaken : Draft.ofImage rebuilt = .error fault) :
    ∃ after, writer.rebuildWithout disk names = (writer, after, .error fault) ∧
      after.contents writer.path = .ok rebuilt := by
  refine ⟨(disk.addFile place ⟨rebuilt, disk.mode old⟩).1, ?_, ?_⟩
  · simp only [rebuildWithout, hfile, hpresent, stage_of_found hfind, hrebuilt,
      Disk.replace_of_found hfind, htaken]
  · exact contents_replaced (Disk.find_addFile hfind)

variable [Codec.Coders]

/-- A writer whose file was replaced is closed without a trace under the name of the file. -/
theorem close_replaced {file : FileData} {result : Except Fault Unit} (hs : writer.Sound disk)
    (hfind : (disk.addFile place file).1.find path = .ok (place, .file disk.files.size))
    (h : writer.close (disk.addFile place file).1 = (next, after, result)) :
    after.contents path = .ok file.bytes := by
  rcases (close_done h).disk_eq with rfl | ⟨id, bytes, hfile, rfl⟩
  · exact contents_replaced hfind
  · have hkept := hfind
    have hne : id ≠ disk.files.size := Nat.ne_of_lt (hs.there id hfile)
    rw [← Disk.find_setBytes bytes] at hkept
    rw [Disk.contents_of_find hkept, Disk.bytes_setBytes_of_ne bytes hne,
      ← Disk.contents_of_find hfind]
    exact contents_replaced hfind

/-- A rebuild of an archive file that fails leaves the writer as it was, with its file open and the
bytes in it unchanged. Either the disk is as it was, or all that failed was to take up the rebuilt
archive: the path names this one then, and goes on to name it when the writer is closed. If the end
record of the rebuilt archive is sure to be found, the disk is as it was. -/
theorem Reached.rebuildWithout_fails (h : Reached path writer disk)
    (hopen : writer.file = some id)
    (hfail : writer.rebuildWithout disk names = (next, after, .error fault)) :
    next = writer ∧ after.bytes id = disk.bytes id ∧
      (after = disk ∨ ∃ rebuilt,
        Writer.rebuiltImage writer.draft (disk.bytes id) names = .ok rebuilt ∧
          Draft.ofImage rebuilt = .error fault ∧
          ¬ Directory.Rereadable rebuilt (writer.draft.survivors names).length
            writer.draft.comment.size ∧
          after.contents path = .ok rebuilt ∧
          ∀ closed final result, writer.close after = (closed, final, result) →
            final.contents path = .ok rebuilt) := by
  obtain ⟨rfl, hs⟩ := h.sound
  rcases rebuildWithout_cases hfail with ⟨rfl, rfl, -⟩ |
    ⟨_, mode, rebuilt, newId, hfile, hstage, hrebuilt, hreplace, hend⟩
  · exact ⟨rfl, rfl, .inl rfl⟩
  · obtain rfl := Option.some.inj (hopen.symm.trans hfile)
    obtain ⟨place, node, hfound⟩ := stage_ok hstage
    obtain ⟨-, rfl, rfl, hfind⟩ := Disk.replace_found hfound hreplace
    rcases hend with ⟨_, htaken, hsame, hfault⟩ | ⟨_, -, -, hdone⟩
    · obtain rfl := Except.error.inj hfault
      have hunsure : ¬ Directory.Rereadable rebuilt (writer.draft.survivors names).length
          writer.draft.comment.size := by
        intro hreread
        obtain ⟨taken, hok⟩ :=
          Writer.ofImage_rebuiltImage (hs.draft hopen).writable hrebuilt hreread
        rw [hok] at htaken
        cases htaken
      exact ⟨hsame, Disk.bytes_addFile_of_lt place _ (hs.there id hopen),
        .inr ⟨rebuilt, hrebuilt, htaken, hunsure, contents_replaced hfind,
          fun _ _ _ hclose => close_replaced hs hfind hclose⟩⟩
    · cases hdone

end

-- ---------------------------------------------------------------------------
-- A new archive on an empty disk
-- ---------------------------------------------------------------------------

def emptyDisk : Disk := ⟨∅, #[], []⟩

theorem emptyDisk_intact : emptyDisk.Intact := by
  intro place id hnode
  by_cases hroot : place = [] <;> simp [Disk.node?, emptyDisk, hroot] at hnode

theorem resolve_plain {disk : Disk} (hroot : disk.workingDirectory = []) :
    disk.resolve "a.zip" = .ok ["a.zip"] := by
  have hplain : Disk.refusal? "a.zip" = none := by
    rw [Disk.refusal?, if_neg (by simp), if_neg (by decide), if_neg (by decide)]
  refine Disk.resolve_ok.mpr ⟨hplain, ?_⟩
  have hstart : disk.startOf "a.zip" = [] := by
    rw [Disk.startOf, hroot, ite_self]
  rw [hstart, show Path.pieces "a.zip" = ["a.zip"] by decide]
  exact Disk.follow_cons_ok.mpr ⟨rfl, ["a.zip"], by decide, rfl⟩

theorem create_plain :
    ∃ made, create emptyDisk "a.zip" = (made, .ok ⟨"a.zip", .empty, some 0⟩) ∧
      made.find "a.zip" = .ok (["a.zip"], .file 0) ∧
      inMemory ⟨"a.zip", .empty, some 0⟩ made = Writer.fresh := by
  have hplain : emptyDisk.resolve "a.zip" = .ok ["a.zip"] := resolve_plain rfl
  have hresolve := Disk.resolveNew_of_resolve hplain
  have hnew : emptyDisk.node? ["a.zip"] = none := by simp [Disk.node?, emptyDisk]
  obtain ⟨made, hmade⟩ : ∃ made,
      made = (emptyDisk.addFile ["a.zip"] ⟨ByteArray.empty, Disk.newFileMode⟩).1 := ⟨_, rfl⟩
  have hopen : emptyDisk.openForWriting "a.zip" = (made, .ok 0) := by
    simp only [Disk.openForWriting, hresolve, hnew, hmade]
    rw [if_neg (by decide)]
    rfl
  refine ⟨made.setBytes 0 ByteArray.empty, ?_, ?_, ?_⟩
  · simp only [create, hopen]
  · rw [Disk.find_setBytes]
    refine Disk.find_ok.mpr ⟨resolve_plain (by rw [hmade]; rfl), ?_⟩
    rw [hmade, Disk.node?_addFile (List.cons_ne_nil _ _), if_pos rfl]
    rfl
  · have hthere : 0 < made.files.size := by
      rw [hmade, Disk.size_files_addFile]
      exact Nat.succ_pos _
    rw [inMemory_some, Disk.bytes_setBytes _ hthere]
    rfl

/-- An archive with a misleading comment cannot be taken up without its only entry. The rebuild
fails, and what it built has the name of the archive. -/
theorem exists_misled :
    ∃ writer disk after rebuilt, Reached "a.zip" writer disk ∧ writer.file = some 0 ∧
      disk.contents "a.zip" = .ok (disk.bytes 0) ∧ disk.bytes 0 ≠ rebuilt ∧
      writer.rebuildWithout disk ["a"] =
        (writer, after, .error (.truncated .directory 65535)) ∧
      after.contents "a.zip" = .ok rebuilt := by
  obtain ⟨image, rebuilt, himage, hpresent, hrebuilt, htaken, hne⟩ := Writer.rebuilt_misled
  obtain ⟨made, hcreate, hmade, hnew⟩ := create_plain
  have hkeep : ∀ operation ∈ Writer.misled, operation ≠ .close ∧
      ∀ names, operation ≠ .rebuildWithout names := by
    simp [Writer.misled, Writer.addLetter]
  obtain ⟨writer, disk, hreached, hfile, hmemory, hfind⟩ :=
    (Reached.create emptyDisk_intact hcreate).run hkeep
  rw [hnew] at hmemory
  rw [← hfind] at hmade
  have hpath := hreached.sound.1
  have hdraft : writer.draft = (Writer.fresh.after Writer.misled).draft :=
    congrArg Writer.draft hmemory
  have hbytes : disk.bytes 0 = image := by
    have hsome := congrArg Writer.image hmemory
    rw [himage, inMemory, hfile] at hsome
    exact Option.some.inj hsome
  rw [← hdraft] at hpresent hrebuilt
  rw [← hbytes] at hrebuilt hne
  rw [← hpath] at hmade
  obtain ⟨after, hfail, hreplaced⟩ := rebuildWithout_late hfile hpresent hmade hrebuilt htaken
  rw [hpath] at hmade hreplaced
  exact ⟨writer, disk, after, rebuilt, hreached, hfile, Disk.contents_of_find hmade, hne, hfail,
    hreplaced⟩

/-- The old bytes are still in the open file, but to close the writer leaves the rebuilt archive
under the name. -/
theorem Reached.rebuildWithout_fails_misled :
    ∃ writer disk after fault rebuilt, Reached "a.zip" writer disk ∧ writer.file = some 0 ∧
      writer.rebuildWithout disk ["a"] = (writer, after, .error fault) ∧
      after.bytes 0 = disk.bytes 0 ∧ disk.bytes 0 ≠ rebuilt ∧
      Writer.rebuiltImage writer.draft (disk.bytes 0) ["a"] = .ok rebuilt ∧
      Draft.ofImage rebuilt = .error fault ∧
      ∀ closed final result, writer.close after = (closed, final, result) →
        final.contents "a.zip" = .ok rebuilt := by
  obtain ⟨writer, disk, after, replaced, hreached, hfile, hbefore, hne, hfail, hafter⟩ :=
    exists_misled
  obtain ⟨-, hbytes, hsame | ⟨rebuilt, hrebuilt, htaken, -, hcontents, hclosed⟩⟩ :=
    hreached.rebuildWithout_fails hfile hfail
  · rw [hsame, hbefore] at hafter
    exact absurd (Except.ok.inj hafter) hne
  · obtain rfl := Except.ok.inj (hafter.symm.trans hcontents)
    exact ⟨writer, disk, after, _, replaced, hreached, hfile, hfail, hbytes, hne, hrebuilt, htaken,
      hclosed⟩

/-- After a rebuild that failed yet another file has the name of the archive. -/
theorem rebuildWithout_fails_replaced :
    ∃ writer disk after fault before replaced, Reached "a.zip" writer disk ∧
      writer.rebuildWithout disk ["a"] = (writer, after, .error fault) ∧
      disk.contents "a.zip" = .ok before ∧ after.contents "a.zip" = .ok replaced ∧
      before ≠ replaced := by
  obtain ⟨writer, disk, after, rebuilt, hreached, -, hbefore, hne, hfail, hafter⟩ := exists_misled
  exact ⟨writer, disk, after, _, _, rebuilt, hreached, hfail, hbefore, hafter, hne⟩

end FileWriter

end ClassicZip
