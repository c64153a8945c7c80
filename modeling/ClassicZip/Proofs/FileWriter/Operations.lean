import ClassicZip.FileWriter
import ClassicZip.Proofs.Disk.Replacing
import ClassicZip.Proofs.Writer.Soundness

/-!
# Writers of files do what writers in memory do

A file writer with the bytes of its file is a writer in memory, and what is asked of it comes to the
same there; only a rebuild also has to do with the names on the disk. So a file writer that was
reached on a disk has a draft that is sound for the bytes of its open file.
-/

namespace ClassicZip

namespace FileWriter

/-- The writer in memory with the same draft and the bytes of the open file. -/
def inMemory (writer : FileWriter) (disk : Disk) : Writer :=
  ⟨writer.draft, writer.file.map disk.bytes⟩

/-- The open file is on the disk, and the draft is sound for its bytes. -/
structure Sound (writer : FileWriter) (disk : Disk) : Prop where
  there : ∀ id, writer.file = some id → id < disk.files.size
  sound : (writer.inMemory disk).Sound

section
variable {writer next : FileWriter} {disk after : Disk} {result : Except Fault Unit}

theorem inMemory_none {path : String} {draft : Draft} (disk : Disk) :
    inMemory ⟨path, draft, none⟩ disk = ⟨draft, none⟩ := rfl

theorem inMemory_some {path : String} {draft : Draft} (disk : Disk) (id : FileId) :
    inMemory ⟨path, draft, some id⟩ disk = ⟨draft, some (disk.bytes id)⟩ := rfl

theorem eraseInPlace_eq {path name : String} {draft : Draft} {id : FileId} :
    eraseInPlace ⟨path, draft, some id⟩ disk name =
      match Writer.eraseInPlace ⟨draft, some (disk.bytes id)⟩ name with
      | (⟨draft, image⟩, result) =>
        (⟨path, draft, some id⟩, disk.setBytes id (image.getD ByteArray.empty), result) := by
  simp only [eraseInPlace, update, Disk.setBytes_setBytes]

theorem Sound.draft {id : FileId} (hs : writer.Sound disk) (hopen : writer.file = some id) :
    writer.draft.Sound (disk.bytes id) := by
  refine hs.sound _ ?_
  rw [inMemory, hopen]
  rfl

-- ---------------------------------------------------------------------------
-- Rebuilding
-- ---------------------------------------------------------------------------

/-- A rebuild changes nothing, or it puts the rebuilt archive in the place of what the path names.
That archive is taken up then, if it can be. -/
theorem rebuildWithout_cases {names : List String}
    (h : writer.rebuildWithout disk names = (next, after, result)) :
    (next = writer ∧ after = disk ∧ ∃ fault, result = .error fault) ∨
      ∃ id mode rebuilt newId, writer.file = some id ∧ stage disk writer.path = .ok mode ∧
        Writer.rebuiltImage writer.draft (disk.bytes id) names = .ok rebuilt ∧
        disk.replace writer.path ⟨rebuilt, mode⟩ = .ok (after, newId) ∧
        ((∃ fault, Draft.ofImage rebuilt = .error fault ∧ next = writer ∧
            result = .error fault) ∨
          ∃ draft, Draft.ofImage rebuilt = .ok draft ∧ next = ⟨writer.path, draft, some newId⟩ ∧
            result = .ok ()) := by
  have hsame {fault : Fault} (he : (writer, disk, .error fault) = (next, after, result)) :
      next = writer ∧ after = disk ∧ ∃ fault, result = .error fault := by
    obtain ⟨rfl, rfl, rfl⟩ : _ ∧ _ ∧ _ := by simpa using he
    exact ⟨rfl, rfl, fault, rfl⟩
  unfold rebuildWithout at h
  split at h
  · exact .inl (hsame h)
  · rename_i id hfile
    split at h
    · exact .inl (hsame h)
    · split at h
      · exact .inl (hsame h)
      · rename_i mode hstage
        split at h
        · exact .inl (hsame h)
        · rename_i rebuilt hrebuilt
          split at h
          · exact .inl (hsame h)
          · rename_i replaced newId hreplace
            refine .inr ⟨id, mode, rebuilt, newId, hfile, hstage, hrebuilt, ?_⟩
            split at h
            · rename_i fault htaken
              obtain ⟨rfl, rfl, rfl⟩ : _ ∧ _ ∧ _ := by simpa using h
              exact ⟨hreplace, .inl ⟨fault, htaken, rfl, rfl⟩⟩
            · rename_i draft htaken
              obtain ⟨rfl, rfl, rfl⟩ : _ ∧ _ ∧ _ := by simpa using h
              exact ⟨hreplace, .inr ⟨draft, htaken, rfl, rfl⟩⟩

theorem inMemory_addFile (hs : writer.Sound disk) (place : Place) (file : FileData) :
    writer.inMemory (disk.addFile place file).1 = writer.inMemory disk := by
  obtain ⟨path, draft, _ | id⟩ := writer
  · rfl
  · rw [inMemory_some, inMemory_some, Disk.bytes_addFile_of_lt place file (hs.there id rfl)]

theorem rebuildWithout_sound {names : List String} (hs : writer.Sound disk)
    (h : writer.rebuildWithout disk names = (next, after, result)) : next.Sound after := by
  rcases rebuildWithout_cases h with ⟨rfl, rfl, -⟩ |
    ⟨id, mode, rebuilt, newId, -, -, -, hreplace, hend⟩
  · exact hs
  · obtain ⟨place, -, -, rfl, rfl⟩ := Disk.replace_ok hreplace
    rcases hend with ⟨fault, -, rfl, -⟩ | ⟨draft, htaken, rfl, -⟩
    · refine ⟨fun id hid => ?_, ?_⟩
      · rw [Disk.size_files_addFile]
        exact Nat.lt_succ_of_lt (hs.there id hid)
      · rw [inMemory_addFile hs]
        exact hs.sound
    · refine ⟨?_, ?_⟩
      · rintro _ ⟨rfl⟩
        rw [Disk.size_files_addFile]
        exact Nat.lt_succ_self _
      · have hbytes := Disk.bytes_addFile disk place ⟨rebuilt, mode⟩
        rw [inMemory_some, show (disk.addFile place _).1.bytes disk.files.size = _ from hbytes]
        exact Writer.ofBytes_sound (by rw [Writer.ofBytes, htaken])

end

-- ---------------------------------------------------------------------------
-- Archives that are started or taken up
-- ---------------------------------------------------------------------------

section
variable {path : String} {disk after : Disk} {writer : FileWriter}

theorem openForWriting_there {id : FileId} (hi : disk.Intact)
    (h : disk.openForWriting path = (after, .ok id)) : id < after.files.size := by
  unfold Disk.openForWriting at h
  split at h
  · cases h
  · split at h
    · cases h
    · split at h
      · cases h
      · rename_i hfile
        obtain ⟨rfl, rfl⟩ : _ ∧ _ := by simpa using h
        exact hi _ _ hfile
      · obtain ⟨rfl, rfl⟩ : _ ∧ _ := by simpa using h
        rw [Disk.size_files_addFile]
        exact Nat.lt_succ_self _

theorem create_sound (hi : disk.Intact) (h : create disk path = (after, .ok writer)) :
    writer.path = path ∧ writer.Sound after := by
  unfold create at h
  split at h
  · cases h
  · rename_i opened id hopen
    obtain ⟨rfl, rfl⟩ : _ ∧ _ := by simpa using h
    have hthere := openForWriting_there hi hopen
    refine ⟨rfl, ?_, ?_⟩
    · rintro _ ⟨rfl⟩
      rwa [Disk.size_files_setBytes]
    · rw [inMemory_some, Disk.bytes_setBytes _ hthere]
      exact Writer.fresh_sound

theorem append_of_find {place : Place} {id : FileId} {directory : Directory}
    (hfind : disk.find path = .ok (place, .file id))
    (hread : Directory.read (disk.bytes id) = .ok directory) :
    append disk path = (disk, .ok ⟨path, .goingOn directory, some id⟩) := by
  simp only [append, Disk.openForWriting_of_find hfind, Draft.ofImage_of_read hread]

theorem append_sound (hi : disk.Intact) (h : append disk path = (after, .ok writer)) :
    writer.path = path ∧ writer.Sound after := by
  unfold append at h
  split at h
  · cases h
  · rename_i opened id hopen
    split at h
    · cases h
    · rename_i draft htaken
      obtain ⟨rfl, rfl⟩ : _ ∧ _ := by simpa using h
      refine ⟨rfl, ?_, ?_⟩
      · rintro _ ⟨rfl⟩
        exact openForWriting_there hi hopen
      · rw [inMemory_some]
        exact Writer.ofBytes_sound (by rw [Writer.ofBytes, htaken])

end

-- ---------------------------------------------------------------------------
-- Operations on the bytes of the file
-- ---------------------------------------------------------------------------

variable [Codec.Coders]

def operate (writer : FileWriter) (disk : Disk) :
    Operation → FileWriter × Disk × Except Fault Unit
  | .call (.add (.file name data options)) => writer.addFile disk name data options
  | .call (.add (.directory name options)) => writer.addDirectory disk name options
  | .call (.setComment comment) => writer.setComment disk comment
  | .eraseInPlace name => writer.eraseInPlace disk name
  | .rebuildWithout names => writer.rebuildWithout disk names
  | .close => writer.close disk

/-- The writers that can be had on a disk for a path, and the disk with each of them. -/
inductive Reached (path : String) : FileWriter → Disk → Prop
  | create {disk next : Disk} {writer : FileWriter} :
      disk.Intact → create disk path = (next, .ok writer) → Reached path writer next
  | append {disk next : Disk} {writer : FileWriter} :
      disk.Intact → append disk path = (next, .ok writer) → Reached path writer next
  | operate {writer next : FileWriter} {disk after : Disk} {result : Except Fault Unit}
      (operation : Operation) :
      Reached path writer disk → writer.operate disk operation = (next, after, result) →
      Reached path next after

section
variable {writer next : FileWriter} {disk after : Disk} {result : Except Fault Unit}

theorem operate_update {operation : Operation} (hclose : operation ≠ .close)
    (hrebuild : ∀ names, operation ≠ .rebuildWithout names) :
    writer.operate disk operation = writer.update disk fun writer => writer.operate operation := by
  cases operation with
  | call call =>
    cases call with
    | add addition => cases addition <;> rfl
    | setComment comment => rfl
  | eraseInPlace name => rfl
  | rebuildWithout names => exact absurd rfl (hrebuild names)
  | close => exact absurd rfl hclose

/-- What was asked of a file writer, other than to rebuild its archive, was done in memory; of the
disk only the bytes of the open file changed. -/
structure Done (writer : FileWriter) (disk : Disk) (operation : Operation) (next : FileWriter)
    (after : Disk) (result : Except Fault Unit) : Prop where
  path_eq : next.path = writer.path
  file_eq : next.file = writer.file ∨ (operation = .close ∧ next.file = none)
  memory_eq : next.inMemory after = ((writer.inMemory disk).operate operation).1
  result_eq : result = ((writer.inMemory disk).operate operation).2
  disk_eq : after = disk ∨ ∃ id bytes, writer.file = some id ∧ after = disk.setBytes id bytes

theorem update_done {operation : Operation} (hs : writer.Sound disk)
    (hclose : operation ≠ .close)
    (h : (writer.update disk fun writer => writer.operate operation) = (next, after, result)) :
    Done writer disk operation next after result := by
  obtain ⟨path, draft, _ | id⟩ := writer
  · simp only [update, Writer.operate_closed, Prod.mk.injEq] at h
    obtain ⟨rfl, rfl, rfl⟩ := h
    refine ⟨rfl, .inl rfl, ?_, ?_, .inl rfl⟩
    · rw [inMemory_none, Writer.operate_closed]
    · rw [inMemory_none, Writer.operate_closed]
  · obtain ⟨image, himage⟩ := Writer.image_of_operate (hs.draft rfl) hclose
    simp only [update] at h
    generalize hmemory : Writer.operate ⟨draft, some (disk.bytes id)⟩ operation = done at h himage
    obtain ⟨⟨newDraft, newImage⟩, outcome⟩ := done
    obtain rfl : newImage = some image := himage
    simp only [Option.getD_some, Disk.setBytes_setBytes, Prod.mk.injEq] at h
    obtain ⟨rfl, rfl, rfl⟩ := h
    refine ⟨rfl, .inl rfl, ?_, ?_, .inr ⟨id, image, rfl, rfl⟩⟩
    · rw [inMemory_some, inMemory_some, hmemory, Disk.bytes_setBytes image (hs.there id rfl)]
    · rw [inMemory_some, hmemory]

theorem close_done (h : writer.close disk = (next, after, result)) :
    Done writer disk .close next after result := by
  obtain ⟨path, draft, _ | id⟩ := writer
  · obtain ⟨rfl, rfl, rfl⟩ : _ ∧ _ ∧ _ := by simpa [close] using h
    exact ⟨rfl, .inl rfl, rfl, rfl, .inl rfl⟩
  · cases htrailer : draft.trailer with
    | error fault =>
      simp only [close, Writer.complete, htrailer, Option.getD_some, Disk.setBytes_setBytes,
        Disk.setBytes_bytes, Prod.mk.injEq] at h
      obtain ⟨rfl, rfl, rfl⟩ := h
      refine ⟨rfl, .inl rfl, ?_, ?_, .inl rfl⟩
      all_goals
        simp [inMemory_some, Writer.operate, Writer.close, Writer.isClosed, Writer.complete,
          htrailer]
    | ok trailer =>
      simp only [close, Writer.complete, htrailer, Disk.setBytes_setBytes, Prod.mk.injEq] at h
      obtain ⟨rfl, rfl, rfl⟩ := h
      refine ⟨rfl, .inr ⟨rfl, rfl⟩, ?_, ?_, .inr ⟨id, _, rfl, rfl⟩⟩
      all_goals
        simp [inMemory_some, inMemory_none, Writer.operate, Writer.close, Writer.isClosed,
          Writer.complete, htrailer]

theorem operate_done {operation : Operation} (hs : writer.Sound disk)
    (hrebuild : ∀ names, operation ≠ .rebuildWithout names)
    (h : writer.operate disk operation = (next, after, result)) :
    Done writer disk operation next after result := by
  by_cases hclose : operation = .close
  · subst hclose
    exact close_done h
  · rw [operate_update hclose hrebuild] at h
    exact update_done hs hclose h

theorem Done.sound {operation : Operation} (h : Done writer disk operation next after result)
    (hs : writer.Sound disk) : next.Sound after where
  there := by
    intro id hid
    have hsize : after.files.size = disk.files.size := by
      rcases h.disk_eq with rfl | ⟨_, _, -, rfl⟩
      · rfl
      · exact Disk.size_files_setBytes _
    rcases h.file_eq with hsame | ⟨-, hnone⟩
    · rw [hsize]
      exact hs.there id (hsame ▸ hid)
    · rw [hnone] at hid
      cases hid
  sound := by
    rw [h.memory_eq]
    exact Writer.operate_sound hs.sound operation

theorem Done.find_eq {operation : Operation} (h : Done writer disk operation next after result)
    (path : String) : after.find path = disk.find path := by
  rcases h.disk_eq with rfl | ⟨_, _, -, rfl⟩
  · rfl
  · exact Disk.find_setBytes _

end

-- ---------------------------------------------------------------------------
-- Writers that can be had
-- ---------------------------------------------------------------------------

section
variable {path : String} {disk : Disk} {writer : FileWriter}

theorem Reached.sound (h : Reached path writer disk) : writer.path = path ∧ writer.Sound disk := by
  induction h with
  | create hi hcreate => exact create_sound hi hcreate
  | append hi happend => exact append_sound hi happend
  | @operate writer next disk after result operation _ hoperate ih =>
    obtain ⟨hpath, hs⟩ := ih
    by_cases hrebuild : ∃ names, operation = .rebuildWithout names
    · obtain ⟨names, rfl⟩ := hrebuild
      refine ⟨?_, rebuildWithout_sound hs hoperate⟩
      rcases rebuildWithout_cases hoperate with ⟨rfl, -⟩ | ⟨_, _, _, _, -, -, -, -, hend⟩
      · exact hpath
      · rcases hend with ⟨_, -, rfl, -⟩ | ⟨_, -, rfl, -⟩ <;> exact hpath
    · have hdone := operate_done hs (fun names heq => hrebuild ⟨names, heq⟩) hoperate
      exact ⟨hdone.path_eq.trans hpath, hdone.sound hs⟩

/-- What can be done to a writer in memory, other than to rebuild or to close it, can be done to one
with a file, and leaves the names on the disk alone. -/
theorem Reached.run {operations : List Operation} (h : Reached path writer disk)
    (hkeep : ∀ operation ∈ operations, operation ≠ .close ∧
      ∀ names, operation ≠ .rebuildWithout names) :
    ∃ next after, Reached path next after ∧ next.file = writer.file ∧
      next.inMemory after = (writer.inMemory disk).after operations ∧
      ∀ path, after.find path = disk.find path := by
  induction operations generalizing writer disk with
  | nil => exact ⟨writer, disk, h, rfl, rfl, fun _ => rfl⟩
  | cons operation rest ih =>
    rw [List.forall_mem_cons] at hkeep
    obtain ⟨⟨hclose, hrebuild⟩, hkeep⟩ := hkeep
    generalize hoperate : writer.operate disk operation = step
    obtain ⟨middle, between, result⟩ := step
    have hdone := operate_done h.sound.2 hrebuild hoperate
    have hfile : middle.file = writer.file :=
      hdone.file_eq.resolve_right fun hclosed => hclose hclosed.1
    obtain ⟨next, after, hnext, hopen, hmemory, hfind⟩ := ih (h.operate operation hoperate) hkeep
    refine ⟨next, after, hnext, hopen.trans hfile, ?_, fun path => ?_⟩
    · rw [hmemory, hdone.memory_eq, Writer.after]
    · rw [hfind, hdone.find_eq]

end

end FileWriter

end ClassicZip
