import ClassicZip.Archive
import ClassicZip.Proofs.Directory.Reading
import ClassicZip.Proofs.LocalEntry.Stored

/-!
# Archives that are open

An archive that was opened on an image answers with the directory read from it, and reads entries,
its own or others, where the image holds them.
-/

namespace ClassicZip

structure Archive.On (archive : Archive) (image : ByteArray) : Prop where
  image_eq : archive.image = some image
  imageSize_eq : archive.directory.imageSize = image.size

namespace Archive

theorem ofBytes_ok {image : ByteArray} {archive : Archive} :
    ofBytes image = .ok archive ↔
      ∃ directory, Directory.read image = .ok directory ∧
        archive = ⟨memoryName, directory, some image⟩ := by
  cases h : Directory.read image with
  | error fault => simp [ofBytes, h]
  | ok directory => simp [ofBytes, h, eq_comm]

theorem ofBytes_eq_error {image : ByteArray} {fault : Fault} :
    ofBytes image = .error fault ↔ Directory.read image = .error fault := by
  cases h : Directory.read image <;> simp [ofBytes, h]

theorem on_of_read {image : ByteArray} {directory : Directory}
    (h : Directory.read image = .ok directory) :
    ofBytes image = .ok ⟨memoryName, directory, some image⟩ ∧
      On ⟨memoryName, directory, some image⟩ image :=
  ⟨ofBytes_ok.mpr ⟨directory, h, rfl⟩, rfl, (Directory.read_ok h).2.1⟩

section
variable {archive : Archive} {image : ByteArray}

theorem on_of_ofBytes (h : ofBytes image = .ok archive) : archive.On image := by
  obtain ⟨directory, hr, rfl⟩ := ofBytes_ok.mp h
  exact (on_of_read hr).2

theorem On.isClosed_eq (ho : archive.On image) : archive.isClosed = false := by
  simp [isClosed, ho.image_eq]

theorem On.entries_eq (ho : archive.On image) :
    archive.entries = .ok archive.directory.entries := by
  simp [entries, whileOpen, ho.isClosed_eq]

theorem On.comment_eq (ho : archive.On image) :
    archive.comment = .ok archive.directory.comment := by
  simp [comment, whileOpen, ho.isClosed_eq]

theorem On.readRaw_ok (ho : archive.On image) {entry : Entry} {stored : ByteArray} :
    archive.readRaw entry = .ok stored ↔ ∃ here, entry.StoredAt image here stored := by
  simp only [readRaw, ho.image_eq, ho.imageSize_eq, ← Entry.readStored_ok]
  cases entry.readStored image image.size with
  | error fault => simp
  | ok found => simp [Prod.ext_iff]

theorem On.readData_eq [Codec.Coders] (ho : archive.On image) {entry : Entry}
    {stored : ByteArray} (h : archive.readRaw entry = .ok stored) :
    archive.readData entry = entry.decode stored := by
  unfold readData
  split
  · rename_i hd
    rw [whileOpen, ho.isClosed_eq, Entry.decode, if_pos hd]
    rfl
  · rw [h]

end

variable [Codec.Coders]

/-- What a read of the entry gives in one archive it gives in the other as well. -/
structure KeepsRead (old new : Archive) (entry : Entry) : Prop where
  raw : ∀ stored, old.readRaw entry = .ok stored → new.readRaw entry = .ok stored
  data : ∀ data, old.readData entry = .ok data → new.readData entry = .ok data

theorem KeepsRead.of_raw {old new : Archive} {image other : ByteArray} {entry : Entry}
    (hold : old.On image) (hnew : new.On other)
    (hraw : ∀ stored, old.readRaw entry = .ok stored → new.readRaw entry = .ok stored) :
    old.KeepsRead new entry where
  raw := hraw
  data := by
    intro data h
    unfold readData at h ⊢
    by_cases hd : entry.isDirectory
    · simp only [hd, if_true, whileOpen, hold.isClosed_eq, hnew.isClosed_eq] at h ⊢
      exact h
    · simp only [hd, Bool.false_eq_true, if_false] at h ⊢
      split at h
      · cases h
      · rename_i stored hs
        rw [hraw stored hs]
        exact h

theorem KeepsRead.of_append {old new : Archive} {image more : ByteArray} (hold : old.On image)
    (hnew : new.On (image ++ more)) (entry : Entry) : old.KeepsRead new entry := by
  refine .of_raw hold hnew fun stored hread => ?_
  obtain ⟨here, hstored⟩ := hold.readRaw_ok.mp hread
  exact hnew.readRaw_ok.mpr ⟨here, hstored.append more⟩

end Archive

end ClassicZip
