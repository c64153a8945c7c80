import Mathlib.Data.List.DropRight
import Std.Data.HashMap.Lemmas
import ClassicZip.Disk
import ClassicZip.Proofs.Path.Pieces

/-!
# Files that are written, and files that are replaced

To write a file changes its bytes and no name. To replace one changes what its name stands for; the
old file keeps its bytes for whoever has it open. A path that led to the old file leads to the new
one then.
-/

namespace ClassicZip

namespace Disk

/-- Every file that has a name is there. -/
def Intact (disk : Disk) : Prop :=
  ∀ place id, disk.node? place = some (.file id) → id < disk.files.size

-- ---------------------------------------------------------------------------
-- Paths
-- ---------------------------------------------------------------------------

def step (here : Place) (piece : String) : Except FileFault Place :=
  if piece = "" ∨ piece = "." then .ok here
  else if piece = ".." then .ok here.dropLast
  else if maxNameSize < piece.utf8ByteSize then .error .nameTooLong
  else .ok (here ++ [piece])

section
variable {disk : Disk} {path : String} {here place : Place}

theorem follow_cons_ok {piece : String} {rest : List String} :
    disk.follow here (piece :: rest) = .ok place ↔
      disk.node? here = some .directory ∧
        ∃ next, step here piece = .ok next ∧ disk.follow next rest = .ok place := by
  rw [follow]
  split
  · rename_i hnode
    simp [hnode]
  · rename_i hnode
    simp [hnode]
  · rename_i hnode
    simp only [hnode, true_and, step]
    split
    · simp
    · split
      · simp
      · split <;> simp

theorem follow_append_ok {front back : List String} :
    disk.follow here (front ++ back) = .ok place ↔
      ∃ middle, disk.follow here front = .ok middle ∧ disk.follow middle back = .ok place := by
  induction front generalizing here with
  | nil => simp [follow]
  | cons piece rest ih =>
    simp only [List.cons_append, follow_cons_ok, ih]
    constructor
    · rintro ⟨hnode, next, hstep, middle, hfront, hback⟩
      exact ⟨middle, ⟨hnode, next, hstep, hfront⟩, hback⟩
    · rintro ⟨middle, ⟨hnode, next, hstep, hfront⟩, hback⟩
      exact ⟨hnode, next, hstep, middle, hfront, hback⟩

/-- Empty pieces at the end of a path only make sure that it names a directory. -/
theorem follow_trimmed {pieces : List String} (h : disk.follow here pieces = .ok place) :
    disk.follow here (pieces.reverse.dropWhile (· = "")).reverse = .ok place := by
  show disk.follow here (pieces.rdropWhile (· = "")) = .ok place
  induction pieces using List.reverseRecOn generalizing place with
  | nil => simpa using h
  | append_singleton front piece ih =>
    rw [List.rdropWhile_concat]
    split
    · rename_i hempty
      obtain rfl : piece = "" := by simpa using hempty
      obtain ⟨middle, hfront, hlast⟩ := follow_append_ok.mp h
      obtain ⟨-, next, hstep, hnext⟩ := follow_cons_ok.mp hlast
      obtain rfl : middle = next := by simpa [step] using hstep
      obtain rfl := Except.ok.inj hnext
      exact ih hfront
    · exact h

theorem resolve_ok : disk.resolve path = .ok place ↔
    refusal? path = none ∧ disk.follow (disk.startOf path) (Path.pieces path) = .ok place := by
  cases h : refusal? path <;> simp [resolve, h]

theorem resolveNew_ok : disk.resolveNew path = .ok place ↔
    refusal? path = none ∧ disk.follow (disk.startOf path) (trimmedPieces path) = .ok place := by
  cases h : refusal? path <;> simp [resolveNew, h]

theorem resolveNew_of_resolve (h : disk.resolve path = .ok place) :
    disk.resolveNew path = .ok place :=
  resolveNew_ok.mpr ⟨(resolve_ok.mp h).1, follow_trimmed (resolve_ok.mp h).2⟩

theorem find_ok {node : Node} : disk.find path = .ok (place, node) ↔
    disk.resolve path = .ok place ∧ disk.node? place = some node := by
  unfold find
  constructor
  · intro h
    split at h
    · cases h
    · rename_i hresolve
      split at h
      · cases h
      · rename_i hnode
        obtain ⟨rfl, rfl⟩ := Prod.mk.inj (Except.ok.inj h)
        exact ⟨hresolve, hnode⟩
  · rintro ⟨hresolve, hnode⟩
    simp only [hresolve, hnode]

theorem contents_of_find {id : FileId} (h : disk.find path = .ok (place, .file id)) :
    disk.contents path = .ok (disk.bytes id) := by
  simp only [contents, h]

theorem endsInSlash_of_find {id : FileId} (h : disk.find path = .ok (place, .file id)) :
    endsInSlash path = false := by
  obtain ⟨hresolve, hfile⟩ := find_ok.mp h
  obtain ⟨-, hfollow⟩ := resolve_ok.mp hresolve
  by_contra hslash
  obtain ⟨front, hfront⟩ : ∃ front, path.toList = front ++ ['/'] := by
    rw [← List.getLast?_eq_some_iff]
    simpa [endsInSlash] using hslash
  have hpieces : Path.pieces path = (Path.split front).map String.ofList ++ [""] := by
    rw [Path.pieces, hfront, Path.split_concat_slash, List.map_append]
    rfl
  rw [hpieces] at hfollow
  -- The empty piece leads on only from a directory.
  obtain ⟨middle, -, hlast⟩ := follow_append_ok.mp hfollow
  obtain ⟨hnode, next, hstep, hnext⟩ := follow_cons_ok.mp hlast
  obtain rfl : middle = next := by simpa [step] using hstep
  obtain rfl := Except.ok.inj hnext
  rw [hnode] at hfile
  cases hfile

theorem openForWriting_of_find {id : FileId} (h : disk.find path = .ok (place, .file id)) :
    disk.openForWriting path = (disk, .ok id) := by
  obtain ⟨hresolve, hnode⟩ := find_ok.mp h
  simp only [openForWriting, resolveNew_of_resolve hresolve, endsInSlash_of_find h, hnode]
  rfl

end

-- ---------------------------------------------------------------------------
-- Writing
-- ---------------------------------------------------------------------------

section
variable {disk : Disk} {id other : FileId} {path : String}

@[simp] theorem size_files_setBytes (bytes : ByteArray) :
    (disk.setBytes id bytes).files.size = disk.files.size := by
  simp [setBytes]

theorem setBytes_setBytes (first second : ByteArray) :
    (disk.setBytes id first).setBytes id second = disk.setBytes id second := by
  simp only [setBytes, Disk.mk.injEq, true_and, and_true]
  apply Array.ext
  · simp
  · intro index h1 h2
    simp only [Array.getElem_modify]
    split <;> rfl

theorem setBytes_bytes (disk : Disk) (id : FileId) : disk.setBytes id (disk.bytes id) = disk := by
  have hfiles : (disk.setBytes id (disk.bytes id)).files = disk.files := by
    apply Array.ext
    · simp
    · intro index h1 h2
      simp only [setBytes, Array.getElem_modify]
      split
      · rename_i heq
        subst heq
        simp [bytes, fileData, h2]
      · rfl
  show Disk.mk disk.nodes (disk.setBytes id (disk.bytes id)).files disk.workingDirectory = disk
  rw [hfiles]

theorem bytes_setBytes_of_ne (bytes : ByteArray) (hne : other ≠ id) :
    (disk.setBytes other bytes).bytes id = disk.bytes id := by
  simp [setBytes, Disk.bytes, fileData, Array.getElem?_modify, hne]

theorem follow_setBytes (bytes : ByteArray) (here : Place) (pieces : List String) :
    (disk.setBytes id bytes).follow here pieces = disk.follow here pieces := by
  induction pieces generalizing here with
  | nil => rfl
  | cons piece rest ih =>
    have hnode : (disk.setBytes id bytes).node? here = disk.node? here := rfl
    simp only [follow, hnode, ih]

theorem find_setBytes (bytes : ByteArray) :
    (disk.setBytes id bytes).find path = disk.find path := by
  have hresolve : (disk.setBytes id bytes).resolve path = disk.resolve path := by
    have hstart : (disk.setBytes id bytes).startOf path = disk.startOf path := rfl
    simp only [resolve, follow_setBytes, hstart]
  have hnode (place : Place) : (disk.setBytes id bytes).node? place = disk.node? place := rfl
  simp only [find, hresolve, hnode]

end

-- ---------------------------------------------------------------------------
-- Replacing
-- ---------------------------------------------------------------------------

section
variable {disk next : Disk} {id old : FileId} {path : String} {here place : Place}
  {file : FileData}

theorem node?_addFile (hplace : place ≠ []) :
    (disk.addFile place file).1.node? here =
      if here = place then some (.file disk.files.size) else disk.node? here := by
  by_cases hroot : here = []
  · simp [node?, hroot, hplace.symm]
  · simp only [node?, addFile, if_neg hroot, Std.HashMap.getElem?_insert, beq_iff_eq]
    by_cases heq : here = place
    · rw [if_pos heq, if_pos heq.symm]
    · rw [if_neg heq, if_neg (Ne.symm heq)]

theorem size_files_addFile : (disk.addFile place file).1.files.size = disk.files.size + 1 := by
  simp [addFile]

theorem ne_root_of_file (h : disk.node? place = some (.file old)) : place ≠ [] := by
  rintro rfl
  cases h

/-- A way to a file leads through directories, so it does not end when the file is replaced. -/
theorem follow_addFile {pieces : List String} (hfile : disk.node? place = some (.file old))
    (h : disk.follow here pieces = .ok place) :
    (disk.addFile place file).1.follow here pieces = .ok place := by
  induction pieces generalizing here with
  | nil => exact h
  | cons piece rest ih =>
    obtain ⟨hnode, next, hstep, hnext⟩ := follow_cons_ok.mp h
    refine follow_cons_ok.mpr ⟨?_, next, hstep, ih hnext⟩
    -- The way goes on from here, so here is no file.
    have hne : here ≠ place := by
      rintro rfl
      rw [hnode] at hfile
      cases hfile
    rw [node?_addFile (ne_root_of_file hfile), if_neg hne, hnode]

theorem find_addFile (h : disk.find path = .ok (place, .file old)) :
    (disk.addFile place file).1.find path = .ok (place, .file disk.files.size) := by
  obtain ⟨hresolve, hfile⟩ := find_ok.mp h
  obtain ⟨haccepted, hfollow⟩ := resolve_ok.mp hresolve
  refine find_ok.mpr ⟨resolve_ok.mpr ⟨haccepted, follow_addFile hfile hfollow⟩, ?_⟩
  rw [node?_addFile (ne_root_of_file hfile), if_pos rfl]

theorem replace_ok (h : disk.replace path file = .ok (next, id)) :
    ∃ place, disk.resolveNew path = .ok place ∧ disk.node? place ≠ some .directory ∧
      next = (disk.addFile place file).1 ∧ id = disk.files.size := by
  unfold replace at h
  split at h
  · cases h
  · rename_i place hresolve
    split at h
    · cases h
    · rename_i hnode
      have hadded := Except.ok.inj h
      exact ⟨place, hresolve, hnode, (congrArg Prod.fst hadded).symm,
        (congrArg Prod.snd hadded).symm⟩

theorem replace_found {node : Node} (hfind : disk.find path = .ok (place, node))
    (h : disk.replace path file = .ok (next, id)) :
    (∃ old, node = .file old) ∧ next = (disk.addFile place file).1 ∧ id = disk.files.size ∧
      next.find path = .ok (place, .file id) := by
  obtain ⟨hresolve, hnode⟩ := find_ok.mp hfind
  obtain ⟨other, hother, hfile, rfl, rfl⟩ := replace_ok h
  obtain rfl := Except.ok.inj ((resolveNew_of_resolve hresolve).symm.trans hother)
  cases node with
  | directory => exact absurd hnode hfile
  | file old => exact ⟨⟨old, rfl⟩, rfl, rfl, find_addFile hfind⟩

theorem replace_of_found (hfind : disk.find path = .ok (place, .file old)) :
    disk.replace path file = .ok (disk.addFile place file) := by
  obtain ⟨hresolve, hnode⟩ := find_ok.mp hfind
  simp only [replace, resolveNew_of_resolve hresolve, hnode]

end

end Disk

end ClassicZip
