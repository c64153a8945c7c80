import ClassicZip.Proofs.Writer.Comments

/-!
# Sessions that add nothing keep the length

A session on an archive that only deletes in place and sets comments no longer than the old one
finds room for its directory where the old one was, up to the last byte. In front of the old
directory only the places of deleted entries change.
-/

namespace ClassicZip

open Bytes

/-- A deletion in place, or a comment of at most `size` bytes. -/
def Operation.Trims (size : Nat) : Operation → Prop
  | .eraseInPlace _ => True
  | .call (.setComment comment) => comment.size ≤ size
  | _ => False

theorem Operation.size_lastComment_le {size : Nat} {comment : ByteArray}
    {operations : List Operation} (hc : comment.size ≤ size)
    (ht : ∀ operation ∈ operations, operation.Trims size) :
    (lastComment comment operations).size ≤ size := by
  induction operations generalizing comment with
  | nil => exact hc
  | cons operation rest ih =>
    rw [List.forall_mem_cons] at ht
    match operation with
    | .eraseInPlace _ => exact ih hc ht.2
    | .call (.setComment next) => exact ih ht.1 ht.2

-- ---------------------------------------------------------------------------
-- Cleared ranges
-- ---------------------------------------------------------------------------

def InRanges (ranges : List (Nat × Nat)) (index : Nat) : Prop :=
  ∃ range ∈ ranges, range.1 ≤ index ∧ index < range.1 + range.2

instance (ranges : List (Nat × Nat)) (index : Nat) : Decidable (InRanges ranges index) := by
  unfold InRanges
  infer_instance

/-- The image is the old one with zeros over these ranges. -/
structure Cleared (image : ByteArray) (ranges : List (Nat × Nat)) (after : ByteArray) : Prop where
  size_eq : after.size = image.size
  byteAt_eq : ∀ index, byteAt after index =
    if InRanges ranges index then 0 else byteAt image index

theorem Cleared.refl (image : ByteArray) : Cleared image [] image where
  size_eq := rfl
  byteAt_eq := by simp [InRanges]

theorem Cleared.zeroFill {image before : ByteArray} {ranges : List (Nat × Nat)} {start count : Nat}
    (h : Cleared image ranges before) (hfit : start + count ≤ before.size) :
    Cleared image (ranges ++ [(start, count)]) (zeroFill before start count) where
  size_eq := (size_zeroFill hfit).trans h.size_eq
  byteAt_eq := by
    intro index
    have hstart : start ≤ before.size := Nat.le_trans (Nat.le_add_right _ _) hfit
    have hsplit : InRanges (ranges ++ [(start, count)]) index ↔
        InRanges ranges index ∨ start ≤ index ∧ index < start + count := by
      simp [InRanges, or_and_right, exists_or]
    rw [byteAt_zeroFill_eq hstart, h.byteAt_eq]
    by_cases hnew : start ≤ index ∧ index < start + count
    · rw [if_pos hnew, if_pos (hsplit.mpr (.inr hnew))]
    · simp only [hsplit, hnew, or_false, if_false]

namespace Writer

/-- The range over which an operation lays zeros: what the entry takes up that it deletes. -/
def cleared (writer : Writer) : Operation → List (Nat × Nat)
  | .eraseInPlace name =>
    match writer.image with
    | none => []
    | some image =>
      match writer.draft.findErasable image name with
      | .error _ => []
      | .ok (_, extent) => [extent]
  | _ => []

def clearedAlong [Codec.Coders] (writer : Writer) : List Operation → List (Nat × Nat)
  | [] => []
  | operation :: rest =>
    writer.cleared operation ++ (writer.operate operation).1.clearedAlong rest

end Writer

-- ---------------------------------------------------------------------------
-- Trimmed drafts
-- ---------------------------------------------------------------------------

namespace Draft

/-- The draft that goes on with an archive, with these of its entries and this comment. -/
def trimmed (directory : Directory) (entries : List Entry) (comment : ByteArray) : Draft :=
  { goingOn directory with
    entries := (Entry.numberFrom 0 entries).toArray
    comment := comment }

section
variable {directory : Directory} {image comment : ByteArray} {entries : List Entry}

theorem trimmed_all (hread : Directory.read image = .ok directory) :
    trimmed directory directory.entries.toList directory.comment = goingOn directory := by
  have hnumbered := (Directory.read_ok hread).1.numbered.numberFrom_eq
  rw [trimmed, hnumbered, Array.toArray_toList]
  rfl

theorem remove_trimmed {name : ByteArray} {position : Nat}
    (h : (trimmed directory entries comment).position? name = some position) :
    (trimmed directory entries comment).remove position =
      trimmed directory (entries.eraseP fun entry => entry.name == name) comment := by
  have hentries : ((trimmed directory entries comment).remove position).entries =
      (Entry.numberFrom 0 (entries.eraseP fun entry => entry.name == name)).toArray := by
    apply Array.toList_inj.mp
    rw [toList_remove, eraseIdx_position h]
    exact Entry.numberFrom_eraseP name 0 0 entries
  exact congrArg (fun left => { goingOn directory with entries := left, comment := comment }) hentries

@[simp] theorem bodyEnd_trimmed : (trimmed directory entries comment).bodyEnd = directory.offset :=
  if_pos rfl

theorem closingStart_trimmed (hread : Directory.read image = .ok directory)
    (hentries : entries.Sublist directory.entries.toList)
    (hcomment : comment.size ≤ directory.comment.size) :
    directory.offset ≤ (trimmed directory entries comment).closingStart ∧
      (trimmed directory entries comment).closingStart +
        (Directory.encode (Entry.numberFrom 0 entries) 0 comment).size = image.size := by
  obtain ⟨-, hstop, hfit⟩ := Directory.read_ok hread
  have hlisting := Entry.size_listing_le_of_sublist hentries
  have hlength : (Directory.encode (Entry.numberFrom 0 entries) 0 comment).size ≤
      directory.imageSize - directory.offset := by
    rw [Directory.size_encode] at hfit ⊢
    rw [Entry.listing_numberFrom]
    omega
  have hstart : (trimmed directory entries comment).closingStart =
      directory.imageSize - (Directory.encode (Entry.numberFrom 0 entries) 0 comment).size := by
    simp only [closingStart, trimmed, goingOn, trailerStart, if_true]
    exact if_pos hlength
  rw [hstart]
  omega

end

end Draft

namespace Writer

section
variable {directory : Directory} {image before comment : ByteArray} {entries : List Entry}

theorem eraseInPlace_trimmed {name : String} {position start count : Nat}
    (h : (Draft.trimmed directory entries comment).findErasable before name =
      .ok (position, start, count)) :
    eraseInPlace ⟨.trimmed directory entries comment, some before⟩ name =
        (⟨.trimmed directory (entries.eraseP fun entry => entry.name == name.toUTF8) comment,
          some (zeroFill before start count)⟩, .ok ()) ∧
      start + count ≤ before.size := by
  obtain ⟨entry, hposition, -, hextent⟩ := Draft.findErasable_ok h
  obtain ⟨_, _, _, -, -, -, hfit, -⟩ := Entry.extent_ok hextent
  refine ⟨?_, hfit⟩
  simp only [eraseInPlace, h, Draft.remove_trimmed hposition]

/-- A session of this kind trims the draft, and lays zeros over what the deleted entries took up. -/
theorem after_trims [Codec.Coders] {operations : List Operation} {ranges : List (Nat × Nat)}
    (hread : Directory.read image = .ok directory)
    (ht : ∀ operation ∈ operations, operation.Trims directory.comment.size)
    (hcleared : Cleared image ranges before) :
    ∃ left, after ⟨.trimmed directory entries comment, some before⟩ operations =
        ⟨.trimmed directory
          (Operation.strikeAll Entry.name entries
            (succeeding ⟨.trimmed directory entries comment, some before⟩ operations))
          (Operation.lastComment comment
            (succeeding ⟨.trimmed directory entries comment, some before⟩ operations)),
          some left⟩ ∧
      Cleared image
        (ranges ++ clearedAlong ⟨.trimmed directory entries comment, some before⟩ operations)
        left := by
  induction operations generalizing entries comment before ranges with
  | nil => exact ⟨before, rfl, by simpa [clearedAlong] using hcleared⟩
  | cons operation rest ih =>
    rw [List.forall_mem_cons] at ht
    match operation with
    | .eraseInPlace name =>
      cases hfound : (Draft.trimmed directory entries comment).findErasable before name with
      | error fault =>
        have hfail : operate ⟨.trimmed directory entries comment, some before⟩
            (.eraseInPlace name) =
              (⟨.trimmed directory entries comment, some before⟩, .error fault) := by
          simp only [operate, eraseInPlace, hfound]
        simp only [after, succeeding, clearedAlong, cleared, hfail, hfound, List.nil_append]
        exact ih ht.2 hcleared
      | ok found =>
        obtain ⟨position, start, count⟩ := found
        obtain ⟨hdone, hfit⟩ := eraseInPlace_trimmed hfound
        simp only [after, succeeding, clearedAlong, cleared, operate, hdone, hfound]
        obtain ⟨left, hafter, hleft⟩ := ih ht.2 (hcleared.zeroFill hfit)
        rw [List.append_assoc] at hleft
        exact ⟨left, hafter, hleft⟩
    | .call (.setComment next) =>
      have hfits := Nat.le_trans ht.1 (Directory.read_ok hread).1.comment_le
      have hdone : operate ⟨.trimmed directory entries comment, some before⟩
          (.call (.setComment next)) =
            (⟨.trimmed directory entries next, some before⟩, .ok ()) :=
        setComment_of_le _ _ hfits
      simp only [after, succeeding, clearedAlong, cleared, hdone, List.nil_append]
      exact ih ht.2 hcleared

end

/-- A session on an archive that only deletes in place and sets comments no longer than the old one,
whatever of that fails, finishes an archive of the old length. In front of the old directory it is
the old one with zeros over what the deleted entries took up; from there on are zeros, and the new
directory ends with the last byte. Read again it lists the entries that are left, numbered again,
and has the last comment. -/
theorem toBytes_trimmed [Codec.Coders] {image bytes : ByteArray} {start : Writer}
    {operations : List Operation}
    (hsome : image ≠ ByteArray.empty) (hstart : ofBytes image = .ok start)
    (ht : ∀ operation ∈ operations, operation.Trims start.draft.comment.size)
    (hclose : (start.after operations).toBytes = .ok bytes) :
    ∃ directory left comment front, Directory.read image = .ok directory ∧
      left = Operation.strikeAll Entry.name directory.entries.toList
        (start.succeeding operations) ∧
      comment = Operation.lastComment directory.comment (start.succeeding operations) ∧
      bytes = front ++ Directory.encode (Entry.numberFrom 0 left) front.size comment ∧
      bytes.size = image.size ∧ directory.offset ≤ front.size ∧
      (∀ index < directory.offset, byteAt bytes index =
        if InRanges (start.clearedAlong operations) index then 0 else byteAt image index) ∧
      (∀ index, directory.offset ≤ index → index < front.size → byteAt bytes index = 0) ∧
      (Directory.Rereadable bytes left.length comment.size →
        ∃ archive, Archive.ofBytes bytes = .ok archive ∧
          archive.entries = .ok (Entry.numberFrom 0 left).toArray ∧
          archive.comment = .ok comment ∧ archive.directory.offset = front.size) := by
  rcases ofBytes_ok hstart with ⟨hempty, -⟩ | ⟨directory, hread, rfl⟩
  · exact absurd hempty hsome
  have hsound := after_sound (ofBytes_sound hstart) operations
  rw [← Draft.trimmed_all hread] at ht hclose hsound ⊢
  obtain ⟨after, hafter, hcleared⟩ := after_trims hread ht (Cleared.refl image)
  obtain ⟨done, hdone⟩ : ∃ done, done = succeeding ⟨.trimmed directory directory.entries.toList
    directory.comment, some image⟩ operations := ⟨_, rfl⟩
  obtain ⟨left, hleft⟩ : ∃ left,
    left = Operation.strikeAll Entry.name directory.entries.toList done := ⟨_, rfl⟩
  obtain ⟨comment, hcomment⟩ : ∃ comment,
    comment = Operation.lastComment directory.comment done := ⟨_, rfl⟩
  have hsublist : left.Sublist directory.entries.toList := by
    rw [hleft]
    exact Operation.strikeAll_sublist Entry.name directory.entries.toList done
  have hshort : comment.size ≤ directory.comment.size := by
    rw [hcomment, hdone]
    exact Operation.size_lastComment_le (Nat.le_refl _) fun operation hmem =>
      ht operation (mem_of_mem_succeeding hmem)
  rw [← hdone, ← hleft, ← hcomment] at hafter
  rw [hafter] at hclose hsound
  have hdraft := hsound after rfl
  obtain ⟨hfrom, hto⟩ := Draft.closingStart_trimmed hread hsublist hshort
  have hfront := Draft.size_closingFront hdraft.cursor_eq hdraft.bodyEnd_le
  have hsize := Draft.size_finished hdraft.cursor_eq hdraft.bodyEnd_le
  have hread' := hdraft.read_finished hclose
  obtain ⟨-, -, rfl⟩ := hdraft.toBytes_ok.mp hclose
  rw [← hdone]
  refine ⟨directory, left, comment, _, hread, hleft, hcomment, hdraft.finished_eq, ?_, ?_, ?_, ?_, ?_⟩
  · rw [hsize, ← hto]
    simp [Draft.trimmed]
  · rw [hfront]
    exact hfrom
  · intro index hi
    rw [Draft.byteAt_finished hdraft.cursor_eq hdraft.bodyEnd_le (by rwa [Draft.bodyEnd_trimmed]),
      hcleared.byteAt_eq, List.nil_append]
  · intro index hlow hhigh
    rw [hfront] at hhigh
    exact Draft.byteAt_finished_cleared hdraft.cursor_eq hdraft.bodyEnd_le
      (by rwa [Draft.bodyEnd_trimmed]) hhigh
  · intro hreread
    have hlength : (Draft.trimmed directory left comment).entries.size = left.length := by
      simp [Draft.trimmed, Entry.length_numberFrom]
    obtain ⟨hopen, hon⟩ := Archive.on_of_read (hread' (by rwa [hlength]))
    exact ⟨_, hopen, hon.entries_eq, hon.comment_eq, rfl⟩

/-- Two files in front of their directory, with a comment. -/
def noted : List Parcel := [.letter 0 "a" 0 0, .letter 1 "b" 32 0]

def notedImage : ByteArray :=
  Parcel.pack noted ++ Directory.encode (noted.map Parcel.entry) 64 "note".toUTF8

/-- The last deletion fails: there is no such entry. -/
def trims : List Operation := [
  .eraseInPlace "a", .call (.setComment "é".toUTF8), .eraseInPlace "c"]

theorem toBytes_trimmed_noted :
    ∃ start bytes front, ofBytes notedImage = .ok start ∧
      (start.after trims).toBytes = .ok bytes ∧ bytes.size = 184 ∧ 64 ≤ front.size ∧
      bytes = front ++ Directory.encode [(Parcel.letter 0 "b" 32 0).entry] front.size
        "é".toUTF8 ∧
      ∀ index < 64, byteAt bytes index = if index < 32 then 0 else byteAt notedImage index := by
  have hread : Directory.read notedImage =
      .ok ⟨(noted.map Parcel.entry).toArray, "note".toUTF8, 64, 184⟩ := by
    decide +kernel
  have hstart := ofBytes_of_read hread
  generalize hnoted : (⟨.goingOn ⟨(noted.map Parcel.entry).toArray, "note".toUTF8, 64, 184⟩,
    some notedImage⟩ : Writer) = start at hstart
  have hrun : (start.after trims).toBytes.toOption.isSome ∧
      start.succeeding trims = trims.take 2 ∧ start.clearedAlong trims = [(0, 32)] := by
    rw [← hnoted]
    decide +kernel
  obtain ⟨hcloses, hdone, hcleared⟩ := hrun
  obtain ⟨bytes, hbytes⟩ := Option.isSome_iff_exists.mp hcloses
  have hclose := toOption_eq_some.mp hbytes
  have ht : ∀ operation ∈ trims, operation.Trims start.draft.comment.size := by
    rw [← hnoted]
    simp only [trims, List.forall_mem_cons]
    exact ⟨trivial, (by decide : "é".toUTF8.size ≤ "note".toUTF8.size), trivial, by simp⟩
  obtain ⟨directory, left, comment, front, hread', hleft, hcomment, hfront, hsize, hoffset, hbefore,
    -, -⟩ := toBytes_trimmed (by decide +kernel) hstart ht hclose
  obtain rfl := Except.ok.inj (hread.symm.trans hread')
  rw [hdone] at hleft hcomment
  have hb : Entry.numberFrom 0 left = [(Parcel.letter 0 "b" 32 0).entry] := by
    rw [hleft]
    decide +kernel
  rw [hb, hcomment] at hfront
  refine ⟨start, bytes, front, hstart, hclose, ?_, hoffset, hfront, fun index hi => ?_⟩
  · rw [hsize]
    decide +kernel
  · rw [hbefore index hi, hcleared]
    simp [InRanges]

end Writer

end ClassicZip
