import ClassicZip.Proofs.Deletion.Erasing
import ClassicZip.Proofs.Deletion.Rebuilding
import ClassicZip.Proofs.Writer.Operations

/-!
# Drafts stay sound

A draft is sound for its image when it fits the image and has the room of an old trailer in front of
its cursor. New writers are sound, and whatever is asked of a writer keeps it sound, so a finished
archive is always the body of the image with a directory behind it.
-/

namespace ClassicZip

open Bytes

/-- The draft fits its image, and the room of an old trailer lies in front of the cursor. -/
structure Draft.Sound (draft : Draft) (image : ByteArray) : Prop extends draft.Fits image where
  start_le : ∀ old, draft.oldTrailer = some old → old.start ≤ old.stop
  stop_le : ∀ old, draft.oldTrailer = some old → old.stop ≤ draft.cursor

def Writer.Sound (writer : Writer) : Prop :=
  ∀ image, writer.image = some image → writer.draft.Sound image

namespace Draft

theorem sound_empty : Draft.empty.Sound ByteArray.empty where
  toFits := fits_empty
  start_le := by simp [empty]
  stop_le := by simp [empty]

theorem sound_goingOn {image : ByteArray} {directory : Directory}
    (h : Directory.read image = .ok directory) : (goingOn directory).Sound image where
  toFits := fits_goingOn h
  start_le := by
    rintro _ ⟨rfl⟩
    obtain ⟨-, himage, hfit⟩ := Directory.read_ok h
    dsimp only
    omega
  stop_le := by
    rintro _ ⟨rfl⟩
    exact Nat.le_refl _

section
variable {draft : Draft} {image : ByteArray}

theorem Sound.bodyEnd_le (h : draft.Sound image) : draft.bodyEnd ≤ draft.cursor := by
  rcases draft.bodyEnd_cases with ⟨hbody, -⟩ | ⟨old, hold, hstop, hbody, -⟩
  · exact Nat.le_of_eq hbody
  · rw [hbody, hstop]
    exact h.start_le old hold

theorem Sound.toBytes_ok (h : draft.Sound image) {bytes : ByteArray} :
    Writer.toBytes ⟨draft, some image⟩ = .ok bytes ↔
      draft.entries.size ≤ maxLength ∧ (draft.finished image).size ≤ maxOffset ∧
        bytes = draft.finished image :=
  Writer.toBytes_ok h.cursor_eq h.bodyEnd_le

theorem Sound.finished_eq (h : draft.Sound image) :
    draft.finished image = draft.closingFront image ++ Directory.encode draft.entries.toList
      (draft.closingFront image).size draft.comment := by
  rw [size_closingFront h.cursor_eq h.bodyEnd_le]
  rfl

theorem Sound.size_le_finished (h : draft.Sound image) :
    image.size ≤ (draft.finished image).size := by
  obtain ⟨-, -, hto⟩ := closingStart_spec h.bodyEnd_le
  rw [size_finished h.cursor_eq h.bodyEnd_le, ← h.cursor_eq]
  exact hto

theorem Sound.read_finished (h : draft.Sound image) {bytes : ByteArray}
    (hclose : Writer.toBytes ⟨draft, some image⟩ = .ok bytes)
    (hreread : Directory.Rereadable bytes draft.entries.size draft.comment.size) :
    Directory.read bytes =
      .ok ⟨draft.entries, draft.comment, (draft.closingFront image).size, bytes.size⟩ := by
  obtain ⟨-, hsize, rfl⟩ := h.toBytes_ok.mp hclose
  rw [h.finished_eq] at hsize hreread ⊢
  exact Directory.read_encode h.writable hreread.1 hsize hreread.2

theorem Sound.toBytes_reopened (h : draft.Sound image) {bytes : ByteArray} {next : Writer}
    (hclose : Writer.toBytes ⟨draft, some image⟩ = .ok bytes)
    (hreread : Directory.Rereadable bytes draft.entries.size draft.comment.size)
    (hof : Writer.ofBytes bytes = .ok next) : next.toBytes = .ok bytes := by
  have hread := h.read_finished hclose hreread
  obtain ⟨hfew, hsize, hbytes⟩ := h.toBytes_ok.mp hclose
  rw [Writer.ofBytes_of_read hread] at hof
  obtain rfl := Except.ok.inj hof
  rw [Writer.toBytes_goingOn_of_le hread hfew (hbytes ▸ hsize)]
  rw [h.finished_eq] at hbytes
  subst hbytes
  exact congrArg Except.ok (Directory.rewritten_encode draft.entries.toList _ _)

theorem Sound.remove (h : draft.Sound image) {position start count : Nat}
    (hfit : start + count ≤ image.size) :
    (draft.remove position).Sound (zeroFill image start count) where
  writable := writable_remove h.writable position
  cursor_eq := h.cursor_eq.trans (size_zeroFill hfit).symm
  start_le := h.start_le
  stop_le := h.stop_le

end

end Draft

namespace Writer

section
variable {writer next : Writer}

theorem Grown.sound {draft : Draft} {image : ByteArray} {parcels : List Parcel}
    (h : draft.Sound image) (hg : Grown draft image parcels writer) :
    writer.draft.Sound (image ++ Parcel.pack parcels) where
  toFits := hg.fits
  start_le := by
    rw [hg.oldTrailer_eq]
    exact h.start_le
  stop_le := by
    intro old hold
    rw [hg.oldTrailer_eq] at hold
    have hstop := h.stop_le old hold
    rw [h.cursor_eq] at hstop
    rw [hg.fits.cursor_eq, ByteArray.size_append]
    exact Nat.le_trans hstop (Nat.le_add_right _ _)

theorem ofBytes_sound {image : ByteArray} (h : ofBytes image = .ok writer) : writer.Sound := by
  rcases ofBytes_ok h with ⟨rfl, rfl⟩ | ⟨directory, hread, rfl⟩
  · rintro _ ⟨rfl⟩
    exact Draft.sound_empty
  · rintro _ ⟨rfl⟩
    exact Draft.sound_goingOn hread

theorem fresh_sound : fresh.Sound := by
  rintro _ ⟨rfl⟩
  exact Draft.sound_empty

theorem eraseInPlace_sound {name : String} (h : writer.Sound)
    (herase : writer.eraseInPlace name = (next, .ok ())) : next.Sound := by
  obtain ⟨draft, _ | image⟩ := writer
  · cases herase
  · obtain ⟨position, entry, start, count, -, -, hextent, rfl⟩ := eraseInPlace_ok herase
    obtain ⟨_, _, _, -, -, -, hfit, -⟩ := Entry.extent_ok hextent
    rintro _ ⟨rfl⟩
    exact (h image rfl).remove hfit

variable [Codec.Coders]

theorem perform_ok {draft : Draft} {image : ByteArray} {call : Call} (hf : draft.Fits image)
    (h : perform ⟨draft, some image⟩ call = (next, .ok ())) :
    ∃ parcels, Grown draft image parcels next ∧
      List.Forall₂ Addition.KeptIn (Call.additions [call]) parcels := by
  cases call with
  | add addition =>
    obtain ⟨parcel, hgrown, hkept, -⟩ := perform_add_ok hf h
    exact ⟨[parcel], hgrown, .cons hkept .nil⟩
  | setComment comment => exact ⟨[], (perform_setComment_ok hf h).1, .nil⟩

/-- Only to be closed makes a writer give its image away. -/
theorem image_of_operate {draft : Draft} {image : ByteArray} (hd : draft.Sound image)
    {operation : Operation} (hgoes : operation ≠ .close) :
    ∃ after, (operate ⟨draft, some image⟩ operation).1.image = some after := by
  generalize hnext : operate ⟨draft, some image⟩ operation = after
  obtain ⟨next, fault | _⟩ := after
  · rw [operate_error hnext]
    exact ⟨image, rfl⟩
  · cases operation with
    | call call =>
      obtain ⟨parcels, hgrown, -⟩ := perform_ok hd.toFits hnext
      exact ⟨_, hgrown.image_eq⟩
    | eraseInPlace name =>
      obtain ⟨position, entry, start, count, -, -, -, rfl⟩ := eraseInPlace_ok hnext
      exact ⟨_, rfl⟩
    | rebuildWithout names =>
      obtain ⟨bytes, -, hrebuilt⟩ := rebuildWithout_ok hnext
      obtain ⟨draft, rfl, -⟩ := ofBytes_fits hrebuilt
      exact ⟨bytes, rfl⟩
    | close => exact absurd rfl hgoes

/-- Whatever is asked of a writer, it stays sound. -/
theorem operate_sound (h : writer.Sound) (operation : Operation) :
    (writer.operate operation).1.Sound := by
  obtain ⟨draft, _ | image⟩ := writer
  · rw [operate_closed]
    exact h
  have hd : draft.Sound image := h image rfl
  generalize hnext : operate ⟨draft, some image⟩ operation = after
  obtain ⟨next, fault | _⟩ := after
  · rw [operate_error hnext]
    exact h
  cases operation with
  | call call =>
    obtain ⟨parcels, hgrown, -⟩ := perform_ok hd.toFits hnext
    intro grown himage
    obtain rfl := Option.some.inj (hgrown.image_eq.symm.trans himage)
    exact hgrown.sound hd
  | eraseInPlace name => exact eraseInPlace_sound h hnext
  | rebuildWithout names =>
    obtain ⟨bytes, -, hrebuilt⟩ := rebuildWithout_ok hnext
    exact ofBytes_sound hrebuilt
  | close =>
    intro image' himage
    rw [image_of_close hnext] at himage
    cases himage

theorem after_sound (h : writer.Sound) (operations : List Operation) :
    (writer.after operations).Sound := by
  induction operations generalizing writer with
  | nil => exact h
  | cons operation rest ih => exact ih (operate_sound h operation)

end

end Writer

end ClassicZip
