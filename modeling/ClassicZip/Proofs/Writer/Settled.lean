import ClassicZip.Proofs.Writer.Trimming

/-!
# Closing is settled by taking up again

Whatever was asked of a writer before it was closed, the archive that it finished is taken up as
just what the writer held, and is closed again byte for byte as it is. This is so wherever the
directory went: behind the last entry, or into the room of an older one, up to its end or past it.
-/

namespace ClassicZip

namespace Writer

section
variable [Codec.Coders]

/-- The writers that can be had: new ones, those that took up any archive that can be read, and what
becomes of one when it is asked for something. -/
inductive Obtained : Writer → Prop
  | fresh : Obtained fresh
  | takeUp {image : ByteArray} {writer : Writer} : ofBytes image = .ok writer → Obtained writer
  | operate {writer : Writer} (operation : Operation) :
      Obtained writer → Obtained (writer.operate operation).1

variable {writer : Writer}

theorem Obtained.after (h : Obtained writer) (operations : List Operation) :
    Obtained (writer.after operations) := by
  induction operations generalizing writer with
  | nil => exact h
  | cons operation rest ih => exact ih (h.operate operation)

theorem Obtained.sound (h : Obtained writer) : writer.Sound := by
  induction h with
  | fresh => exact fresh_sound
  | takeUp hof => exact ofBytes_sound hof
  | operate operation _ ih => exact operate_sound ih operation

/-- What a writer finished is taken up as it was finished: the same entries and the same comment,
and the directory where the writer has put it. To close it then, with no change in between, puts the
directory there again and gives the same bytes. -/
theorem Obtained.toBytes_settled {bytes : ByteArray} (h : Obtained writer)
    (hclose : writer.toBytes = .ok bytes)
    (hreread : Directory.Rereadable bytes writer.draft.entries.size writer.draft.comment.size) :
    ∃ next, ofBytes bytes = .ok next ∧ next.toBytes = .ok bytes ∧
      next.image = some bytes ∧ next.draft.entries = writer.draft.entries ∧
      next.draft.comment = writer.draft.comment ∧ next.draft.cursor = bytes.size ∧
      next.draft.oldTrailer = some ⟨writer.draft.closingStart, bytes.size⟩ ∧
      next.draft.closingStart = writer.draft.closingStart := by
  obtain ⟨draft, _ | image⟩ := writer
  · cases hclose
  have hdraft : draft.Sound image := h.sound image rfl
  have hread := hdraft.read_finished hclose hreread
  have hof := ofBytes_of_read hread
  have hagain := hdraft.toBytes_reopened hclose hreread hof
  have hfront := Draft.size_closingFront hdraft.cursor_eq hdraft.bodyEnd_le
  obtain ⟨-, -, hbytes⟩ := hdraft.toBytes_ok.mp hclose
  have hsize : bytes.size = draft.closingStart +
      (Directory.encode draft.entries.toList draft.closingStart draft.comment).size := by
    rw [hbytes, Draft.size_finished hdraft.cursor_eq hdraft.bodyEnd_le]
  rw [hfront] at hof hagain hread
  refine ⟨_, hof, hagain, rfl, rfl, rfl, rfl, rfl, ?_⟩
  -- The old room is filled exactly, so the new directory does not move in it.
  rw [Draft.closingStart_goingOn hread, Directory.rewrittenStart]
  dsimp only
  omega

end

/-- An entry was written behind the old directory, which stays in the archive as dead bytes. -/
theorem Obtained.toBytes_settled_noted :
    ∃ start bytes next, ofBytes notedImage = .ok start ∧
      (start.operate (addLetter "c")).1.toBytes = .ok bytes ∧
      ofBytes bytes = .ok next ∧ next.toBytes = .ok bytes ∧
      next.draft.oldTrailer = some ⟨216, 383⟩ := by
  have hcheck : ((ofBytes notedImage).toOption.bind fun start =>
      (start.operate (addLetter "c")).1.toBytes.toOption.map fun bytes =>
        decide (Directory.Rereadable bytes 3 4 ∧ bytes.size = 383 ∧
          (start.operate (addLetter "c")).1.draft.entries.size = 3 ∧
          (start.operate (addLetter "c")).1.draft.comment.size = 4 ∧
          (start.operate (addLetter "c")).1.draft.closingStart = 216)) = some true := by
    decide +kernel
  simp only [Option.bind_eq_some_iff, Option.map_eq_some_iff, toOption_eq_some,
    decide_eq_true_eq] at hcheck
  obtain ⟨start, hstart, bytes, hclose, hreread, hsize, hentries, hcomment, hclosing⟩ := hcheck
  rw [← hentries, ← hcomment] at hreread
  obtain ⟨next, hof, hagain, -, -, -, -, hroom, -⟩ :=
    ((Obtained.takeUp hstart).operate (addLetter "c")).toBytes_settled hclose hreread
  rw [hclosing, hsize] at hroom
  exact ⟨start, bytes, next, hstart, hclose, hof, hagain, hroom⟩

end Writer

end ClassicZip
