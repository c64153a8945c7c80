import ClassicZip.Proofs.Codec.Batches
import ClassicZip.Proofs.Writer.Reclosing
import ClassicZip.Proofs.Writer.Sessions

/-!
# Finished archives are reopened

An archive that a session finished can be opened. It lists what the writer listed, and gives back
the data of every addition; where the session went on with an archive, that archive is the front of
the new one, and all its entries are read as before.
-/

namespace ClassicZip

namespace Writer

section
variable {calls : List Call} {writer : Writer} {bytes : ByteArray}

theorem run_reopened [Codec.Coders] {draft : Draft} {image : ByteArray} (hf : draft.Fits image)
    (hrun : run ⟨draft, some image⟩ calls = .ok writer) (hclose : writer.toBytes = .ok bytes)
    (hbehind : ∀ old, writer.draft.oldTrailer = some old → writer.draft.cursor ≠ old.stop)
    (hfew : writer.draft.entries.size < maxLength)
    (hs : EndRecord.SoleSignature bytes writer.draft.comment.size)
    (hr : ∀ addition ∈ Call.additions calls, addition.Reversible) :
    (∃ more, bytes = image ++ more) ∧
      ∃ archive added, Archive.ofBytes bytes = .ok archive ∧ archive.On bytes ∧
        archive.entries = .ok writer.draft.entries ∧
        writer.draft.entries = draft.entries ++ added ∧
        archive.comment = .ok writer.draft.comment ∧
        writer.draft.comment = Call.lastComment draft.comment calls ∧
        archive.GivesBack (Call.additions calls) added.toList := by
  obtain ⟨parcels, hgrown, hkept, hcomment⟩ := run_ok hf hrun
  obtain ⟨final, rfl⟩ : ∃ final, writer = ⟨final, some (image ++ Parcel.pack parcels)⟩ :=
    ⟨writer.draft, by rw [← hgrown.image_eq]⟩
  obtain ⟨rfl, -⟩ := toBytes_appends hgrown.fits hbehind hclose
  obtain ⟨hopen, hon⟩ := Archive.on_of_read (read_toBytes hgrown.fits hbehind hclose hfew hs)
  rw [ByteArray.append_assoc] at hopen hon ⊢
  refine ⟨⟨_, rfl⟩, _, (parcels.map (·.entry)).toArray, hopen, hon, hon.entries_eq, ?_,
    hon.comment_eq, hcomment, ?_⟩
  · apply Array.toList_inj.mp
    rw [hgrown.entries_eq, Array.toList_append]
  · exact hon.givesBack hkept (hgrown.packed.readRaw hon) hr

theorem fresh_behind [Codec.Coders] (hrun : fresh.run calls = .ok writer) :
    ∀ old, writer.draft.oldTrailer = some old → writer.draft.cursor ≠ old.stop := by
  intro old hold
  obtain ⟨parcels, hgrown, -⟩ := run_ok Draft.fits_empty hrun
  rw [hgrown.oldTrailer_eq] at hold
  cases hold

/-- What a session on a new writer wrote is read back: the entries are the writer's, the comment
is its comment, and each entry has the data that was handed over for it. -/
theorem fresh_reopened [Codec.Coders] (hrun : fresh.run calls = .ok writer)
    (hclose : writer.toBytes = .ok bytes) (hfew : writer.draft.entries.size < maxLength)
    (hs : EndRecord.SoleSignature bytes writer.draft.comment.size)
    (hr : ∀ addition ∈ Call.additions calls, addition.Reversible) :
    ∃ archive, Archive.ofBytes bytes = .ok archive ∧
      archive.entries = .ok writer.draft.entries ∧
      archive.comment = .ok writer.draft.comment ∧
      writer.draft.comment = Call.lastComment ByteArray.empty calls ∧
      archive.GivesBack (Call.additions calls) writer.draft.entries.toList := by
  obtain ⟨-, archive, added, hopen, -, hentries, hadded, hcomment, hlast, hback⟩ :=
    run_reopened Draft.fits_empty hrun hclose (fresh_behind hrun) hfew hs hr
  refine ⟨archive, hopen, hentries, hcomment, hlast, ?_⟩
  rw [hadded]
  simpa [Draft.empty] using hback

/-- A comment, an aligned file, a directory, and a compressed file under the name of the first. -/
def sampleCalls : List Call := [
  .setComment "é".toUTF8,
  .add (.file "a/" ⟨#[1, 2]⟩ { method := .store, alignment := 8, modified := 0 }),
  .add (.directory "" { modified := 0 }),
  .add (.file "a/" ⟨#[3]⟩ { level := some 0, modified := 0 })]

theorem sampleCalls_reversible :
    ∀ addition ∈ Call.additions sampleCalls, addition.Reversible := by
  simp only [sampleCalls, Call.additions, List.forall_mem_cons]
  refine ⟨trivial, trivial, ?_, by simp⟩
  show Codec.Deflate.decoder.run 1 (Codec.Deflate.decoder.start (Codec.Deflate.encode 0 ⟨#[3]⟩)) =
    .finished ⟨#[3]⟩
  -- The only block is a stored one: its head, its byte, and the end.
  refine (Codec.Decoder.run_of_more (Nat.zero_le _) rfl).trans ?_
  refine (Codec.Decoder.run_of_more (Nat.zero_le _) rfl).trans ?_
  exact Codec.Decoder.run_of_finished (by decide) rfl

theorem fresh_reopened_sample :
    ∃ writer bytes archive, fresh.run sampleCalls = .ok writer ∧ writer.toBytes = .ok bytes ∧
      Archive.ofBytes bytes = .ok archive ∧ archive.entries = .ok writer.draft.entries ∧
      archive.comment = .ok writer.draft.comment ∧
      archive.GivesBack (Call.additions sampleCalls) writer.draft.entries.toList := by
  have hcheck : ((fresh.run sampleCalls).toOption.bind fun writer =>
      writer.toBytes.toOption.map fun bytes =>
        decide (writer.draft.entries.size < maxLength ∧
          EndRecord.SoleSignature bytes writer.draft.comment.size)) = some true := by
    decide +kernel
  simp only [Option.bind_eq_some_iff, Option.map_eq_some_iff, toOption_eq_some,
    decide_eq_true_eq] at hcheck
  obtain ⟨writer, hrun, bytes, hclose, hfew, hs⟩ := hcheck
  obtain ⟨archive, hopen, hentries, hcomment, -, hback⟩ :=
    fresh_reopened hrun hclose hfew hs sampleCalls_reversible
  exact ⟨writer, bytes, archive, hrun, hclose, hopen, hentries, hcomment, hback⟩

/-- A writer that added something to an archive puts its directory behind the additions. -/
theorem goingOn_behind [Codec.Coders] {directory : Directory} {image : ByteArray}
    (hread : Directory.read image = .ok directory)
    (hrun : run ⟨.goingOn directory, some image⟩ calls = .ok writer)
    (hadd : Call.additions calls ≠ []) :
    ∀ old, writer.draft.oldTrailer = some old → writer.draft.cursor ≠ old.stop := by
  intro old hold
  obtain ⟨parcels, hgrown, hkept, -⟩ := run_ok (Draft.fits_goingOn hread) hrun
  rw [hgrown.oldTrailer_eq] at hold
  obtain rfl := Option.some.inj hold
  have hsome : parcels ≠ [] := by
    rintro rfl
    exact hadd (List.forall₂_nil_right_iff.mp hkept)
  have hpos := Parcel.size_pack_pos hsome
  have hstop : (Draft.goingOn directory).cursor = image.size := (Directory.read_ok hread).2.1
  show writer.draft.cursor ≠ (Draft.goingOn directory).cursor
  rw [hgrown.fits.cursor_eq, ByteArray.size_append, hstop]
  omega

/-- A session that adds to an archive, whatever other calls fail in it, leaves its bytes in front of
the new ones. Reopened, the archive lists the old entries and then the added ones. What could be
read of an entry before is read again, and the data of every addition comes back. -/
theorem ofBytes_reopened [Codec.Coders] {image : ByteArray} {start : Writer} {done : List Call}
    (hstart : ofBytes image = .ok start) (hsession : start.session calls = (writer, done))
    (hadd : Call.additions done ≠ []) (hclose : writer.toBytes = .ok bytes)
    (hfew : writer.draft.entries.size < maxLength)
    (hs : EndRecord.SoleSignature bytes writer.draft.comment.size)
    (hr : ∀ addition ∈ Call.additions done, addition.Reversible) :
    (∃ more, bytes = image ++ more) ∧
      ∃ archive added, Archive.ofBytes bytes = .ok archive ∧
        archive.entries = .ok (start.draft.entries ++ added) ∧
        archive.comment = .ok (Call.lastComment start.draft.comment done) ∧
        archive.GivesBack (Call.additions done) added.toList ∧
        ((image = ByteArray.empty ∧ start = fresh) ∨
          ∃ old, Archive.ofBytes image = .ok old ∧
            old.entries = .ok start.draft.entries ∧ old.comment = .ok start.draft.comment ∧
            ∀ entry, old.KeepsRead archive entry) := by
  have hrun := run_session start calls
  rw [hsession] at hrun
  rcases ofBytes_ok hstart with ⟨rfl, rfl⟩ | ⟨directory, hread, rfl⟩
  · obtain ⟨hfront, archive, added, hopen, -, hentries, hadded, hcomment, hlast, hback⟩ :=
      run_reopened Draft.fits_empty hrun hclose (fresh_behind hrun) hfew hs hr
    rw [hadded] at hentries
    rw [hlast] at hcomment
    exact ⟨hfront, archive, added, hopen, hentries, hcomment, hback, .inl ⟨rfl, rfl⟩⟩
  · obtain ⟨⟨more, rfl⟩, archive, added, hopen, hon, hentries, hadded, hcomment, hlast, hback⟩ :=
      run_reopened (Draft.fits_goingOn hread) hrun hclose (goingOn_behind hread hrun hadd) hfew
        hs hr
    rw [hadded] at hentries
    rw [hlast] at hcomment
    obtain ⟨hold, honold⟩ := Archive.on_of_read hread
    exact ⟨⟨more, rfl⟩, archive, added, hopen, hentries, hcomment, hback,
      .inr ⟨_, hold, honold.entries_eq, honold.comment_eq, .of_append honold hon⟩⟩

def badCall : Call := .add (.file "b" ⟨#[4]⟩ { alignment := 3, modified := 0 })

theorem ofBytes_reopened_sample :
    ∃ start writer bytes archive old added more,
      ofBytes loneImage = .ok start ∧
      start.session (badCall :: sampleCalls) = (writer, sampleCalls) ∧
      writer.toBytes = .ok bytes ∧
      bytes = loneImage ++ more ∧
      Archive.ofBytes bytes = .ok archive ∧
      archive.entries = .ok (start.draft.entries ++ added) ∧
      archive.GivesBack (Call.additions sampleCalls) added.toList ∧
      Archive.ofBytes loneImage = .ok old ∧
      ∀ entry, old.KeepsRead archive entry := by
  have hcheck : ((ofBytes loneImage).toOption.bind
      fun start =>
        let (writer, done) := start.session (badCall :: sampleCalls)
        writer.toBytes.toOption.map fun bytes =>
          decide (done = sampleCalls ∧ writer.draft.entries.size < maxLength ∧
            EndRecord.SoleSignature bytes writer.draft.comment.size)) = some true := by
    decide +kernel
  simp only [Option.bind_eq_some_iff, Option.map_eq_some_iff, toOption_eq_some,
    decide_eq_true_eq] at hcheck
  obtain ⟨start, hstart, bytes, hclose, hdone, hfew, hs⟩ := hcheck
  have hsession : start.session (badCall :: sampleCalls) =
      ((start.session (badCall :: sampleCalls)).1, sampleCalls) := Prod.ext rfl hdone
  obtain ⟨⟨more, hmore⟩, archive, added, hopen, hentries, hcomment, hback, hold⟩ :=
    ofBytes_reopened hstart hsession (by simp [sampleCalls, Call.additions]) hclose hfew hs
      sampleCalls_reversible
  rcases hold with ⟨hempty, -⟩ | ⟨old, hopenOld, -, -, hkeeps⟩
  · exact absurd hempty (by decide)
  · exact ⟨start, _, bytes, archive, old, added, more, hstart, hsession, hclose, hmore, hopen,
      hentries, hback, hopenOld, hkeeps⟩

end

end Writer

end ClassicZip
