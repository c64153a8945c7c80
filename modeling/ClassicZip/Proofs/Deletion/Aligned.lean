import ClassicZip.Proofs.Archive.Reads
import ClassicZip.Proofs.Deletion.Canonical

/-!
# Alignment lasts as long as the entry

What was added with an alignment stays aligned: later additions and deletions in place leave it
where it is, a rebuild finds the alignment in the extra field and pads anew, and to finish an
archive and take it up again changes nothing. `Writer.Traced.alignment_observed` says so of the
writer's image all along and, through the reader, of every archive that it finishes.
-/

namespace ClassicZip

namespace Alignment

/-- The extra field is a sequence of blocks. With an alignment the data starts at a multiple of it,
and it is found in the extra field. Without one there is no alignment block. -/
structure Observed (alignment : UInt16) (here : LocalEntry) : Prop where
  dvd : alignment ≠ 0 → alignment.toNat ∣ here.dataOffset
  find?_eq : alignment ≠ 0 → find? here.extra = some alignment
  blocks : ∃ blocks, ExtraBlock.parse? here.extra = some blocks ∧
    (alignment = 0 → ∀ block ∈ blocks, block.id ≠ blockId)

theorem Honoured.observed {alignment : UInt16} {here : LocalEntry}
    (h : Honoured alignment here) : Observed alignment here where
  dvd hne := by
    cases h with
    | unaligned hzero => exact absurd hzero hne
    | aligned _ hdvd => exact hdvd
  find?_eq hne := h.find?_eq.trans (if_neg hne)
  blocks := by
    cases h with
    | unaligned _ hextra =>
      rw [hextra, ← ExtraBlock.encodeAll_nil]
      exact ⟨[], ExtraBlock.parse?_encodeAll (by simp), fun _ => by simp⟩
    | @aligned padding hpower _ hpadding hextra =>
      refine ⟨[asBlock alignment padding], ?_, fun hzero => ?_⟩
      · rw [hextra, ← ByteArray.empty_append (b := block _ _), ← ExtraBlock.encodeAll_nil]
        exact parse?_append_block (by simp) hpadding
      · exact absurd hzero (ne_zero_of_isPowerOfTwo hpower)

end Alignment

theorem Archive.On.dataOffset_eq {archive : Archive} {image : ByteArray} (ho : archive.On image)
    {entry : Entry} {here : LocalEntry} {stored : ByteArray}
    (h : entry.readStored image image.size = .ok (here, stored)) :
    archive.dataOffset entry = .ok here.dataOffset :=
  ho.dataOffset_eq_ok.mpr (Entry.headerAt_of_locate (Entry.readStored_ok.mp h).locate_eq)

section
variable [Codec.Coders]

/-- The entry is what the addition made, and it can be read from the image, where it is aligned as
the addition asked. -/
def Addition.AlignedIn (image : ByteArray) (addition : Addition) (entry : Entry)
    (here : LocalEntry) : Prop :=
  addition.Makes entry ∧ (∃ stored, entry.readStored image image.size = .ok (here, stored)) ∧
    Alignment.Observed addition.alignment here

theorem Addition.Held.alignedIn {image : ByteArray} {addition : Addition} {entry : Entry}
    (h : addition.Held image entry) : ∃ here, addition.AlignedIn image entry here := by
  have hmakes := h.makes
  obtain ⟨here, stored, hheld⟩ := h
  exact ⟨here, hmakes, ⟨stored, Entry.readStored_ok.mpr hheld.toStoredAt⟩,
    hheld.honoured.observed⟩

namespace Writer

/-- The writer was started anew, was asked for operations and went on with archives that it had
finished. The ledger has what was added on the way and not deleted. -/
inductive Traced : Writer → Ledger → Prop
  | fresh : Traced fresh .empty
  | operate {writer next : Writer} {ledger : Ledger} (operation : Operation) :
      Traced writer ledger → writer.Clear operation →
      writer.operate operation = (next, .ok ()) → Traced next (ledger.record operation)
  | refused {writer next : Writer} {ledger : Ledger} {operation : Operation} {fault : Fault} :
      Traced writer ledger → writer.operate operation = (next, .error fault) → Traced next ledger
  | reopen {writer next : Writer} {ledger : Ledger} {bytes : ByteArray} :
      Traced writer ledger → writer.toBytes = .ok bytes →
      Directory.Rereadable bytes writer.draft.entries.size writer.draft.comment.size →
      ofBytes bytes = .ok next → Traced next ledger

section
variable {writer : Writer} {ledger : Ledger}

theorem Traced.keeps (h : writer.Traced ledger) : writer.Keeps ledger := by
  induction h with
  | fresh => exact fresh_keeps
  | operate operation _ hclear hdone ih => exact operate_keeps ih hclear hdone
  | refused _ hfault ih => rwa [operate_error hfault]
  | reopen _ hclose hreread hof ih => exact ih.reopen hclose hreread hof

theorem Traced.after {operations : List Operation} (h : writer.Traced ledger)
    (hclear : writer.ClearAlong operations) :
    (writer.after operations).Traced (ledger.recordAll (writer.succeeding operations)) :=
  after_carries (fun htraced => htraced.operate _) h hclear

theorem Keeps.opened {bytes : ByteArray} (h : writer.Keeps ledger)
    (hclose : writer.toBytes = .ok bytes)
    (hreread : Directory.Rereadable bytes writer.draft.entries.size writer.draft.comment.size) :
    ∃ archive next, Archive.ofBytes bytes = .ok archive ∧ archive.On bytes ∧
      archive.entries = .ok writer.draft.entries ∧ ofBytes bytes = .ok next ∧
      next.draft.entries = writer.draft.entries ∧ next.image = some bytes := by
  obtain ⟨draft, _ | image⟩ := writer
  · cases hclose
  · have hread := (h.laid image rfl).read_finished hclose hreread
    obtain ⟨hopen, hon⟩ := Archive.on_of_read hread
    exact ⟨_, _, hopen, hon, hon.entries_eq, ofBytes_of_read hread, rfl, rfl⟩

/-- Along every run that starts anew, with archives finished and taken up again on the way, what was
added and not deleted is aligned as it was asked for when it was added: in the image that is
written, and in every archive that comes of it, where the reader finds the data at a multiple of the
alignment. What was added without an alignment, as directories are, has no alignment block. -/
theorem Traced.alignment_observed (h : writer.Traced ledger) :
    (∀ image, writer.image = some image →
      List.Forall₂ (fun addition entry => ∃ here, addition.AlignedIn image entry here)
        ledger.additions writer.draft.entries.toList) ∧
    ∀ bytes, writer.toBytes = .ok bytes →
      Directory.Rereadable bytes writer.draft.entries.size writer.draft.comment.size →
      ∃ archive, Archive.ofBytes bytes = .ok archive ∧
        archive.entries = .ok writer.draft.entries ∧
        List.Forall₂ (fun addition entry => ∃ here, addition.AlignedIn bytes entry here ∧
          archive.dataOffset entry = .ok here.dataOffset)
          ledger.additions writer.draft.entries.toList := by
  have hkeeps := h.keeps
  refine ⟨fun image himage => (hkeeps.held image himage).imp fun _ _ hheld => hheld.alignedIn,
    fun bytes hclose hreread => ?_⟩
  -- The archive is read from the bytes that the writer going on with it has as its image.
  obtain ⟨archive, next, hopen, hon, hentries, hof, hsame, himage⟩ := hkeeps.opened hclose hreread
  refine ⟨archive, hopen, hentries, ?_⟩
  rw [← hsame]
  refine ((hkeeps.reopen hclose hreread hof).held bytes himage).imp fun addition entry hheld => ?_
  obtain ⟨here, haligned⟩ := hheld.alignedIn
  obtain ⟨stored, hstored⟩ := haligned.2.1
  exact ⟨here, haligned, hon.dataOffset_eq hstored⟩

end

end Writer

end

namespace Writer

/-- Two letters are added, and a rebuild takes one away again and closes the gap in front. -/
def lettering : List Operation := [addLetter "b", addLetter "c", .rebuildWithout ["b"]]

def alignedLast : Operation :=
  .call (.add (.file "d" ⟨#[1, 2]⟩ { method := .store, alignment := 16, modified := 0 }))

/-- What is left when a last file is added, after the archive was finished and taken up again. -/
def alignedAround : Ledger where
  additions := [
    .file "a" ⟨#[1, 2]⟩ { method := .store, alignment := 8, modified := 0 },
    .file "c" ⟨#[120]⟩ { method := .store, modified := 0 },
    .file "d" ⟨#[1, 2]⟩ { method := .store, alignment := 16, modified := 0 }]
  comment := "é".toUTF8

theorem alignment_observed_reopened :
    ∃ bytes next closed archive,
      (thinned.after lettering).toBytes = .ok bytes ∧ ofBytes bytes = .ok next ∧
      (next.operate alignedLast).1.toBytes = .ok closed ∧ Archive.ofBytes closed = .ok archive ∧
      List.Forall₂ (fun (addition : Addition) entry => ∃ here : LocalEntry,
          addition.AlignedIn closed entry here ∧ archive.dataOffset entry = .ok here.dataOffset)
        alignedAround.additions (next.operate alignedLast).1.draft.entries.toList := by
  have hclear : fresh.ClearAlong filling ∧ thinned.ClearAlong lettering := by decide +kernel
  have hledger : (((Ledger.empty.recordAll (fresh.succeeding filling)).record
      (.eraseInPlace "a")).recordAll (thinned.succeeding lettering)).record alignedLast =
        alignedAround := by
    decide +kernel
  have hcheck : ((thinned.after lettering).toBytes.toOption.bind fun bytes =>
      (ofBytes bytes).toOption.bind fun next =>
        (next.operate alignedLast).2.toOption.bind fun _ =>
          (next.operate alignedLast).1.toBytes.toOption.map fun closed =>
            decide (Directory.Rereadable bytes (thinned.after lettering).draft.entries.size
                (thinned.after lettering).draft.comment.size ∧
              Directory.Rereadable closed (next.operate alignedLast).1.draft.entries.size
                (next.operate alignedLast).1.draft.comment.size)) = some true := by
    decide +kernel
  simp only [Option.bind_eq_some_iff, Option.map_eq_some_iff, toOption_eq_some,
    decide_eq_true_eq] at hcheck
  obtain ⟨bytes, hclose, next, hof, _, hlast, closed, hclosed, hreread, hreclosed⟩ := hcheck
  have hthinned := (Traced.fresh.after hclear.1).operate (.eraseInPlace "a") trivial
    eraseInPlace_filling
  have hreopened := (hthinned.after hclear.2).reopen hclose hreread hof
  have hadded : next.operate alignedLast = ((next.operate alignedLast).1, .ok ()) :=
    Prod.ext rfl hlast
  have htraced := hreopened.operate alignedLast trivial hadded
  rw [hledger] at htraced
  obtain ⟨archive, hopen, -, heach⟩ := htraced.alignment_observed.2 closed hclosed hreclosed
  exact ⟨bytes, next, closed, archive, hclose, hof, hclosed, hopen, heach⟩

end Writer

end ClassicZip
