import ClassicZip.Proofs.LocalEntry.Spread
import ClassicZip.Proofs.Writer.Narrowing

/-!
# A written directory lists its own entries

`directoryBytes_exact`: the bytes that a draft writes for its entries, with anything behind them,
are parsed as these entries just where nothing of an entry is lost in its listing. The bytes are
then as many as the listings count of themselves.
-/

namespace ClassicZip

theorem Method.ofId_id_iff {method : Method} :
    Method.ofId method.id = method ↔ ∃ id, method = Method.ofId id := by
  constructor
  · intro h
    exact ⟨method.id, h.symm⟩
  · rintro ⟨id, rfl⟩
    rw [Method.id_ofId]

namespace Entry

theorem listable_iff {entry : Entry} :
    entry.Listable ↔ entry.name.size ≤ maxLength ∧ entry.extra.size ≤ maxLength ∧
      entry.comment.size ≤ maxLength ∧ ∃ id, entry.method = Method.ofId id := by
  rw [← Method.ofId_id_iff]
  constructor
  · intro h
    exact ⟨h.name_le, h.extra_le, h.comment_le, h.method_eq⟩
  · rintro ⟨hname, hextra, hcomment, hmethod⟩
    exact ⟨hname, hextra, hcomment, hmethod⟩

theorem numberedFrom_iff {first : Nat} {entries : List Entry} :
    NumberedFrom first entries ↔
      ∀ position (h : position < entries.length), entries[position].index = first + position := by
  constructor
  · intro h position hp
    exact h.index_eq hp
  · intro h
    induction entries generalizing first with
    | nil => trivial
    | cons entry rest ih =>
      refine ⟨h 0 (Nat.succ_pos _), ih fun position hp => ?_⟩
      have hnext := h (position + 1) (Nat.succ_lt_succ hp)
      rwa [List.getElem_cons_succ, Nat.add_comm position, ← Nat.add_assoc] at hnext

end Entry

namespace Draft

/-- The draft's entries lose nothing in their listings: each variable part fits its length field,
the method is one that an id names, and the index is the place in the directory. -/
structure Relistable (draft : Draft) : Prop where
  name_le : ∀ entry ∈ draft.entries, entry.name.size ≤ maxLength
  extra_le : ∀ entry ∈ draft.entries, entry.extra.size ≤ maxLength
  comment_le : ∀ entry ∈ draft.entries, entry.comment.size ≤ maxLength
  method_eq : ∀ entry ∈ draft.entries, ∃ id, entry.method = Method.ofId id
  index_eq : ∀ position (h : position < draft.entries.size), draft.entries[position].index = position

theorem relistable_iff {draft : Draft} :
    draft.Relistable ↔ (∀ entry ∈ draft.entries.toList, entry.Listable) ∧
      Entry.NumberedFrom 0 draft.entries.toList := by
  simp only [Entry.listable_iff, Entry.numberedFrom_iff, Array.mem_toList_iff, Array.length_toList,
    Array.getElem_toList, Nat.zero_add]
  constructor
  · intro h
    exact ⟨fun entry hentry => ⟨h.name_le entry hentry, h.extra_le entry hentry,
      h.comment_le entry hentry, h.method_eq entry hentry⟩, h.index_eq⟩
  · rintro ⟨hentries, hindex⟩
    exact ⟨fun entry hentry => (hentries entry hentry).1,
      fun entry hentry => (hentries entry hentry).2.1,
      fun entry hentry => (hentries entry hentry).2.2.1,
      fun entry hentry => (hentries entry hentry).2.2.2, hindex⟩

/-- The directory is parsed as the draft's own entries just where these can be listed, whatever
stands behind it. It is then as long as the listings' length fields add up to. -/
theorem directoryBytes_exact (draft : Draft) (base : Nat) (behind : ByteArray) :
    (Entry.takeMany base draft.entries.size (Cursor.ofBytes (draft.directoryBytes ++ behind)) #[] =
        .ok draft.entries ↔ draft.Relistable) ∧
      (draft.Relistable →
        draft.directoryBytes.size = (draft.entries.toList.map Entry.directorySize).sum) := by
  rw [relistable_iff, directoryBytes_eq]
  have hahead := Cursor.ahead_ofBytes (Entry.listing draft.entries.toList ++ behind)
  refine ⟨⟨fun h => ?_, fun ⟨hlistable, hnumbered⟩ => ?_⟩, fun ⟨hlistable, _⟩ => ?_⟩
  · -- Whatever is parsed can be listed again.
    obtain ⟨entries, hentries, hlistable, hnumbered, -⟩ := Entry.takeMany_ok hahead h
    obtain rfl : draft.entries.toList = entries := by simp [hentries]
    exact ⟨hlistable, hnumbered⟩
  · have hmany := Entry.takeMany_listing base #[] hlistable hnumbered hahead
    rw [Array.length_toList] at hmany
    simpa using hmany
  · rw [Narrowed.sum_directorySize hlistable]

def mixedDraft : Draft where
  entries := #[
    .ofHeader 0 ⟨831, 10, 2048, 0, 0, 33, 0, 0, 0, 2, 0, 0, 0, 0, 0, 0⟩ "d/".toUTF8
      ByteArray.empty ByteArray.empty,
    .ofHeader 1 ⟨20, 63, 8, 99, 77, 33, 5, 3, 4, 1, 5, 2, 0, 1, 32, 32⟩ "a".toUTF8
      ⟨#[0x35, 0xD9, 1, 0, 9]⟩ "hi".toUTF8]
  cursor := 65
  comment := ByteArray.empty
  oldTrailer := none

theorem relistable_mixedDraft : mixedDraft.Relistable where
  name_le := by decide +kernel
  extra_le := by decide +kernel
  comment_le := by decide +kernel
  method_eq := by
    have hmethods : ∀ entry ∈ mixedDraft.entries, Method.ofId entry.method.id = entry.method := by
      decide +kernel
    exact fun entry hentry => Method.ofId_id_iff.mp (hmethods entry hentry)
  index_eq := by decide +kernel

theorem directoryBytes_exact_mixed :
    mixedDraft.Relistable ∧
      Entry.takeMany 65 2 (Cursor.ofBytes (mixedDraft.directoryBytes ++ ⟨#[0x50, 0x4b]⟩)) #[] =
        .ok mixedDraft.entries ∧
      mixedDraft.directoryBytes.size = 48 + 54 := by
  obtain ⟨hread, hsize⟩ := directoryBytes_exact mixedDraft 65 ⟨#[0x50, 0x4b]⟩
  refine ⟨relistable_mixedDraft, hread.mpr relistable_mixedDraft, ?_⟩
  rw [hsize relistable_mixedDraft]
  decide +kernel

end Draft

end ClassicZip
