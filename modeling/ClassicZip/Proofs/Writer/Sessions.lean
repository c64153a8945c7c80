import Mathlib.Data.List.Forall2
import ClassicZip.Proofs.Entry.Additions
import ClassicZip.Proofs.Writer.Growth

/-!
# Sessions of calls on a writer

A session adds files and directories and sets comments. `run_ok`: what its calls leave behind is one
parcel for each addition, in their order, and the last comment. Where the parcels can be read, the
data of every addition comes back.
-/

namespace ClassicZip

theorem exists_of_forall₂ {α β : Type} {related : α → β → Prop} {items : List α}
    {others : List β} (h : List.Forall₂ related items others) :
    ∀ other ∈ others, ∃ item ∈ items, related item other := by
  induction h with
  | nil => simp
  | cons hfirst _ ih =>
    refine List.forall_mem_cons.mpr ⟨⟨_, List.mem_cons_self, hfirst⟩, fun other hother => ?_⟩
    obtain ⟨item, hitem, hrelated⟩ := ih other hother
    exact ⟨item, List.mem_cons_of_mem _ hitem, hrelated⟩

/-- A call on a writer that leaves the entries it has alone. -/
inductive Call
  | add (addition : Addition)
  | setComment (comment : ByteArray)
  deriving DecidableEq

namespace Call

def additions : List Call → List Addition
  | [] => []
  | add addition :: rest => addition :: additions rest
  | setComment _ :: rest => additions rest

def lastComment (comment : ByteArray) : List Call → ByteArray
  | [] => comment
  | add _ :: rest => lastComment comment rest
  | setComment next :: rest => lastComment next rest

end Call

namespace Writer

theorem push_error {writer next : Writer} {fault : Fault} {entry : Entry}
    {localExtra stored : ByteArray} {alignment : UInt16}
    (h : writer.push entry localExtra alignment stored = (next, .error fault)) : next = writer := by
  unfold push at h
  split at h
  · exact (Prod.mk.inj h).1.symm
  · split at h
    · exact (Prod.mk.inj h).1.symm
    · cases h

end Writer

variable [Codec.Coders]

namespace Writer

def perform (writer : Writer) : Call → Writer × Except Fault Unit
  | .add (.file name data options) => writer.addFile name data options
  | .add (.directory name options) => writer.addDirectory name options
  | .setComment comment => writer.setComment comment

def run (writer : Writer) : List Call → Except Fault Writer
  | [] => .ok writer
  | call :: rest =>
    match writer.perform call with
    | (_, .error fault) => .error fault
    | (next, .ok ()) => next.run rest

/-- The writer after the calls, of which some may fail, and the calls that succeeded. -/
def session (writer : Writer) : List Call → Writer × List Call
  | [] => (writer, [])
  | call :: rest =>
    match writer.perform call with
    | (next, .error _) => next.session rest
    | (next, .ok ()) => ((next.session rest).1, call :: (next.session rest).2)

end Writer

-- ---------------------------------------------------------------------------
-- One call
-- ---------------------------------------------------------------------------

/-- The parcel keeps the addition: its entry was made for it, its stored bytes with the entry. -/
def Addition.KeptIn (addition : Addition) (parcel : Parcel) : Prop :=
  ∃ made, addition.make = .ok (made, parcel.stored) ∧
    parcel.entry =
      { made with index := parcel.entry.index, localOffset := parcel.entry.localOffset }

namespace Addition

section
variable {addition : Addition} {parcel : Parcel}

theorem KeptIn.makes (h : addition.KeptIn parcel) : addition.Makes parcel.entry := by
  obtain ⟨made, hmake, heq⟩ := h
  exact ⟨made, parcel.stored, hmake, heq⟩

theorem KeptIn.decode_eq (h : addition.KeptIn parcel) (hr : addition.Reversible) :
    parcel.entry.decode parcel.stored = .ok addition.data := by
  obtain ⟨made, hmake, heq⟩ := h
  rw [heq, Entry.decode_placed]
  exact decode_of_make hmake hr

end

end Addition

namespace Writer

section
variable {draft : Draft} {image : ByteArray} {writer : Writer}

theorem perform_add {addition : Addition}
    (h : perform ⟨draft, some image⟩ (.add addition) = (writer, .ok ())) :
    ∃ made stored, addition.make = .ok (made, stored) ∧
      push ⟨draft, some image⟩ made ByteArray.empty addition.alignment stored =
        (writer, .ok ()) := by
  cases addition with
  | file name data options =>
    simp only [perform, addFile, isClosed, Option.isNone_some, Bool.false_eq_true, if_false] at h
    split at h
    · cases h
    · exact ⟨_, _, by assumption, h⟩
  | directory name options =>
    simp only [perform, addDirectory, isClosed, Option.isNone_some, Bool.false_eq_true,
      if_false] at h
    exact ⟨_, _, rfl, h⟩

theorem perform_add_ok {addition : Addition} (hf : draft.Fits image)
    (h : perform ⟨draft, some image⟩ (.add addition) = (writer, .ok ())) :
    ∃ parcel, Grown draft image [parcel] writer ∧ addition.KeptIn parcel ∧
      writer.draft.comment = draft.comment := by
  obtain ⟨made, stored, hmake, hpush⟩ := perform_add h
  obtain ⟨hgrown, hcomment⟩ := push_ok hf (Addition.listable_of_make hmake)
    (Addition.storedSize_of_make hmake) hpush
  exact ⟨_, hgrown, ⟨made, hmake, rfl⟩, hcomment⟩

theorem perform_setComment_ok {comment : ByteArray} (hf : draft.Fits image)
    (h : perform ⟨draft, some image⟩ (.setComment comment) = (writer, .ok ())) :
    Grown draft image [] writer ∧ writer.draft.comment = comment := by
  simp only [perform, setComment, Draft.withComment] at h
  by_cases hlong : maxLength < comment.size
  · simp [hlong] at h
  · simp only [hlong, if_false] at h
    obtain ⟨rfl, -⟩ := Prod.mk.inj h
    refine ⟨⟨by simp, by simp, trivial, ⟨⟨hf.writable.listable, hf.writable.numbered, ?_⟩, ?_⟩,
      rfl⟩, rfl⟩
    · exact Nat.le_of_not_lt hlong
    · simpa using hf.cursor_eq

end

-- ---------------------------------------------------------------------------
-- Calls that fail
-- ---------------------------------------------------------------------------

section
variable {writer next : Writer} {fault : Fault}

theorem perform_error {call : Call} (h : writer.perform call = (next, .error fault)) :
    next = writer := by
  match call with
  | .add (.file name data options) =>
    simp only [perform, addFile] at h
    split at h
    · exact (Prod.mk.inj h).1.symm
    · split at h
      · exact (Prod.mk.inj h).1.symm
      · exact push_error h
  | .add (.directory name options) =>
    simp only [perform, addDirectory] at h
    split at h
    · exact (Prod.mk.inj h).1.symm
    · exact push_error h
  | .setComment comment =>
    simp only [perform, setComment] at h
    split at h
    · exact (Prod.mk.inj h).1.symm
    · split at h
      · exact (Prod.mk.inj h).1.symm
      · cases h

end

theorem run_session (writer : Writer) (calls : List Call) :
    writer.run (writer.session calls).2 = .ok (writer.session calls).1 := by
  induction calls generalizing writer with
  | nil => rfl
  | cons call rest ih =>
    simp only [session]
    split
    · rename_i next fault hcall
      obtain rfl := perform_error hcall
      exact ih next
    · rename_i next hcall
      simp only [run, hcall]
      exact ih next

-- ---------------------------------------------------------------------------
-- Whole sessions
-- ---------------------------------------------------------------------------

/-- A session appends one parcel for each addition, in their order. -/
theorem run_ok {calls : List Call} {draft : Draft} {image : ByteArray} {writer : Writer}
    (hf : draft.Fits image) (h : run ⟨draft, some image⟩ calls = .ok writer) :
    ∃ parcels, Grown draft image parcels writer ∧
      List.Forall₂ Addition.KeptIn (Call.additions calls) parcels ∧
      writer.draft.comment = Call.lastComment draft.comment calls := by
  induction calls generalizing draft image with
  | nil =>
    obtain rfl := Except.ok.inj h
    exact ⟨[], .refl hf, .nil, rfl⟩
  | cons call rest ih =>
    simp only [run] at h
    split at h
    · cases h
    · rename_i next hcall
      obtain ⟨middle, image'⟩ := next
      cases call with
      | add addition =>
        obtain ⟨parcel, hgrown, hkept, hcomment⟩ := perform_add_ok hf hcall
        obtain rfl : image' = _ := hgrown.image_eq
        obtain ⟨parcels, hrest, hall, hlast⟩ := ih hgrown.fits h
        refine ⟨parcel :: parcels, hgrown.trans hrest, .cons hkept hall, ?_⟩
        rw [hlast, show middle.comment = draft.comment from hcomment]
        rfl
      | setComment comment =>
        obtain ⟨hgrown, hcomment⟩ := perform_setComment_ok hf hcall
        obtain rfl : image' = _ := hgrown.image_eq
        obtain ⟨parcels, hrest, hall, hlast⟩ := ih hgrown.fits h
        refine ⟨parcels, hgrown.trans hrest, hall, ?_⟩
        rw [hlast, show middle.comment = comment from hcomment]
        rfl

end Writer

/-- Each addition has its entry, made for it, and the archive gives its data back. -/
def Archive.GivesBack (archive : Archive) : List Addition → List Entry → Prop :=
  List.Forall₂ fun addition entry =>
    addition.Makes entry ∧ archive.readData entry = .ok addition.data

theorem Archive.On.givesBack {additions : List Addition} {parcels : List Parcel}
    {archive : Archive} {image : ByteArray} (ho : archive.On image)
    (hk : List.Forall₂ Addition.KeptIn additions parcels)
    (hraw : ∀ parcel ∈ parcels, archive.readRaw parcel.entry = .ok parcel.stored)
    (hr : ∀ addition ∈ additions, addition.Reversible) :
    archive.GivesBack additions (parcels.map (·.entry)) := by
  induction hk with
  | nil => exact .nil
  | @cons addition parcel additions parcels hkept _ ih =>
    rw [List.forall_mem_cons] at hraw hr
    have hdata : archive.readData parcel.entry = .ok addition.data := by
      rw [ho.readData_eq hraw.1, hkept.decode_eq hr.1]
    exact .cons ⟨hkept.makes, hdata⟩ (ih hraw.2 hr.2)

end ClassicZip
