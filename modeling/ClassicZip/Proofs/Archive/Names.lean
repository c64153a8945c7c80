import Std.Data.HashMap.Lemmas
import ClassicZip.Proofs.Archive.Opened
import ClassicZip.Proofs.LocalEntry.Spread
import ClassicZip.Proofs.Writer.Soundness

/-!
# Names that occur more than once

A reader keeps an index of the names, and a writer goes through its entries. Both take the first
entry with a name, so a deletion in place removes the one that a reader finds. `named_eraseInPlace`
says so, and what the names lead to when the archive is opened again; `named_pruned` says it of
deletions one after another.
-/

namespace ClassicZip

open Bytes

namespace Entry

def firstPlaces (entries : Array Entry) : Std.HashMap ByteArray Nat :=
  entries.foldl (fun places entry => places.insertIfNew entry.name entry.index) ∅

def namesakes (entries : List Entry) (name : ByteArray) : List Entry :=
  entries.filter fun entry => entry.name == name

/-- The entry as it is numbered when the one at `gap` is gone. -/
def closingGap (gap : Nat) (entry : Entry) : Entry :=
  { entry with index := if gap < entry.index then entry.index - 1 else entry.index }

-- ---------------------------------------------------------------------------
-- The first entry with a name
-- ---------------------------------------------------------------------------

section
variable {first : Nat} {entries : List Entry} {entry : Entry}

theorem NumberedFrom.le_index (h : NumberedFrom first entries) (hmem : entry ∈ entries) :
    first ≤ entry.index := by
  obtain ⟨position, hp, rfl⟩ := List.getElem_of_mem hmem
  rw [h.index_eq hp]
  exact Nat.le_add_right _ _

theorem NumberedFrom.getElem?_index (h : NumberedFrom 0 entries) (hmem : entry ∈ entries) :
    entries[entry.index]? = some entry := by
  obtain ⟨position, hp, rfl⟩ := List.getElem_of_mem hmem
  rw [h.index_eq hp, Nat.zero_add, List.getElem?_eq_getElem hp]

theorem find?_name (entries : List Entry) (name : ByteArray) :
    (entries.find? fun entry => entry.name == name) = (namesakes entries name).head? :=
  List.head?_filter.symm

theorem head?_namesakes_eq_none {name : ByteArray} :
    (namesakes entries name).head? = none ↔ ∀ entry ∈ entries, entry.name ≠ name := by
  simp [namesakes]

theorem namesakes_cons (entry : Entry) (rest : List Entry) (name : ByteArray) :
    namesakes (entry :: rest) name =
      if entry.name = name then entry :: namesakes rest name else namesakes rest name := by
  simp [namesakes, List.filter_cons]

theorem NumberedFrom.head?_namesakes (h : NumberedFrom first entries) {name : ByteArray} :
    (namesakes entries name).head? = some entry ↔
      entry ∈ entries ∧ entry.name = name ∧
        ∀ other ∈ entries, other.name = name → entry.index ≤ other.index := by
  induction entries generalizing first with
  | nil => simp [namesakes]
  | cons head rest ih =>
    have hbehind (other : Entry) (hother : other ∈ rest) : head.index < other.index := by
      have hle := h.2.le_index hother
      have hhead := h.1
      omega
    rw [namesakes_cons]
    split
    · rename_i hname
      rw [List.head?_cons, Option.some.injEq]
      constructor
      · rintro rfl
        refine ⟨List.mem_cons_self, hname, fun other hother _ => ?_⟩
        rcases List.mem_cons.mp hother with rfl | hother
        · exact Nat.le_refl _
        · exact Nat.le_of_lt (hbehind other hother)
      · rintro ⟨hmem, -, hleast⟩
        rcases List.mem_cons.mp hmem with rfl | hmem
        · rfl
        · exact absurd (hleast head List.mem_cons_self hname)
            (Nat.not_le_of_lt (hbehind entry hmem))
    · rename_i hname
      rw [ih h.2]
      constructor
      · rintro ⟨hmem, hentry, hleast⟩
        refine ⟨List.mem_cons_of_mem _ hmem, hentry, fun other hother heq => ?_⟩
        rcases List.mem_cons.mp hother with rfl | hother
        · exact absurd heq hname
        · exact hleast other hother heq
      · rintro ⟨hmem, hentry, hleast⟩
        rcases List.mem_cons.mp hmem with rfl | hmem
        · exact absurd hentry hname
        · exact ⟨hmem, hentry, fun other hother => hleast other (List.mem_cons_of_mem _ hother)⟩

theorem getElem?_foldl_insertIfNew (entries : List Entry) (places : Std.HashMap ByteArray Nat)
    (name : ByteArray) :
    (entries.foldl (fun places entry => places.insertIfNew entry.name entry.index) places)[name]? =
      places[name]?.or ((namesakes entries name).head?.map (·.index)) := by
  induction entries generalizing places with
  | nil => simp [namesakes]
  | cons entry rest ih =>
    rw [List.foldl_cons, ih, Std.HashMap.getElem?_insertIfNew, namesakes_cons]
    by_cases hname : entry.name = name
    · subst hname
      by_cases hknown : entry.name ∈ places
      · obtain ⟨place, hplace⟩ := Option.isSome_iff_exists.mp
          (Std.HashMap.isSome_getElem?_iff_mem.mpr hknown)
        rw [if_neg fun h => h.2 hknown, hplace]
        rfl
      · simp [hknown]
    · simp [hname]

theorem getElem?_firstPlaces (entries : Array Entry) (name : ByteArray) :
    (firstPlaces entries)[name]? = (namesakes entries.toList name).head?.map (·.index) := by
  rw [firstPlaces, ← Array.foldl_toList, getElem?_foldl_insertIfNew]
  simp

end

-- ---------------------------------------------------------------------------
-- One entry less
-- ---------------------------------------------------------------------------

section
variable {first : Nat} {entries : List Entry}

theorem NumberedFrom.map_closingGap {gap : Nat} (h : NumberedFrom (first + 1) entries)
    (hgap : gap ≤ first) : entries.map (closingGap gap) = numberFrom first entries := by
  induction entries generalizing first with
  | nil => rfl
  | cons entry rest ih =>
    have hentry := h.1
    rw [List.map_cons, numberFrom, ih h.2 (by omega), closingGap, if_pos (by omega), hentry,
      Nat.add_sub_cancel]

theorem NumberedFrom.numberFrom_eraseIdx (h : NumberedFrom first entries) {position : Nat}
    (hp : position < entries.length) :
    numberFrom first (entries.eraseIdx position) =
      (entries.eraseIdx position).map (closingGap (first + position)) := by
  induction entries generalizing first position with
  | nil => cases hp
  | cons entry rest ih =>
    cases position with
    | zero => exact (h.2.map_closingGap (Nat.le_refl first)).symm
    | succ position =>
      have hentry : closingGap (first + 1 + position) entry = { entry with index := first } := by
        have hfirst := h.1
        rw [closingGap, if_neg (by omega), hfirst]
      rw [List.eraseIdx_cons_succ, List.map_cons, numberFrom, ← Nat.add_assoc first,
        Nat.add_right_comm first, hentry, ih h.2 (Nat.lt_of_succ_lt_succ hp)]

theorem namesakes_map_closingGap (gap : Nat) (entries : List Entry) (name : ByteArray) :
    namesakes (entries.map (closingGap gap)) name =
      (namesakes entries name).map (closingGap gap) := by
  rw [namesakes, namesakes, List.filter_map]
  rfl

theorem namesakes_eraseP (entries : List Entry) (name : ByteArray) :
    namesakes (entries.eraseP fun entry => entry.name == name) name =
      (namesakes entries name).tail := by
  induction entries with
  | nil => rfl
  | cons entry rest ih =>
    rw [namesakes_cons]
    by_cases hname : entry.name = name
    · rw [List.eraseP_cons_of_pos (by simpa using hname), if_pos hname, List.tail_cons]
    · rw [List.eraseP_cons_of_neg (by simpa using hname), namesakes_cons, if_neg hname,
        if_neg hname, ih]

theorem namesakes_eraseP_of_ne (entries : List Entry) {name other : ByteArray}
    (hother : other ≠ name) :
    namesakes (entries.eraseP fun entry => entry.name == name) other = namesakes entries other := by
  induction entries with
  | nil => rfl
  | cons entry rest ih =>
    by_cases hname : entry.name = name
    · have hne : entry.name ≠ other := fun heq => hother (heq.symm.trans hname)
      rw [List.eraseP_cons_of_pos (by simpa using hname), namesakes_cons, if_neg hne]
    · rw [List.eraseP_cons_of_neg (by simpa using hname), namesakes_cons, namesakes_cons, ih]

end

end Entry

-- ---------------------------------------------------------------------------
-- Readers
-- ---------------------------------------------------------------------------

namespace Archive

/-- The entry to which the index of the names leads. -/
def lookUp? (archive : Archive) (name : ByteArray) : Except Fault (Option Entry) :=
  archive.whileOpen
    ((Entry.firstPlaces archive.directory.entries)[name]?.bind (archive.directory.entries[·]?))

section
variable {archive : Archive} {image : ByteArray}

theorem numbered_of_ofBytes (h : ofBytes image = .ok archive) :
    Entry.NumberedFrom 0 archive.directory.entries.toList := by
  obtain ⟨directory, hread, rfl⟩ := ofBytes_ok.mp h
  exact (Directory.read_ok hread).1.numbered

theorem entryNamed?_eq (h : ofBytes image = .ok archive) (name : ByteArray) :
    archive.entryNamed? name =
      .ok (Entry.namesakes archive.directory.entries.toList name).head? := by
  rw [entryNamed?, whileOpen, (on_of_ofBytes h).isClosed_eq, ← Array.find?_toList,
    Entry.find?_name]
  rfl

theorem lookUp?_eq (h : ofBytes image = .ok archive) (name : ByteArray) :
    archive.lookUp? name = archive.entryNamed? name := by
  rw [entryNamed?_eq h, lookUp?, whileOpen, (on_of_ofBytes h).isClosed_eq,
    Entry.getElem?_firstPlaces]
  cases hhead : (Entry.namesakes archive.directory.entries.toList name).head? with
  | none => rfl
  | some entry =>
    have hnumbered := numbered_of_ofBytes h
    have hat := hnumbered.getElem?_index (hnumbered.head?_namesakes.mp hhead).1
    rw [Array.getElem?_toList] at hat
    simp [hat]

end

end Archive

-- ---------------------------------------------------------------------------
-- Deletions
-- ---------------------------------------------------------------------------

namespace Draft

theorem getElem?_position {draft : Draft} {name : ByteArray} {position : Nat}
    (h : draft.position? name = some position) :
    draft.entries[position]? = (Entry.namesakes draft.entries.toList name).head? := by
  rw [← Entry.find?_name, Array.find?_toList, Array.find?_eq_bind_findIdx?_getElem?]
  rw [position?] at h
  rw [h]
  rfl

end Draft

namespace Writer

section
variable {image bytes : ByteArray} {writer next : Writer} {name : String}

/-- A deletion in place takes the entry that a reader finds. -/
theorem eraseInPlace_named (hstart : ofBytes image = .ok writer)
    (herase : writer.eraseInPlace name = (next, .ok ())) :
    ∃ archive removed start count, Archive.ofBytes image = .ok archive ∧
      archive.entryNamed? name.toUTF8 = .ok (some removed) ∧
      removed.extent image = .ok (start, count) ∧
      next.image = some (zeroFill image start count) ∧
      next.draft.entries.toList =
        Entry.numberFrom 0 (archive.directory.entries.toList.eraseIdx removed.index) ∧
      archive.directory.entries.toList.eraseIdx removed.index =
        archive.directory.entries.toList.eraseP fun entry => entry.name == name.toUTF8 := by
  rcases ofBytes_ok hstart with ⟨rfl, rfl⟩ | ⟨directory, hread, rfl⟩
  · -- In an archive without entries there is nothing to be found.
    obtain ⟨position, entry, _, _, -, hat, -⟩ := eraseInPlace_ok herase
    cases hat
  · obtain ⟨position, entry, start, count, hposition, hat, hextent, rfl⟩ := eraseInPlace_ok herase
    have hopen := (Archive.on_of_read hread).1
    have hfirst := hat.symm.trans (Draft.getElem?_position hposition)
    have hindex : entry.index = position := by
      rw [← Array.getElem?_toList] at hat
      obtain ⟨hp, rfl⟩ := List.getElem?_eq_some_iff.mp hat
      exact ((Directory.read_ok hread).1.numbered.index_eq hp).trans (Nat.zero_add _)
    subst hindex
    refine ⟨_, entry, start, count, hopen, ?_, hextent, rfl, Draft.toList_remove _ _,
      Draft.eraseIdx_position hposition⟩
    rw [Archive.entryNamed?_eq hopen]
    exact congrArg Except.ok hfirst.symm

/-- Closed and opened again, the archive gives each name the namesakes that are left. -/
theorem namesakes_eraseInPlace {archive : Archive} {removed : Entry}
    (hstart : ofBytes image = .ok writer) (herase : writer.eraseInPlace name = (next, .ok ()))
    (hopen : Archive.ofBytes image = .ok archive)
    (hremoved : archive.entryNamed? name.toUTF8 = .ok (some removed))
    (hclose : next.toBytes = .ok bytes)
    (hreread : Directory.Rereadable bytes next.draft.entries.size next.draft.comment.size) :
    ∃ reopened, Archive.ofBytes bytes = .ok reopened ∧
      ∀ other, Entry.namesakes reopened.directory.entries.toList other =
        ((Entry.namesakes archive.directory.entries.toList other).drop
          (if name.toUTF8 = other then 1 else 0)).map (Entry.closingGap removed.index) := by
  obtain ⟨old, first, _, _, hold, hfirst, -, himage, hentries, herased⟩ :=
    eraseInPlace_named hstart herase
  obtain rfl := Except.ok.inj (hold.symm.trans hopen)
  obtain rfl := Option.some.inj (Except.ok.inj (hfirst.symm.trans hremoved))
  have hsound := eraseInPlace_sound (ofBytes_sound hstart) herase
  obtain ⟨draft, _ | after⟩ := next
  · cases himage
  have hread := (hsound after rfl).read_finished hclose hreread
  refine ⟨_, (Archive.on_of_read hread).1, fun other => ?_⟩
  have hnumbered := Archive.numbered_of_ofBytes hopen
  have hin : first.index < old.directory.entries.toList.length := by
    rw [Archive.entryNamed?_eq hopen] at hremoved
    have hmem := (hnumbered.head?_namesakes.mp (Except.ok.inj hremoved)).1
    exact (List.getElem?_eq_some_iff.mp (hnumbered.getElem?_index hmem)).1
  show Entry.namesakes draft.entries.toList other = _
  rw [hentries, hnumbered.numberFrom_eraseIdx hin, Nat.zero_add, herased,
    Entry.namesakes_map_closingGap]
  split
  · rename_i heq
    rw [← heq, Entry.namesakes_eraseP, List.drop_one]
  · rename_i hne
    rw [Entry.namesakes_eraseP_of_ne _ (Ne.symm hne), List.drop_zero]

end

/-- Readers and writers agree on what a name means. In an open archive the index of the names leads
to the entry of least index that has the name, or to none where no entry has it. A deletion in place
takes just that entry: zeros lie over what it takes up, and the others are numbered again. When the
archive was then closed and can be read again, the name leads to the next entry that had it, and
every other name to the same entry as before. -/
theorem named_eraseInPlace :
    (∀ image archive, Archive.ofBytes image = .ok archive → ∀ name,
      archive.entryNamed? name = archive.lookUp? name ∧
      (archive.lookUp? name = .ok none ↔
        ∀ entry ∈ archive.directory.entries, entry.name ≠ name) ∧
      ∀ found, archive.lookUp? name = .ok (some found) ↔
        found ∈ archive.directory.entries ∧ found.name = name ∧
          ∀ entry ∈ archive.directory.entries, entry.name = name → found.index ≤ entry.index) ∧
    ∀ image writer name next, ofBytes image = .ok writer →
      writer.eraseInPlace name = (next, .ok ()) →
      ∃ archive removed start count, Archive.ofBytes image = .ok archive ∧
        archive.lookUp? name.toUTF8 = .ok (some removed) ∧
        removed.extent image = .ok (start, count) ∧
        next.image = some (zeroFill image start count) ∧
        next.draft.entries.toList =
          Entry.numberFrom 0 (archive.directory.entries.toList.eraseIdx removed.index) ∧
        ∀ bytes, next.toBytes = .ok bytes → next.draft.entries.size < maxLength →
          EndRecord.SoleSignature bytes next.draft.comment.size →
          ∃ reopened, Archive.ofBytes bytes = .ok reopened ∧
            reopened.lookUp? name.toUTF8 =
              .ok ((Entry.namesakes archive.directory.entries.toList name.toUTF8)[1]?.map
                (Entry.closingGap removed.index)) ∧
            ∀ other, other ≠ name.toUTF8 → ∃ found, archive.lookUp? other = .ok found ∧
              reopened.lookUp? other = .ok (found.map (Entry.closingGap removed.index)) := by
  constructor
  · intro image archive hopen name
    have hnumbered := Archive.numbered_of_ofBytes hopen
    rw [Archive.lookUp?_eq hopen, Archive.entryNamed?_eq hopen]
    simp only [Except.ok.injEq, ← Array.mem_toList_iff]
    exact ⟨trivial, Entry.head?_namesakes_eq_none, fun found => hnumbered.head?_namesakes⟩
  · intro image writer name next hstart herase
    obtain ⟨archive, removed, start, count, hopen, hremoved, hextent, himage, hentries, -⟩ :=
      eraseInPlace_named hstart herase
    refine ⟨archive, removed, start, count, hopen, (Archive.lookUp?_eq hopen _).trans hremoved,
      hextent, himage, hentries, fun bytes hclose hfew hs => ?_⟩
    obtain ⟨reopened, hreopened, hleft⟩ :=
      namesakes_eraseInPlace hstart herase hopen hremoved hclose ⟨hfew, hs⟩
    have hlook (other : ByteArray) := (Archive.lookUp?_eq hreopened other).trans
      (Archive.entryNamed?_eq hreopened other)
    refine ⟨reopened, hreopened, ?_, fun other hother => ⟨_,
      (Archive.lookUp?_eq hopen other).trans (Archive.entryNamed?_eq hopen other), ?_⟩⟩
    · rw [hlook, hleft, if_pos rfl, List.head?_map, List.head?_drop]
    · rw [hlook, hleft, if_neg (Ne.symm hother), List.head?_map, List.drop_zero]

/-- Of two files with one name the first goes, and the second is found afterwards, with an index
less. -/
theorem named_eraseInPlace_twice :
    ∃ image writer next bytes archive removed reopened second,
      (fresh.after [addLetter "a", addLetter "b", addLetter "a"]).toBytes = .ok image ∧
      ofBytes image = .ok writer ∧ writer.eraseInPlace "a" = (next, .ok ()) ∧
      next.toBytes = .ok bytes ∧ Archive.ofBytes image = .ok archive ∧
      archive.lookUp? "a".toUTF8 = .ok (some removed) ∧ removed.index = 0 ∧
      Archive.ofBytes bytes = .ok reopened ∧
      reopened.lookUp? "a".toUTF8 = .ok (some second) ∧ second.index = 1 := by
  have hcheck : ((fresh.after [addLetter "a", addLetter "b", addLetter "a"]).toBytes.toOption.bind
      fun image => (ofBytes image).toOption.bind fun writer =>
        (writer.eraseInPlace "a").1.toBytes.toOption.bind fun bytes =>
          (Archive.ofBytes image).toOption.map fun archive =>
            decide ((writer.eraseInPlace "a").2 = .ok () ∧
              Directory.Rereadable bytes (writer.eraseInPlace "a").1.draft.entries.size
                (writer.eraseInPlace "a").1.draft.comment.size ∧
              (Entry.namesakes archive.directory.entries.toList "a".toUTF8).map (·.index) =
                [0, 2])) = some true := by
    decide +kernel
  simp only [Option.bind_eq_some_iff, Option.map_eq_some_iff, toOption_eq_some,
    decide_eq_true_eq] at hcheck
  obtain ⟨image, himage, writer, hstart, bytes, hclose, archive, hopen, hdone, hreread, hindices⟩ :=
    hcheck
  obtain ⟨first, rest, hnamesakes, hfirst, hrest⟩ := List.map_eq_cons_iff.mp hindices
  obtain ⟨second, last, rfl, hsecond, -⟩ := List.map_eq_cons_iff.mp hrest
  obtain ⟨old, removed, start, count, hold, hremoved, -, -, -, hreopens⟩ :=
    named_eraseInPlace.2 image writer "a" _ hstart (Prod.ext rfl hdone)
  obtain rfl := Except.ok.inj (hold.symm.trans hopen)
  obtain ⟨reopened, hreopened, hfound, -⟩ := hreopens bytes hclose hreread.1 hreread.2
  have hlook := hremoved
  rw [Archive.lookUp?_eq hopen, Archive.entryNamed?_eq hopen, hnamesakes] at hlook
  obtain rfl := Option.some.inj (Except.ok.inj hlook)
  rw [hnamesakes] at hfound
  refine ⟨image, writer, _, bytes, old, first, reopened, _, himage, hstart, Prod.ext rfl hdone,
    hclose, hopen, hremoved, hfirst, hreopened, hfound, ?_⟩
  rw [Entry.closingGap, if_pos (by omega), hsecond]

-- ---------------------------------------------------------------------------
-- Deletions one after another
-- ---------------------------------------------------------------------------

/-- The names are deleted in place one after another, and the archive is closed each time and taken
up again. -/
inductive Pruned : ByteArray → List String → ByteArray → Prop
  | done (image : ByteArray) : Pruned image [] image
  | next {image bytes last : ByteArray} {writer next : Writer} {name : String} {names : List String}
      (hstart : ofBytes image = .ok writer) (herase : writer.eraseInPlace name = (next, .ok ()))
      (hclose : next.toBytes = .ok bytes)
      (hreread : Directory.Rereadable bytes next.draft.entries.size next.draft.comment.size)
      (hrest : Pruned bytes names last) : Pruned image (name :: names) last

section
variable {image last : ByteArray} {names : List String} {archive : Archive}

theorem namesakes_pruned (h : Pruned image names last) (hopen : Archive.ofBytes image = .ok archive) :
    ∃ reopened, ∃ renumbered : Entry → Nat, Archive.ofBytes last = .ok reopened ∧
      ∀ name, Entry.namesakes reopened.directory.entries.toList name =
        ((Entry.namesakes archive.directory.entries.toList name).drop
          ((names.map String.toUTF8).count name)).map
            fun entry => { entry with index := renumbered entry } := by
  induction h generalizing archive with
  | done image => exact ⟨archive, (·.index), hopen, fun name => by simp⟩
  | next hstart herase hclose hreread hrest ih =>
    obtain ⟨old, removed, -, -, hold, hremoved, -⟩ := eraseInPlace_named hstart herase
    obtain rfl := Except.ok.inj (hold.symm.trans hopen)
    obtain ⟨reopened, hreopened, hleft⟩ :=
      namesakes_eraseInPlace hstart herase hopen hremoved hclose hreread
    obtain ⟨final, renumbered, hfinal, hnames⟩ := ih hreopened
    refine ⟨final, fun entry => renumbered (Entry.closingGap removed.index entry), hfinal,
      fun name => ?_⟩
    rw [hnames, hleft, ← List.map_drop, List.drop_drop, List.map_map, List.map_cons,
      List.count_cons, Nat.add_comm]
    simp only [beq_iff_eq]
    rfl

/-- However often a name was deleted, so many of its entries are gone, and it leads to the next. -/
theorem named_pruned (h : Pruned image names last) (hopen : Archive.ofBytes image = .ok archive) :
    ∃ reopened, ∃ renumbered : Entry → Nat, Archive.ofBytes last = .ok reopened ∧
      ∀ name, reopened.lookUp? name =
        .ok ((Entry.namesakes archive.directory.entries.toList name)[
          (names.map String.toUTF8).count name]?.map
            fun entry => { entry with index := renumbered entry }) := by
  obtain ⟨reopened, renumbered, hreopened, hnames⟩ := namesakes_pruned h hopen
  refine ⟨reopened, renumbered, hreopened, fun name => ?_⟩
  rw [Archive.lookUp?_eq hreopened, Archive.entryNamed?_eq hreopened, hnames, List.head?_map,
    List.head?_drop]

end

end Writer

end ClassicZip
