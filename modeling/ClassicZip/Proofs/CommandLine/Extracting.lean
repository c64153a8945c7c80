import ClassicZip.Proofs.CommandLine.Outcomes
import ClassicZip.Proofs.FileWriter.Operations
import ClassicZip.Proofs.Path.EntryNames
import ClassicZip.Proofs.Text.Utf8
import ClassicZip.Proofs.Writer.Sessions

/-!
# Entries that are added and extracted

An item that is added becomes an entry with the name it was given, and to extract it this name is
followed: nothing else is a reason to skip the entry. So it depends on the parts of the name alone
whether what was added is extracted.
-/

namespace ClassicZip

-- ---------------------------------------------------------------------------
-- The name of an addition
-- ---------------------------------------------------------------------------

theorem Codec.isSupported_of_compress {method : Method} {level : Option Int}
    {data stored : ByteArray} (h : compress method level data = .ok stored) :
    method.isSupported = true := by
  cases method with
  | unsupported id => cases h
  | _ => rfl

theorem Entry.directoryName_eq (name : String) :
    directoryName name = name.toUTF8 ∨ directoryName name = (name ++ "/").toUTF8 := by
  unfold directoryName
  dsimp only
  split
  · exact .inl rfl
  · right
    rw [String.toUTF8_eq_toByteArray, String.toUTF8_eq_toByteArray, String.toByteArray_append]
    exact ByteArray.ext (Array.push_eq_append.trans (ByteArray.data_append ..).symm)

namespace Addition

section
variable {addition : Addition} {entry : Entry}

/-- The name of the entry is followed as the name of the addition is. -/
theorem Makes.safe?_eq (h : addition.Makes entry) :
    Path.safe? entry.nameText = Path.safe? addition.name := by
  obtain ⟨made, stored, hmake, hentry⟩ := h
  have hname : entry.name = addition.entryName := by
    rw [← name_of_make hmake, hentry]
  rw [Entry.nameText, hname]
  cases addition with
  | file name data options => exact congrArg Path.safe? (Text.decodeLossy_toUTF8 name)
  | directory name options =>
    show Path.safe? (Text.decodeLossy (Entry.directoryName name)) = Path.safe? name
    rcases Entry.directoryName_eq name with hname | hname
    · rw [hname, Text.decodeLossy_toUTF8]
    · rw [hname, Text.decodeLossy_toUTF8, Path.safe?_append_slash]

theorem Makes.isSupported (h : addition.Makes entry) : entry.method.isSupported = true := by
  obtain ⟨made, stored, hmake, hentry⟩ := h
  rw [hentry]
  cases addition with
  | file name data options =>
    obtain ⟨-, -, hcompress, rfl⟩ := Entry.ofFile_ok hmake
    exact Codec.isSupported_of_compress hcompress
  | directory name options =>
    obtain ⟨rfl, -⟩ := Prod.mk.inj (Except.ok.inj hmake)
    rfl

end

end Addition

theorem Draft.entry_of_place {draft : Draft} {made : Entry} {localExtra : ByteArray}
    {alignment : UInt16} {size : Nat} {placement : Placement}
    (h : draft.place made localExtra alignment size = .ok placement) : placement.entry =
      { made with index := placement.entry.index, localOffset := placement.entry.localOffset } := by
  obtain ⟨-, -, -, -, rfl⟩ := place_ok h
  rfl

theorem Writer.entries_of_add {writer next : Writer} {addition : Addition}
    (h : writer.perform (.add addition) = (next, .ok ())) :
    ∃ entry, addition.Makes entry ∧ next.draft.entries = writer.draft.entries.push entry := by
  obtain ⟨draft, _ | image⟩ := writer
  · cases addition <;> cases h
  obtain ⟨made, stored, hmake, hpush⟩ := perform_add h
  simp only [push] at hpush
  split at hpush
  · cases hpush
  · rename_i placement hplace
    obtain ⟨rfl, -⟩ := Prod.mk.inj hpush
    exact ⟨placement.entry, ⟨made, stored, hmake, Draft.entry_of_place hplace⟩, rfl⟩

theorem FileWriter.entries_of_add {writer next : FileWriter} {disk after : Disk}
    {addition : Addition}
    (h : writer.operate disk (.call (.add addition)) = (next, after, .ok ())) :
    ∃ entry, addition.Makes entry ∧ next.draft.entries = writer.draft.entries.push entry := by
  rw [operate_update (by simp) (by simp)] at h
  obtain ⟨path, draft, _ | id⟩ := writer
  · obtain ⟨rfl, hrest⟩ := Prod.mk.inj h
    exact Writer.entries_of_add (Prod.ext rfl (Prod.mk.inj hrest).2)
  · obtain ⟨rfl, hrest⟩ := Prod.mk.inj h
    exact Writer.entries_of_add (Prod.ext rfl (Prod.mk.inj hrest).2)

namespace CommandLine

-- ---------------------------------------------------------------------------
-- Adding
-- ---------------------------------------------------------------------------

/-- The components of an item's path below what the input lies in. -/
def relativeTo (input : String) (item : Disk.Item) : List Path.Component :=
  (Path.components item.path).drop <|
    match Path.parent? input with
    | none => 0
    | some parent => (Path.components parent).length

section
variable {now : Int} {options : AddOptions} {input : String} {item : Disk.Item}
  {writer next : FileWriter} {progress after : Progress} {added : Bool}

theorem entries_of_change {report : Fault → Report} {addition : Addition}
    (h : (change writer report fun writer disk =>
      writer.operate disk (.call (.add addition))).outcome progress = (.ok next, after)) :
    ∃ entry, addition.Makes entry ∧ next.draft.entries = writer.draft.entries.push entry := by
  obtain ⟨hresult, -⟩ := Prod.mk.inj ((Work.outcome_change ..).symm.trans h)
  generalize hoperate : writer.operate progress.disk (.call (.add addition)) = result at hresult
  obtain ⟨made, disk, _ | _⟩ := result
  · cases hresult
  · obtain rfl := Except.ok.inj hresult
    exact FileWriter.entries_of_add hoperate

theorem addItem_eq (now : Int) (options : AddOptions) (input : String) (item : Disk.Item)
    (writer : FileWriter) : addItem now options input item writer =
      (let name := Path.entryName options.leadingPath (relativeTo input item)
      if name = "" then pure (writer, false)
      else if item.isDirectory then do
        let next ← change writer Report.ofFault fun writer disk =>
          writer.operate disk (.call (.add (.directory name { method := .store, modified := now })))
        pure (next, true)
      else do
        let report (cause : FileFault) : Report := ⟨s!"Failed to read {item.path}", [cause.message]⟩
        let data ← Work.orReport report ((← Work.disk).contents item.path)
        let next ← change writer (Report.because s!"Failed to add {name}") fun writer disk =>
          writer.operate disk (.call (.add (.file name data {
            method := options.method
            alignment := options.alignment
            level := options.level
            modified := now })))
        pure (next, true)) := rfl

theorem outcome_addItem_of_empty
    (hname : Path.entryName options.leadingPath (relativeTo input item) = "") :
    (addItem now options input item writer).outcome progress = (.ok (writer, false), progress) := by
  rw [addItem_eq]
  dsimp only
  rw [if_pos hname, Work.outcome_pure]

theorem entries_of_addItem
    (hname : Path.entryName options.leadingPath (relativeTo input item) ≠ "")
    (h : (addItem now options input item writer).outcome progress = (.ok (next, added), after)) :
    added = true ∧ ∃ (addition : Addition) (entry : Entry),
      addition.name = Path.entryName options.leadingPath (relativeTo input item) ∧
        addition.Makes entry ∧ next.draft.entries = writer.draft.entries.push entry := by
  rw [addItem_eq] at h
  dsimp only at h
  rw [if_neg hname] at h
  split at h
  · obtain ⟨_, _, hchange, h⟩ := Work.outcome_bind_ok h
    cases h
    obtain ⟨entry, hmakes, hentries⟩ := entries_of_change hchange
    exact ⟨rfl, _, entry, rfl, hmakes, hentries⟩
  · obtain ⟨_, _, -, h⟩ := Work.outcome_bind_ok h
    obtain ⟨_, _, -, h⟩ := Work.outcome_bind_ok h
    obtain ⟨_, _, hchange, h⟩ := Work.outcome_bind_ok h
    cases h
    obtain ⟨entry, hmakes, hentries⟩ := entries_of_change hchange
    exact ⟨rfl, _, entry, rfl, hmakes, hentries⟩

end

-- ---------------------------------------------------------------------------
-- Extracting
-- ---------------------------------------------------------------------------

/-- An entry that can be decompressed is skipped just when its name is not followed. -/
theorem extractEntry_skips_iff {entry : Entry} (hmethod : entry.method.isSupported = true)
    (archive : FileArchive) (output : String) (progress : Progress) :
    ((extractEntry archive output entry).outcome progress).1 = .ok true ↔
      Path.safe? entry.nameText = none := by
  cases hsafe : Path.safe? entry.nameText with
  | none => simp [extractEntry, hsafe]
  | some names =>
    rw [iff_false_right (by simp)]
    simp only [extractEntry, hsafe, hmethod, Bool.not_true, Bool.and_false, Bool.false_eq_true,
      if_false]
    intro h
    replace h := Prod.ext (y := (_, _)) h rfl
    split at h
    · obtain ⟨_, _, -, h⟩ := Work.outcome_bind_ok h
      cases h
    · obtain ⟨_, _, -, h⟩ := Work.outcome_bind_ok h
      obtain ⟨_, _, -, h⟩ := Work.outcome_bind_ok h
      obtain ⟨_, _, -, h⟩ := Work.outcome_bind_ok h
      obtain ⟨_, _, -, h⟩ := Work.outcome_bind_ok h
      cases h

-- ---------------------------------------------------------------------------
-- What was added is extracted
-- ---------------------------------------------------------------------------

open ClassicZip.Path (components entryName nameParts pieces safe? slashed)

/-- A name is empty just when it has no parts, and then its item is passed over. Any other name is
followed unless it starts with a backslash, some part leads up or all of it says nothing, with
backslashes read as slashes. Without backslashes only the prefix can be at fault. That the name is
not followed is the only reason to skip the entry that was made of the item. -/
theorem entryName_exact (leadingPath : Option String) (path : String) (above : Nat) :
    let relative := (components path).drop above
    let parts := nameParts leadingPath relative
    let name := entryName leadingPath relative
    (name = "" ↔ parts = []) ∧
    (name ≠ "" → ((safe? name).isSome = true ↔
      name.toList.head? ≠ some '\\' ∧
      (∀ part ∈ parts, ".." ∉ pieces (slashed part)) ∧
      ∃ part ∈ parts, ∃ piece ∈ pieces (slashed part), piece ≠ "" ∧ piece ≠ ".")) ∧
    (name ≠ "" → (∀ part ∈ parts, '\\' ∉ part.toList) → ((safe? name).isSome = true ↔
      (∀ text, leadingPath = some text → ".." ∉ pieces text) ∧ ∃ part ∈ parts, part ≠ ".")) ∧
    ∀ (now : Int) (options : AddOptions) (input : String) (item : Disk.Item) (writer : FileWriter)
      (progress : Progress), options.leadingPath = leadingPath → relativeTo input item = relative →
      (name = "" → (addItem now options input item writer).outcome progress =
        (.ok (writer, false), progress)) ∧
      (name ≠ "" → ∀ next added after,
        (addItem now options input item writer).outcome progress = (.ok (next, added), after) →
        added = true ∧ ∃ entry, next.draft.entries = writer.draft.entries.push entry ∧
          ∀ archive output start,
            ((extractEntry archive output entry).outcome start).1 = .ok true ↔
              safe? name = none) := by
  intro relative parts name
  have hempty : "" ∉ parts := fun h => Path.ne_empty_of_mem_nameParts h rfl
  have hslash : ∀ part ∈ parts, '/' ∉ part.toList := fun part =>
    Path.slash_notMem_of_mem_nameParts
  have hname : name = Path.ofNames parts := Path.entryName_eq _ _
  have hparts : name = "" ↔ parts = [] := by rw [hname, Path.ofNames_eq_empty_iff hempty]
  refine ⟨hparts, fun hne => ?_, fun hne hplain => ?_, ?_⟩
  · rw [hname]
    exact Path.isSome_safe?_ofNames_iff (mt hparts.mpr hne) hempty hslash
  · rw [hname, Path.isSome_safe?_ofNames_iff_of_plain (mt hparts.mpr hne) hempty hslash hplain,
      Path.dots_mem_nameParts_iff, not_exists]
    simp only [not_and]
  · rintro now options input item writer progress rfl hrelative
    have hcalls : entryName options.leadingPath (relativeTo input item) = name :=
      congrArg (entryName options.leadingPath) hrelative
    refine ⟨fun hnone => outcome_addItem_of_empty (hcalls.trans hnone), ?_⟩
    intro hne next added after h
    obtain ⟨hadded, addition, entry, hcalled, hmakes, hentries⟩ :=
      entries_of_addItem (hcalls ▸ hne) h
    refine ⟨hadded, entry, hentries, fun archive output start => ?_⟩
    rw [extractEntry_skips_iff hmakes.isSupported, hmakes.safe?_eq, hcalled, hcalls]

/-- The name of a directory that hides a way up. -/
def hidden : String := "win\\..\\..\\a"

def addHidden : Except Report (FileWriter × Bool) × Progress :=
  (addItem 0 ⟨.store, none, 0, none, false⟩ hidden ⟨hidden, [], true⟩
    ⟨"a.zip", .empty, some 0⟩).outcome
      ⟨⟨∅, #[⟨ByteArray.empty, Disk.newFileMode⟩], []⟩, #[]⟩

/-- Backslashes are no harm in themselves, but they can hide a way up. The directory that does so
gets into the archive and is not extracted from it. -/
theorem entryName_exact_backslashes :
    (safe? (entryName (some "./v1/") (components "win\\a"))).isSome = true ∧
    ¬(safe? (entryName none (components hidden))).isSome = true ∧
    ∃ next after entry, addHidden = (.ok (next, true), after) ∧
      next.draft.entries = #[entry] ∧
      ∀ archive output start, ((extractEntry archive output entry).outcome start).1 = .ok true := by
  obtain ⟨-, hkept, -, -⟩ := entryName_exact (some "./v1/") "win\\a" 0
  obtain ⟨-, hrefused, -, hadds⟩ := entryName_exact none hidden 0
  have hne : entryName none (components hidden) ≠ "" := by decide +kernel
  have hunsafe : ¬(safe? (entryName none (components hidden))).isSome = true :=
    mt (hrefused hne).mp (by decide +kernel)
  have hadded : addHidden.1.toOption.isSome = true := by decide +kernel
  obtain ⟨⟨next, added⟩, hnext⟩ := Option.isSome_iff_exists.mp hadded
  have hrun : addHidden = (.ok (next, added), addHidden.2) :=
    Prod.ext (toOption_eq_some.mp hnext) rfl
  obtain ⟨rfl, entry, hentries, hskips⟩ :=
    (hadds 0 ⟨.store, none, 0, none, false⟩ hidden ⟨hidden, [], true⟩ ⟨"a.zip", .empty, some 0⟩ _
      rfl (by decide +kernel)).2 hne _ _ _ hrun
  refine ⟨(hkept (by decide +kernel)).mpr (by decide +kernel), hunsafe, next, _, entry, hrun,
    hentries, fun archive output start => ?_⟩
  rw [hskips]
  exact Option.not_isSome_iff_eq_none.mp hunsafe

/-- A prefix can lead up, so not all that is added is extracted. -/
theorem entryName_refused : ¬ ∀ (leadingPath : Option String) (path : String),
    entryName leadingPath (components path) = "" ∨
      (safe? (entryName leadingPath (components path))).isSome = true := by
  intro h
  have hrefused := h (some "..") "x"
  revert hrefused
  decide +kernel

end CommandLine

end ClassicZip
