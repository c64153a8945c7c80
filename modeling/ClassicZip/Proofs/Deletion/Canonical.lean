import ClassicZip.Proofs.Deletion.Copying
import ClassicZip.Proofs.Deletion.Untouched
import ClassicZip.Proofs.Writer.Comments

/-!
# A rebuild forgets what was deleted

A ledger has what was added and not deleted since, and the comment. Along every run that starts anew
the writer holds what its ledger has, so a rebuild comes to the archive that a new writer makes of
the ledger at once: nothing is left of deleted entries, of the gaps in their places or of earlier
directories.
-/

namespace ClassicZip

open Bytes

/-- What was added and not deleted since, and the comment. -/
structure Ledger where
  additions : List Addition
  comment : ByteArray
  deriving DecidableEq

namespace Ledger

def empty : Ledger := ⟨[], ByteArray.empty⟩

def record (ledger : Ledger) : Operation → Ledger
  | .call (.add addition) => { ledger with additions := ledger.additions ++ [addition] }
  | .call (.setComment comment) => { ledger with comment := comment }
  | operation => { ledger with
      additions := operation.strike Addition.entryName ledger.additions }

def recordAll (ledger : Ledger) (operations : List Operation) : Ledger :=
  operations.foldl record ledger

def calls (ledger : Ledger) : List Call :=
  ledger.additions.map Call.add ++ [.setComment ledger.comment]

theorem recordAll_additions (ledger : Ledger) (additions : List Addition) :
    ledger.recordAll (additions.map fun addition => .call (.add addition)) =
      { ledger with additions := ledger.additions ++ additions } := by
  induction additions generalizing ledger with
  | nil => simp [recordAll]
  | cons addition rest ih =>
    refine (ih (ledger.record (.call (.add addition)))).trans ?_
    simp [record, List.append_assoc]

theorem recordAll_calls (ledger : Ledger) :
    empty.recordAll (ledger.calls.map Operation.call) = ledger := by
  have hadditions := recordAll_additions empty ledger.additions
  rw [calls, List.map_append, List.map_map, recordAll, List.foldl_append]
  refine (congrArg (record · (.call (.setComment ledger.comment))) hadditions).trans ?_
  rfl

end Ledger

-- ---------------------------------------------------------------------------
-- Lists that belong together
-- ---------------------------------------------------------------------------

section
variable {α β : Type} {related : α → β → Prop} {items : List α} {others : List β}

theorem forall₂_imp_right {related' : α → β → Prop} (h : List.Forall₂ related items others)
    (himp : ∀ other ∈ others, ∀ item, related item other → related' item other) :
    List.Forall₂ related' items others := by
  induction h with
  | nil => exact .nil
  | cons hfirst _ ih =>
    rw [List.forall_mem_cons] at himp
    exact .cons (himp.1 _ hfirst) (ih himp.2)

theorem forall₂_eraseP {p : α → Bool} {q : β → Bool} (h : List.Forall₂ related items others)
    (hpq : ∀ item other, related item other → p item = q other) :
    List.Forall₂ related (items.eraseP p) (others.eraseP q) := by
  induction h with
  | nil => exact .nil
  | @cons item other items others hfirst hrest ih =>
    cases hq : q other with
    | true =>
      rwa [List.eraseP_cons_of_pos ((hpq _ _ hfirst).trans hq), List.eraseP_cons_of_pos hq]
    | false =>
      have hp : ¬p item = true := by simp [hpq _ _ hfirst, hq]
      rw [List.eraseP_cons_of_neg hp, List.eraseP_cons_of_neg (by simp [hq])]
      exact .cons hfirst ih

end

section
variable [Codec.Coders]

theorem Addition.Held.forall₂_numberFrom {image : ByteArray} {additions : List Addition}
    {entries : List Entry} (h : List.Forall₂ (Addition.Held image) additions entries)
    (first : Nat) :
    List.Forall₂ (Addition.Held image) additions (Entry.numberFrom first entries) := by
  induction h generalizing first with
  | nil => exact .nil
  | cons hheld _ ih => exact .cons (hheld.numbered first) (ih (first + 1))

-- ---------------------------------------------------------------------------
-- Writers and their ledgers
-- ---------------------------------------------------------------------------

/-- The writer lists what is in the ledger, and its image holds it. -/
structure Writer.Keeps (writer : Writer) (ledger : Ledger) : Prop where
  laid : writer.Laid
  held : ∀ image, writer.image = some image →
    List.Forall₂ (Addition.Held image) ledger.additions writer.draft.entries.toList
  comment_eq : writer.draft.comment = ledger.comment

namespace Writer

theorem fresh_keeps : fresh.Keeps .empty where
  laid := fresh_laid
  held := fun _ _ => .nil
  comment_eq := rfl

section
variable {draft : Draft} {image : ByteArray} {ledger : Ledger} {writer : Writer}

theorem held_after_call {call : Call} (hd : draft.Laid image)
    (hheld : List.Forall₂ (Addition.Held image) ledger.additions draft.entries.toList)
    (hcomment : draft.comment = ledger.comment)
    (h : perform ⟨draft, some image⟩ call = (writer, .ok ())) :
    (∀ after, writer.image = some after → List.Forall₂ (Addition.Held after)
        (ledger.record (.call call)).additions writer.draft.entries.toList) ∧
      writer.draft.comment = (ledger.record (.call call)).comment := by
  cases call with
  | add addition =>
    obtain ⟨parcel, hgrown, hsame, hnew⟩ := perform_add_held hd.toFits h
    refine ⟨fun after hafter => ?_, hsame.trans hcomment⟩
    have hpack : Parcel.pack [parcel] = parcel.bytes := ByteArray.append_empty
    obtain rfl := Option.some.inj (hgrown.image_eq.symm.trans hafter)
    rw [hgrown.entries_eq, hpack]
    refine List.rel_append (hheld.imp fun old entry hold => ?_) (.cons hnew .nil)
    exact hold.of_agree (by simp) fun here stored hstored index _ hi =>
      byteAt_append_left (Nat.lt_of_lt_of_le hi hstored.dataEnd_le)
  | setComment comment =>
    obtain ⟨hgrown, hset⟩ := perform_setComment_ok hd.toFits h
    refine ⟨fun after hafter => ?_, hset⟩
    obtain rfl := Option.some.inj (hgrown.image_eq.symm.trans hafter)
    rw [hgrown.entries_eq, Parcel.pack_nil, ByteArray.append_empty, List.map_nil, List.append_nil]
    exact hheld

/-- What is left after a deletion in place is held as before, in another order of indices. -/
theorem held_after_erase {position start count : Nat} {entry : Entry} {name : ByteArray}
    (hd : draft.Laid image)
    (hheld : List.Forall₂ (Addition.Held image) ledger.additions draft.entries.toList)
    (hposition : draft.position? name = some position)
    (hat : draft.entries[position]? = some entry)
    (hextent : entry.extent image = .ok (start, count)) :
    List.Forall₂ (Addition.Held (zeroFill image start count))
      (ledger.additions.eraseP fun addition => addition.entryName == name)
      (draft.remove position).entries.toList := by
  obtain ⟨here, stored, behind, hstored, rfl, hend, hfit, hbehind⟩ := Entry.extent_ok hextent
  have hplain := hd.no_descriptor hat hbehind
  have houtside := hd.outside hat hstored
  have hnames : ∀ addition entry, Addition.Held image addition entry →
      (addition.entryName == name) = (entry.name == name) := fun addition entry h => by
    rw [h.name_eq]
  have hleft := forall₂_eraseP hheld hnames
  rw [← Draft.eraseIdx_position hposition] at hleft
  rw [Draft.toList_remove]
  refine Addition.Held.forall₂_numberFrom (forall₂_imp_right hleft ?_) 0
  intro other hother addition hold
  refine hold.of_agree (Nat.le_of_eq (size_zeroFill hfit).symm) ?_
  intro there bytes hthere index hfrom hto
  have hapart := houtside other hother index
  have hcovers := hthere.covers hfrom hto
  refine byteAt_zeroFill (by omega) ?_
  by_cases hlow : index < entry.localOffset.toNat
  · exact .inl hlow
  · exact .inr (Nat.le_of_not_lt fun hlt => hapart (by omega) (by omega) hcovers)

theorem Keeps.reopen {next : Writer} {bytes : ByteArray} (h : writer.Keeps ledger)
    (hclose : writer.toBytes = .ok bytes)
    (hreread : Directory.Rereadable bytes writer.draft.entries.size writer.draft.comment.size)
    (hof : ofBytes bytes = .ok next) : next.Keeps ledger := by
  have hlaid := reopen_laid h.laid hclose hreread hof
  obtain ⟨draft, _ | image⟩ := writer
  · cases hclose
  · have hd := h.laid image rfl
    have hread := hd.read_finished hclose hreread
    obtain ⟨-, -, rfl⟩ := hd.toBytes_ok.mp hclose
    obtain rfl := Except.ok.inj ((ofBytes_of_read hread).symm.trans hof)
    refine ⟨hlaid, ?_, h.comment_eq⟩
    rintro _ ⟨rfl⟩
    refine forall₂_imp_right (h.held image rfl) fun entry hentry addition hheld => ?_
    obtain ⟨here, stored, hfaithful, hend⟩ := hd.spread.faithful entry hentry
    refine hheld.of_agree hd.size_le_finished fun there bytes hthere index _ hi => ?_
    rw [hfaithful.toStoredAt.dataEnd_unique hthere] at hi
    exact Draft.byteAt_finished hd.cursor_eq hd.bodyEnd_le (Nat.lt_of_lt_of_le hi hend)

theorem Keeps.perform {next : Writer} {call : Call} (h : writer.Keeps ledger)
    (hdone : writer.perform call = (next, .ok ())) : next.Keeps (ledger.record (.call call)) := by
  have hoperate : writer.operate (.call call) = (next, .ok ()) := hdone
  have hclear : writer.Clear (.call call) := trivial
  have hlaid := operate_laid h.laid hclear
  rw [hoperate] at hlaid
  obtain ⟨draft, _ | image⟩ := writer
  · rw [operate_closed] at hoperate
    cases hoperate
  · obtain ⟨hheld, hcomment⟩ := held_after_call (h.laid image rfl) (h.held image rfl) h.comment_eq
      hdone
    exact ⟨hlaid, hheld, hcomment⟩

theorem Keeps.run {next : Writer} {calls : List Call} (h : writer.Keeps ledger)
    (hrun : writer.run calls = .ok next) :
    next.Keeps (ledger.recordAll (calls.map Operation.call)) := by
  induction calls generalizing writer ledger with
  | nil =>
    obtain rfl := Except.ok.inj hrun
    exact h
  | cons call rest ih =>
    simp only [Writer.run] at hrun
    split at hrun
    · cases hrun
    · rename_i hdone
      exact ih (h.perform hdone) hrun

-- ---------------------------------------------------------------------------
-- Rebuilds
-- ---------------------------------------------------------------------------

/-- A rebuild comes to the archive that a new writer makes of what stays, or fails with that. -/
theorem rebuiltImage_eq {names : List String}
    (hheld : List.Forall₂ (Addition.Held image) ledger.additions (draft.survivors names))
    (hcomment : draft.comment = ledger.comment) (hle : ledger.comment.size ≤ maxLength) :
    rebuiltImage draft image names = fresh.run ledger.calls >>= toBytes := by
  have hstaged : (⟨{ Draft.empty with comment := draft.comment }, some ByteArray.empty⟩ : Writer) =
      fresh.commented ledger.comment := by
    rw [hcomment]
    rfl
  rw [Ledger.calls, run_append]
  simp only [rebuiltImage, hstaged, copyEntries_eq_run hheld, run_commented]
  cases hrun : fresh.run (ledger.additions.map Call.add) with
  | error fault => rfl
  | ok made =>
    obtain ⟨parcels, hgrown, -⟩ := run_ok Draft.fits_empty hrun
    obtain ⟨draft, _⟩ := made
    obtain rfl := hgrown.image_eq
    rw [ok_bind]
    simp only [Writer.run, Writer.perform, setComment_of_le _ _ hle]
    rfl

theorem Keeps.survivors {names : List String} (h : Keeps ⟨draft, some image⟩ ledger) :
    List.Forall₂ (Addition.Held image) (ledger.record (.rebuildWithout names)).additions
      (draft.survivors names) := by
  rw [Draft.survivors_eq]
  refine List.rel_filter ?_ (h.held image rfl)
  intro addition entry hheld
  dsimp only
  rw [hheld.name_eq]

theorem Keeps.rebuild {rebuilt : Writer} {names : List String}
    (h : Keeps ⟨draft, some image⟩ ledger)
    (hclear : Clear ⟨draft, some image⟩ (.rebuildWithout names))
    (hdone : rebuildWithout ⟨draft, some image⟩ names = (rebuilt, .ok ())) :
    rebuilt.Keeps (ledger.record (.rebuildWithout names)) ∧
      ∃ bytes canonical, rebuilt.toBytes = .ok bytes ∧
        fresh.run (ledger.record (.rebuildWithout names)).calls = .ok canonical ∧
        canonical.toBytes = .ok bytes := by
  obtain ⟨bytes, hrebuilt, hof⟩ := rebuildWithout_ok hdone
  have hreread := hclear (missingName?_of_rebuildWithout hdone) image bytes rfl hrebuilt
  have hle := (h.laid image rfl).writable.comment_le
  have hsurvivors : List.Forall₂ (Addition.Held image)
      (ledger.record (.rebuildWithout names)).additions (draft.survivors names) := h.survivors
  rw [h.comment_eq] at hle
  rw [rebuiltImage_eq hsurvivors h.comment_eq hle] at hrebuilt
  obtain ⟨canonical, hrun, hclose⟩ := bind_eq_ok.mp hrebuilt
  have hkeeps := fresh_keeps.run hrun
  rw [Ledger.recordAll_calls] at hkeeps
  obtain ⟨staged, _ | written⟩ := canonical
  · cases hclose
  · have hreread' : Directory.Rereadable bytes staged.entries.size staged.comment.size := by
      have hlength := (hkeeps.held written rfl).length_eq
      rw [← Array.length_toList, ← hlength, hsurvivors.length_eq, show staged.comment = _ from
        hkeeps.comment_eq]
      rwa [h.comment_eq] at hreread
    exact ⟨hkeeps.reopen hclose hreread' hof, bytes, _,
      (hkeeps.laid written rfl).toBytes_reopened hclose hreread' hof, hrun, hclose⟩

end

/-- Whatever is asked of a writer, it keeps what is in its ledger. -/
theorem operate_keeps {writer next : Writer} {ledger : Ledger} {operation : Operation}
    (h : writer.Keeps ledger) (hclear : writer.Clear operation)
    (hdone : writer.operate operation = (next, .ok ())) :
    next.Keeps (ledger.record operation) := by
  obtain ⟨draft, _ | image⟩ := writer
  · rw [operate_closed] at hdone
    obtain ⟨rfl, hclosed⟩ := Prod.mk.inj hdone
    split at hclosed
    · rename_i hclose
      subst hclose
      exact h
    · cases hclosed
  cases operation with
  | call call => exact h.perform hdone
  | eraseInPlace name =>
    have hlaid := operate_laid h.laid hclear
    rw [hdone] at hlaid
    obtain ⟨position, entry, start, count, hposition, hat, hextent, rfl⟩ := eraseInPlace_ok hdone
    refine ⟨hlaid, ?_, h.comment_eq⟩
    rintro _ ⟨rfl⟩
    exact held_after_erase (h.laid image rfl) (h.held image rfl) hposition hat hextent
  | rebuildWithout names => exact (h.rebuild hclear hdone).1
  | close =>
    obtain rfl := close_ok hdone
    exact ⟨nofun, nofun, h.comment_eq⟩

/-- What a successful operation carries on, from writer and ledger to writer and ledger, every run
carries on; the operations that fail change neither. -/
theorem after_carries {kept : Writer → Ledger → Prop}
    (hoperate : ∀ {writer next : Writer} {ledger : Ledger} {operation : Operation},
      kept writer ledger → writer.Clear operation →
      writer.operate operation = (next, .ok ()) → kept next (ledger.record operation))
    {writer : Writer} {ledger : Ledger} {operations : List Operation} (h : kept writer ledger)
    (hclear : writer.ClearAlong operations) :
    kept (writer.after operations) (ledger.recordAll (writer.succeeding operations)) := by
  induction operations generalizing writer ledger with
  | nil => exact h
  | cons operation rest ih =>
    obtain ⟨hfirst, hrest⟩ := hclear
    simp only [after, succeeding]
    generalize hdone : writer.operate operation = performed at hrest ⊢
    obtain ⟨next, fault | _⟩ := performed
    · obtain rfl := operate_error hdone
      exact ih h hrest
    · exact ih (hoperate h hfirst hdone) hrest

theorem after_keeps {writer : Writer} {ledger : Ledger} {operations : List Operation}
    (h : writer.Keeps ledger) (hclear : writer.ClearAlong operations) :
    (writer.after operations).Keeps (ledger.recordAll (writer.succeeding operations)) :=
  after_carries operate_keeps h hclear

/-- After any run on a new writer a rebuild comes to the archive of what is left, byte for byte: the
one that a new writer makes when only the additions that were not deleted are made, in their order,
and the last comment is set. -/
theorem rebuildWithout_canonical {operations : List Operation} {names : List String}
    {rebuilt : Writer} (hclear : fresh.ClearAlong operations)
    (hlast : (fresh.after operations).Clear (.rebuildWithout names))
    (hrebuild : (fresh.after operations).rebuildWithout names = (rebuilt, .ok ())) :
    ∃ ledger bytes canonical,
      ledger = (Ledger.empty.recordAll (fresh.succeeding operations)).record
        (.rebuildWithout names) ∧
      rebuilt.toBytes = .ok bytes ∧
      fresh.run (ledger.additions.map Call.add ++ [.setComment ledger.comment]) = .ok canonical ∧
      canonical.toBytes = .ok bytes ∧
      List.Forall₂ Addition.Makes ledger.additions rebuilt.draft.entries.toList := by
  have hkeeps := after_keeps fresh_keeps hclear
  generalize fresh.after operations = writer at hlast hrebuild hkeeps
  obtain ⟨draft, _ | image⟩ := writer
  · cases hrebuild
  · obtain ⟨hkept, bytes, canonical, hclose, hrun, hbytes⟩ := hkeeps.rebuild hlast hrebuild
    obtain ⟨after, hafter⟩ : ∃ after, rebuilt.image = some after := by
      obtain ⟨after, -, hof⟩ := rebuildWithout_ok hrebuild
      obtain ⟨_, rfl, -⟩ := ofBytes_fits hof
      exact ⟨after, rfl⟩
    exact ⟨_, bytes, canonical, rfl, hclose, hrun, hbytes,
      (hkept.held after hafter).imp fun _ _ hheld => hheld.makes⟩

end Writer

end

namespace Writer

def filling : List Operation := [
  .call (.setComment "é".toUTF8),
  addLetter "a",
  .call (.add (.file "a" ⟨#[1, 2]⟩ { method := .store, alignment := 8, modified := 0 }))]

def alignedAlone : Ledger where
  additions := [.file "a" ⟨#[1, 2]⟩ { method := .store, alignment := 8, modified := 0 }]
  comment := "é".toUTF8

def thinned : Writer where
  draft := (fresh.after filling).draft.remove 0
  image := (fresh.after filling).image.map fun image =>
    image.extract 0 0 ++ zeros 32 ++ image.extract 32 image.size

theorem eraseInPlace_filling :
    (fresh.after filling).eraseInPlace "a" = (thinned, .ok ()) := by
  have hfound : (fresh.after filling).image.map (fun image =>
      (fresh.after filling).draft.findErasable image "a") = some (.ok (0, 0, 32)) := by
    decide +kernel
  rw [thinned]
  generalize fresh.after filling = writer at hfound ⊢
  obtain ⟨draft, _ | image⟩ := writer
  · cases hfound
  · exact eraseInPlace_eq (Option.some.inj hfound) (Nat.zero_le _)

theorem rebuildWithout_canonical_aligned :
    ∃ operations rebuilt bytes canonical, operations =
        filling ++ [.eraseInPlace "a", .rebuildWithout [], addLetter "b"] ∧
      (fresh.after operations).rebuildWithout ["b"] = (rebuilt, .ok ()) ∧
      rebuilt.toBytes = .ok bytes ∧ fresh.run alignedAlone.calls = .ok canonical ∧
      canonical.toBytes = .ok bytes := by
  have hafter : fresh.after (filling ++ [.eraseInPlace "a", .rebuildWithout [], addLetter "b"]) =
      thinned.after [.rebuildWithout [], addLetter "b"] := by
    rw [after_append, after, operate, eraseInPlace_filling]
  have hclear : fresh.ClearAlong filling ∧
      thinned.ClearAlong [.rebuildWithout [], addLetter "b"] ∧
      (thinned.after [.rebuildWithout [], addLetter "b"]).Clear (.rebuildWithout ["b"]) := by
    decide +kernel
  have hdone : ((thinned.after [.rebuildWithout [], addLetter "b"]).rebuildWithout ["b"]).2 =
      .ok () := by
    decide +kernel
  have hledger : (Ledger.empty.recordAll (fresh.succeeding filling ++ .eraseInPlace "a" ::
      thinned.succeeding [.rebuildWithout [], addLetter "b"])).record (.rebuildWithout ["b"]) =
        alignedAlone := by
    decide +kernel
  obtain ⟨hfilling, hthinned, hlast⟩ := hclear
  have hsucceeding : fresh.succeeding
      (filling ++ [.eraseInPlace "a", .rebuildWithout [], addLetter "b"]) =
      fresh.succeeding filling ++ .eraseInPlace "a" ::
        thinned.succeeding [.rebuildWithout [], addLetter "b"] := by
    rw [succeeding_append, succeeding, operate, eraseInPlace_filling]
  have halong : fresh.ClearAlong
      (filling ++ [.eraseInPlace "a", .rebuildWithout [], addLetter "b"]) := by
    refine clearAlong_append.mpr ⟨hfilling, trivial, ?_⟩
    rwa [operate, eraseInPlace_filling]
  rw [← hafter] at hlast hdone
  obtain ⟨ledger, bytes, canonical, hleft, hclose, hrun, hbytes, -⟩ :=
    rebuildWithout_canonical halong hlast (Prod.ext rfl hdone)
  rw [hsucceeding, hledger] at hleft
  subst hleft
  exact ⟨_, _, bytes, canonical, rfl, Prod.ext rfl hdone, hclose, hrun, hbytes⟩

end Writer

end ClassicZip
