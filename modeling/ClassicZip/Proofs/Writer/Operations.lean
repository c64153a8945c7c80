import ClassicZip.Deletion
import ClassicZip.Proofs.Writer.Sessions

/-!
# Operations succeed or change nothing

An operation is anything that can be asked of a writer that goes on. One that fails leaves the
writer as it was, with the same image and the same draft. A closed writer stays as it is and refuses
all but to be closed again.
-/

namespace ClassicZip

open Bytes

inductive Operation
  | call (call : Call)
  | eraseInPlace (name : String)
  | rebuildWithout (names : List String)
  | close
  deriving DecidableEq

namespace Operation

/-- What an operation that succeeds leaves of things with names. To delete in place takes the first
with the name away, to rebuild all that have one of the names. -/
def strike {α : Type} (nameOf : α → ByteArray) (items : List α) : Operation → List α
  | eraseInPlace name => items.eraseP fun item => nameOf item == name.toUTF8
  | rebuildWithout names => items.filter fun item => nameOf item ∉ names.map String.toUTF8
  | call _ | close => items

def strikeAll {α : Type} (nameOf : α → ByteArray) (items : List α)
    (operations : List Operation) : List α :=
  operations.foldl (strike nameOf) items

theorem strikeAll_sublist {α : Type} (nameOf : α → ByteArray) (items : List α)
    (operations : List Operation) : (strikeAll nameOf items operations).Sublist items := by
  induction operations generalizing items with
  | nil => exact List.Sublist.refl items
  | cons operation rest ih =>
    refine (ih (strike nameOf items operation)).trans ?_
    cases operation with
    | eraseInPlace name => exact List.eraseP_sublist
    | rebuildWithout names => exact List.filter_sublist
    | call call => exact List.Sublist.refl items
    | close => exact List.Sublist.refl items

def lastComment (comment : ByteArray) : List Operation → ByteArray
  | [] => comment
  | call (.setComment next) :: rest => lastComment next rest
  | _ :: rest => lastComment comment rest

end Operation

namespace Writer

-- ---------------------------------------------------------------------------
-- Single operations
-- ---------------------------------------------------------------------------

section
variable {writer next : Writer} {fault : Fault}

theorem eraseInPlace_error {name : String}
    (h : writer.eraseInPlace name = (next, .error fault)) : next = writer := by
  unfold eraseInPlace at h
  split at h
  · exact (Prod.mk.inj h).1.symm
  · split at h
    · exact (Prod.mk.inj h).1.symm
    · cases h

theorem rebuildWithout_error {names : List String}
    (h : writer.rebuildWithout names = (next, .error fault)) : next = writer := by
  unfold rebuildWithout at h
  split at h
  · exact (Prod.mk.inj h).1.symm
  · split at h
    · exact (Prod.mk.inj h).1.symm
    · split at h
      · exact (Prod.mk.inj h).1.symm
      · split at h
        · exact (Prod.mk.inj h).1.symm
        · cases h

/-- The last thing that can fail is to take up the rebuilt archive. -/
theorem rebuildWithout_late {image rebuilt : ByteArray} {names : List String}
    (himage : writer.image = some image) (hpresent : writer.draft.missingName? names = none)
    (hrebuilt : rebuiltImage writer.draft image names = .ok rebuilt)
    (htaken : Draft.ofImage rebuilt = .error fault) :
    writer.rebuildWithout names = (writer, .error fault) := by
  obtain ⟨draft, _⟩ := writer
  obtain rfl := himage
  simp only [rebuildWithout, ofBytes, hpresent, hrebuilt, htaken]

theorem complete_error (h : writer.complete = (next, .error fault)) : next = writer := by
  unfold complete at h
  split at h
  · exact (Prod.mk.inj h).1.symm
  · split at h
    · exact (Prod.mk.inj h).1.symm
    · cases h

theorem close_error (h : writer.close = (next, .error fault)) : next = writer := by
  unfold close at h
  split at h
  · cases h
  · split at h
    · rename_i hcomplete
      obtain ⟨rfl, -⟩ := Prod.mk.inj h
      exact complete_error hcomplete
    · cases h

end

theorem close_ok {writer closed : Writer} (h : writer.close = (closed, .ok ())) :
    closed = ⟨writer.draft, none⟩ := by
  unfold close at h
  split at h
  · rename_i hclosed
    obtain ⟨rfl, -⟩ := Prod.mk.inj h
    rw [← Option.isNone_iff_eq_none.mp hclosed]
  · split at h
    · cases h
    · rename_i hcomplete
      obtain ⟨rfl, -⟩ := Prod.mk.inj h
      unfold complete at hcomplete
      split at hcomplete
      · cases hcomplete
      · split at hcomplete
        · cases hcomplete
        · exact (Prod.mk.inj hcomplete).1.symm

theorem image_of_close {writer closed : Writer} (h : writer.close = (closed, .ok ())) :
    closed.image = none := by
  rw [close_ok h]

-- ---------------------------------------------------------------------------
-- Operations one after the other
-- ---------------------------------------------------------------------------

section
variable [Codec.Coders]

def operate (writer : Writer) : Operation → Writer × Except Fault Unit
  | .call call => writer.perform call
  | .eraseInPlace name => writer.eraseInPlace name
  | .rebuildWithout names => writer.rebuildWithout names
  | .close => writer.close

def after (writer : Writer) : List Operation → Writer
  | [] => writer
  | operation :: rest => (writer.operate operation).1.after rest

/-- The operations that succeed when all of them are asked for in turn. -/
def succeeding (writer : Writer) : List Operation → List Operation
  | [] => []
  | operation :: rest =>
    match writer.operate operation with
    | (next, .error _) => next.succeeding rest
    | (next, .ok ()) => operation :: next.succeeding rest

theorem mem_of_mem_succeeding {writer : Writer} {operations : List Operation}
    {operation : Operation} (h : operation ∈ writer.succeeding operations) :
    operation ∈ operations := by
  induction operations generalizing writer with
  | nil => cases h
  | cons first rest ih =>
    simp only [succeeding] at h
    split at h
    · exact List.mem_cons_of_mem _ (ih h)
    · rcases List.mem_cons.mp h with rfl | h
      · exact List.mem_cons_self
      · exact List.mem_cons_of_mem _ (ih h)

-- ---------------------------------------------------------------------------
-- Failures
-- ---------------------------------------------------------------------------

theorem operate_error {writer next : Writer} {fault : Fault} {operation : Operation}
    (h : writer.operate operation = (next, .error fault)) : next = writer := by
  cases operation with
  | call call => exact perform_error h
  | eraseInPlace name => exact eraseInPlace_error h
  | rebuildWithout names => exact rebuildWithout_error h
  | close => exact close_error h

theorem after_succeeding (writer : Writer) (operations : List Operation) :
    writer.after (writer.succeeding operations) = writer.after operations := by
  induction operations generalizing writer with
  | nil => rfl
  | cons operation rest ih =>
    simp only [succeeding, after]
    split
    · rename_i next fault hfail
      rw [hfail, ← operate_error hfail]
      exact ih next
    · rename_i next hdone
      rw [after, hdone]
      exact ih next

theorem after_append (writer : Writer) (front back : List Operation) :
    writer.after (front ++ back) = (writer.after front).after back := by
  induction front generalizing writer with
  | nil => rfl
  | cons operation rest ih => exact ih _

theorem succeeding_append (writer : Writer) (front back : List Operation) :
    writer.succeeding (front ++ back) =
      writer.succeeding front ++ (writer.after front).succeeding back := by
  induction front generalizing writer with
  | nil => rfl
  | cons operation rest ih =>
    simp only [List.cons_append, succeeding, after]
    generalize writer.operate operation = performed
    obtain ⟨next, fault | _⟩ := performed
    · exact ih next
    · exact congrArg (operation :: ·) (ih next)

-- ---------------------------------------------------------------------------
-- Closed writers
-- ---------------------------------------------------------------------------

theorem operate_closed (draft : Draft) (operation : Operation) :
    operate ⟨draft, none⟩ operation =
      (⟨draft, none⟩, if operation = .close then .ok () else .error .writerClosed) := by
  cases operation with
  | call call =>
    cases call with
    | add addition => cases addition <;> rfl
    | setComment comment => rfl
  | eraseInPlace name => rfl
  | rebuildWithout names => rfl
  | close => rfl

theorem after_closed (draft : Draft) (operations : List Operation) :
    after ⟨draft, none⟩ operations = ⟨draft, none⟩ := by
  induction operations with
  | nil => rfl
  | cons operation rest ih =>
    rw [after, operate_closed]
    exact ih

/-- Whatever was asked of a writer before, an operation that fails changes neither image nor draft,
so a run is what its successful operations are. Once a close has succeeded, whatever is asked of the
writer leaves it as it is: to close it again succeeds, and all else is refused. -/
theorem operate_atomic (start : Writer) (operations : List Operation) :
    (∀ operation next fault,
      (start.after operations).operate operation = (next, .error fault) →
        next = start.after operations) ∧
    start.after (start.succeeding operations) = start.after operations ∧
    (∀ closed, (start.after operations).close = (closed, .ok ()) →
      ∀ later, closed.after later = closed ∧ closed.image = none ∧
        ∀ operation, closed.operate operation =
          (closed, if operation = .close then .ok () else .error .writerClosed)) := by
  refine ⟨fun operation next fault => operate_error, start.after_succeeding operations, ?_⟩
  intro closed hclose later
  obtain ⟨draft, image⟩ := closed
  obtain rfl : image = none := image_of_close hclose
  exact ⟨after_closed draft later, rfl, operate_closed draft⟩

end

def addLetter (name : String) : Operation :=
  .call (.add (.file name ⟨#[120]⟩ { method := .store, modified := 0 }))

/-- An end record whose directory would have to start behind it. -/
def misleading : ByteArray :=
  le32 EndRecord.signature ++ (EndRecord.ofSingleDisk 0 0 65535 0).encode

/-- A lone entry in an archive with a misleading comment. -/
def misled : List Operation := [addLetter "a", .call (.setComment misleading)]

/-- Without its only entry the archive is an end record and the comment, and that is taken for the
end record. -/
theorem rebuilt_misled : ∃ image rebuilt, (fresh.after misled).image = some image ∧
    (fresh.after misled).draft.missingName? ["a"] = none ∧
    rebuiltImage (fresh.after misled).draft image ["a"] = .ok rebuilt ∧
    Draft.ofImage rebuilt = .error (.truncated .directory 65535) ∧ image ≠ rebuilt := by
  have hcheck : ((fresh.after misled).image.bind fun image =>
      (rebuiltImage (fresh.after misled).draft image ["a"]).toOption.map fun rebuilt =>
        decide ((fresh.after misled).draft.missingName? ["a"] = none ∧
          Draft.ofImage rebuilt = .error (.truncated .directory 65535) ∧
          image ≠ rebuilt)) = some true := by
    decide +kernel
  simp only [Option.bind_eq_some_iff, Option.map_eq_some_iff, toOption_eq_some,
    decide_eq_true_eq] at hcheck
  obtain ⟨image, himage, rebuilt, hrebuilt, hpresent, htaken, hne⟩ := hcheck
  exact ⟨image, rebuilt, himage, hpresent, hrebuilt, htaken, hne⟩

theorem operate_atomic_misled :
    ∃ writer image rebuilt fault closed, fresh.after misled = writer ∧
      writer.draft.entries.size = 1 ∧ writer.image = some image ∧
      rebuiltImage writer.draft image ["a"] = .ok rebuilt ∧
      Draft.ofImage rebuilt = .error fault ∧
      writer.operate (.rebuildWithout ["a"]) = (writer, .error fault) ∧
      writer.close = (closed, .ok ()) ∧ closed.after [.rebuildWithout ["a"]] = closed ∧
      closed.operate (.rebuildWithout ["a"]) = (closed, .error .writerClosed) ∧
      closed.operate .close = (closed, .ok ()) := by
  obtain ⟨image, rebuilt, himage, hpresent, hrebuilt, htaken, -⟩ := rebuilt_misled
  have hfail : ((fresh.after misled).operate (.rebuildWithout ["a"])).2 =
      .error (.truncated .directory 65535) := by
    rw [operate, rebuildWithout_late himage hpresent hrebuilt htaken]
  have hclose : (fresh.after misled).close.2 = .ok () := by decide +kernel
  obtain ⟨hsame, -, hclosed⟩ := operate_atomic fresh misled
  obtain ⟨hafter, -, hrefused⟩ := hclosed _ (Prod.ext rfl hclose) [.rebuildWithout ["a"]]
  have hnext := hsame (.rebuildWithout ["a"]) _ _ (Prod.ext rfl hfail)
  exact ⟨_, image, rebuilt, _, _, rfl, by decide +kernel, himage, hrebuilt, htaken,
    Prod.ext hnext hfail, Prod.ext rfl hclose, hafter, hrefused (.rebuildWithout ["a"]),
    hrefused .close⟩

end Writer

end ClassicZip
