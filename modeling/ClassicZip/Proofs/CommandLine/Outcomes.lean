import ClassicZip.CommandLine.Execution

/-!
# What the work of a command comes to

Work that follows other work sees what that left, and is not done where that failed. What was done
up to a failure stays done.
-/

namespace ClassicZip.CommandLine.Work

section
variable {α β ε : Type} {progress : Progress}

def outcome (work : Work α) (progress : Progress) : Except Report α × Progress :=
  work.run.run progress

@[simp] theorem outcome_pure (value : α) :
    (pure value : Work α).outcome progress = (.ok value, progress) := rfl

theorem outcome_bind (work : Work α) (next : α → Work β) :
    (work >>= next).outcome progress = match work.outcome progress with
      | (.ok value, after) => (next value).outcome after
      | (.error report, after) => (.error report, after) := by
  simp only [outcome, ExceptT.run_bind, StateT.run_bind]
  generalize work.run.run progress = done
  obtain ⟨fault | value, after⟩ := done
  · rfl
  · rfl

theorem outcome_bind_ok {work : Work α} {next : α → Work β} {value : β} {after : Progress}
    (h : (work >>= next).outcome progress = (.ok value, after)) :
    ∃ first between, work.outcome progress = (.ok first, between) ∧
      (next first).outcome between = (.ok value, after) := by
  rw [outcome_bind] at h
  split at h
  · rename_i first between hfirst
    exact ⟨first, between, hfirst, h⟩
  · cases h

@[simp] theorem outcome_get : (get : Work Progress).outcome progress = (.ok progress, progress) :=
  rfl

@[simp] theorem outcome_set (next : Progress) :
    (set next : Work Unit).outcome progress = (.ok (), next) := rfl

@[simp] theorem outcome_disk : disk.outcome progress = (.ok progress.disk, progress) := rfl

@[simp] theorem outcome_orReport (report : ε → Report) (result : Except ε α) :
    (orReport report result).outcome progress = (result.mapError report, progress) := by
  cases result <;> rfl

@[simp] theorem outcome_onDisk (report : ε → Report) (act : Disk → Disk × Except ε α) :
    (onDisk report act).outcome progress =
      ((act progress.disk).2.mapError report, { progress with disk := (act progress.disk).1 }) := by
  simp [onDisk, outcome_bind]

@[simp] theorem outcome_change (writer : FileWriter) (report : Fault → Report)
    (act : FileWriter → Disk → FileWriter × Disk × Except Fault Unit) :
    (change writer report act).outcome progress =
      (((act writer progress.disk).2.2.mapError report).map fun _ => (act writer progress.disk).1,
        { progress with disk := (act writer progress.disk).2.1 }) := by
  simp only [change, outcome_bind, outcome_get, outcome_set, outcome_orReport]
  cases (act writer progress.disk).2.2 <;> rfl

end

end ClassicZip.CommandLine.Work
