import ClassicZip.Calendar

/-!
# DOS time stamps

Entries carry their modification time as two packed words. The time word holds the hour, the
minute and half the second; the date word holds the years since 1980, the month and the day. Unix
seconds before 1980 become the first of these stamps and seconds after 2107 the last.
-/

namespace ClassicZip

structure DosTime where
  time : UInt16
  date : UInt16
  deriving DecidableEq, Repr

namespace DosTime

/-- 1980-01-01 00:00:00. -/
def earliest : DosTime := ⟨0, 33⟩

/-- 2107-12-31 23:59:58. -/
def latest : DosTime := ⟨49021, 65439⟩

def pack (date : CivilDate) (hour minute second : Int) : DosTime where
  time := UInt16.ofNat (hour.toNat * 2048 + minute.toNat * 32 + second.toNat / 2)
  date := UInt16.ofNat ((date.year - 1980).toNat * 512 + date.month.toNat * 32 + date.day.toNat)

/-- The stamp of a Unix time, read as UTC; odd seconds round down. -/
def ofUnix (seconds : Int) : DosTime :=
  let seconds := max seconds 0
  let date := CivilDate.ofDays (seconds / 86400)
  let ofDay := seconds % 86400
  if date.year < 1980 then earliest
  else if 2107 < date.year then latest
  else pack date (ofDay / 3600) (ofDay % 3600 / 60) (ofDay % 60)

def civilDate (stamp : DosTime) : CivilDate where
  year := 1980 + (stamp.date.toNat / 512 : Nat)
  month := (stamp.date.toNat / 32 % 16 : Nat)
  day := (stamp.date.toNat % 32 : Nat)

def hour (stamp : DosTime) : Nat := stamp.time.toNat / 2048

def minute (stamp : DosTime) : Nat := stamp.time.toNat / 32 % 64

def second (stamp : DosTime) : Nat := stamp.time.toNat % 32 * 2

def Valid (stamp : DosTime) : Prop :=
  stamp.civilDate.Valid ∧ stamp.hour ≤ 23 ∧ stamp.minute ≤ 59 ∧ stamp.second ≤ 59

instance (stamp : DosTime) : Decidable stamp.Valid := by
  unfold Valid
  infer_instance

def toUnix? (stamp : DosTime) : Option Int :=
  if stamp.Valid then
    some (stamp.civilDate.toDays * 86400 + stamp.hour * 3600 + stamp.minute * 60 + stamp.second)
  else none

end DosTime

end ClassicZip
