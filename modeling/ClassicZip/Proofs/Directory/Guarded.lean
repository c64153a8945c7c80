import ClassicZip.Proofs.Directory.Reading

/-!
# No access is out of bounds

The parser again, with a guard on every access to a buffer. It comes to nothing at the first access
that would reach past the end of the buffer, or at a cursor that stands past its end. It never does:
`Guarded.read_eq` says that the guards change nothing.
-/

namespace ClassicZip

namespace Guarded

def slice (bytes : ByteArray) (start count : Nat) : Option ByteArray :=
  if start + count ≤ bytes.size then some (Bytes.slice bytes start count) else none

def u32At (bytes : ByteArray) (index : Nat) : Option UInt32 :=
  if index + 4 ≤ bytes.size then some (Bytes.u32At bytes index) else none

/-- What a cursor answers, where it does not stand past the end of its buffer. -/
def answer {α : Type} : Except ReadFault α → Option (Except ReadFault α)
  | .error (.outOfRange _ _) => none
  | taken => some taken

def at? (tail : ByteArray) (position : Nat) : Option (Option EndRecord) :=
  if position + EndRecord.fixedSize ≤ tail.size then do
    if (← u32At tail position) = EndRecord.signature then
      let record := EndRecord.decode (← slice tail (position + 4) EndRecord.bodySize)
      return if position + EndRecord.fixedSize + record.commentLength.toNat ≤ tail.size then
        some record else none
    else return none
  else return none

def findBelow? (tail : ByteArray) : Nat → Option (Option (Nat × EndRecord))
  | 0 => return none
  | position + 1 => do
    match ← at? tail position with
    | some record => return some (position, record)
    | none => findBelow? tail position

def hasLocatorBefore (tail : ByteArray) (position : Nat) : Option Bool :=
  if EndRecord.locatorSize ≤ position then do
    return (← u32At tail (position - EndRecord.locatorSize)) == EndRecord.locatorSignature
  else return false

def step {α : Type} (truncated : ReadFault → Fault) (taken : Except ReadFault α) :
    ExceptT Fault Option α :=
  (answer taken).map (Except.mapError truncated)

def take (base index : Nat) (cursor : Cursor) : ExceptT Fault Option (Entry × Cursor) :=
  let offset := base + cursor.position
  let truncated (_ : ReadFault) : Fault := .truncated .directoryHeader offset
  do
    let (signature, atHeader) ← step truncated cursor.takeU32
    if signature ≠ DirectoryHeader.signature then
      throw (.badSignature DirectoryHeader.signature signature offset)
    let (header, atName) ← step truncated atHeader.takeDirectoryHeader
    let (name, atExtra) ← step truncated (atName.take header.nameLength.toNat)
    let (extra, atComment) ← step truncated (atExtra.take header.extraLength.toNat)
    let (comment, next) ← step truncated (atComment.take header.commentLength.toNat)
    return (.ofHeader index header name extra comment, next)

def takeMany (base : Nat) : Nat → Cursor → Array Entry → ExceptT Fault Option (Array Entry)
  | 0, _, entries => return entries
  | count + 1, cursor, entries => do
    let (entry, next) ← take base entries.size cursor
    takeMany base count next (entries.push entry)

def ofEndRecord (image tail : ByteArray) (position : Nat) (record : EndRecord) :
    ExceptT Fault Option Directory :=
  let recordOffset := image.size - tail.size + position
  let offset := record.directoryOffset.toNat
  do
    let comment ← slice tail (position + EndRecord.fixedSize) record.commentLength.toNat
    if recordOffset < offset then
      throw (.truncated .directory offset)
    let headers ← slice image offset (recordOffset - offset)
    let entries ← takeMany offset record.entries.toNat (Cursor.ofBytes headers) #[]
    return {
      entries := entries
      comment := comment
      offset := offset
      imageSize := image.size }

def read (image : ByteArray) : ExceptT Fault Option Directory :=
  let start := image.size - EndRecord.searchSpan
  do
    let tail ← slice image start (image.size - start)
    match ← (findBelow? tail tail.size : Option _) with
    | none => throw .endRecordNotFound
    | some (position, record) =>
      let extended ← (if record.hasSentinel then hasLocatorBefore tail position else some false :
        Option Bool)
      if extended then
        throw (.oversize .endRecord)
      ofEndRecord image tail position record

-- ---------------------------------------------------------------------------
-- The guards hold
-- ---------------------------------------------------------------------------

theorem slice_eq {bytes : ByteArray} {start count : Nat} (h : start + count ≤ bytes.size) :
    slice bytes start count = some (Bytes.slice bytes start count) := if_pos h

theorem u32At_eq {bytes : ByteArray} {index : Nat} (h : index + 4 ≤ bytes.size) :
    u32At bytes index = some (Bytes.u32At bytes index) := if_pos h

theorem at?_eq (tail : ByteArray) (position : Nat) :
    at? tail position = some (EndRecord.at? tail position) := by
  unfold at? EndRecord.at?
  by_cases hfit : position + EndRecord.fixedSize ≤ tail.size
  · have hfixed : EndRecord.fixedSize = 4 + EndRecord.bodySize := rfl
    rw [u32At_eq (by omega), slice_eq (by omega)]
    by_cases hsig : Bytes.u32At tail position = EndRecord.signature
    · simp [hfit, hsig]
    · simp [hfit, hsig]
  · simp [hfit]

theorem findBelow?_eq (tail : ByteArray) (limit : Nat) :
    findBelow? tail limit = some (EndRecord.findBelow? tail limit) := by
  induction limit with
  | zero => rfl
  | succ limit ih =>
    rw [findBelow?, EndRecord.findBelow?, at?_eq]
    cases EndRecord.at? tail limit with
    | some record => rfl
    | none => exact ih

theorem hasLocatorBefore_eq {tail : ByteArray} {position : Nat} (h : position ≤ tail.size) :
    hasLocatorBefore tail position = some (EndRecord.hasLocatorBefore tail position) := by
  unfold hasLocatorBefore EndRecord.hasLocatorBefore
  by_cases hfit : EndRecord.locatorSize ≤ position
  · have hfour : 4 ≤ EndRecord.locatorSize := by decide
    rw [u32At_eq (by omega)]
    simp [hfit]
  · simp [hfit]

/-- Where the first step keeps within its buffer, the guards on the others decide. -/
theorem bind_eq {α β : Type} {first : ExceptT Fault Option α} {x : Except Fault α}
    {f : α → Except Fault β} {next : α → ExceptT Fault Option β} (hfirst : first = some x)
    (hnext : ∀ a, x = .ok a → next a = some (f a)) : first >>= next = some (x >>= f) := by
  subst hfirst
  cases x with
  | error fault => rfl
  | ok a => exact hnext a rfl

theorem liftM_bind {α β : Type} {taken : Option α} {a : α} (h : taken = some a)
    (next : α → ExceptT Fault Option β) :
    (liftM taken : ExceptT Fault Option α) >>= next = next a := by
  rw [h]
  rfl

theorem step_eq {α : Type} {truncated : ReadFault → Fault} {taken : Except ReadFault α}
    (h : ∀ position size, taken ≠ .error (.outOfRange position size)) :
    step truncated taken = some (taken.mapError truncated) := by
  match taken with
  | .ok value => rfl
  | .error (.shortfall _ _ _) => rfl
  | .error (.outOfRange position size) => exact absurd rfl (h position size)

section
variable {cursor : Cursor}

theorem take_ne (h : cursor.position ≤ cursor.buffer.size) (count position size : Nat) :
    cursor.take count ≠ .error (.outOfRange position size) := by
  rcases Cursor.short_or_fits h count with hshort | hfit
  · rw [Cursor.take_of_lt hshort]
    exact nofun
  · rw [Cursor.take_of_le hfit]
    exact nofun

theorem decode_taken_ne {α : Type} {taken : Except ReadFault (ByteArray × Cursor)}
    {decode : ByteArray → α} {fault : ReadFault} (h : taken ≠ .error fault) :
    (match taken with
      | .ok (bytes, after) => Except.ok (decode bytes, after)
      | .error fault => .error fault) ≠ .error fault := by
  cases taken with
  | error cause => exact fun heq => h (congrArg _ (Except.error.inj heq))
  | ok found => exact nofun

theorem take_eq (base index : Nat) (h : cursor.position ≤ cursor.buffer.size) :
    take base index cursor = some (Entry.take base index cursor) := by
  unfold take Entry.take
  dsimp only
  -- A step that succeeds leaves its cursor within the buffer, which is what the next one needs.
  refine bind_eq (step_eq fun _ _ => decode_taken_ne (take_ne h 4 _ _)) ?_
  rintro ⟨signature, atHeader⟩ hs
  obtain ⟨_, htake, rfl⟩ := Cursor.takeU32_ok.mp (mapError_eq_ok.mp hs)
  obtain ⟨hheader, -, rfl⟩ := Cursor.take_ok.mp htake
  dsimp only
  split
  · rfl
  · refine bind_eq (step_eq fun _ _ => decode_taken_ne (take_ne hheader _ _ _)) ?_
    rintro ⟨header, atName⟩ hh
    obtain ⟨_, htake, -⟩ := Cursor.takeDirectoryHeader_ok.mp (mapError_eq_ok.mp hh)
    obtain ⟨hname, -, rfl⟩ := Cursor.take_ok.mp htake
    refine bind_eq (step_eq fun _ _ => take_ne hname _ _ _) ?_
    rintro ⟨name, atExtra⟩ hn
    obtain ⟨hextra, -, rfl⟩ := Cursor.take_ok.mp (mapError_eq_ok.mp hn)
    refine bind_eq (step_eq fun _ _ => take_ne hextra _ _ _) ?_
    rintro ⟨extra, atComment⟩ he
    obtain ⟨hcomment, -, rfl⟩ := Cursor.take_ok.mp (mapError_eq_ok.mp he)
    exact bind_eq (step_eq fun _ _ => take_ne hcomment _ _ _) fun _ _ => rfl

theorem takeMany_eq (base count : Nat) (entries : Array Entry) {ahead : ByteArray}
    (ha : cursor.Ahead ahead) :
    takeMany base count cursor entries = some (Entry.takeMany base count cursor entries) := by
  induction count generalizing cursor entries ahead with
  | zero => rfl
  | succ count ih =>
    have hplain : Entry.takeMany base (count + 1) cursor entries =
        Entry.take base entries.size cursor >>= fun found =>
          Entry.takeMany base count found.2 (entries.push found.1) := by
      rw [Entry.takeMany]
      cases Entry.take base entries.size cursor <;> rfl
    have hsize := ha.size_eq
    rw [hplain, takeMany]
    refine bind_eq (take_eq base entries.size (by omega)) ?_
    rintro ⟨entry, next⟩ htake
    obtain ⟨listed, rest, -, -, -, hnext, -⟩ := Entry.take_listed ha htake
    exact ih _ hnext

end

theorem ofEndRecord_eq {image tail : ByteArray} {position : Nat} {record : EndRecord}
    (htail : tail.size ≤ image.size)
    (hfit : position + EndRecord.fixedSize + record.commentLength.toNat ≤ tail.size) :
    ofEndRecord image tail position record =
      some (Directory.ofEndRecord image tail position record) := by
  unfold ofEndRecord Directory.ofEndRecord
  dsimp only
  rw [slice_eq hfit]
  split
  · rfl
  · rename_i hoffset
    rw [slice_eq (by omega)]
    have hmany := takeMany_eq record.directoryOffset.toNat record.entries.toNat #[]
      (Cursor.ahead_ofBytes (Bytes.slice image record.directoryOffset.toNat
        (image.size - tail.size + position - record.directoryOffset.toNat)))
    refine (bind_eq hmany fun _ _ => rfl).trans ?_
    split
    · rename_i hfault
      rw [hfault]
      rfl
    · rename_i hentries
      rw [hentries]
      rfl

/-- The guards change nothing: every access of the parser is within its buffer. -/
theorem read_eq (image : ByteArray) : read image = some (Directory.read image) := by
  have htail : slice image (image.size - EndRecord.searchSpan)
      (image.size - (image.size - EndRecord.searchSpan)) = some (Directory.tailOf image) := by
    rw [slice_eq (by omega), Directory.tailOf_eq, Bytes.slice, Nat.add_sub_cancel' (Nat.sub_le _ _)]
  have hfound := findBelow?_eq (Directory.tailOf image) (Directory.tailOf image).size
  unfold read Directory.read
  dsimp only
  rw [liftM_bind htail, liftM_bind hfound, ← EndRecord.find?]
  cases hfind : EndRecord.find? (Directory.tailOf image) with
  | none => rfl
  | some found =>
    obtain ⟨position, record⟩ := found
    have hfit := EndRecord.find?_fits hfind
    have hextended : (if record.hasSentinel then
        hasLocatorBefore (Directory.tailOf image) position else some false) =
          some (record.hasSentinel &&
            EndRecord.hasLocatorBefore (Directory.tailOf image) position) := by
      rw [hasLocatorBefore_eq (by omega)]
      cases record.hasSentinel <;> rfl
    dsimp only
    rw [liftM_bind hextended, ofEndRecord_eq (Directory.size_tailOf_le image) hfit,
      Directory.ofSearch]
    split <;> rfl

end Guarded

end ClassicZip
