import Mathlib.Algebra.GroupWithZero.Nat
import ClassicZip.Proofs.Deletion.Copying
import ClassicZip.Proofs.Extra.Renewing

/-!
# No number is cut to fit its field

The writer again, with every number that goes into a field of 16 or 32 bits put there only if it
fits; otherwise the call comes to nothing. With the checks that the writer makes, no call on a sound
writer comes to nothing. Without them a call may, and just such a call is refused by the writer,
which says that something is too large and stays as it was.
-/

namespace ClassicZip

open Bytes

def Fault.TooLarge : Fault → Prop
  | .oversize _ | .commentTooLong _ => True
  | _ => False

namespace Narrowed

def to16 (value : Nat) : Option UInt16 :=
  if value ≤ maxLength then some (UInt16.ofNat value) else none

def to32 (value : Nat) : Option UInt32 :=
  if value ≤ maxOffset then some (UInt32.ofNat value) else none

/-- A check that the writer makes, or leaves out. -/
def refuse (checked : Bool) (p : Prop) [Decidable p] (fault : Fault) :
    ExceptT Fault Option Unit :=
  if checked ∧ p then throw fault else return ()

def plain {α : Type} (x : Except Fault α) : ExceptT Fault Option α := ExceptT.mk (some x)

-- ---------------------------------------------------------------------------
-- Fields
-- ---------------------------------------------------------------------------

def block (alignment : UInt16) (padding : Nat) : Option ByteArray := do
  let length ← to16 (2 + padding)
  return le16 Alignment.blockId ++ le16 length ++ le16 alignment ++ zeros padding

def paddedExtra (draft : Draft) (entry : Entry) (localExtra : ByteArray) (alignment : UInt16) :
    Option ByteArray :=
  if alignment = 0 then return localExtra
  else
    let padding := Alignment.padding draft.cursor (entry.name.size + localExtra.size) alignment
    do return localExtra ++ (← block alignment padding)

def encode (extra : ExtraBlock) : Option ByteArray := do
  let length ← to16 extra.data.size
  return le16 extra.id ++ le16 length ++ extra.data

def strip (extra : ByteArray) : Option ByteArray :=
  match ExtraBlock.parse? extra with
  | none => return ByteArray.empty
  | some blocks => do
    return concat (← (blocks.filter fun block => block.id != Alignment.blockId).mapM encode)

def localHeader (entry : Entry) (extraLength : Nat) : Option LocalHeader := do
  return { entry.localHeader 0 with
    nameLength := ← to16 entry.name.size
    extraLength := ← to16 extraLength }

def headerBytes (entry : Entry) (localExtra : ByteArray) : Option ByteArray := do
  let header ← localHeader entry localExtra.size
  return le32 LocalHeader.signature ++ header.encode ++ entry.name ++ localExtra

def directoryHeader (entry : Entry) : Option DirectoryHeader := do
  return { entry.directoryHeader with
    nameLength := ← to16 entry.name.size
    extraLength := ← to16 entry.extra.size
    commentLength := ← to16 entry.comment.size }

def directoryBytes (entry : Entry) : Option ByteArray := do
  let header ← directoryHeader entry
  return le32 DirectoryHeader.signature ++ header.encode ++ entry.name ++ entry.extra ++
    entry.comment

def directorySize (entry : Entry) : Option Nat := do
  return DirectoryHeader.fixedSize + (← directoryHeader entry).variableSize

def listing (entries : List Entry) : Option ByteArray := do
  return concat (← entries.mapM directoryBytes)

def listingSize (entries : List Entry) : Option Nat := do
  return (← entries.mapM directorySize).sum

-- ---------------------------------------------------------------------------
-- Calls
-- ---------------------------------------------------------------------------

def place (checked : Bool) (draft : Draft) (entry : Entry) (localExtra : ByteArray)
    (alignment : UInt16) (storedSize : Nat) : ExceptT Fault Option Placement := do
  refuse checked (maxLength < entry.name.size) (.oversize (.nameLength entry.name.size))
  refuse checked (maxLength ≤ draft.entries.size) (.oversize .entryCount)
  let extra ← paddedExtra draft entry localExtra alignment
  refuse checked (maxLength < extra.size) (.oversize (.localExtra extra.size))
  let stop := draft.cursor + LocalHeader.fixedSize + entry.name.size + extra.size + storedSize
  refuse checked (maxOffset < stop) (.oversize (.entryEnd entry.nameText stop))
  let header ← headerBytes entry extra
  let localOffset ← to32 draft.cursor
  return {
    entry := { entry with index := draft.entries.size, localOffset := localOffset }
    offset := draft.cursor
    header := header }

def push (checked : Bool) (writer : Writer) (entry : Entry) (localExtra : ByteArray)
    (alignment : UInt16) (stored : ByteArray) : ExceptT Fault Option Writer :=
  match writer with
  | ⟨_, none⟩ => throw .writerClosed
  | ⟨draft, some image⟩ => do
    let placement ← place checked draft entry localExtra alignment stored.size
    return ⟨draft.add placement stored.size, some (placement.write stored image)⟩

def ofFile [Codec.Coders] (checked : Bool) (name : String) (data : ByteArray)
    (options : EntryOptions) : ExceptT Fault Option (Entry × ByteArray) := do
  if options.alignment ≠ 0 ∧ ¬ Alignment.isPowerOfTwo options.alignment then
    throw (.badAlignment options.alignment)
  refuse checked (maxOffset < data.size) (.oversize (.data name data.size))
  let stored ← plain (Codec.compress options.method options.level data)
  refuse checked (maxOffset < stored.size) (.oversize (.storedData name stored.size))
  let mode := Entry.regularFile ||| options.permissions.getD EntryOptions.defaultFilePermissions
  return ({ Entry.ofOptions name.toUTF8 options with
    crc := crc32 data
    storedSize := ← to32 stored.size
    size := ← to32 data.size
    externalAttributes := mode <<< 16 }, stored)

def make [Codec.Coders] (checked : Bool) : Addition → ExceptT Fault Option (Entry × ByteArray)
  | .file name data options => ofFile checked name data options
  | .directory name options => return (Entry.ofDirectory name options, ByteArray.empty)

/-- The comment's length goes into its field only when the archive is closed; that it will fit is
settled here. -/
def withComment (checked : Bool) (draft : Draft) (comment : ByteArray) :
    ExceptT Fault Option Draft := do
  refuse checked (maxLength < comment.size) (.commentTooLong comment.size)
  let _ ← to16 comment.size
  return { draft with comment := comment }

def trailer (checked : Bool) (draft : Draft) : ExceptT Fault Option Trailer := do
  refuse checked (maxLength < draft.entries.size) (.oversize (.listedEntries draft.entries.size))
  let size ← listingSize draft.entries.toList
  let directory ← listing draft.entries.toList
  let length := size + EndRecord.fixedSize + draft.comment.size
  let start := draft.trailerStart length
  refuse checked (maxOffset < start + length) (.oversize (.directoryEnd (start + length)))
  let record := EndRecord.ofSingleDisk (← to16 draft.entries.size) (← to32 size)
    (← to32 start) (← to16 draft.comment.size)
  let cleared := draft.clearRange start
  return {
    start := start
    bytes := directory ++ le32 EndRecord.signature ++ record.encode ++ draft.comment
    clearFrom := cleared.1
    clearCount := cleared.2 }

def copyEntries (checked : Bool) (source : ByteArray) :
    List Entry → Writer → ExceptT Fault Option Writer
  | [], writer => return writer
  | entry :: rest, writer => do
    let (here, stored) ← plain (entry.readStored source source.size)
    let localExtra ← strip here.extra
    let next ← push checked writer entry.withoutDescriptor localExtra
      ((Alignment.find? here.extra).getD 0) stored
    copyEntries checked source rest next

def toBytes (checked : Bool) : Writer → ExceptT Fault Option ByteArray
  | ⟨_, none⟩ => throw .writerClosed
  | ⟨draft, some image⟩ => do return (← trailer checked draft).write image

def rebuiltImage (checked : Bool) (draft : Draft) (source : ByteArray) (names : List String) :
    ExceptT Fault Option ByteArray := do
  let staged : Writer := ⟨{ Draft.empty with comment := draft.comment }, some ByteArray.empty⟩
  toBytes checked (← copyEntries checked source (draft.survivors names) staged)

def next [Codec.Coders] (checked : Bool) (draft : Draft) (image : ByteArray) :
    Operation → ExceptT Fault Option Writer
  | .call (.add addition) => do
    let (made, stored) ← make checked addition
    push checked ⟨draft, some image⟩ made ByteArray.empty addition.alignment stored
  | .call (.setComment comment) => do
    return ⟨← withComment checked draft comment, some image⟩
  | .eraseInPlace name => do
    let (position, start, count) ← plain (draft.findErasable image name)
    return ⟨draft.remove position, some (zeroFill image start count)⟩
  | .rebuildWithout names => do
    if let some name := draft.missingName? names then
      throw (.entryNotFound name)
    plain (Writer.ofBytes (← rebuiltImage checked draft image names))
  | .close => do
    let _ ← trailer checked draft
    return ⟨draft, none⟩

def answer (writer : Writer) : Except Fault Writer → Writer × Except Fault Unit
  | .ok next => (next, .ok ())
  | .error fault => (writer, .error fault)

def operate [Codec.Coders] (checked : Bool) (writer : Writer) (operation : Operation) :
    Option (Writer × Except Fault Unit) :=
  match writer with
  | ⟨draft, none⟩ => some (Writer.operate ⟨draft, none⟩ operation)
  | ⟨draft, some image⟩ => (next checked draft image operation).run.map (answer ⟨draft, some image⟩)

-- ---------------------------------------------------------------------------
-- Numbers that fit
-- ---------------------------------------------------------------------------

theorem to16_eq {value : Nat} (h : value ≤ maxLength) : to16 value = some (UInt16.ofNat value) :=
  if_pos h

theorem to32_eq {value : Nat} (h : value ≤ maxOffset) : to32 value = some (UInt32.ofNat value) :=
  if_pos h

theorem mapM_eq {α β : Type} {f : α → Option β} {g : α → β} {items : List α}
    (h : ∀ item ∈ items, f item = some (g item)) : items.mapM f = some (items.map g) := by
  induction items with
  | nil => rfl
  | cons item rest ih =>
    rw [List.forall_mem_cons] at h
    rw [List.mapM_cons, h.1, ih h.2]
    rfl

theorem toNat_le_of_isPowerOfTwo {alignment : UInt16}
    (h : Alignment.isPowerOfTwo alignment = true) : alignment.toNat ≤ 2 ^ 15 := by
  obtain ⟨exponent, hexponent⟩ := Alignment.isPowerOfTwo_iff.mp h
  have hlt : 2 ^ exponent < 2 ^ 16 := hexponent ▸ alignment.toNat_lt
  have hexponent' : exponent < 16 := (Nat.pow_lt_pow_iff_right (by decide)).mp hlt
  rw [hexponent]
  exact Nat.pow_le_pow_right (by decide) (Nat.le_of_lt_succ hexponent')

theorem paddedExtra_eq {draft : Draft} {entry : Entry} {localExtra : ByteArray}
    {alignment : UInt16} (h : alignment = 0 ∨ Alignment.isPowerOfTwo alignment = true) :
    paddedExtra draft entry localExtra alignment =
      some (draft.paddedExtra entry localExtra alignment) := by
  unfold paddedExtra Draft.paddedExtra
  split
  · rfl
  · rename_i hne
    have hpower := toNat_le_of_isPowerOfTwo (h.resolve_left hne)
    have hpadding : Alignment.padding draft.cursor (entry.name.size + localExtra.size) alignment <
        alignment.toNat :=
      Nat.mod_lt _ (Nat.pos_of_ne_zero fun hzero => hne (UInt16.toNat_inj.mp hzero))
    dsimp only [block]
    rw [to16_eq (by simp only [maxLength]; omega)]
    rfl

theorem strip_eq (extra : ByteArray) : strip extra = some (Alignment.strip extra) := by
  unfold strip Alignment.strip
  cases hparse : ExtraBlock.parse? extra with
  | none => rfl
  | some blocks =>
    have hblocks : ∀ block ∈ blocks.filter fun block => block.id != Alignment.blockId,
        encode block = some block.encode := by
      intro block hblock
      have hfits := (ExtraBlock.parse?_eq_some_iff.mp hparse).fits
      rw [encode, to16_eq (hfits block (List.mem_filter.mp hblock).1)]
      rfl
    dsimp only
    rw [mapM_eq hblocks, ExtraBlock.encodeAll_eq]
    rfl

theorem headerBytes_eq {entry : Entry} {localExtra : ByteArray} (hname : entry.name.size ≤ maxLength)
    (hextra : localExtra.size ≤ maxLength) :
    headerBytes entry localExtra = some (Draft.headerBytes entry localExtra) := by
  rw [headerBytes, localHeader, to16_eq hname, to16_eq hextra]
  rfl

section
variable {entry : Entry} {entries : List Entry}

theorem directoryHeader_eq (h : entry.Listable) :
    directoryHeader entry = some entry.directoryHeader := by
  rw [directoryHeader, to16_eq h.name_le, to16_eq h.extra_le, to16_eq h.comment_le]
  rfl

theorem directoryBytes_eq (h : entry.Listable) :
    directoryBytes entry = some entry.directoryBytes := by
  rw [directoryBytes, directoryHeader_eq h]
  rfl

theorem directorySize_eq (h : entry.Listable) : directorySize entry = some entry.directorySize := by
  rw [directorySize, directoryHeader_eq h]
  rfl

theorem listing_eq (h : ∀ entry ∈ entries, entry.Listable) :
    listing entries = some (Entry.listing entries) := by
  rw [listing, mapM_eq fun entry hentry => directoryBytes_eq (h entry hentry)]
  rfl

theorem sum_directorySize (h : ∀ entry ∈ entries, entry.Listable) :
    (entries.map Entry.directorySize).sum = (Entry.listing entries).size := by
  induction entries with
  | nil => rfl
  | cons entry rest ih =>
    rw [List.forall_mem_cons] at h
    rw [List.map_cons, List.sum_cons, ih h.2, h.1.directorySize_eq, Entry.listing, Entry.listing,
      List.map_cons, concat_cons, ByteArray.size_append]

theorem listingSize_eq (h : ∀ entry ∈ entries, entry.Listable) :
    listingSize entries = some (Entry.listing entries).size := by
  rw [listingSize, mapM_eq fun entry hentry => directorySize_eq (h entry hentry),
    ← sum_directorySize h]
  rfl

end

-- ---------------------------------------------------------------------------
-- Agreement
-- ---------------------------------------------------------------------------

/-- The step does what the writer does. Only without its checks it may do something else, where the
writer says that something is too large. -/
def Agrees {α : Type} (checked : Bool) (x : Except Fault α) (step : ExceptT Fault Option α) : Prop :=
  step = plain x ∨ checked = false ∧ ∃ fault, x = .error fault ∧ fault.TooLarge

section
variable {α β : Type} {checked : Bool} {x : Except Fault α} {step : ExceptT Fault Option α}

theorem Agrees.plain (x : Except Fault α) : Agrees checked x (plain x) := .inl rfl

theorem Agrees.bind {f : α → Except Fault β} {next : α → ExceptT Fault Option β}
    (hfirst : Agrees checked x step) (hnext : ∀ a, x = .ok a → Agrees checked (f a) (next a)) :
    Agrees checked (x >>= f) (step >>= next) := by
  rcases hfirst with rfl | ⟨hleft, fault, rfl, hlarge⟩
  · cases x with
    | error fault => exact .inl rfl
    | ok a => exact hnext a rfl
  · exact .inr ⟨hleft, fault, rfl, hlarge⟩

theorem Agrees.narrow {a : α} {narrowed : Option α} {y : Except Fault β}
    {next : α → ExceptT Fault Option β} (h : narrowed = some a) (hnext : Agrees checked y (next a)) :
    Agrees checked y (liftM narrowed >>= next) := by
  subst h
  exact hnext

theorem Agrees.refuse {p : Prop} [Decidable p] {fault : Fault} (hlarge : fault.TooLarge)
    {next : Unit → ExceptT Fault Option α} (hnext : ¬p → Agrees checked x (next ())) :
    Agrees checked (if p then .error fault else x) (refuse checked p fault >>= next) := by
  by_cases hp : p
  · rw [if_pos hp]
    cases checked with
    | true =>
      left
      rw [Narrowed.refuse, if_pos ⟨rfl, hp⟩]
      rfl
    | false => exact .inr ⟨rfl, fault, rfl, hlarge⟩
  · rw [if_neg hp, Narrowed.refuse, if_neg fun h => hp h.2]
    exact hnext hp

theorem Agrees.oversize {p : Prop} [Decidable p] {cause : Oversize}
    {next : Unit → ExceptT Fault Option α} (hnext : ¬p → Agrees checked x (next ())) :
    Agrees checked (if p then .error (.oversize cause) else x)
      (Narrowed.refuse checked p (.oversize cause) >>= next) := by
  have hlarge : (Fault.oversize cause).TooLarge := trivial
  exact .refuse hlarge hnext

end

theorem place_agrees {checked : Bool} {draft : Draft} {entry : Entry} {localExtra : ByteArray}
    {alignment : UInt16} (h : alignment = 0 ∨ Alignment.isPowerOfTwo alignment = true)
    (storedSize : Nat) :
    Agrees checked (draft.place entry localExtra alignment storedSize)
      (place checked draft entry localExtra alignment storedSize) := by
  unfold Draft.place place
  refine .oversize fun hname => .oversize fun _ => .narrow (paddedExtra_eq h) ?_
  refine .oversize fun hextra => .oversize fun hstop => ?_
  refine .narrow (headerBytes_eq (Nat.le_of_not_lt hname) (Nat.le_of_not_lt hextra)) ?_
  exact .narrow (to32_eq (by omega)) (.inl rfl)

def Answers (checked : Bool) (writer : Writer) (answered : Writer × Except Fault Unit)
    (step : ExceptT Fault Option Writer) : Prop :=
  ∃ x, answered = answer writer x ∧ Agrees checked x step

section
variable {checked : Bool} {draft : Draft} {image : ByteArray}

theorem push_answers (checked : Bool) (entry : Entry) {alignment : UInt16}
    (h : alignment = 0 ∨ Alignment.isPowerOfTwo alignment = true) (writer : Writer)
    (localExtra stored : ByteArray) :
    Answers checked writer (writer.push entry localExtra alignment stored)
      (push checked writer entry localExtra alignment stored) := by
  obtain ⟨draft, _ | image⟩ := writer
  · exact ⟨.error .writerClosed, rfl, .inl rfl⟩
  · refine ⟨draft.place entry localExtra alignment stored.size >>= fun placement =>
      .ok ⟨draft.add placement stored.size, some (placement.write stored image)⟩, ?_, ?_⟩
    · simp only [Writer.push]
      cases draft.place entry localExtra alignment stored.size <;> rfl
    · exact (place_agrees h stored.size).bind fun _ _ => .inl rfl

theorem make_agrees [Codec.Coders] (checked : Bool) (addition : Addition) :
    Agrees checked addition.make (make checked addition) := by
  cases addition with
  | directory name options => exact .inl rfl
  | file name data options =>
    unfold Addition.make make Entry.ofFile ofFile
    dsimp only
    split
    · exact .inl rfl
    · refine .oversize fun hdata => ?_
      cases Codec.compress options.method options.level data with
      | error fault => exact .inl rfl
      | ok stored =>
        refine .oversize fun hstored => ?_
        exact .narrow (to32_eq (Nat.le_of_not_lt hstored))
          (.narrow (to32_eq (Nat.le_of_not_lt hdata)) (.inl rfl))

theorem withComment_agrees (draft : Draft) (comment : ByteArray) :
    Agrees checked (draft.withComment comment) (withComment checked draft comment) := by
  have hlarge : (Fault.commentTooLong comment.size).TooLarge := trivial
  unfold Draft.withComment withComment
  exact .refuse hlarge fun hfit => .narrow (to16_eq (Nat.le_of_not_lt hfit)) (.inl rfl)

theorem trailer_agrees (h : Directory.Writable draft.entries.toList draft.comment) :
    Agrees checked draft.trailer (trailer checked draft) := by
  unfold Draft.trailer trailer
  rw [Draft.directoryBytes_eq]
  refine .oversize fun hmany => .narrow (listingSize_eq h.listable) (.narrow (listing_eq h.listable) ?_)
  refine .oversize fun hlarge => ?_
  refine .narrow (to16_eq (Nat.le_of_not_lt hmany)) (.narrow (to32_eq (by omega)) ?_)
  exact .narrow (to32_eq (by omega)) (.narrow (to16_eq h.comment_le) (.inl rfl))

theorem toBytes_agrees (checked : Bool) (image : ByteArray)
    (h : Directory.Writable draft.entries.toList draft.comment) :
    Agrees checked (Writer.toBytes ⟨draft, some image⟩) (toBytes checked ⟨draft, some image⟩) := by
  have hplain : Writer.toBytes ⟨draft, some image⟩ =
      draft.trailer >>= fun trailer => .ok (trailer.write image) := by
    rw [Writer.toBytes, Writer.complete]
    cases draft.trailer <;> rfl
  rw [hplain]
  exact (trailer_agrees h).bind fun _ _ => .inl rfl

theorem getD_find? (extra : ByteArray) : (Alignment.find? extra).getD 0 = 0 ∨
    Alignment.isPowerOfTwo ((Alignment.find? extra).getD 0) = true := by
  cases hfind : Alignment.find? extra with
  | none => exact .inl rfl
  | some alignment => exact .inr (Alignment.isPowerOfTwo_of_find? hfind)

theorem copyEntries_agrees {source : ByteArray} (entries : List Entry) (writer : Writer) :
    Agrees checked (Writer.copyEntries source entries writer)
      (copyEntries checked source entries writer) := by
  induction entries generalizing writer with
  | nil => exact .inl rfl
  | cons entry rest ih =>
    unfold Writer.copyEntries copyEntries
    cases entry.readStored source source.size with
    | error fault => exact .inl rfl
    | ok found =>
      obtain ⟨here, stored⟩ := found
      refine .narrow (strip_eq here.extra) ?_
      obtain ⟨x, hanswer, hagrees⟩ := push_answers checked entry.withoutDescriptor
        (getD_find? here.extra) writer (Alignment.strip here.extra) stored
      have hrest := hagrees.bind fun next _ => ih next
      dsimp only
      rw [hanswer]
      cases x <;> exact hrest

theorem rebuiltImage_agrees (h : Directory.Writable draft.entries.toList draft.comment)
    (source : ByteArray) (names : List String) :
    Agrees checked (Writer.rebuiltImage draft source names)
      (rebuiltImage checked draft source names) := by
  have hplain : Writer.rebuiltImage draft source names =
      Writer.copyEntries source (draft.survivors names)
        ⟨{ Draft.empty with comment := draft.comment }, some ByteArray.empty⟩ >>=
          Writer.toBytes := by
    unfold Writer.rebuiltImage
    dsimp only
    split
    · rename_i hfail
      rw [hfail]
      rfl
    · rename_i hcopy
      rw [hcopy]
      rfl
  rw [hplain]
  refine (copyEntries_agrees _ _).bind fun staged hcopy => ?_
  have hlistable : ∀ entry ∈ draft.survivors names, entry.Listable := fun entry hentry =>
    h.listable entry (List.mem_filter.mp hentry).1
  obtain ⟨parcels, hgrown, -, -⟩ := Writer.copyEntries_ok (Draft.fits_staged h.comment_le) hlistable hcopy
  obtain ⟨final, _⟩ := staged
  obtain rfl := hgrown.image_eq
  exact toBytes_agrees checked _ hgrown.fits.writable

/-- With its checks a step is what the writer does, and the writer's answer is given. Without them
it may come to nothing, but only where the writer says that something is too large. -/
theorem next_answers [Codec.Coders] (checked : Bool) (h : draft.Fits image)
    (operation : Operation) :
    Answers checked ⟨draft, some image⟩ (Writer.operate ⟨draft, some image⟩ operation)
      (next checked draft image operation) := by
  cases operation with
  | call call =>
    cases call with
    | add addition =>
      have hmade := make_agrees checked addition
      unfold Narrowed.next
      cases hmake : addition.make with
      | error fault =>
        rw [hmake] at hmade
        exact ⟨.error fault, Addition.perform_of_make_error draft image hmake,
          hmade.bind (f := fun _ => .error fault) fun _ hok => by cases hok⟩
      | ok found =>
        obtain ⟨made, stored⟩ := found
        obtain ⟨x, hanswer, hagrees⟩ := push_answers checked made
          (Addition.alignment_of_make hmake) ⟨draft, some image⟩ ByteArray.empty stored
        rw [hmake] at hmade
        refine ⟨x, (Addition.perform_of_make _ hmake).trans hanswer, ?_⟩
        refine hmade.bind (f := fun _ => x) fun found hok => ?_
        obtain rfl := Except.ok.inj hok
        exact hagrees
    | setComment comment =>
      refine ⟨draft.withComment comment >>= fun draft => .ok ⟨draft, some image⟩, ?_, ?_⟩
      · simp only [Writer.operate, Writer.perform, Writer.setComment]
        cases draft.withComment comment <;> rfl
      · exact (withComment_agrees draft comment).bind fun _ _ => .inl rfl
  | eraseInPlace name =>
    refine ⟨draft.findErasable image name >>= fun found =>
      .ok ⟨draft.remove found.1, some (zeroFill image found.2.1 found.2.2)⟩, ?_, ?_⟩
    · simp only [Writer.operate, Writer.eraseInPlace]
      cases draft.findErasable image name <;> rfl
    · exact (Agrees.plain _).bind fun _ _ => .inl rfl
  | rebuildWithout names =>
    unfold Narrowed.next
    simp only [Writer.operate, Writer.rebuildWithout]
    cases draft.missingName? names with
    | some name => exact ⟨.error (.entryNotFound name), rfl, .inl rfl⟩
    | none =>
      refine ⟨Writer.rebuiltImage draft image names >>= Writer.ofBytes, ?_,
        (rebuiltImage_agrees h.writable image names).bind fun _ _ => .plain _⟩
      dsimp only
      cases Writer.rebuiltImage draft image names with
      | error fault => rfl
      | ok rebuilt =>
        dsimp only [ok_bind]
        cases Writer.ofBytes rebuilt <;> rfl
  | close =>
    refine ⟨draft.trailer >>= fun _ => .ok ⟨draft, none⟩, ?_, ?_⟩
    · simp only [Writer.operate, Writer.close, Writer.complete]
      cases draft.trailer <;> rfl
    · exact (trailer_agrees h.writable).bind fun _ _ => .inl rfl

end

end Narrowed

end ClassicZip
