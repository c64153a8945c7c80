import ClassicZip.EntryOptions
import ClassicZip.LocalEntry
import ClassicZip.Proofs.Cursor.Ahead
import ClassicZip.Proofs.Directory.Listing

/-!
# What is added comes back

An addition becomes an entry and its stored bytes. When the decoder of the method undoes its encoder
on the data, these decode to the data, wherever the entry is put.
-/

namespace ClassicZip

namespace Codec

def Coder.Restores (coder : Coder) (level : Int) (data : ByteArray) : Prop :=
  coder.expand data.size (coder.encode level data) = .finished data

theorem sized_self (method : Method) (data : ByteArray) :
    sized method data.size data = .ok data := by
  simp [sized]

variable [Coders]

/-- The coder of the method restores the data. To store data leaves nothing to undo, and a method
that is not supported has no coder. -/
def Reversible (level : Option Int) (data : ByteArray) : Method → Prop
  | .deflate => Coders.deflate.Restores (clampLevel 0 9 defaultDeflateLevel level) data
  | .bzip2 => Coders.bzip2.Restores (clampLevel 1 9 defaultBzip2Level level) data
  | .zstd => Coders.zstd.Restores (level.getD defaultZstdLevel) data
  | .store | .unsupported _ => True

theorem decompress_compress {method : Method} {level : Option Int} {data stored : ByteArray}
    (hr : Reversible level data method) (h : compress method level data = .ok stored) :
    decompress method stored data.size = .ok data := by
  cases method with
  | store =>
    obtain rfl := Except.ok.inj h
    exact sized_self _ _
  | unsupported id => cases h
  | deflate | bzip2 | zstd =>
    obtain rfl := Except.ok.inj h
    exact (congrArg (ofExpansion _ data.size) hr).trans (sized_self _ data)

theorem ofId_of_compress {method : Method} {level : Option Int} {data stored : ByteArray}
    (h : compress method level data = .ok stored) : Method.ofId method.id = method := by
  cases method with
  | unsupported id => cases h
  | _ => rfl

end Codec

section
variable [Codec.Coders]

theorem Entry.decode_placed (entry : Entry) (index : Nat) (offset : UInt32) (stored : ByteArray) :
    decode { entry with index := index, localOffset := offset } stored = entry.decode stored := rfl

theorem Entry.ofFile_ok {name : String} {data stored : ByteArray} {options : EntryOptions}
    {entry : Entry} (h : ofFile name data options = .ok (entry, stored)) :
    data.size ≤ maxOffset ∧ stored.size ≤ maxOffset ∧
      Codec.compress options.method options.level data = .ok stored ∧
      entry = { ofOptions name.toUTF8 options with
        crc := crc32 data
        storedSize := UInt32.ofNat stored.size
        size := UInt32.ofNat data.size
        externalAttributes := (regularFile |||
          options.permissions.getD EntryOptions.defaultFilePermissions) <<< 16 } := by
  unfold ofFile at h
  split at h
  · cases h
  · split at h
    · cases h
    · split at h
      · cases h
      · rename_i hdata _ made hcompress
        split at h
        · cases h
        · rename_i hstored
          obtain ⟨rfl, rfl⟩ := Prod.mk.inj (Except.ok.inj h)
          exact ⟨Nat.le_of_not_lt hdata, Nat.le_of_not_lt hstored, hcompress, rfl⟩

end

-- ---------------------------------------------------------------------------
-- Additions
-- ---------------------------------------------------------------------------

inductive Addition
  | file (name : String) (data : ByteArray) (options : EntryOptions)
  | directory (name : String) (options : EntryOptions)
  deriving DecidableEq

namespace Addition

def data : Addition → ByteArray
  | file _ data _ => data
  | directory _ _ => ByteArray.empty

def name : Addition → String
  | file name _ _ => name
  | directory name _ => name

def entryName : Addition → ByteArray
  | file name _ _ => name.toUTF8
  | directory name _ => Entry.directoryName name

def alignment : Addition → UInt16
  | file _ _ options => options.alignment
  | directory _ _ => 0

variable [Codec.Coders]

def make : Addition → Except Fault (Entry × ByteArray)
  | file name data options => Entry.ofFile name data options
  | directory name options => .ok (Entry.ofDirectory name options, ByteArray.empty)

def Reversible : Addition → Prop
  | file _ data options => Codec.Reversible options.level data options.method
  | directory _ _ => True

/-- The entry is the one that was made for the addition; only its place was settled later. -/
def Makes (addition : Addition) (entry : Entry) : Prop :=
  ∃ made stored, addition.make = .ok (made, stored) ∧
    entry = { made with index := entry.index, localOffset := entry.localOffset }

section
variable {addition : Addition} {made : Entry} {stored : ByteArray}

theorem name_of_make (h : addition.make = .ok (made, stored)) :
    made.name = addition.entryName := by
  cases addition with
  | file name data options =>
    obtain ⟨-, -, -, rfl⟩ := Entry.ofFile_ok h
    rfl
  | directory name options =>
    obtain ⟨rfl, -⟩ := Prod.mk.inj (Except.ok.inj h)
    rfl

theorem listable_of_make (h : addition.make = .ok (made, stored))
    (hname : made.name.size ≤ maxLength) : made.Listable := by
  cases addition with
  | file name data options =>
    obtain ⟨-, -, hcompress, rfl⟩ := Entry.ofFile_ok h
    exact ⟨hname, Nat.zero_le _, Nat.zero_le _, Codec.ofId_of_compress hcompress⟩
  | directory name options =>
    obtain ⟨rfl, -⟩ := Prod.mk.inj (Except.ok.inj h)
    exact ⟨hname, Nat.zero_le _, Nat.zero_le _, rfl⟩

theorem storedSize_of_make (h : addition.make = .ok (made, stored)) :
    made.storedSize.toNat = stored.size := by
  cases addition with
  | file name data options =>
    obtain ⟨-, hstored, -, rfl⟩ := Entry.ofFile_ok h
    exact toNat_ofNat_of_le_maxOffset hstored
  | directory name options =>
    obtain ⟨rfl, rfl⟩ := Prod.mk.inj (Except.ok.inj h)
    rfl

theorem size_of_make (h : addition.make = .ok (made, stored)) :
    made.size.toNat = addition.data.size := by
  cases addition with
  | file name data options =>
    obtain ⟨hdata, -, -, rfl⟩ := Entry.ofFile_ok h
    exact toNat_ofNat_of_le_maxOffset hdata
  | directory name options =>
    obtain ⟨rfl, -⟩ := Prod.mk.inj (Except.ok.inj h)
    rfl

theorem decode_of_make (h : addition.make = .ok (made, stored)) (hr : addition.Reversible) :
    made.decode stored = .ok addition.data := by
  cases addition with
  | file name data options =>
    obtain ⟨hdata, -, hcompress, rfl⟩ := Entry.ofFile_ok h
    have hsize := toNat_ofNat_of_le_maxOffset hdata
    unfold Entry.decode
    split
    · rename_i hd
      -- Only an entry without data is taken for a directory.
      simp only [Entry.isDirectory, Bool.and_eq_true, beq_iff_eq] at hd
      have hzero : UInt32.ofNat data.size = 0 := hd.2
      have hempty : data.size = 0 := by rw [← hsize, hzero]; rfl
      rw [Addition.data, ByteArray.size_eq_zero_iff.mp hempty]
    · have hplain := Codec.decompress_compress hr hcompress
      simp only [Entry.ofOptions, hsize, hplain, if_true, Addition.data]
  | directory name options =>
    obtain ⟨rfl, rfl⟩ := Prod.mk.inj (Except.ok.inj h)
    unfold Entry.decode
    split
    · rfl
    · simp [Entry.ofDirectory, Entry.ofOptions, Codec.decompress, Codec.sized, Addition.data]

end

end Addition

end ClassicZip
