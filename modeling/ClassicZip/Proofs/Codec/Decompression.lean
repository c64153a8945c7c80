import ClassicZip.Proofs.Codec.Zstd.Steps

/-!
# Data of exactly the declared size

`decompress_exact`: stored bytes expand to just what their decoder hands out, if that ends after as
many bytes as are declared. One byte too many is noticed, and whatever follows it is not looked at;
a failure is noticed behind the last byte that is wanted, but not behind the one after. At the
largest size of 64 bits a byte more cannot be asked for.
-/

namespace ClassicZip.Codec

-- ---------------------------------------------------------------------------
-- What the decoders hand out
-- ---------------------------------------------------------------------------

theorem Deflate.endsWithOutput : Deflate.decoder.EndsWithOutput := by
  intro (state : Inflation) output (hstep : state.step = .finished output)
  unfold Inflation.step at hstep
  split at hstep
  · exact (Step.finished.inj hstep).symm
  · simp only [Inflation.stepHeader] at hstep
    repeat' split at hstep
    all_goals cases hstep
  · simp only [Inflation.stepStored] at hstep
    split at hstep <;> cases hstep
  · simp only [Inflation.stepSymbol] at hstep
    repeat' split at hstep
    all_goals cases hstep

theorem Bzip2.endsWithOutput : Bzip2.decoder.EndsWithOutput := by
  intro (state : Expanding) output (hstep : state.step = .finished output)
  unfold Expanding.step at hstep
  split at hstep
  · simp only [Expanding.stepHeader] at hstep
    repeat' split at hstep
    all_goals cases hstep
  · simp only [Expanding.stepBoundary] at hstep
    repeat' split at hstep
    all_goals cases hstep
  · simp only [Expanding.stepBlock] at hstep
    repeat' split at hstep
    all_goals cases hstep
  · exact (Step.finished.inj hstep).symm

/-- The stream that a method's decoder hands out, of the stored bytes and to a caller who expects so
many. What is only stored is handed out as it is. -/
def HandsOut (method : Method) (stored : ByteArray) (expected : Nat) (stream : Stream) : Prop :=
  match method with
  | .store => stream = ⟨stored, .clean⟩
  | .deflate => Deflate.decoder.Hands expected (Deflate.decoder.start stored) stream
  | .bzip2 => Bzip2.decoder.Hands expected (Bzip2.decoder.start stored) stream
  | .zstd => Zstd.Expanding.Hands expected ⟨.start expected stored, .none, .boundary false⟩ stream
  | .unsupported _ => True

/-- What comes of a stream that must have exactly `size` bytes, read with one byte to spare. -/
def Stream.bounded (stream : Stream) (pace : Nat → Nat → Nat) (method : Method) (size : Nat) :
    Except Fault ByteArray :=
  match stream.readBounded pace size with
  | none => .error (.decoding (.corrupt method))
  | some data => sized method size data

/-- What comes of the stream that a method's decoder hands out, unless the bytes to ask for cannot
be counted in 64 bits. -/
def Stream.decompressed (stream : Stream) (pace : Nat → Nat → Nat) (method : Method) (size : Nat) :
    Option (Except Fault ByteArray) :=
  match method with
  | .unsupported id => some (.error (.unsupportedMethod id))
  | .store => some (sized .store size stream.bytes)
  | method => if size + 1 < 2 ^ 64 then some (stream.bounded pace method size) else none

section
variable {method : Method} {stored : ByteArray} {size : Nat} {stream : Stream}

theorem exists_handsOut (method : Method) (stored : ByteArray) (expected : Nat) :
    ∃ stream, HandsOut method stored expected stream := by
  cases method with
  | store => exact ⟨_, rfl⟩
  | deflate => exact Decoder.exists_hands _ _ _
  | bzip2 => exact Decoder.exists_hands _ _ _
  | zstd => exact Zstd.Expanding.exists_hands (Zstd.steady_start expected stored)
  | unsupported id => exact ⟨⟨ByteArray.empty, .clean⟩, trivial⟩

/-- A decoder is asked for one byte more than expected, where that can be counted. -/
theorem HandsOut.cases (h : HandsOut method stored size stream) :
    (method = .store ∧ stream = ⟨stored, .clean⟩) ∨ (∃ id, method = .unsupported id) ∨
      (method.isSupported = true ∧ method ≠ .store ∧ ∃ expansion : Expansion,
        expansion.Shows size stream ∧ decompress? method stored size =
          if size + 1 < 2 ^ 64 then some (ofExpansion method size expansion) else none) := by
  cases method with
  | store => exact .inl ⟨rfl, h⟩
  | unsupported id => exact .inr (.inl ⟨id, rfl⟩)
  | deflate =>
    exact .inr (.inr ⟨rfl, nofun, _, Decoder.shows_run Deflate.endsWithOutput h, rfl⟩)
  | bzip2 => exact .inr (.inr ⟨rfl, nofun, _, Decoder.shows_run Bzip2.endsWithOutput h, rfl⟩)
  | zstd =>
    have hshows := Zstd.Expanding.shows_run h (Zstd.steady_start size stored)
      (Nat.le_of_eq (Nat.zero_add stored.size).symm)
    exact .inr (.inr ⟨rfl, nofun, _, hshows, rfl⟩)

theorem sized_eq_ok_iff {data result : ByteArray} :
    sized method size data = .ok result ↔ data = result ∧ result.size = size := by
  unfold sized
  split
  · rename_i hsize
    rw [Except.ok.injEq]
    constructor
    · rintro rfl
      exact ⟨rfl, hsize⟩
    · exact And.left
  · rename_i hsize
    refine iff_of_false nofun ?_
    rintro ⟨rfl, heq⟩
    exact hsize heq

theorem sized_of_ne {data : ByteArray} (h : data.size ≠ size) :
    sized method size data = .error (.decoding (.sizeMismatch method size data.size)) :=
  if_neg h

namespace Stream

theorem decompressed_eq (hsupported : method.isSupported = true) (hstore : method ≠ .store)
    (pace : Nat → Nat → Nat) :
    stream.decompressed pace method size =
      if size + 1 < 2 ^ 64 then some (stream.bounded pace method size) else none := by
  cases method with
  | store => exact absurd rfl hstore
  | unsupported id => cases hsupported
  | _ => rfl

theorem bounded_eq (pace : Nat → Nat → Nat) :
    stream.bounded pace method size =
      if size < stream.bytes.size then .error (.decoding (.sizeMismatch method size (size + 1)))
      else
        match stream.ending with
        | .clean => sized method size stream.bytes
        | .failed => .error (.decoding (.corrupt method)) := by
  rw [bounded, readBounded_eq, upTo]
  by_cases hlong : size < stream.bytes.size
  · have hextract : (stream.bytes.extract 0 (size + 1)).size = size + 1 := by
      rw [ByteArray.size_extract]
      omega
    rw [if_pos hlong, if_pos (Nat.succ_le_of_lt hlong)]
    dsimp only
    rw [sized_of_ne (by omega), hextract]
  · rw [if_neg hlong, if_neg (by omega)]
    cases stream.ending with
    | clean => rfl
    | failed => rfl

theorem bounded_eq_ok_iff (pace : Nat → Nat → Nat) {data : ByteArray} :
    stream.bounded pace method size = .ok data ↔ stream = ⟨data, .clean⟩ ∧ data.size = size := by
  rw [bounded_eq]
  obtain ⟨bytes, ending⟩ := stream
  dsimp only
  by_cases hlong : size < bytes.size
  · rw [if_pos hlong]
    refine iff_of_false nofun ?_
    rintro ⟨hstream, hexact⟩
    obtain ⟨rfl, -⟩ := Stream.mk.inj hstream
    omega
  · rw [if_neg hlong]
    cases ending with
    | clean => simp [sized_eq_ok_iff]
    | failed => simp

end Stream

theorem ofExpansion_of_shows {expansion : Expansion} (h : expansion.Shows size stream)
    (pace : Nat → Nat → Nat) :
    ofExpansion method size expansion = stream.bounded pace method size := by
  rw [Stream.bounded_eq]
  cases expansion with
  | finished output =>
    obtain ⟨rfl, hle⟩ := h
    dsimp only
    split
    · rw [ofExpansion, sized_of_ne (by omega), Nat.le_antisymm hle ‹_›]
    · rfl
  | corrupt =>
    obtain ⟨hfailed, hle⟩ := h
    rw [if_neg (Nat.not_lt_of_le hle), hfailed]
    rfl
  | overflow output =>
    have hlong : size < stream.bytes.size := h
    rw [if_pos hlong]
    rfl

end

/-- For each method and size the decoder hands a stream out, and decompression answers for every
stream that may be handed out, however large the portions are in which it is read. It succeeds just
where the stream ends cleanly after exactly so many bytes. A stream that is longer is said to have
one byte too many, whatever follows; one that ends before is counted; one that fails with no more
than the bytes that are wanted is corrupt. What is only stored is counted in any case. From the
largest size of 64 bits on a decoder cannot be asked, and there is no answer. -/
theorem decompress_exact (method : Method) (stored : ByteArray) (size : Nat) :
    (∃ stream, HandsOut method stored size stream) ∧
      ∀ stream, HandsOut method stored size stream →
        (∀ pace, decompress? method stored size = stream.decompressed pace method size) ∧
        (method = .store ∨ size + 1 < 2 ^ 64 →
          (∀ data, decompress? method stored size = some (.ok data) ↔
            method.isSupported = true ∧ stream = ⟨data, .clean⟩ ∧ data.size = size) ∧
          (method.isSupported = true →
            (size < stream.bytes.size → decompress? method stored size =
              some (.error (.decoding (.sizeMismatch method size
                (if method = .store then stored.size else size + 1))))) ∧
            (stream.bytes.size < size → stream.ending = .clean → decompress? method stored size =
              some (.error (.decoding (.sizeMismatch method size stream.bytes.size)))) ∧
            (stream.bytes.size ≤ size → stream.ending = .failed →
              decompress? method stored size = some (.error (.decoding (.corrupt method)))))) ∧
        (∀ id, method = .unsupported id →
          decompress? method stored size = some (.error (.unsupportedMethod id))) ∧
        (method.isSupported = true → method ≠ .store → 2 ^ 64 ≤ size + 1 →
          decompress? method stored size = none) := by
  refine ⟨exists_handsOut method stored size, fun stream hstream => ?_⟩
  rcases hstream.cases with ⟨rfl, rfl⟩ | ⟨id, rfl⟩ | ⟨hsupported, hstore, expansion, hshows, hcode⟩
  · refine ⟨fun _ => rfl, fun _ => ⟨fun data => ?_, fun _ => ⟨?_, ?_, ?_⟩⟩, nofun, ?_⟩
    · rw [decompress?, decompress, Option.some.injEq, sized_eq_ok_iff]
      simp [Method.isSupported]
    · intro hlong
      rw [if_pos rfl]
      exact congrArg some (sized_of_ne (Nat.ne_of_gt hlong))
    · intro hshort _
      exact congrArg some (sized_of_ne (Nat.ne_of_lt hshort))
    · nofun
    · exact fun _ hstore => absurd rfl hstore
  · refine ⟨fun _ => rfl, fun _ => ⟨fun data => ?_, nofun⟩, ?_, nofun⟩
    · exact iff_of_false nofun nofun
    · rintro _ ⟨rfl⟩
      rfl
  · refine ⟨fun pace => ?_, fun hbound => ?_, ?_, fun _ _ hlarge => ?_⟩
    · rw [hcode, Stream.decompressed_eq hsupported hstore, ofExpansion_of_shows hshows pace]
    · have hlt := hbound.resolve_left hstore
      have hanswer : decompress? method stored size =
          some (stream.bounded (fun _ _ => 0) method size) := by
        rw [hcode, if_pos hlt, ofExpansion_of_shows hshows]
      have hread := hanswer.trans (congrArg some (Stream.bounded_eq _))
      refine ⟨fun data => ?_, fun _ => ⟨?_, ?_, ?_⟩⟩
      · rw [hanswer, Option.some.injEq, Stream.bounded_eq_ok_iff]
        exact (and_iff_right hsupported).symm
      · intro hlong
        rw [hread, if_pos hlong, if_neg hstore]
      · intro hshort hclean
        rw [hread, if_neg (by omega), hclean]
        exact congrArg some (sized_of_ne (Nat.ne_of_lt hshort))
      · intro hle hfailed
        rw [hread, if_neg (by omega), hfailed]
    · rintro id rfl
      cases hsupported
    · rw [hcode, if_neg (by omega)]

def helloBlock (last : UInt8) : ByteArray :=
  ⟨#[last, 5, 0, 250, 255, 104, 101, 108, 108, 111]⟩

theorem handsOut_helloBlock {expected : Nat} (h : 5 ≤ expected) :
    HandsOut .deflate (helloBlock 1) expected ⟨"hello".toUTF8, .clean⟩ := by
  refine .more (Nat.zero_le _) rfl (.more (Nat.zero_le _) rfl (.ended ?_ rfl))
  exact h

/-- Behind a block that is not the last one the stream is cut short. -/
theorem handsOut_cutBlock {expected : Nat} (h : 5 ≤ expected) :
    HandsOut .deflate (helloBlock 0) expected ⟨"hello".toUTF8.extract 0 5, .failed⟩ := by
  refine .more (Nat.zero_le _) rfl (.more (Nat.zero_le _) rfl (.failed 5 ?_ rfl))
  exact h

/-- Five bytes are expected and come. Where one more is expected, five are too few; and where the
stream fails behind the fifth byte, five that come are nothing. -/
theorem decompress_exact_hello :
    decompress? .deflate (helloBlock 1) 5 = some (.ok "hello".toUTF8) ∧
      decompress? .deflate (helloBlock 1) 6 =
        some (.error (.decoding (.sizeMismatch .deflate 6 5))) ∧
      decompress? .deflate (helloBlock 0) 5 = some (.error (.decoding (.corrupt .deflate))) := by
  obtain ⟨-, hfive⟩ := decompress_exact .deflate (helloBlock 1) 5
  obtain ⟨-, hsix⟩ := decompress_exact .deflate (helloBlock 1) 6
  obtain ⟨-, hcut⟩ := decompress_exact .deflate (helloBlock 0) 5
  obtain ⟨-, hexact, -⟩ := hfive _ (handsOut_helloBlock (by decide))
  obtain ⟨-, hshort, -⟩ := hsix _ (handsOut_helloBlock (by decide))
  obtain ⟨-, hfailed, -⟩ := hcut _ (handsOut_cutBlock (by decide))
  refine ⟨((hexact (.inr (by decide))).1 _).mpr ⟨rfl, rfl, by decide⟩, ?_, ?_⟩
  · exact ((hshort (.inr (by decide))).2 rfl).2.1 (by decide) rfl
  · exact ((hfailed (.inr (by decide))).2 rfl).2.2 (by decide) rfl

/-- At the largest size the five bytes of the stream are not counted. -/
theorem decompress_uncounted_hello :
    HandsOut .deflate (helloBlock 1) (2 ^ 64 - 1) ⟨"hello".toUTF8, .clean⟩ ∧
      "hello".toUTF8.size = 5 ∧
      decompress? .deflate (helloBlock 1) (2 ^ 64 - 1) = none ∧
      decompress? .store "hello".toUTF8 (2 ^ 64 - 1) =
        some (.error (.decoding (.sizeMismatch .store (2 ^ 64 - 1) 5))) :=
  ⟨handsOut_helloBlock (by decide), by decide, by rfl, by rfl⟩

end ClassicZip.Codec
