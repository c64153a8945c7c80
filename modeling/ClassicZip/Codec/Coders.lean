import ClassicZip.Codec.Bzip2.Decoding
import ClassicZip.Codec.Bzip2.Encoding
import ClassicZip.Codec.Deflate.Decoding
import ClassicZip.Codec.Deflate.Encoding
import ClassicZip.Codec.Zstd.Decoding
import ClassicZip.Codec.Zstd.Encoding
import ClassicZip.Fault

/-!
# Compressing and expanding

Each method that does more than store has a coder. Archives are written and read with whatever
coders there are; `standard` are the ones of this library. A level is brought into the range of its
method.

Stored bytes must expand to exactly the size that is declared for them. One byte more is enough to
tell that a stream is too long, so no more is decoded.
-/

namespace ClassicZip.Codec

/-- An encoder and a decoder. The decoder is told how many bytes are wanted. -/
structure Coder where
  encode : (level : Int) → (data : ByteArray) → ByteArray
  expand : (wanted : Nat) → (stored : ByteArray) → Expansion

class Coders where
  deflate : Coder
  bzip2 : Coder
  zstd : Coder

instance standard : Coders where
  deflate := ⟨fun level => Deflate.encode level.toNat, Deflate.decoder.expand⟩
  bzip2 := ⟨fun level => Bzip2.encode level.toNat, Bzip2.decoder.expand⟩
  zstd := ⟨fun _ => Zstd.encode, Zstd.expand⟩

def defaultDeflateLevel : Int := 6

def defaultBzip2Level : Int := 6

def defaultZstdLevel : Int := 3

def clampLevel (low high default : Int) : Option Int → Int
  | none => default
  | some level => min high (max low level)

def sized (method : Method) (size : Nat) (data : ByteArray) : Except Fault ByteArray :=
  if data.size = size then .ok data
  else .error (.decoding (.sizeMismatch method size data.size))

def ofExpansion (method : Method) (size : Nat) : Expansion → Except Fault ByteArray
  | .finished data => sized method size data
  | .overflow _ => .error (.decoding (.sizeMismatch method size (size + 1)))
  | .corrupt => .error (.decoding (.corrupt method))

section
variable [Coders]

def compress (method : Method) (level : Option Int) (data : ByteArray) : Except Fault ByteArray :=
  match method with
  | .store => .ok data
  | .deflate => .ok (Coders.deflate.encode (clampLevel 0 9 defaultDeflateLevel level) data)
  | .bzip2 => .ok (Coders.bzip2.encode (clampLevel 1 9 defaultBzip2Level level) data)
  | .zstd => .ok (Coders.zstd.encode (level.getD defaultZstdLevel) data)
  | .unsupported id => .error (.unsupportedMethod id)

def decompress (method : Method) (stored : ByteArray) (size : Nat) : Except Fault ByteArray :=
  match method with
  | .store => sized .store size stored
  | .deflate => ofExpansion .deflate size (Coders.deflate.expand size stored)
  | .bzip2 => ofExpansion .bzip2 size (Coders.bzip2.expand size stored)
  | .zstd => ofExpansion .zstd size (Coders.zstd.expand size stored)
  | .unsupported id => .error (.unsupportedMethod id)

/-- What `stored` expands to, unless a decoder is to be asked for more bytes than 64 bits count: at
the largest size there is no byte more to ask for. -/
def decompress? (method : Method) (stored : ByteArray) (size : Nat) :
    Option (Except Fault ByteArray) :=
  match method with
  | .store | .unsupported _ => some (decompress method stored size)
  | .deflate | .bzip2 | .zstd =>
    if size + 1 < 2 ^ 64 then some (decompress method stored size) else none

/-- An entry's size, which has 32 bits, can always be asked for. -/
theorem decompress?_of_lt {size : Nat} (h : size + 1 < 2 ^ 64) (method : Method)
    (stored : ByteArray) :
    decompress? method stored size = some (decompress method stored size) := by
  cases method with
  | store | unsupported id => rfl
  | deflate | bzip2 | zstd => exact if_pos h

end

end ClassicZip.Codec
