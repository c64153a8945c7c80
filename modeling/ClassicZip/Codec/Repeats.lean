import ClassicZip.Bytes

/-!
# Finding repeats

Splits data into literals and matches of earlier data. The place where the next three bytes were
last seen is the one candidate for a match; a longer search would only compress better.
-/

namespace ClassicZip.Codec

inductive Token
  | literal (byte : UInt8)
  | copy (length distance : Nat)
  deriving DecidableEq, Repr

structure RepeatLimits where
  minLength : Nat
  maxLength : Nat
  maxDistance : Nat

/-- How many bytes from `here` equal those from `there`, up to a limit and with the `length`
before them. -/
def commonLength (data : ByteArray) (here there : Nat) : Nat → Nat → Nat
  | 0, length => length
  | limit + 1, length =>
    if Bytes.byteAt data here = Bytes.byteAt data there then
      commonLength data (here + 1) (there + 1) limit (length + 1)
    else length

def bucketCount : Nat := 32768

def bucketOf (data : ByteArray) (position : Nat) : Nat :=
  let key := (Bytes.byteAt data position).toNat + 256 * (Bytes.byteAt data (position + 1)).toNat +
    65536 * (Bytes.byteAt data (position + 2)).toNat
  key * 40503 / 256 % bucketCount

/-- The tokens from `position` on; `seen` holds, for each bucket, one more than the place of its
last three bytes; `fuel` bounds the tokens. -/
def tokensFrom (limits : RepeatLimits) (data : ByteArray) :
    Nat → Nat → Array Nat → Array Token → Array Token
  | 0, _, _, tokens => tokens
  | fuel + 1, position, seen, tokens =>
    if data.size ≤ position then tokens
    else
      let bucket := bucketOf data position
      let last := seen[bucket]?.getD 0
      let seen := seen.setIfInBounds bucket (position + 1)
      let distance := position + 1 - last
      let length :=
        if last = 0 || limits.maxDistance < distance then 0
        else commonLength data position (last - 1) (min limits.maxLength (data.size - position)) 0
      if limits.minLength ≤ length && 0 < length then
        tokensFrom limits data fuel (position + length) seen (tokens.push (.copy length distance))
      else
        tokensFrom limits data fuel (position + 1) seen
          (tokens.push (.literal (Bytes.byteAt data position)))

def tokens (limits : RepeatLimits) (data : ByteArray) : Array Token :=
  tokensFrom limits data data.size 0 (Array.replicate bucketCount 0) #[]

end ClassicZip.Codec
