import ClassicZip.Codec.PrefixCode

/-!
# Deflate's symbols

Symbols 257 to 285 stand for match lengths and a second alphabet for distances. Each covers a
range: a base and a number of extra bits that follow the symbol.
-/

namespace ClassicZip.Codec.Deflate

/-- A range of values: the least of them, and the bits that pick one. -/
structure Span where
  base : Nat
  extraBits : Nat
  deriving DecidableEq, Repr

/-- Consecutive spans from `base` on, one for each number of extra bits. -/
def spansFrom (base : Nat) : List Nat → List Span
  | [] => []
  | bits :: rest => ⟨base, bits⟩ :: spansFrom (base + 2 ^ bits) rest

def lengthSpans : Array Span :=
  (spansFrom 3 [0, 0, 0, 0, 0, 0, 0, 0, 1, 1, 1, 1, 2, 2, 2, 2, 3, 3, 3, 3, 4, 4, 4, 4,
    5, 5, 5, 5]).toArray.push ⟨258, 0⟩

def distanceSpans : Array Span :=
  (spansFrom 1 [0, 0, 0, 0, 1, 1, 2, 2, 3, 3, 4, 4, 5, 5, 6, 6, 7, 7, 8, 8, 9, 9, 10, 10,
    11, 11, 12, 12, 13, 13]).toArray

def endOfBlock : Nat := 256

def fixedLiteralLengths : Array Nat :=
  Array.replicate 144 8 ++ Array.replicate 112 9 ++ Array.replicate 24 7 ++ Array.replicate 8 8

def fixedDistanceLengths : Array Nat := Array.replicate 32 5

def maxLength : Nat := 15

def fixedLiterals : PrefixCode := PrefixCode.ofLengths maxLength fixedLiteralLengths

def fixedDistances : PrefixCode := PrefixCode.ofLengths maxLength fixedDistanceLengths

def lengthOrder : List Nat := [16, 17, 18, 0, 8, 7, 9, 6, 10, 5, 11, 4, 12, 3, 13, 2, 14, 1, 15]

end ClassicZip.Codec.Deflate
