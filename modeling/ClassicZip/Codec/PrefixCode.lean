import ClassicZip.Codec.Bits

/-!
# Prefix codes

A canonical prefix code is given by the length of each symbol's code word. Words of one length
are consecutive numbers in the order of their symbols, and each length starts where the one before
it left off, doubled. Decoding needs only how many words each length has.
-/

namespace ClassicZip.Codec

structure PrefixCode where
  /-- How many words have each length, from length 1 on. -/
  counts : List Nat
  /-- The symbols in the order of their words. -/
  symbols : Array Nat

namespace PrefixCode

def symbolsOfLength (lengths : Array Nat) (length : Nat) : Array Nat :=
  (Array.range lengths.size).filter fun symbol => lengths[symbol]? == some length

/-- The code whose words have the given lengths, up to `maxLength`; a symbol of length zero has
no word. -/
def ofLengths (maxLength : Nat) (lengths : Array Nat) : PrefixCode where
  counts := (List.range maxLength).map fun length => (symbolsOfLength lengths (length + 1)).size
  symbols := (List.range maxLength).foldl
    (fun symbols length => symbols ++ symbolsOfLength lengths (length + 1)) #[]

/-- The share of all infinite bit strings that start with a word, times `2 ^ counts.length`. -/
def weight (code : PrefixCode) : Nat :=
  code.counts.foldl (fun total count => 2 * total + count) 0

def isComplete (code : PrefixCode) : Bool := code.weight == 2 ^ code.counts.length

/-- Takes a word: `word` holds the bits so far, `first` the least word of the current length and
`index` the place of its symbol. Bits that no longer word starts with are given up at once. -/
def takeFrom (symbols : Array Nat) :
    List Nat → Nat → Nat → Nat → Bits → Except Refusal (Nat × Bits)
  | [], _, _, _, _ => .error .corrupt
  | count :: counts, word, first, index, bits =>
    match bits.take? 1 with
    | none => .error .short
    | some (bit, next) =>
      let word := 2 * word + bit
      let first := 2 * first
      if word < first + count then
        match symbols[index + (word - first)]? with
        | some symbol => .ok (symbol, next)
        | none => .error .corrupt
      else if counts.all (· == 0) then .error .corrupt
      else takeFrom symbols counts word (first + count) (index + count) next

def take (code : PrefixCode) (bits : Bits) : Except Refusal (Nat × Bits) :=
  takeFrom code.symbols code.counts 0 0 0 bits

theorem left_of_takeFrom {symbols : Array Nat} {counts : List Nat} {word first index : Nat}
    {bits next : Bits} {symbol : Nat}
    (h : takeFrom symbols counts word first index bits = .ok (symbol, next)) :
    next.left < bits.left := by
  induction counts generalizing word first index bits with
  | nil => simp [takeFrom] at h
  | cons count counts ih =>
    unfold takeFrom at h
    split at h
    · simp at h
    · rename_i bit rest ht
      have hl := Bits.left_of_take? ht
      dsimp only at h
      split at h
      · split at h
        · simp only [Except.ok.injEq, Prod.mk.injEq] at h
          obtain ⟨_, rfl⟩ := h
          omega
        · simp at h
      · split at h
        · simp at h
        · have := ih h
          omega

theorem left_of_take {code : PrefixCode} {bits next : Bits} {symbol : Nat}
    (h : code.take bits = .ok (symbol, next)) : next.left < bits.left :=
  left_of_takeFrom h

def symbol (code : PrefixCode) : BitReader Nat where
  read bits :=
    match h : code.take bits with
    | .error cause => .error cause
    | .ok (symbol, rest) => .ok (symbol, ⟨rest, Nat.le_of_lt (left_of_take h)⟩)

end PrefixCode

end ClassicZip.Codec
