import ClassicZip.Codec.PrefixCode

/-!
# Choosing prefix codes

Word lengths from how often each symbol occurs: the two rarest groups of symbols are joined until
one group is left, and each joining makes the words of its symbols one bit longer. When a word
gets too long the counts are evened out and the joining starts again.
-/

namespace ClassicZip.Codec.PrefixCode

def insertGroup (group : Nat × List Nat) : List (Nat × List Nat) → List (Nat × List Nat)
  | [] => [group]
  | other :: groups =>
    if group.1 ≤ other.1 then group :: other :: groups else other :: insertGroup group groups

def joinGroups : Nat → List (Nat × List Nat) → Array Nat → Array Nat
  | 0, _, lengths => lengths
  | fuel + 1, a :: b :: groups, lengths =>
    let joined := a.2 ++ b.2
    let lengths := joined.foldl (fun lengths symbol => lengths.modify symbol (· + 1)) lengths
    joinGroups fuel (insertGroup (a.1 + b.1, joined) groups) lengths
  | _, _, lengths => lengths

/-- Word lengths for `counts`; `fuel` bounds how often the counts are evened out, after which all
words get the same length. -/
def lengthsFor (maxLength : Nat) : Nat → Array Nat → Array Nat
  | 0, counts => Array.replicate counts.size (counts.size.log2 + 1)
  | fuel + 1, counts =>
    let groups := (List.range counts.size).foldl
      (fun groups symbol => insertGroup (counts[symbol]?.getD 0, [symbol]) groups) []
    let lengths := joinGroups counts.size groups (Array.replicate counts.size 0)
    if lengths.all (· ≤ maxLength) then lengths
    else lengthsFor maxLength fuel (counts.map fun count => count / 2 + 1)

def wordsOf (maxLength : Nat) (lengths : Array Nat) : Array Nat :=
  ((List.range maxLength).foldl
    (fun (words, next) length =>
      let assigned := (symbolsOfLength lengths (length + 1)).foldl
        (fun (words, next) symbol => (words.setIfInBounds symbol next, next + 1))
        (words, 2 * next)
      assigned)
    (Array.replicate lengths.size 0, 0)).1

end ClassicZip.Codec.PrefixCode
