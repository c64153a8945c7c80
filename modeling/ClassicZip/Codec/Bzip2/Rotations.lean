import ClassicZip.Bytes

/-!
# Sorting rotations

The rotations of a block are sorted by their first byte, then by their first two, four, eight and
so on: the order by the first half of each prefix is known, so one stable pass by the rank of the
prefix is enough. Equal rotations may stand in any order.
-/

namespace ClassicZip.Codec.Bzip2

def sortByKey (bound : Nat) (keys items : Array Nat) : Array Nat :=
  let counts := items.foldl
    (fun counts item => counts.modify (keys[item]?.getD 0) (· + 1)) (Array.replicate bound 0)
  let starts := (counts.foldl
    (fun (starts, total) count => (starts.push total, total + count))
    ((#[] : Array Nat), 0)).1
  (items.foldl
    (fun (sorted, starts) item =>
      let key := keys[item]?.getD 0
      let place := starts[key]?.getD 0
      (sorted.setIfInBounds place item, starts.setIfInBounds key (place + 1)))
    (Array.replicate items.size 0, starts)).1

/-- The ranks of sorted items: equal ones, by the pair of keys, share a rank. Also one more than
the highest rank. -/
def ranksOf (sorted : Array Nat) (first second : Nat → Nat) : Array Nat × Nat :=
  let ranked := sorted.foldl
    (fun (ranks, rank, previous) item =>
      let key := (first item, second item)
      let rank := if previous == some key then rank else rank + 1
      (ranks.setIfInBounds item (rank - 1), rank, some key))
    (Array.replicate sorted.size 0, 0, none)
  (ranked.1, ranked.2.1)

/-- Doubles the length of the prefix that the rotations are sorted by until all differ or the
prefix is as long as the block. -/
def refine (size : Nat) : Nat → Nat → Array Nat → Array Nat → Nat → Array Nat
  | 0, _, sorted, _, _ => sorted
  | fuel + 1, length, sorted, ranks, distinct =>
    if distinct = size || size ≤ length then sorted
    else
      let bySecond := sorted.map fun item => (item + size - length) % size
      let sorted := sortByKey size ranks bySecond
      let rank := fun item => ranks[item]?.getD 0
      let (ranks, distinct) := ranksOf sorted rank fun item => rank ((item + length) % size)
      refine size fuel (2 * length) sorted ranks distinct

def sortRotations (block : ByteArray) : Array Nat :=
  let size := block.size
  let bytes := (Array.range size).map fun index => (Bytes.byteAt block index).toNat
  let sorted := sortByKey 256 bytes (Array.range size)
  let (ranks, distinct) := ranksOf sorted (fun item => bytes[item]?.getD 0) fun _ => 0
  refine size (size.log2 + 1) 1 sorted ranks distinct

end ClassicZip.Codec.Bzip2
