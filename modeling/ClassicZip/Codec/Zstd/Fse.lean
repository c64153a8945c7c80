import ClassicZip.Codec.Zstd.BackwardBits

/-!
# Finite-state entropy tables

A distribution gives each symbol its share of `2 ^ log` states. The table spreads the states over
the symbols; a state yields its symbol and, with a few more bits, the next state.
-/

namespace ClassicZip.Codec.Zstd

/-- The states of each symbol; a share of `-1` is one state that is placed last. -/
structure Distribution where
  log : Nat
  shares : Array Int

structure FseCell where
  symbol : Nat
  bits : Nat
  base : Nat
  deriving Inhabited

structure FseTable where
  log : Nat
  cells : Array FseCell

namespace Distribution

/-- Where reading goes on at `position`. Past the end it falls back into the last four bytes. -/
def settle (bytes : ByteArray) (position : Nat) : Nat :=
  let size := 8 * bytes.size
  if position < size then position else size - 32 + (position - size) % 32

def groupsAtOnce : Nat := 12

/-- The zero shares that follow a zero share, counted by threes, and the position behind them;
`zeros` and `groups` were read before, and `fuel` bounds the groups. -/
def zeroRun (bytes : ByteArray) (settle : Nat → Nat) : Nat → Nat → Nat → Nat → Nat × Nat
  | 0, zeros, _, position => (zeros, position)
  | fuel + 1, zeros, groups, position =>
    let group := BackwardBits.numberAt bytes position 2
    if group < 3 then (zeros + group, settle (position + 2))
    else if groups + 1 < groupsAtOnce then
      zeroRun bytes settle fuel (zeros + 3) (groups + 1) (position + 2)
    else zeroRun bytes settle fuel (zeros + 3) 0 (settle (position + 2))

/-- One share plus one, as a number below `remaining + 1`, and the position behind it: small numbers
may take a bit less. -/
def share (bytes : ByteArray) (remaining position : Nat) : Nat × Nat :=
  let bits := remaining.log2 + 1
  let threshold := 2 ^ (bits - 1)
  let spare := 2 * threshold - 1 - remaining
  let low := BackwardBits.numberAt bytes position (bits - 1)
  if low < spare then (low, position + bits - 1)
  else
    let value := BackwardBits.numberAt bytes position bits
    (if threshold ≤ value then value - spare else value, position + bits)

/-- The shares of symbols up to `maxSymbol`, and the position behind them; `remaining` is one more
than the states not yet given out. `settle` says where reading goes on. -/
def sharesFrom (bytes : ByteArray) (settle : Nat → Nat) (maxSymbol : Nat) :
    Nat → Nat → Bool → Array Int → Nat → Option (Array Int × Nat)
  | 0, _, _, _, _ => none
  | fuel + 1, remaining, afterZero, shares, position =>
    let (zeros, position) :=
      if afterZero then zeroRun bytes settle (maxSymbol + 1) 0 0 position else (0, position)
    if maxSymbol < shares.size + zeros then none
    else
      let (next, position) := share bytes remaining position
      let value : Int := next - 1
      let shares := (shares ++ Array.replicate zeros 0).push value
      let remaining := remaining - value.natAbs
      if remaining ≤ 1 then some (shares, position)
      else sharesFrom bytes settle maxSymbol fuel remaining (value == 0) shares (settle position)

def padded (bytes : ByteArray) : ByteArray := bytes ++ ⟨Array.replicate (8 - bytes.size) 0⟩

/-- A distribution in front of other data, read from `bytes` but within the first `size` of them,
and how many whole bytes it takes. -/
def read? (bytes : ByteArray) (settle : Nat → Nat) (maxSymbol maxLog size : Nat) :
    Option (Distribution × Nat) :=
  let log := BackwardBits.numberAt bytes 0 4 + 5
  if maxLog < log then none
  else match sharesFrom bytes settle maxSymbol (maxSymbol + 2) (2 ^ log + 1) false #[] 4 with
    | none => none
    | some (shares, position) =>
      if 8 * size < position then none else some (⟨log, shares⟩, (position + 7) / 8)

def ofBytes? (maxSymbol maxLog : Nat) (bytes : ByteArray) : Option (Distribution × Nat) :=
  let padded := padded bytes
  read? padded (settle padded) maxSymbol maxLog bytes.size

/-- The symbol of each state. Shares of `-1` take the highest states; the others are dealt out
with a fixed stride. -/
def spread (distribution : Distribution) : Array Nat :=
  let size := 2 ^ distribution.log
  let indices := List.range distribution.shares.size
  let single := indices.filter fun symbol => distribution.shares[symbol]? == some (-1)
  let dealt := indices.flatMap fun symbol =>
    List.replicate (distribution.shares[symbol]?.getD 0).toNat symbol
  let stride := size / 2 + size / 8 + 3
  let slots := ((List.range size).map fun turn => turn * stride % size).filter fun slot =>
    slot < size - single.length
  let placed := (slots.zip dealt).foldl
    (fun states (slot, symbol) => states.setIfInBounds slot symbol) (Array.replicate size 0)
  ((List.range single.length).zip single).foldl
    (fun states (place, symbol) => states.setIfInBounds (size - 1 - place) symbol) placed

/-- The table: the states of a symbol share out the numbers from its share to twice its share. -/
def table (distribution : Distribution) : FseTable :=
  let size := 2 ^ distribution.log
  let first := distribution.shares.map fun share => share.natAbs
  let built := distribution.spread.foldl
    (fun (cells, nexts) symbol =>
      let next := nexts[symbol]?.getD 1
      let bits := distribution.log - next.log2
      (cells.push (⟨symbol, bits, next * 2 ^ bits - size⟩ : FseCell),
        nexts.setIfInBounds symbol (next + 1)))
    (#[], first)
  ⟨distribution.log, built.1⟩

end Distribution

namespace FseTable

def constant (symbol : Nat) : FseTable := ⟨0, #[⟨symbol, 0, 0⟩]⟩

def start (table : FseTable) (bits : BackwardBits) : Nat × BackwardBits := bits.take table.log

def cell (table : FseTable) (state : Nat) : FseCell := table.cells[state]?.getD default

def next (table : FseTable) (state : Nat) (bits : BackwardBits) : Nat × BackwardBits :=
  let cell := table.cell state
  let (low, rest) := bits.take cell.bits
  (cell.base + low, rest)

end FseTable

end ClassicZip.Codec.Zstd
