import ClassicZip.Bytes

/-!
# Numbers as text

Fixed-width hexadecimal, octal, time spans, and padding to a column.
-/

namespace ClassicZip.Text

def hexDigits (count value : Nat) : String :=
  String.ofList ((List.range count).reverse.map fun place =>
    Nat.digitChar (value / 16 ^ place % 16))

def prefixedHex (value : UInt32) : String := "0x" ++ hexDigits 8 value.toNat

def octal (value : Nat) : String := String.ofList (Nat.toDigits 8 value)

def spaces (count : Nat) : String := String.ofList (List.replicate count ' ')

def alignRight (width : Nat) (text : String) : String := spaces (width - text.length) ++ text

def alignLeft (width : Nat) (text : String) : String := text ++ spaces (width - text.length)

/-- Text in the middle of a column; an odd space goes after it. -/
def alignCentre (width : Nat) (text : String) : String :=
  let padding := width - text.length
  spaces (padding / 2) ++ text ++ spaces (padding - padding / 2)

/-- `value / 10 ^ places` without zeros at its end. -/
def decimal (places value : Nat) : String :=
  let digits := (Nat.toDigits 10 (value % 10 ^ places + 10 ^ places)).drop 1
  let kept := (digits.reverse.dropWhile (· = '0')).reverse
  toString (value / 10 ^ places) ++ (if kept.isEmpty then "" else "." ++ String.ofList kept)

def duration (nanoseconds : Nat) : String :=
  if 10 ^ 9 ≤ nanoseconds then decimal 9 nanoseconds ++ "s"
  else if 10 ^ 6 ≤ nanoseconds then decimal 6 nanoseconds ++ "ms"
  else if 10 ^ 3 ≤ nanoseconds then decimal 3 nanoseconds ++ "µs"
  else toString nanoseconds ++ "ns"

end ClassicZip.Text
