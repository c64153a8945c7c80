import ClassicZip.Bytes

/-!
# Lossy UTF-8

Bytes that are not UTF-8 still have a text: each longest start of a well-formed sequence that
breaks off, and each byte that starts none, stands as one replacement character.
-/

namespace ClassicZip.Text

def replacement : Char := '\uFFFD'

def isContinuation (byte : UInt8) : Bool := 0x80 ≤ byte && byte ≤ 0xBF

/-- How many bytes follow a lead byte, and the range of the first of them. -/
def tailOf? (lead : UInt8) : Option (Nat × UInt8 × UInt8) :=
  if 0xC2 ≤ lead && lead ≤ 0xDF then some (1, 0x80, 0xBF)
  else if lead == 0xE0 then some (2, 0xA0, 0xBF)
  else if lead == 0xED then some (2, 0x80, 0x9F)
  else if 0xE1 ≤ lead && lead ≤ 0xEF then some (2, 0x80, 0xBF)
  else if lead == 0xF0 then some (3, 0x90, 0xBF)
  else if 0xF1 ≤ lead && lead ≤ 0xF3 then some (3, 0x80, 0xBF)
  else if lead == 0xF4 then some (3, 0x80, 0x8F)
  else none

def leadBits (lead : UInt8) (count : Nat) : Nat :=
  lead.toNat % 2 ^ (6 - count)

/-- The character at the head of `lead :: rest`, and how many bytes of `rest` it takes. -/
def decodeHead (lead : UInt8) (rest : List UInt8) : Char × Nat :=
  if lead < 0x80 then (Char.ofNat lead.toNat, 0)
  else match tailOf? lead with
    | none => (replacement, 0)
    | some (count, low, high) =>
      match rest with
      | [] => (replacement, 0)
      | first :: more =>
        if first < low || high < first then (replacement, 0)
        else
          let others := (more.take (count - 1)).takeWhile isContinuation
          if others.length + 1 < count then (replacement, others.length + 1)
          else
            let value := (first :: others).foldl (fun bits byte => bits * 64 + byte.toNat % 64)
              (leadBits lead count)
            (Char.ofNat value, count)

def decodeLossyList : List UInt8 → List Char
  | [] => []
  | lead :: rest =>
    let head := decodeHead lead rest
    head.1 :: decodeLossyList (rest.drop head.2)
termination_by bytes => bytes.length
decreasing_by
  simp only [List.length_drop, List.length_cons]
  omega

def decodeLossy (bytes : ByteArray) : String :=
  String.ofList (decodeLossyList bytes.data.toList)

end ClassicZip.Text
