import NestedViews.Snapshot.Fault

/-! Numbers, counted lists, options and texts as bytes. A number has a fixed width and its lowest
byte comes first; a list and a text start with their length. -/

namespace NestedViews.Snapshot

def littleEndian : Nat → Nat → List UInt8
  | 0, _ => []
  | width + 1, n => .ofNat (n % 256) :: littleEndian width (n / 256)

def encodeLength (n : Nat) : List UInt8 :=
  littleEndian 8 n

def encodeList (encode : α → List UInt8) (items : List α) : List UInt8 :=
  encodeLength items.length ++ items.flatMap encode

def encodeOption (encode : α → List UInt8) : Option α → List UInt8
  | none => [0]
  | some a => 1 :: encode a

def encodeChars (cs : List Char) : List UInt8 :=
  cs.flatMap String.utf8EncodeChar

def encodeText (s : String) : List UInt8 :=
  encodeLength (encodeChars s.toList).length ++ encodeChars s.toList

/-- Takes a value off the front of some bytes. -/
abbrev Decoder (α : Type) := StateT (List UInt8) (Except Fault) α

def byte : Decoder Nat := fun
  | [] => .error .endOfInput
  | b :: rest => .ok (b.toNat, rest)

def decodeNat : Nat → Decoder Nat
  | 0 => return 0
  | width + 1 => do
    let low ← byte
    let high ← decodeNat width
    return low + 256 * high

def decodeLength : Decoder Nat :=
  decodeNat 8

def decodeMany (decode : Decoder α) : Nat → Decoder (List α)
  | 0 => return []
  | count + 1 => do
    let a ← decode
    return a :: (← decodeMany decode count)

def decodeList (decode : Decoder α) : Decoder (List α) := do
  decodeMany decode (← decodeLength)

def decodeOption (decode : Decoder α) : Decoder (Option α) := do
  match ← byte with
  | 0 => return none
  | 1 => return some (← decode)
  | tag => throw (.optionTag tag)

def leadByte? (b : UInt8) : Option (Nat × UInt8 × UInt8) :=
  if 0xC2 ≤ b ∧ b ≤ 0xDF then some (1, 0x80, 0xBF)
  else if b = 0xE0 then some (2, 0xA0, 0xBF)
  else if b = 0xED then some (2, 0x80, 0x9F)
  else if 0xE1 ≤ b ∧ b ≤ 0xEF then some (2, 0x80, 0xBF)
  else if b = 0xF0 then some (3, 0x90, 0xBF)
  else if 0xF1 ≤ b ∧ b ≤ 0xF3 then some (3, 0x80, 0xBF)
  else if b = 0xF4 then some (3, 0x80, 0x8F)
  else none

/-- Adds the continuation bytes of a character to the bits read before them. The first of them lies
between the given bounds; `length` bytes of the character are read already. -/
def decodeTail (index length : Nat) :
    Nat → UInt8 → UInt8 → Nat → List UInt8 → Except TextFault (Nat × List UInt8)
  | 0, _, _, code, bytes => .ok (code, bytes)
  | _ + 1, _, _, _, [] => .error (.incomplete index)
  | more + 1, low, high, code, b :: bytes =>
    if low ≤ b ∧ b ≤ high then
      decodeTail index (length + 1) more 0x80 0xBF (code * 64 + b.toNat % 64) bytes
    else .error (.invalid length index)

def decodeChar (index : Nat) (b : UInt8) (bytes : List UInt8) :
    Except TextFault (Char × List UInt8) :=
  if b < 0x80 then .ok (.ofNat b.toNat, bytes)
  else match leadByte? b with
    | none => .error (.invalid 1 index)
    | some (more, low, high) => do
      let (code, rest) ← decodeTail index 1 more low high (b.toNat % Nat.pow 2 (6 - more)) bytes
      return (.ofNat code, rest)

def decodeChars : Nat → Nat → List UInt8 → Except TextFault (List Char)
  | _, _, [] => .ok []
  | 0, index, _ :: _ => .error (.incomplete index)
  | limit + 1, index, b :: bytes => do
    let (c, rest) ← decodeChar index b bytes
    return c :: (← decodeChars limit (index + c.utf8Size) rest)

def decodeText : Decoder String := do
  let length ← decodeLength
  let bytes ← get
  if bytes.length < length then throw .endOfText
  match decodeChars length 0 (bytes.take length) with
  | .ok cs =>
    set (bytes.drop length)
    return String.ofList cs
  | .error fault => throw (.text fault)

end NestedViews.Snapshot
