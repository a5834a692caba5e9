/-! # UTF-8

Bytes are read one at a time: between characters, or inside a sequence that
still owes continuation bytes. A lossy reader puts one replacement character
for each maximal run of bytes that starts a sequence and is not continued; a
strict one stops at the first such run.
-/

namespace Cyclomatic

abbrev Bytes := List UInt8

namespace Utf8

/-- What the next byte of an open sequence must be, and how many are owed. -/
structure Owed where
  value : Nat
  count : Nat
  least : Nat
  greatest : Nat
  deriving DecidableEq, Repr

/-- What a byte between characters begins. -/
inductive Start where
  | complete (c : Char)
  | opens (owed : Owed)
  | invalid

def start (b : Nat) : Start :=
  if b < 0x80 then .complete (Char.ofNat b)
  else if b < 0xC2 then .invalid
  else if b < 0xE0 then .opens ⟨b - 0xC0, 1, 0x80, 0xBF⟩
  else if b = 0xE0 then .opens ⟨0, 2, 0xA0, 0xBF⟩
  else if b = 0xED then .opens ⟨0xD, 2, 0x80, 0x9F⟩
  else if b < 0xF0 then .opens ⟨b - 0xE0, 2, 0x80, 0xBF⟩
  else if b = 0xF0 then .opens ⟨0, 3, 0x90, 0xBF⟩
  else if b < 0xF4 then .opens ⟨b - 0xF0, 3, 0x80, 0xBF⟩
  else if b = 0xF4 then .opens ⟨4, 3, 0x80, 0x8F⟩
  else .invalid

/-- The sequence after one more continuation byte: finished, or still open. -/
def Owed.continue (owed : Owed) (b : Nat) : Start :=
  if b < owed.least || owed.greatest < b then .invalid
  else
    let value := owed.value * 0x40 + (b - 0x80)
    if owed.count ≤ 1 then .complete (Char.ofNat value)
    else .opens ⟨value, owed.count - 1, 0x80, 0xBF⟩

def replacement : Char := '\ufffd'

/-- Read a byte between characters, lossily. -/
def lossyStart (b : Nat) (rest : Option Owed → List Char) : List Char :=
  match start b with
  | .complete c => c :: rest none
  | .opens owed => rest (some owed)
  | .invalid => replacement :: rest none

def lossyFrom : Option Owed → Bytes → List Char
  | none, [] => []
  | some _, [] => [replacement]
  | none, b :: bs => lossyStart b.toNat (lossyFrom · bs)
  | some owed, b :: bs =>
      match owed.continue b.toNat with
      | .complete c => c :: lossyFrom none bs
      | .opens owed => lossyFrom (some owed) bs
      | .invalid => replacement :: lossyStart b.toNat (lossyFrom · bs)

/-- The text of the bytes, with replacement characters for what is not UTF-8. -/
def decode (bs : Bytes) : String := String.ofList (lossyFrom none bs)

/-- Where and why strict reading stopped: the faulty bytes are the `length`
bytes from `position` on. -/
structure Fault where
  position : Nat
  length : Nat
  first : Nat
  reason : String
  deriving DecidableEq, Repr

def strictFrom : (position : Nat) → Option (Nat × Nat × Owed) → Bytes → Except Fault (List Char)
  | _, none, [] => .ok []
  | position, some (first, length, _), [] =>
      .error ⟨position - length, length, first, "unexpected end of data"⟩
  | position, none, b :: bs =>
      match start b.toNat with
      | .complete c => (c :: ·) <$> strictFrom (position + 1) none bs
      | .opens owed => strictFrom (position + 1) (some (b.toNat, 1, owed)) bs
      | .invalid => .error ⟨position, 1, b.toNat, "invalid start byte"⟩
  | position, some (first, length, owed), b :: bs =>
      match owed.continue b.toNat with
      | .complete c => (c :: ·) <$> strictFrom (position + 1) none bs
      | .opens owed => strictFrom (position + 1) (some (first, length + 1, owed)) bs
      | .invalid => .error ⟨position - length, length, first, "invalid continuation byte"⟩

/-- The text of the bytes, if they are UTF-8. -/
def decodeStrict (bs : Bytes) : Except Fault String := String.ofList <$> strictFrom 0 none bs

def Fault.message (f : Fault) : String :=
  let place :=
    if f.length ≤ 1 then
      let digits := Nat.toDigits 16 f.first
      let hex := String.ofList (List.replicate (2 - digits.length) '0' ++ digits)
      s!"byte 0x{hex} in position {f.position}"
    else s!"bytes in position {f.position}-{f.position + f.length - 1}"
  s!"'utf-8' codec can't decode {place}: {f.reason}"

def encode (s : String) : Bytes := s.toUTF8.toList

end Utf8

namespace Bytes

/-- An end of a slice: a negative one counts from the end, and all are clipped. -/
def clip (length : Nat) (i : Int) : Nat :=
  if i < 0 then (i + length).toNat else min i.toNat length

/-- The bytes from `start` up to `stop`. -/
def slice (bs : Bytes) (start stop : Int) : Bytes :=
  let first := clip bs.length start
  let last := clip bs.length stop
  (bs.drop first).take (last - first)

end Bytes

end Cyclomatic
