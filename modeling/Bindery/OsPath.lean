/-! Paths as the machine has them, which are bytes and need not be text, and the text that is shown and
hashed for one. -/

namespace Bindery

namespace Utf8

/-- A character of which the first bytes have been read: the number that they make, how many follow the
next byte, and between which bounds that one has to be. -/
structure Begun where
  value : Nat
  left : Nat
  low : Nat
  high : Nat

/-- What a first byte begins, if it is one of several. Short forms of other characters, surrogates and
numbers that are too large are ruled out by the bounds of the second byte. -/
def begun? (b : Nat) : Option Begun :=
  if 0xC2 ≤ b ∧ b ≤ 0xDF then some ⟨b - 0xC0, 0, 0x80, 0xBF⟩
  else if b = 0xE0 then some ⟨0, 1, 0xA0, 0xBF⟩
  else if b = 0xED then some ⟨0xD, 1, 0x80, 0x9F⟩
  else if 0xE1 ≤ b ∧ b ≤ 0xEF then some ⟨b - 0xE0, 1, 0x80, 0xBF⟩
  else if b = 0xF0 then some ⟨0, 2, 0x90, 0xBF⟩
  else if 0xF1 ≤ b ∧ b ≤ 0xF3 then some ⟨b - 0xF0, 2, 0x80, 0xBF⟩
  else if b = 0xF4 then some ⟨4, 2, 0x80, 0x8F⟩
  else none

/-- The character that stands for bytes that are none. -/
def replacement : Char :=
  '\uFFFD'

/-- Reads a byte where a character begins. -/
def begin (b : Nat) : List Char × Option Begun :=
  if b < 0x80 then ([Char.ofNat b], none)
  else
    match begun? b with
    | some s => ([], some s)
    | none => ([replacement], none)

/-- The number that the bytes make with one more. -/
def Begun.push (s : Begun) (b : Nat) : Nat :=
  s.value * 64 + (b - 0x80)

/-- Reads a byte behind others. One that cannot follow them begins anew. -/
def step (b : Nat) : Option Begun → List Char × Option Begun
  | none => begin b
  | some s =>
    if s.low ≤ b ∧ b ≤ s.high then
      match s.left with
      | 0 => ([Char.ofNat (s.push b)], none)
      | left + 1 => ([], some ⟨s.push b, left, 0x80, 0xBF⟩)
    else
      let (cs, next) := begin b
      (replacement :: cs, next)

/-- The characters of bytes, with a replacement for each longest run that begins a character and for
each byte that begins none. -/
def decode (s : Option Begun) : List UInt8 → List Char
  | [] => s.toList.map fun _ => replacement
  | b :: bs =>
    let (cs, next) := step b.toNat s
    cs ++ decode next bs

end Utf8

/-- A path of the machine. -/
structure OsPath where
  bytes : List UInt8
  deriving DecidableEq, Repr

namespace OsPath

def ofText (text : String) : OsPath :=
  ⟨text.toList.flatMap String.utf8EncodeChar⟩

instance : Coe String OsPath :=
  ⟨ofText⟩

/-- The text that is shown for a path. -/
def lossy (p : OsPath) : String :=
  String.ofList (Utf8.decode none p.bytes)

/-- The text that a path is, if it is one. -/
def text? (p : OsPath) : Option String :=
  if ofText p.lossy = p then some p.lossy else none

end OsPath

end Bindery
