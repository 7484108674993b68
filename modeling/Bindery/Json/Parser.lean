import Bindery.Json.Basic
import Bindery.Number.Stepwise
import Bindery.Number.Width
import Bindery.Text.Blank

/-! Reading JSON text. Every reader returns what is left with a proof that it is shorter; lists and
objects may not be nested deeper than a given limit. -/

namespace Bindery.Json

def isSpace (c : Char) : Bool :=
  c == ' ' || c == '\t' || c == '\n' || c == '\r'

abbrev Shorter (cs : List Char) := {r : List Char // r.length < cs.length}

abbrev NoLonger (cs : List Char) := {r : List Char // r.length ≤ cs.length}

theorem length_lt_of_dropWhile {p : Char → Bool} {cs r : List Char} {d : Char}
    (h : cs.dropWhile p = d :: r) : r.length < cs.length := by
  have hle := length_dropWhile_le p cs
  rw [h, List.length_cons] at hle
  exact hle

/-- What follows the character `c`, when it is the first one that is no space. -/
def token? (c : Char) (cs : List Char) : Option (Shorter cs) :=
  match hd : cs.dropWhile isSpace with
  | [] => none
  | d :: r => if d == c then some ⟨r, length_lt_of_dropWhile hd⟩ else none

def hexValue? (c : Char) : Option Nat :=
  if c.isDigit then some (c.toNat - '0'.toNat)
  else if 'a' ≤ c ∧ c ≤ 'f' then some (c.toNat - 'a'.toNat + 10)
  else if 'A' ≤ c ∧ c ≤ 'F' then some (c.toNat - 'A'.toNat + 10)
  else none

/-- Four hexadecimal digits. -/
def unit? (cs : List Char) : Option (Nat × Shorter cs) :=
  match cs with
  | a :: b :: c :: d :: rest =>
    match hexValue? a, hexValue? b, hexValue? c, hexValue? d with
    | some a, some b, some c, some d =>
      some (((a * 16 + b) * 16 + c) * 16 + d, ⟨rest, by simp only [List.length_cons]; omega⟩)
    | _, _, _, _ => none
  | _ => none

def plainEscape? (c : Char) : Option Char :=
  if c == '"' || c == '\\' || c == '/' then some c
  else if c == 'n' then some '\n'
  else if c == 'r' then some '\r'
  else if c == 't' then some '\t'
  else if c == 'b' then some '\x08'
  else if c == 'f' then some '\x0c'
  else none

/-- The character of a code unit, or of a pair of surrogates. A surrogate by itself is refused. -/
def unicodeEscape? (cs : List Char) : Option (Char × Shorter cs) := do
  let (hi, ⟨r, h⟩) ← unit? cs
  if 0xDC00 ≤ hi ∧ hi < 0xE000 then none
  else if 0xD800 ≤ hi ∧ hi < 0xDC00 then
    match hr : r with
    | '\\' :: 'u' :: r' => do
      let (lo, ⟨r'', h'⟩) ← unit? r'
      if 0xDC00 ≤ lo ∧ lo < 0xE000 then
        some (Char.ofNat (0x10000 + (hi - 0xD800) * 0x400 + (lo - 0xDC00)),
          ⟨r'', by rw [hr, List.length_cons, List.length_cons] at h; omega⟩)
      else none
    | _ => none
  else some (Char.ofNat hi, ⟨r, h⟩)

/-- The characters up to the closing quote, put before `seen` in reverse. -/
def stringBody (seen : List Char) (cs : List Char) : Option (String × Shorter cs) :=
  match cs with
  | [] => none
  | '"' :: rest => some (String.ofList seen.reverse, ⟨rest, Nat.lt_succ_self _⟩)
  | '\\' :: 'u' :: rest =>
    match unicodeEscape? rest with
    | none => none
    | some (c, ⟨r, h⟩) =>
      (stringBody (c :: seen) r).map fun (s, ⟨r', h'⟩) =>
        (s, ⟨r', by simp only [List.length_cons]; omega⟩)
  | '\\' :: e :: rest =>
    match plainEscape? e with
    | none => none
    | some c =>
      (stringBody (c :: seen) rest).map fun (s, ⟨r, h⟩) =>
        (s, ⟨r, by simp only [List.length_cons]; omega⟩)
  | c :: rest =>
    if c == '\\' || c.toNat < 0x20 then none
    else
      (stringBody (c :: seen) rest).map fun (s, ⟨r, h⟩) => (s, ⟨r, Nat.lt_succ_of_lt h⟩)
termination_by cs.length
decreasing_by all_goals simp only [List.length_cons]; omega

/-- The digits at the front and the rest. -/
def digits (cs : List Char) : List Char × NoLonger cs :=
  (cs.takeWhile Char.isDigit, ⟨cs.dropWhile Char.isDigit, length_dropWhile_le _ _⟩)

/-- The digits behind a point, of which there is at least one; no digits if there is no point. -/
def fraction? (cs : List Char) : Option (List Char × NoLonger cs) :=
  match cs with
  | '.' :: rest =>
    match digits rest with
    | ([], _) => none
    | (ds, ⟨r, h⟩) => some (ds, ⟨r, Nat.le_succ_of_le h⟩)
  | cs => some ([], ⟨cs, Nat.le_refl _⟩)

def natOfDigits (ds : List Char) : Nat :=
  ds.foldl (fun n c => 10 * n + (c.toNat - '0'.toNat)) 0

/-- The exponent behind its mark, with a sign or none, if there is a mark. -/
def exponent? (cs : List Char) : Option (Option Int × NoLonger cs) :=
  match cs with
  | e :: rest =>
    if e == 'e' || e == 'E' then
      let sign := (rest.take 1).filter fun c => c == '+' || c == '-'
      match digits (rest.drop sign.length) with
      | ([], _) => none
      | (ds, ⟨r, h⟩) =>
        let n := natOfDigits ds
        some (some (if sign == ['-'] then -(n : Int) else n), ⟨r, by
          simp only [List.length_drop] at h
          simp only [List.length_cons]
          omega⟩)
    else some (none, ⟨e :: rest, Nat.le_refl _⟩)
  | [] => some (none, ⟨[], Nat.le_refl _⟩)

/-- Digits put behind a number as long as it fits a word, and the digits left. -/
def wordOfDigits (n : Nat) : List Char → Nat × List Char
  | [] => (n, [])
  | c :: cs =>
    let next := 10 * n + (c.toNat - '0'.toNat)
    if next < limit64 then wordOfDigits next cs else (n, c :: cs)

/-- The number that digits before and behind a point and an exponent write. It has the digits that
fit a word; those left over count as zeros. -/
def decimalOf (whole frac : List Char) (exponent : Int) : Decimal :=
  let (n, wholeLeft) := wordOfDigits 0 whole
  let (n, fracLeft) := wordOfDigits n frac
  ⟨n, exponent + wholeLeft.length + fracLeft.length - frac.length⟩

/-- A number whose sign has been read. Zero is not followed by digits. A whole number that does not
fit 64 bits, and zero with a sign, are no whole numbers. A number that is too large is refused. -/
def unsigned? (negative : Bool) (cs : List Char) : Option (Json × List Char) := do
  let (ds, ⟨r, _⟩) := digits cs
  if ds.isEmpty || (ds.length > 1 && ds.head? == some '0') then none
  let (frac, ⟨r, _⟩) ← fraction? r
  let (exponent, ⟨r, _⟩) ← exponent? r
  let n := natOfDigits ds
  let whole := frac.isEmpty && exponent.isNone &&
    (if negative then 0 < n && n ≤ limit63 else n < limit64)
  if whole then some (.int (if negative then -(n : Int) else n), r)
  else
    let b ← (decimalOf ds frac (exponent.getD 0)).stepwise?
    some (.real negative b, r)

/-- A number, or one of the words `null`, `true` and `false`. -/
def scalar? (cs : List Char) : Option (Json × List Char) :=
  if "null".toList.isPrefixOf cs then some (.null, cs.drop 4)
  else if "true".toList.isPrefixOf cs then some (.bool true, cs.drop 4)
  else if "false".toList.isPrefixOf cs then some (.bool false, cs.drop 5)
  else if cs.head? == some '-' then unsigned? true cs.tail
  else unsigned? false cs

mutual

/-- A value, with `depth` levels of lists and objects allowed in it. -/
def value? (depth : Nat) (cs : List Char) : Option (Json × Shorter cs) :=
  match token? '"' cs with
  | some ⟨r, h⟩ => (stringBody [] r).map fun (s, ⟨r', h'⟩) => (.str s, ⟨r', Nat.lt_trans h' h⟩)
  | none =>
    match token? '[' cs with
    | some ⟨r, h⟩ =>
      match depth with
      | 0 => none
      | depth + 1 =>
        match token? ']' r with
        | some ⟨r', h'⟩ => some (.arr [], ⟨r', Nat.lt_trans h' h⟩)
        | none => (listItems? depth r).map fun (js, ⟨r', h'⟩) => (.arr js, ⟨r', Nat.lt_trans h' h⟩)
    | none =>
      match token? '\x7b' cs with
      | some ⟨r, h⟩ =>
        match depth with
        | 0 => none
        | depth + 1 =>
          match token? '\x7d' r with
          | some ⟨r', h'⟩ => some (.obj [], ⟨r', Nat.lt_trans h' h⟩)
          | none =>
            (objectFields? depth r).map fun (fs, ⟨r', h'⟩) => (.obj fs, ⟨r', Nat.lt_trans h' h⟩)
      | none =>
        match scalar? (cs.dropWhile isSpace) with
        | some (j, r) => if h : r.length < cs.length then some (j, ⟨r, h⟩) else none
        | none => none
termination_by (cs.length, 1)
decreasing_by all_goals exact Prod.Lex.left _ _ h

/-- The values up to the end of a list; there is at least one. -/
def listItems? (depth : Nat) (cs : List Char) : Option (List Json × Shorter cs) :=
  match value? depth cs with
  | none => none
  | some (j, ⟨r, h⟩) =>
    match token? ',' r with
    | some ⟨r', h'⟩ =>
      (listItems? depth r').map fun (js, ⟨r'', h''⟩) => (j :: js, ⟨r'', by omega⟩)
    | none =>
      match token? ']' r with
      | some ⟨r', h'⟩ => some ([j], ⟨r', by omega⟩)
      | none => none
termination_by (cs.length, 2)
decreasing_by
  · exact Prod.Lex.right _ (by omega)
  · exact Prod.Lex.left _ _ (by omega)

/-- The fields up to the end of an object; there is at least one. -/
def objectFields? (depth : Nat) (cs : List Char) :
    Option (List (String × Json) × Shorter cs) :=
  match token? '"' cs with
  | none => none
  | some ⟨r₁, h₁⟩ =>
    match stringBody [] r₁ with
    | none => none
    | some (key, ⟨r₂, h₂⟩) =>
      match token? ':' r₂ with
      | none => none
      | some ⟨r₃, h₃⟩ =>
        match value? depth r₃ with
        | none => none
        | some (j, ⟨r₄, h₄⟩) =>
          match token? ',' r₄ with
          | some ⟨r₅, h₅⟩ =>
            (objectFields? depth r₅).map fun (fs, ⟨r₆, h₆⟩) => ((key, j) :: fs, ⟨r₆, by omega⟩)
          | none =>
            match token? '\x7d' r₄ with
            | some ⟨r₅, h₅⟩ => some ([(key, j)], ⟨r₅, by omega⟩)
            | none => none
termination_by (cs.length, 2)
decreasing_by all_goals exact Prod.Lex.left _ _ (by omega)

end

/-- A text that is one value, nested no deeper than `depth`. -/
def parse? (depth : Nat) (text : String) : Option Json :=
  match value? depth text.toList with
  | some (j, ⟨r, _⟩) => if r.all isSpace then some j else none
  | none => none

end Bindery.Json
