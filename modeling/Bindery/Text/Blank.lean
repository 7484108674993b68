/-! Blanks. Two classes are in use: the Unicode property White_Space, by which text is trimmed and
split into words, and the five ASCII blanks that separate the tokens of a type. -/

namespace Bindery

/-- The Unicode property White_Space. -/
def isBlank (c : Char) : Bool :=
  let n := c.toNat
  (9 ≤ n && n ≤ 13) || n == 0x20 || n == 0x85 || n == 0xA0 || n == 0x1680 ||
    (0x2000 ≤ n && n ≤ 0x200A) || n == 0x2028 || n == 0x2029 || n == 0x202F || n == 0x205F ||
    n == 0x3000

/-- Space, tab, line feed, form feed and carriage return; the vertical tab is not one of them. -/
def isAsciiBlank (c : Char) : Bool :=
  c == ' ' || c == '\t' || c == '\n' || c == '\x0c' || c == '\r'

theorem isBlank_of_isAsciiBlank {c : Char} (h : isAsciiBlank c = true) : isBlank c = true := by
  simp only [isAsciiBlank, Bool.or_eq_true, beq_iff_eq] at h
  rcases h with (((rfl | rfl) | rfl) | rfl) | rfl <;> decide

def trimStart (cs : List Char) : List Char :=
  cs.dropWhile isBlank

def trimEnd (cs : List Char) : List Char :=
  (cs.reverse.dropWhile isBlank).reverse

def trim (cs : List Char) : List Char :=
  trimEnd (trimStart cs)

/-- The text without the blanks at both ends. -/
def trimmed (s : String) : String :=
  String.ofList (trim s.toList)

theorem length_dropWhile_le {α : Type} (p : α → Bool) (l : List α) :
    (l.dropWhile p).length ≤ l.length :=
  (List.dropWhile_suffix p).length_le

theorem trimEnd_length (cs : List Char) : (trimEnd cs).length ≤ cs.length := by
  have := length_dropWhile_le isBlank cs.reverse
  simpa [trimEnd] using this

/-- The maximal runs without blanks. -/
def blankSeparated (cs : List Char) : List (List Char) :=
  match _h : trimStart cs with
  | [] => []
  | c :: rest =>
    (c :: rest.takeWhile (!isBlank ·)) :: blankSeparated (rest.dropWhile (!isBlank ·))
termination_by cs.length
decreasing_by
  have h₁ := length_dropWhile_le isBlank cs
  have h₂ := length_dropWhile_le (!isBlank ·) rest
  rw [trimStart] at _h
  rw [_h, List.length_cons] at h₁
  omega

/-- The words of a text, joined by single spaces. -/
def collapseBlanks (s : String) : String :=
  " ".intercalate ((blankSeparated s.toList).map String.ofList)

end Bindery
