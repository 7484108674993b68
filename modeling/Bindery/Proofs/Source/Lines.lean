import Bindery.Proofs.Dump.Placed
import Bindery.Proofs.Source.Bytes
import Mathlib.Data.List.Count
import Mathlib.Data.Prod.Lex
import Mathlib.Order.Bounds.Defs

/-! Locations by a search in the table of lines, which lists where lines start. -/

namespace Bindery

/-- What a search in an increasing list says of a number: where it is, or where it would be put in. -/
inductive Rank where
  | found (i : Nat)
  | absent (i : Nat)
  deriving DecidableEq, Repr

namespace Search

/-- The byte of a newline. -/
def newline : UInt8 := 10

/-- The offsets behind the newlines of a text that starts at `pos`. -/
def startsBehind (pos : Nat) : List Char → List Nat
  | [] => []
  | c :: cs =>
    if c == '\n' then (pos + 1) :: startsBehind (pos + 1) cs
    else startsBehind (pos + c.utf8Size) cs

/-- The offsets at which the lines of a text start, in their order. -/
def lineStarts (text : List Char) : List Nat :=
  0 :: startsBehind 0 text

/-- Looks for a number from one place of a list up to another, by the half in which it must be. -/
def rank : Nat → List Nat → Nat → Nat → Nat → Search Rank
  | 0, _, _, _, _ => goesOn
  | steps + 1, xs, x, left, right => do
    if left < right then
      let mid := left + (right - left) / 2
      let y ← orFault .byte xs[mid]?
      if y == x then return .found mid
      else if y < x then rank steps xs x (mid + 1) right
      else rank steps xs x left mid
    else return .absent left

/-- The place in the table of the line that an offset is on. -/
def lineIndex (steps : Nat) (starts : List Nat) (offset : Nat) : Search Nat := do
  match ← rank steps starts offset 0 starts.length with
  | .found i => return i
  | .absent i => minus i 1

end Search

namespace SourceMap

open Search (minus orFault lineStarts lineIndex)

/-- The location of a byte by its line's place in the table. Lines and columns are words of 32 bits. -/
def locate (m : SourceMap) (steps : Nat) (file : String) (offset : Nat) : Search (Option Location) :=
  match m.text? file with
  | none => pure none
  | some text =>
    if text.utf8ByteSize < offset then pure none
    else do
      let starts := lineStarts text.toList
      let line ← lineIndex steps starts offset
      let start ← orFault .byte starts[line]?
      let column := (← minus offset start) + 1
      return some ⟨file, (line % limit32 + 1) % limit32, column % limit32, offset⟩

end SourceMap

/-- The place with its line and its column in words of 32 bits. -/
def Location.narrowed (l : Location) : Location :=
  { l with line := l.line % limit32, column := l.column % limit32 }

theorem Location.narrowed_eq {l : Location} (hline : l.line < limit32) (hcolumn : l.column < limit32) :
    l.narrowed = l := by
  rw [narrowed, Nat.mod_eq_of_lt hline, Nat.mod_eq_of_lt hcolumn]

section Increasing

variable {xs : List Nat} {x y i : Nat}

/-- How many numbers of an increasing list are below another. -/
def below (x : Nat) (xs : List Nat) : Nat :=
  (xs.takeWhile (· < x)).length

theorem below_cons_of_lt (h : y < x) : below x (y :: xs) = below x xs + 1 := by
  simp [below, h]

theorem below_cons_of_le (h : x ≤ y) : below x (y :: xs) = 0 := by
  simp [below, Nat.not_lt.mpr h]

theorem below_le_length (x : Nat) (xs : List Nat) : below x xs ≤ xs.length :=
  (List.takeWhile_prefix _).length_le

theorem lt_below_iff (hxs : xs.Pairwise (· < ·)) (hi : xs[i]? = some y) : i < below x xs ↔ y < x := by
  induction xs generalizing i with
  | nil => simp at hi
  | cons z xs ih =>
    obtain ⟨hz, hxs⟩ := List.pairwise_cons.mp hxs
    by_cases hlt : z < x
    · rw [below_cons_of_lt hlt]
      cases i with
      | zero =>
        cases hi
        simp [hlt]
      | succ i => rw [Nat.succ_lt_succ_iff, ih hxs hi]
    · rw [below_cons_of_le (Nat.le_of_not_lt hlt)]
      have hy : z ≤ y := by
        rcases List.mem_cons.mp (List.mem_of_getElem? hi) with rfl | hy
        · exact Nat.le_refl y
        · exact (hz y hy).le
      omega

theorem eq_below (hxs : xs.Pairwise (· < ·)) (hi : xs[i]? = some x) : i = below x xs := by
  have hle : below x xs ≤ i := Nat.le_of_not_lt fun h => Nat.lt_irrefl x ((lt_below_iff hxs hi).mp h)
  refine (Nat.eq_or_lt_of_le hle).elim Eq.symm fun hlt => ?_
  obtain ⟨hi', hx⟩ := List.getElem?_eq_some_iff.mp hi
  have hless := List.pairwise_iff_getElem.mp hxs (below x xs) i (by omega) hi' hlt
  exact absurd ((lt_below_iff hxs (List.getElem?_eq_getElem _)).mpr (hx ▸ hless)) (Nat.lt_irrefl _)

theorem below_eq_zero (h : ∀ y ∈ xs, x ≤ y) : below x xs = 0 := by
  cases xs with
  | nil => rfl
  | cons y xs => exact below_cons_of_le (h y List.mem_cons_self)

/-- The numbers up to `x` are those below it, and `x` itself if it is there. -/
theorem below_succ (hxs : xs.Pairwise (· < ·)) :
    below (x + 1) xs = below x xs + if xs[below x xs]? = some x then 1 else 0 := by
  induction xs with
  | nil => rfl
  | cons y xs ih =>
    obtain ⟨hy, hxs⟩ := List.pairwise_cons.mp hxs
    rcases Nat.lt_trichotomy y x with hlt | rfl | hgt
    · rw [below_cons_of_lt (Nat.lt_succ_of_lt hlt), below_cons_of_lt hlt, ih hxs, List.getElem?_cons_succ]
      omega
    · rw [below_cons_of_lt (Nat.lt_succ_self y), below_cons_of_le (Nat.le_refl y), below_eq_zero hy]
      simp
    · rw [below_cons_of_le hgt, below_cons_of_le hgt.le]
      simp [hgt.ne']

end Increasing

namespace Search

variable {xs : List Nat} {x left right steps : Nat}

/-- Halving finds what going through the list finds, for a window in which what is below the number ends
and at whose end the number is not. -/
theorem rank_eq (hxs : xs.Pairwise (· < ·)) (hleft : left ≤ below x xs) (hright : below x xs ≤ right)
    (hlength : right ≤ xs.length) (hend : xs[right]? ≠ some x) (hsteps : right - left < steps) :
    rank steps xs x left right =
      pure (if xs[below x xs]? = some x then .found (below x xs) else .absent (below x xs)) := by
  induction steps generalizing left right with
  | zero => exact absurd hsteps (Nat.not_lt_zero _)
  | succ steps ih =>
    rw [rank]
    split
    next hwindow =>
      have hmid : left + (right - left) / 2 < right := by omega
      have hle : left ≤ left + (right - left) / 2 := Nat.le_add_right _ _
      generalize left + (right - left) / 2 = mid at hmid hle
      obtain ⟨y, hy⟩ : ∃ y, xs[mid]? = some y := ⟨_, List.getElem?_eq_getElem (by omega)⟩
      have hside := lt_below_iff hxs (x := x) hy
      simp only [hy, orFault, pure_bind, beq_iff_eq]
      split
      next heq =>
        subst heq
        rw [← eq_below hxs hy, if_pos hy]
      next hne =>
        split
        next hlt => exact ih (hside.mpr hlt) hright hlength hend (by omega)
        next hge =>
          have hstop : below x xs ≤ mid := Nat.le_of_not_lt fun h => hge (hside.mp h)
          have hmid' : xs[mid]? ≠ some x := by rwa [hy, ne_eq, Option.some.injEq]
          exact ih hleft hstop (by omega) hmid' (by omega)
    next hempty =>
      have hplace : left = below x xs := by omega
      have hat : right = below x xs := by omega
      rw [hat] at hend
      rw [if_neg hend, hplace]

variable {cs : List Char} {offset pos line start : Nat}

theorem newline_mem_encode {c : Char} : newline ∈ String.utf8EncodeChar c ↔ c = '\n' := by
  constructor
  · intro h
    have hmark := mark_eq (m := '\n') (by decide) h
    exact beq_iff_eq.mp (hmark ▸ rfl)
  · rintro rfl
    decide

theorem bytes_newline (cs : List Char) : bytes ('\n' :: cs) = newline :: bytes cs :=
  bytes_cons '\n' cs

theorem idxsOf_encode {c : Char} (h : c ≠ '\n') (k s : Nat) :
    ((String.utf8EncodeChar c).take k).idxsOf newline s = [] := by
  rw [List.idxsOf_eq_nil_iff]
  intro b hb
  rw [beq_eq_false_iff_ne]
  rintro rfl
  exact h (newline_mem_encode.mp (List.mem_of_mem_take hb))

theorem startsBehind_eq (pos : Nat) (cs : List Char) :
    startsBehind pos cs = (bytes cs).idxsOf newline (pos + 1) := by
  induction cs generalizing pos with
  | nil => rfl
  | cons c cs ih =>
    rw [startsBehind]
    split
    next h =>
      obtain rfl := beq_iff_eq.mp h
      rw [bytes_newline, List.idxsOf_cons, if_pos (beq_self_eq_true newline), ih]
    next h =>
      have hnone := idxsOf_encode (mt beq_iff_eq.mpr h) c.utf8Size (pos + 1)
      rw [List.take_of_length_le (String.length_utf8EncodeChar c).le] at hnone
      rw [bytes_cons, List.idxsOf_append, hnone, List.nil_append, String.length_utf8EncodeChar, ih,
        Nat.add_right_comm]

/-- The lines that start behind `pos`, where a text starts, up to an offset. -/
def started (pos offset : Nat) (cs : List Char) : List Nat :=
  ((bytes cs).take (offset - pos)).idxsOf newline (pos + 1)

/-- The start of the line that an offset is on. -/
def lastStart (offset : Nat) (cs : List Char) : Nat :=
  (started 0 offset cs).getLastD 0

theorem count_newline (offset : Nat) (cs : List Char) :
    ((bytes cs).take offset).count newline = (started 0 offset cs).length :=
  List.length_idxsOf.symm

theorem started_of_le (h : offset ≤ pos) (cs : List Char) : started pos offset cs = [] := by
  rw [started, Nat.sub_eq_zero_of_le h]
  rfl

theorem started_newline (h : pos < offset) (cs : List Char) :
    started pos offset ('\n' :: cs) = (pos + 1) :: started (pos + 1) offset cs := by
  have hnext : offset - pos = offset - (pos + 1) + 1 := by omega
  rw [started, bytes_newline, hnext, List.take_succ_cons, List.idxsOf_cons,
    if_pos (beq_self_eq_true newline)]
  rfl

theorem started_other {c : Char} (h : c ≠ '\n') (cs : List Char) :
    started pos offset (c :: cs) = started (pos + c.utf8Size) offset cs := by
  rcases Nat.le_total (pos + c.utf8Size) offset with hle | hle
  · have hwhole : (String.utf8EncodeChar c).take (offset - pos) = String.utf8EncodeChar c :=
      List.take_of_length_le (by rw [String.length_utf8EncodeChar]; omega)
    rw [started, bytes_cons, List.take_append, List.idxsOf_append, idxsOf_encode h, List.nil_append,
      hwhole, String.length_utf8EncodeChar, started, Nat.sub_sub, Nat.add_right_comm]
  · rw [started_of_le hle, started, bytes_cons,
      List.take_append_of_le_length (by rw [String.length_utf8EncodeChar]; omega), idxsOf_encode h]

/-- Going through a text counts the lines that start up to an offset, and ends at the last of them. -/
theorem lineAt_eq (offset pos line start : Nat) (cs : List Char) :
    SourceMap.lineAt offset pos line start cs =
      (line + (started pos offset cs).length, (started pos offset cs).getLastD start) := by
  induction cs generalizing pos line start with
  | nil => simp [SourceMap.lineAt, started, bytes]
  | cons c cs ih =>
    rw [SourceMap.lineAt]
    split
    next h =>
      simp only [Bool.and_eq_true, decide_eq_true_eq, beq_iff_eq] at h
      obtain ⟨hpos, rfl⟩ := h
      rw [ih, started_newline hpos, List.length_cons, List.getLastD_cons, Nat.add_right_comm, Nat.add_assoc]
    next h =>
      have hskip : started pos offset (c :: cs) = started (pos + c.utf8Size) offset cs := by
        by_cases hc : c = '\n'
        · have hpos : offset ≤ pos := by
            simp only [hc, beq_self_eq_true, Bool.and_true, decide_eq_true_eq] at h
            omega
          rw [started_of_le hpos, started_of_le (Nat.le_add_right_of_le hpos)]
        · exact started_other hc cs
      rw [ih, hskip]

/-- The table begins with the lines that start up to an offset, and those are its entries up to the offset. -/
theorem lineStarts_split (offset : Nat) (cs : List Char) :
    ∃ later, lineStarts cs = 0 :: started 0 offset cs ++ later ∧
      (∀ s ∈ 0 :: started 0 offset cs, s ≤ offset) ∧ ∀ s ∈ later, offset < s := by
  refine ⟨((bytes cs).drop offset).idxsOf newline (1 + ((bytes cs).take offset).length), ?_, ?_, ?_⟩
  · rw [lineStarts, startsBehind_eq, started, List.cons_append, Nat.sub_zero, Nat.zero_add,
      ← List.idxsOf_append, List.take_append_drop]
  · intro s hs
    rcases List.mem_cons.mp hs with rfl | hs
    · exact Nat.zero_le offset
    · have hlt := List.lt_add_of_mem_idxsOf s hs
      rw [List.length_take] at hlt
      omega
  · intro s hs
    obtain ⟨hge, hlt, -⟩ := List.mem_idxsOf_iff_getElem_sub_pos.mp hs
    rw [List.length_drop] at hlt
    rw [List.length_take] at hge
    omega

theorem lineStarts_increasing (cs : List Char) : (lineStarts cs).Pairwise (· < ·) := by
  rw [lineStarts, startsBehind_eq, List.pairwise_cons]
  exact ⟨fun s hs => List.ge_of_mem_idxsOf s hs, List.pairwise_idxsOf⟩

theorem below_lineStarts (offset : Nat) (cs : List Char) :
    below (offset + 1) (lineStarts cs) = (started 0 offset cs).length + 1 := by
  obtain ⟨later, hsplit, hbefore, hlater⟩ := lineStarts_split offset cs
  have hall : ∀ s ∈ 0 :: started 0 offset cs, decide (s < offset + 1) = true :=
    fun s hs => decide_eq_true (Nat.lt_succ_of_le (hbefore s hs))
  have hnone : below (offset + 1) later = 0 := below_eq_zero hlater
  rw [below] at hnone
  rw [hsplit, below, List.takeWhile_append_of_pos hall, List.length_append, hnone]
  rfl

/-- The line of an offset is found without a fault: it is the last that starts up to the offset. -/
theorem lineIndex_eq (offset : Nat) (cs : List Char) (more : Nat) :
    lineIndex ((lineStarts cs).length + 1 + more) (lineStarts cs) offset =
      pure (started 0 offset cs).length := by
  have hcount := below_succ (x := offset) (lineStarts_increasing cs)
  rw [below_lineStarts] at hcount
  rw [lineIndex, rank_eq (lineStarts_increasing cs) (Nat.zero_le _) (below_le_length _ _) (Nat.le_refl _)
    (by simp) (by omega), pure_bind]
  split at hcount
  next hfound =>
    rw [if_pos hfound]
    exact congrArg pure (Nat.succ.inj hcount).symm
  next habsent =>
    rw [if_neg habsent]
    dsimp only
    rw [← Nat.add_zero (below _ _), ← hcount, minus_succ]

theorem lineStarts_last (offset : Nat) (cs : List Char) :
    (lineStarts cs)[(started 0 offset cs).length]? = some (lastStart offset cs) := by
  obtain ⟨later, hsplit, -, -⟩ := lineStarts_split offset cs
  have hlast := List.getLast?_eq_getElem? (l := 0 :: started 0 offset cs)
  rw [List.getLast?_cons, List.length_cons, Nat.add_sub_cancel] at hlast
  rw [hsplit, List.getElem?_append_left (Nat.lt_succ_self _), ← hlast, lastStart, List.getLastD_eq_getLast?]

theorem started_prefix {a b : Nat} (h : a ≤ b) (cs : List Char) : started 0 a cs <+: started 0 b cs := by
  have htake : ((bytes cs).take b).take a = (bytes cs).take a := by rw [List.take_take, Nat.min_eq_left h]
  rw [started, started, Nat.sub_zero, Nat.sub_zero, ← htake, List.idxsOf_take]
  exact List.take_prefix _ _

/-- A line starts at the front of a text and behind each newline. -/
def StartsLine (text : String) (s : Nat) : Prop :=
  s = 0 ∨ ∃ i, s = i + 1 ∧ (bytes text.toList)[i]? = some newline

theorem startsLine_iff {text : String} {s : Nat} : StartsLine text s ↔ s ∈ lineStarts text.toList := by
  rw [lineStarts, startsBehind_eq, List.mem_cons, List.mem_idxsOf_iff_getElem_sub_pos]
  refine or_congr_right ⟨?_, ?_⟩
  · rintro ⟨i, rfl, hi⟩
    obtain ⟨hlt, hbyte⟩ := List.getElem?_eq_some_iff.mp hi
    exact ⟨Nat.le_add_left _ _, by simpa using hlt, by simpa using hbyte⟩
  · rintro ⟨hpos, hlt, hbyte⟩
    exact ⟨s - 1, by omega, List.getElem?_eq_some_iff.mpr ⟨hlt, beq_iff_eq.mp hbyte⟩⟩

/-- No line starts between the last start and the offset. -/
theorem isGreatest_lastStart (text : String) (offset : Nat) :
    IsGreatest {s | StartsLine text s ∧ s ≤ offset} (lastStart offset text.toList) := by
  have hlast := lineStarts_last offset text.toList
  have hincreasing := lineStarts_increasing text.toList
  have hupTo : ∀ {i s : Nat}, (lineStarts text.toList)[i]? = some s →
      (i ≤ (started 0 offset text.toList).length ↔ s ≤ offset) := by
    intro i s hi
    rw [← Nat.lt_succ_iff, Nat.succ_eq_add_one, ← below_lineStarts, lt_below_iff hincreasing hi, Nat.lt_succ_iff]
  refine ⟨⟨startsLine_iff.mpr (List.mem_of_getElem? hlast), (hupTo hlast).mp (Nat.le_refl _)⟩, ?_⟩
  rintro s ⟨hs, hle⟩
  obtain ⟨i, hi⟩ := List.mem_iff_getElem?.mp (startsLine_iff.mp hs)
  rcases Nat.eq_or_lt_of_le ((hupTo hi).mpr hle) with rfl | hlt
  · exact (Option.some.inj (hi.symm.trans hlast)).le
  · obtain ⟨hi', rfl⟩ := List.getElem?_eq_some_iff.mp hi
    obtain ⟨hlast', hvalue⟩ := List.getElem?_eq_some_iff.mp hlast
    exact hvalue ▸ (List.pairwise_iff_getElem.mp hincreasing _ _ hi' hlast' hlt).le

end Search

namespace SourceMap

open Search (bytes count_newline isGreatest_lastStart lastStart lineAt_eq lineIndex_eq lineStarts
  lineStarts_last minus newline started_prefix StartsLine)

variable {m : SourceMap} {file text : String} {offset start a b : Nat} {l k : Location}

/-- The place of an offset on the line that starts at `start`: the newlines before the offset and the bytes
from the start on, counted from one. -/
def placed (file text : String) (offset start : Nat) : Location :=
  ⟨file, 1 + ((bytes text.toList).take offset).count newline, 1 + (offset - start), offset⟩

theorem location?_eq (htext : m.text? file = some text) (hle : offset ≤ text.utf8ByteSize) :
    m.location? file offset = some (placed file text offset (lastStart offset text.toList)) := by
  rw [location?, htext]
  dsimp only
  rw [if_pos hle, lineAt_eq, placed, count_newline, lastStart, Nat.add_comm (_ - _) 1]

theorem location?_past (htext : m.text? file = some text) (hlt : text.utf8ByteSize < offset) :
    m.location? file offset = none := by
  rw [location?, htext]
  exact if_neg (Nat.not_le.mpr hlt)

theorem locate_past (htext : m.text? file = some text) (hlt : text.utf8ByteSize < offset) (steps : Nat) :
    m.locate steps file offset = pure none := by
  rw [locate, htext]
  exact if_pos hlt

theorem locate_eq (htext : m.text? file = some text) (hle : offset ≤ text.utf8ByteSize) (more : Nat) :
    m.locate ((lineStarts text.toList).length + 1 + more) file offset =
      pure ((m.location? file offset).map Location.narrowed) := by
  have hbefore : lastStart offset text.toList ≤ offset := (isGreatest_lastStart text offset).1.2
  rw [location?_eq htext hle, locate, htext]
  dsimp only
  rw [if_neg (Nat.not_lt.mpr hle), lineIndex_eq, pure_bind, lineStarts_last, Search.orFault, pure_bind, minus,
    if_pos hbefore, pure_bind, Nat.mod_add_mod, Option.map_some, Location.narrowed, placed, count_newline,
    Nat.add_comm _ 1, Nat.add_comm _ 1]

theorem location?_eq_some_iff (htext : m.text? file = some text) : m.location? file offset = some l ↔
    offset ≤ text.utf8ByteSize ∧ placed file text offset (lastStart offset text.toList) = l := by
  rcases Nat.lt_or_ge text.utf8ByteSize offset with hlt | hle
  · simp [location?_past htext hlt, Nat.not_le.mpr hlt]
  · simp [location?_eq htext hle, hle]

/-- A later place is on a later line, or behind on the same line. -/
theorem location?_lt (htext : m.text? file = some text) (ha : m.location? file a = some l)
    (hb : m.location? file b = some k) (hlt : a < b) : toLex (l.line, l.column) < toLex (k.line, k.column) := by
  obtain ⟨-, rfl⟩ := (location?_eq_some_iff htext).mp ha
  obtain ⟨-, rfl⟩ := (location?_eq_some_iff htext).mp hb
  have hprefix := started_prefix hlt.le text.toList
  have hbefore : lastStart a text.toList ≤ a := (isGreatest_lastStart text a).1.2
  rw [Prod.Lex.toLex_lt_toLex]
  simp only [placed, count_newline]
  -- Either a line starts between the two offsets, or both are counted from one start.
  rcases Nat.eq_or_lt_of_le hprefix.length_le with hsame | hless
  · have hstart : lastStart a text.toList = lastStart b text.toList := by
      rw [lastStart, lastStart, hprefix.eq_of_length hsame]
    right
    omega
  · left
    omega

/-- Every offset of a text up to its length has one place, and no other offset has one: its line is one more
than the newlines before it, and its column one more than its distance from the last start of a line. The
search in the table of lines comes to an end without a fault, in no more steps than there are lines, and one,
and gives that place where its line and column fit 32 bits. The order of places is that of offsets. -/
theorem locations_exact (htext : m.text? file = some text) :
    (∀ offset ≤ text.utf8ByteSize, ∃ start, IsGreatest {s | StartsLine text s ∧ s ≤ offset} start ∧
      let l := placed file text offset start
      m.location? file offset = some l ∧
        (∀ more, (m.locate ((lineStarts text.toList).length + 1 + more) file offset).run =
          some (.ok (some l.narrowed))) ∧
        (l.line < limit32 → l.column < limit32 → l.narrowed = l)) ∧
    (∀ offset, text.utf8ByteSize < offset → m.location? file offset = none ∧
      ∀ steps, (m.locate steps file offset).run = some (.ok none)) ∧
    ∀ a b l k, m.location? file a = some l → m.location? file b = some k →
      (toLex (l.line, l.column) < toLex (k.line, k.column) ↔ a < b) := by
  refine ⟨fun offset hle => ?_, fun offset hlt => ?_, fun a b l k ha hb => ?_⟩
  · have hplace := location?_eq htext hle
    refine ⟨_, isGreatest_lastStart text offset, hplace, fun more => ?_, Location.narrowed_eq⟩
    rw [locate_eq htext hle, hplace]
    rfl
  · refine ⟨location?_past htext hlt, fun steps => ?_⟩
    rw [locate_past htext hlt]
    rfl
  · refine ⟨fun hless => ?_, location?_lt htext ha hb⟩
    rcases Nat.lt_trichotomy a b with hlt | rfl | hgt
    · exact hlt
    · cases ha.symm.trans hb
      exact absurd hless (lt_irrefl _)
    · exact absurd (location?_lt htext hb ha hgt) (lt_asymm hless)

/-- Two lines, with a declaration on each. -/
def twoLines : SourceMap :=
  ({} : SourceMap).insert "a.h" "int a;\nint b;\n"

theorem twoLines_located :
    twoLines.text? "a.h" = some "int a;\nint b;\n" ∧
      twoLines.location? "a.h" 11 = some ⟨"a.h", 2, 5, 11⟩ ∧
      (∀ more, (twoLines.locate (4 + more) "a.h" 11).run = some (.ok (some ⟨"a.h", 2, 5, 11⟩))) ∧
      twoLines.location? "a.h" 14 = some ⟨"a.h", 3, 1, 14⟩ ∧ twoLines.location? "a.h" 15 = none := by
  have htext : twoLines.text? "a.h" = some "int a;\nint b;\n" := by decide
  have hname : twoLines.location? "a.h" 11 = some ⟨"a.h", 2, 5, 11⟩ := by decide
  obtain ⟨hplaces, hpast, -⟩ := locations_exact htext
  obtain ⟨start, -, hplace, hlocate, hfits⟩ := hplaces 11 (by decide)
  have hl := Option.some.inj (hplace.symm.trans hname)
  simp only [hl] at hlocate hfits
  rw [hfits (by decide) (by decide)] at hlocate
  exact ⟨htext, hname, hlocate, by decide, (hpast 15 (by decide)).1⟩

end SourceMap

end Bindery
