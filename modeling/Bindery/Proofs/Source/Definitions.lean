import Bindery.Source.Definitions

/-! Where the constants found in a text are written. -/

namespace Bindery

theorem byteLength_reverse (cs : List Char) : byteLength cs.reverse = byteLength cs := by
  induction cs with
  | nil => rfl
  | cons c cs ih => simp [byteLength_append, byteLength, ih, Nat.add_comm]

namespace Definition

variable {d : Definition} {offset : Nat}

/-- The text holds a hash sign, `define`, blanks and the name of the constant, at the offsets given
with it. -/
def WrittenIn (d : Definition) (text : List Char) : Prop :=
  ∃ before gap blanks after, (∀ c ∈ gap ++ blanks, isMargin c) ∧
    text = (before ++ '#' :: gap ++ "define".toList ++ blanks) ++ d.name.toList ++ after ∧
    d.start = byteLength before ∧
    d.nameOffset = byteLength (before ++ '#' :: gap ++ "define".toList ++ blanks)

theorem byteLength_margin {cs : List Char} (h : ∀ c ∈ cs, isMargin c) :
    byteLength cs = cs.length := by
  induction cs with
  | nil => rfl
  | cons c cs ih =>
    have hc : c.utf8Size = 1 := by
      have hmargin : c = ' ' ∨ c = '\t' := by simpa [isMargin] using h c (.head _)
      rcases hmargin with rfl | rfl <;> rfl
    rw [byteLength, ih fun c hc => h c (.tail _ hc), hc, List.length_cons, Nat.add_comm]

theorem margin_takeWhile (cs : List Char) : ∀ c ∈ cs.takeWhile isMargin, isMargin c :=
  fun _ hc => List.all_eq_true.mp List.all_takeWhile _ hc

/-- The constant of a line is written in any text that holds the line at its offset. -/
theorem ofLine_written {line : List Char} (h : ofLine offset line = some d)
    {before : List Char} (hoffset : offset = byteLength before) (after : List Char) :
    d.WrittenIn (before ++ line ++ after) := by
  unfold ofLine at h
  dsimp only at h
  split at h
  · next rest hrest =>
    split at h
    · next hword =>
      split at h
      · cases h
      · simp only [Option.map_eq_some_iff] at h
        obtain ⟨value, -, rfl⟩ := h
        obtain ⟨tail, htail⟩ := List.isPrefixOf_iff_prefix.mp hword
        have hline : line = line.takeWhile isMargin ++ '#' :: rest := by
          rw [← hrest, List.takeWhile_append_dropWhile]
        have hgap : rest = rest.takeWhile isMargin ++ ("define".toList ++ tail) := by
          rw [htail, List.takeWhile_append_dropWhile]
        have hdrop : (rest.dropWhile isMargin).drop 6 = tail := by rw [← htail]; rfl
        simp only [hdrop]
        have hmargin := byteLength_margin (margin_takeWhile line)
        have hbefore := byteLength_margin (margin_takeWhile rest)
        have hblanks := byteLength_margin (margin_takeWhile tail)
        have hdefine : byteLength "define".toList = 6 := by decide
        have hhash : '#'.utf8Size = 1 := rfl
        refine ⟨before ++ line.takeWhile isMargin, rest.takeWhile isMargin, tail.takeWhile isMargin,
          (tail.dropWhile isMargin).dropWhile isWordCharacter ++ after, ?_, ?_, ?_, ?_⟩
        · intro c hc
          exact (List.mem_append.mp hc).elim (margin_takeWhile rest c) (margin_takeWhile tail c)
        · calc before ++ line ++ after
              = before ++ (line.takeWhile isMargin ++ '#' :: (rest.takeWhile isMargin ++
                  ("define".toList ++ tail))) ++ after := by rw [← hgap, ← hline]
            _ = before ++ (line.takeWhile isMargin ++ '#' :: (rest.takeWhile isMargin ++
                  ("define".toList ++ (tail.takeWhile isMargin ++
                    ((tail.dropWhile isMargin).takeWhile isWordCharacter ++
                      (tail.dropWhile isMargin).dropWhile isWordCharacter))))) ++ after := by
                rw [List.takeWhile_append_dropWhile, List.takeWhile_append_dropWhile]
            _ = _ := by simp only [List.append_assoc, List.cons_append, String.toList_ofList]
        · simp [byteLength_append, hmargin, hoffset]
        · simp only [byteLength_append, byteLength, hmargin, hbefore, hblanks, hdefine, hhash, hoffset]
          omega
    · cases h
  · cases h

theorem scanLines_written {line : List Char} {cs : List Char} (hd : d ∈ scanLines offset line cs)
    {before : List Char} (hoffset : offset = byteLength before) :
    d.WrittenIn (before ++ line.reverse ++ cs) := by
  induction cs generalizing offset line before with
  | nil => exact ofLine_written (by simpa [scanLines] using hd) hoffset []
  | cons c cs ih =>
    rw [scanLines] at hd
    split at hd
    · next hnewline =>
      obtain rfl : c = '\n' := by simpa using hnewline
      rcases List.mem_append.mp hd with hhere | hlater
      · exact ofLine_written (by simpa using hhere) hoffset _
      · have hnext : offset + byteLength line + 1 = byteLength (before ++ line.reverse ++ ['\n']) := by
          simp only [byteLength_append, byteLength_reverse, byteLength, hoffset]
          rfl
        simpa using ih hlater hnext
    · simpa using ih hd hoffset

theorem scan_written {text : String} (hd : d ∈ scan text) : d.WrittenIn text.toList :=
  scanLines_written hd (show 0 = byteLength [] from rfl)

end Definition

end Bindery
