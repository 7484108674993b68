import Bindery.Dump.Unit

/-! Positions whose file and line were left out. Each gets them back from those printed before it. -/

namespace Bindery

variable {α : Type} {key : String} {j v : Json} {printed printed' : List Json} {c : Cursor}

/-- What is read from the last of the positions from which it can be read. -/
def lastRead (read : Json → Option α) (printed : List Json) : Option α :=
  printed.reverse.findSome? read

theorem lastRead_append (read : Json → Option α) (printed printed' : List Json) :
    lastRead read (printed ++ printed') = (lastRead read printed').or (lastRead read printed) := by
  simp [lastRead, List.findSome?_append]

namespace Json

def file? (j : Json) : Option String :=
  (j.get? "file").bind str?

def line? (j : Json) : Option Nat :=
  (j.get? "line").bind nat?

/-- The positions printed for a place, in their order. -/
def printedAt (place : Option Json) : List Json :=
  match place.filter isObject with
  | none => []
  | some j =>
    if (j.get? "spellingLoc").isSome || (j.get? "expansionLoc").isSome then
      (j.get? "spellingLoc").toList ++ (j.get? "expansionLoc").toList
    else [j]

/-- The positions printed for a node itself: its place, then the start and the end of its range. -/
def ownPositions (j : Json) : List Json :=
  let range := j.get? "range"
  printedAt (j.get? "loc") ++ printedAt (range.bind (·.get? "begin")) ++
    printedAt (range.bind (·.get? "end"))

mutual

/-- The positions of a node and of the nodes inside, in the order in which they are printed. -/
def positions (j : Json) : List Json :=
  j.ownPositions ++ positionsOf j.inner
termination_by (sizeOf j, 1)
decreasing_by
  rcases Nat.lt_or_eq_of_le (sizeOf_inner_le j) with h | h
  · exact Prod.Lex.left _ _ h
  · rw [h]; exact Prod.Lex.right _ (by omega)

def positionsOf (js : List Json) : List Json :=
  match js with
  | [] => []
  | j :: js => positions j ++ positionsOf js
termination_by (sizeOf js, 0)
decreasing_by all_goals simp only [List.cons.sizeOf_spec]; exact Prod.Lex.left _ _ (by omega)

end

def mapFields (f : String → Json → Json) : Json → Json
  | .obj fields => .obj (fields.map fun p => (p.1, f p.1 p.2))
  | j => j

/-- A position with the field `key`. Where it has none, it gets the value that was printed last. -/
def completed (key : String) (printed : List Json) : Json → Json
  | .obj fields =>
    if ((obj fields).get? key).isSome then .obj fields
    else .obj (fields ++ ((lastRead (·.get? key) printed).map (key, ·)).toList)
  | j => j

/-- A position with its file and its line, when `printed` are the positions before it. -/
def filled (printed : List Json) (j : Json) : Json :=
  completed "line" printed (completed "file" printed j)

def filledPlace (printed : List Json) (j : Json) : Json :=
  if (j.get? "spellingLoc").isSome || (j.get? "expansionLoc").isSome then
    j.mapFields fun key p =>
      if key == "spellingLoc" then filled printed p
      else if key == "expansionLoc" then filled (printed ++ (j.get? "spellingLoc").toList) p
      else p
  else filled printed j

def filledRange (printed : List Json) (j : Json) : Json :=
  j.mapFields fun key p =>
    if key == "begin" then filledPlace printed p
    else if key == "end" then filledPlace (printed ++ printedAt (j.get? "begin")) p
    else p

/-- The field of a node with the positions in it filled, those of the nodes inside apart. -/
def filledField (printed : List Json) (j : Json) (key : String) (v : Json) : Json :=
  if key == "loc" then filledPlace printed v
  else if key == "range" then filledRange (printed ++ printedAt (j.get? "loc")) v
  else v

def withItems (items : List Json) : Json → Json
  | .arr _ => .arr items
  | j => j

/-- A node with other nodes inside. -/
def withInner (items : List Json) (j : Json) : Json :=
  j.mapFields fun key v => if key == "inner" then v.withItems items else v

mutual

/-- A node in which every position has its file and its line, when `printed` are the positions before
the node. -/
def explicit (printed : List Json) (j : Json) : Json :=
  (j.mapFields (filledField printed j)).withInner
    (explicitEach (printed ++ j.ownPositions) j.inner)
termination_by (sizeOf j, 1)
decreasing_by
  rcases Nat.lt_or_eq_of_le (sizeOf_inner_le j) with h | h
  · exact Prod.Lex.left _ _ h
  · rw [h]; exact Prod.Lex.right _ (by omega)

def explicitEach (printed : List Json) (js : List Json) : List Json :=
  match js with
  | [] => []
  | j :: js => explicit printed j :: explicitEach (printed ++ j.positions) js
termination_by (sizeOf js, 0)
decreasing_by all_goals simp only [List.cons.sizeOf_spec]; exact Prod.Lex.left _ _ (by omega)

end

/-- The node at a path of indices, with the positions printed before it. -/
def atPath (printed : List Json) (j : Json) : List Nat → Option (List Json × Json)
  | [] => some (printed, j)
  | i :: path => j.inner[i]?.bind fun k =>
    atPath (printed ++ j.ownPositions ++ positionsOf (j.inner.take i)) k path

theorem get?_mapFields (f : String → Json → Json) (j : Json) (key : String) :
    (j.mapFields f).get? key = (j.get? key).map (f key) := by
  cases j with
  | obj fields =>
    rw [mapFields, get?, get?, ← List.map_reverse, List.find?_map, Option.map_map, Option.map_map]
    refine Option.map_congr fun p hp => ?_
    have hkey := List.find?_some hp
    simp only [Function.comp_apply, beq_iff_eq] at hkey
    simp [hkey]
  | _ => rfl

theorem isObject_mapFields (f : String → Json → Json) (j : Json) :
    (j.mapFields f).isObject = j.isObject := by
  cases j <;> rfl

theorem get?_completed_self (hj : j.isObject) :
    (completed key printed j).get? key = (j.get? key).or (lastRead (·.get? key) printed) := by
  cases j with
  | obj fields =>
    rw [completed]
    split
    next h => rw [Option.or_of_isSome h]
    next h =>
      have hnone : (obj fields).get? key = none := by simpa using h
      have hfields : ∀ p ∈ fields.reverse, ¬ (p.1 == key) = true := by
        simpa [get?] using hnone
      rw [hnone, Option.none_or, get?, List.reverse_append, List.find?_append,
        List.find?_eq_none.mpr hfields, Option.or_none]
      cases lastRead (·.get? key) printed <;> simp
  | _ => cases hj

theorem get?_completed_of_ne {key' : String} (h : key' ≠ key) :
    (completed key printed j).get? key' = j.get? key' := by
  cases j with
  | obj fields =>
    rw [completed]
    split
    next => rfl
    next =>
      rw [get?, get?, List.reverse_append, List.find?_append]
      cases lastRead (·.get? key) printed <;> simp [Ne.symm h]
  | _ => rfl

theorem completed_of_not_isObject (h : ¬ j.isObject) : completed key printed j = j := by
  cases j with
  | obj => exact absurd rfl h
  | _ => rfl

theorem isObject_completed : (completed key printed j).isObject = j.isObject := by
  cases j with
  | obj fields =>
    rw [completed]
    split <;> rfl
  | _ => rfl

theorem get?_filled (printed : List Json) (j : Json) {key : String} (hfile : key ≠ "file")
    (hline : key ≠ "line") : (filled printed j).get? key = j.get? key := by
  rw [filled, get?_completed_of_ne hline, get?_completed_of_ne hfile]

theorem get?_filled_file (printed : List Json) (hj : j.isObject) :
    (filled printed j).get? "file" = (j.get? "file").or (lastRead (·.get? "file") printed) := by
  rw [filled, get?_completed_of_ne (by decide), get?_completed_self hj]

theorem get?_filled_line (printed : List Json) (hj : j.isObject) :
    (filled printed j).get? "line" = (j.get? "line").or (lastRead (·.get? "line") printed) := by
  rw [filled, get?_completed_self (by rwa [isObject_completed]), get?_completed_of_ne (by decide)]

theorem filled_of_not_isObject (printed : List Json) (h : ¬ j.isObject) : filled printed j = j := by
  rw [filled, completed_of_not_isObject h, completed_of_not_isObject h]

theorem isObject_filled (printed : List Json) (j : Json) :
    (filled printed j).isObject = j.isObject := by
  rw [filled, isObject_completed, isObject_completed]

end Json

open Json (file? line? printedAt filled filledPlace filledRange positions positionsOf explicit
  explicitEach)

namespace Point

/-- What is printed for a position if nothing of it is left out. -/
def inFull (p : Point) : Json :=
  .obj [("offset", .int p.offset), ("file", .str p.file), ("line", .int p.line), ("col", .int p.column),
    ("tokLen", .int p.length)]

/-- The numbers of a position are read back as they are printed. -/
structure Fits (p : Point) : Prop where
  line : p.line < limit32
  column : p.column < limit32
  offset : p.offset < limit64
  length : p.length < limit64

theorem nat?_int {n : Nat} (h : n < limit64) : (Json.int n).nat? = some n := by
  simp [Json.nat?, Int.ofNat_lt.mpr h]

theorem get?_inFull {p : Point} {n : Nat} (h : p.inFull.get? key = some (.int n)) (hn : n < limit64) :
    (p.inFull.get? key).bind Json.nat? = some n := by
  rw [h, Option.bind_some, nat?_int hn]

theorem Fits.read {p : Point} (h : p.Fits) :
    line? p.inFull = some p.line ∧ (p.inFull.get? "col").bind Json.nat? = some p.column ∧
      (p.inFull.get? "offset").bind Json.nat? = some p.offset ∧
      (p.inFull.get? "tokLen").bind Json.nat? = some p.length := by
  have hwide : limit32 ≤ limit64 := by decide
  exact ⟨get?_inFull rfl (Nat.lt_of_lt_of_le h.line hwide),
    get?_inFull rfl (Nat.lt_of_lt_of_le h.column hwide), get?_inFull rfl h.offset,
    get?_inFull rfl h.length⟩

end Point

namespace Cursor

/-- A position has the file and the line that are printed for it, or else those of the position before, and
the column, the offset and the length that are printed. Without a file or an offset there is none. -/
theorem point_eq_some_iff {p : Point} : (c.point (some j)).1 = some p ↔
    (file? j).or c.file = some p.file ∧ (j.get? "offset").bind Json.nat? = some p.offset ∧
      ((line? j).map (· % limit32)).getD c.line = p.line ∧
      (((j.get? "col").bind Json.nat?).getD 0) % limit32 = p.column ∧
      ((j.get? "tokLen").bind Json.nat?).getD 0 = p.length := by
  obtain ⟨file, line, column, offset, length⟩ := p
  rw [point, file?, line?]
  dsimp only
  split
  next hfile hoffset => simp [hfile, hoffset, and_left_comm]
  next hnone => exact iff_of_false nofun fun ⟨hfile, hoffset, _⟩ => hnone _ _ hfile hoffset

/-- A position of which nothing is left out is read as it is, whatever was printed before it. -/
theorem point_inFull (c : Cursor) {p : Point} (h : p.Fits) : (c.point (some p.inFull)).1 = some p := by
  obtain ⟨hline, hcolumn, hoffset, hlength⟩ := h.read
  rw [point_eq_some_iff, hline, hcolumn, hoffset, hlength]
  refine ⟨rfl, rfl, Nat.mod_eq_of_lt h.line, Nat.mod_eq_of_lt h.column, rfl⟩

/-- Outside macros a text is spelled and written at one position. -/
theorem place_plain (c : Cursor) (hj : j.isObject) (hspelling : j.get? "spellingLoc" = none)
    (hexpansion : j.get? "expansionLoc" = none) :
    (c.place (some j)).1 = ⟨(c.point (some j)).1, (c.point (some j)).1⟩ := by
  have hobject : (some j).filter Json.isObject = some j := by simp [hj]
  simp [place, hobject, hspelling, hexpansion]

theorem place_inFull (c : Cursor) {p : Point} (h : p.Fits) :
    (c.place (some p.inFull)).1 = ⟨some p, some p⟩ := by
  rw [place_plain c rfl rfl rfl, point_inFull c h]

/-- The second place is in the file of the first one, two lines behind it. -/
example :
    let (first, c) := place {} (some (Point.inFull ⟨"a.h", 2, 5, 19, 4⟩))
    let (second, _) := c.place
      (some (.obj [("offset", .int 42), ("line", .int 4), ("col", .int 7), ("tokLen", .int 3)]))
    first.written = some ⟨"a.h", 2, 5, 19, 4⟩ ∧ second.written = some ⟨"a.h", 4, 7, 42, 3⟩ := by
  decide

/-- The file and the line that were printed last, if `c` was known before. -/
def after (c : Cursor) (printed : List Json) : Cursor :=
  ⟨(lastRead file? printed).or c.file, ((lastRead line? printed).map (· % limit32)).getD c.line⟩

theorem after_nil (c : Cursor) : c.after [] = c := rfl

theorem after_append (c : Cursor) (printed printed' : List Json) :
    c.after (printed ++ printed') = (c.after printed).after printed' := by
  simp only [after, lastRead_append, Option.or_assoc]
  cases lastRead line? printed' <;> rfl

theorem point_after (c : Cursor) (p : Option Json) : (c.point p).2 = c.after p.toList := by
  cases p with
  | none => rfl
  | some j => simp [point, after, lastRead, file?, line?]

/-- What was printed last may be no value of the right kind; then it is not read. -/
theorem lastRead_bind_or (read : Json → Option Json) (kind : Json → Option α) (printed : List Json) :
    ((lastRead read printed).bind kind).or (lastRead (fun j => (read j).bind kind) printed) =
      lastRead (fun j => (read j).bind kind) printed := by
  unfold lastRead
  induction printed.reverse with
  | nil => rfl
  | cons p ps ih =>
    rw [List.findSome?_cons, List.findSome?_cons]
    cases read p with
    | none => simpa using ih
    | some v => cases hv : kind v <;> simp [hv]

theorem file_filled (c : Cursor) (printed : List Json) {j : Json} (hj : j.isObject) :
    (file? (filled printed j)).or (c.after printed).file = (file? j).or (c.after printed).file := by
  have hlast := lastRead_bind_or (·.get? "file") Json.str? printed
  rw [file?, Json.get?_filled_file printed hj, file?]
  cases j.get? "file" with
  | some v => rw [Option.some_or]
  | none =>
    have hfile : (c.after printed).file = (lastRead file? printed).or c.file := rfl
    rw [Option.none_or, hfile, ← Option.or_assoc]
    exact congrArg (·.or c.file) hlast

theorem line_filled (c : Cursor) (printed : List Json) {j : Json} (hj : j.isObject) :
    ((line? (filled printed j)).map (· % limit32)).getD (c.after printed).line =
      ((line? j).map (· % limit32)).getD (c.after printed).line := by
  have hlast := lastRead_bind_or (·.get? "line") Json.nat? printed
  rw [line?, Json.get?_filled_line printed hj, line?]
  cases j.get? "line" with
  | some v => rw [Option.some_or]
  | none =>
    have hline : (c.after printed).line =
      ((lastRead line? printed).map (· % limit32)).getD c.line := rfl
    have hread : lastRead (fun j => (j.get? "line").bind Json.nat?) printed =
      lastRead line? printed := rfl
    rw [hread] at hlast
    rw [Option.none_or, hline]
    cases hprinted : (lastRead (·.get? "line") printed).bind Json.nat? with
    | none => rfl
    | some n =>
      rw [hprinted, Option.some_or] at hlast
      rw [← hlast]
      rfl

/-- A position is read as it is printed, without what it left out. -/
theorem point_filled (c : Cursor) (printed : List Json) (j : Json) :
    (c.after printed).point (some (filled printed j)) = (c.after printed).point (some j) := by
  by_cases hj : j.isObject
  · have hfile := file_filled c printed hj
    have hline := line_filled c printed hj
    unfold file? at hfile
    unfold line? at hline
    have hother : ∀ key ∈ ["col", "offset", "tokLen"], (filled printed j).get? key = j.get? key := by
      intro key hkey
      refine Json.get?_filled printed j ?_ ?_ <;> rintro rfl <;> exact absurd hkey (by decide)
    simp only [point, hfile, hline, hother "col" (by decide), hother "offset" (by decide),
      hother "tokLen" (by decide)]
  · rw [Json.filled_of_not_isObject printed hj]

theorem point_map_filled (c : Cursor) (printed : List Json) (p : Option Json) :
    (c.after printed).point (p.map (filled printed)) = (c.after printed).point p := by
  cases p with
  | none => rfl
  | some j => exact point_filled c printed j

theorem place_after (c : Cursor) (p : Option Json) : (c.place p).2 = c.after (printedAt p) := by
  unfold place printedAt
  cases p.filter Json.isObject with
  | none => rfl
  | some j =>
    dsimp only
    split
    next => rw [after_append, ← point_after, ← point_after]
    next => exact point_after c (some j)

end Cursor

namespace Json

theorem isObject_filledPlace (printed : List Json) (j : Json) :
    (filledPlace printed j).isObject = j.isObject := by
  unfold filledPlace
  split
  · exact isObject_mapFields _ j
  · exact isObject_filled printed j

/-- A split place stays one, and its two positions are filled in turn. -/
theorem get?_filledPlace (printed : List Json) (j : Json) :
    (filledPlace printed j).get? "spellingLoc" =
        (j.get? "spellingLoc").map (filled printed) ∧
      (filledPlace printed j).get? "expansionLoc" =
        (j.get? "expansionLoc").map (filled (printed ++ (j.get? "spellingLoc").toList)) := by
  unfold filledPlace
  split
  next => exact ⟨get?_mapFields _ j _, get?_mapFields _ j _⟩
  next h =>
    have hnone : j.get? "spellingLoc" = none ∧ j.get? "expansionLoc" = none := by simpa using h
    rw [get?_filled printed j (by decide) (by decide), get?_filled printed j (by decide) (by decide),
      hnone.1, hnone.2]
    exact ⟨rfl, rfl⟩

theorem isSplit_filledPlace (printed : List Json) (j : Json) :
    (((filledPlace printed j).get? "spellingLoc").isSome ||
        ((filledPlace printed j).get? "expansionLoc").isSome) =
      ((j.get? "spellingLoc").isSome || (j.get? "expansionLoc").isSome) := by
  rw [(get?_filledPlace printed j).1, (get?_filledPlace printed j).2, Option.isSome_map,
    Option.isSome_map]

theorem filter_isObject_map (f : Json → Json) (hf : ∀ j, (f j).isObject = j.isObject)
    (p : Option Json) : (p.map f).filter isObject = (p.filter isObject).map f := by
  cases p with
  | none => rfl
  | some j => simp only [Option.map_some, Option.filter_some, hf]; split <;> rfl

/-- Positions that are printed in turn, each with its file and its line. -/
def filledEach (printed : List Json) : List Json → List Json
  | [] => []
  | p :: ps => filled printed p :: filledEach (printed ++ [p]) ps

theorem filledEach_append (printed ps ps' : List Json) : filledEach printed (ps ++ ps') =
    filledEach printed ps ++ filledEach (printed ++ ps) ps' := by
  induction ps generalizing printed with
  | nil => simp [filledEach]
  | cons p ps ih => simp [filledEach, ih]

theorem filledEach_toList (printed : List Json) (p : Option Json) :
    filledEach printed p.toList = (p.map (filled printed)).toList := by
  cases p <;> rfl

theorem getElem?_filledEach (printed ps : List Json) (i : Nat) :
    (filledEach printed ps)[i]? = ps[i]?.map (filled (printed ++ ps.take i)) := by
  induction ps generalizing printed i with
  | nil => rfl
  | cons p ps ih => cases i <;> simp [filledEach, ih]

theorem printedAt_filledPlace (printed : List Json) (p : Option Json) :
    printedAt (p.map (filledPlace printed)) = filledEach printed (printedAt p) := by
  unfold printedAt
  rw [filter_isObject_map _ (isObject_filledPlace printed)]
  cases p.filter isObject with
  | none => rfl
  | some j =>
    have hsplit := isSplit_filledPlace printed j
    obtain ⟨hspelling, hexpansion⟩ := get?_filledPlace printed j
    dsimp only [Option.map_some]
    rw [hsplit, hspelling, hexpansion]
    split
    next => rw [filledEach_append, filledEach_toList, filledEach_toList]
    next h =>
      rw [filledPlace, if_neg h]
      rfl

end Json

namespace Cursor

theorem place_filled (c : Cursor) (printed : List Json) (p : Option Json) :
    (c.after printed).place (p.map (filledPlace printed)) = (c.after printed).place p := by
  unfold place
  rw [Json.filter_isObject_map _ (Json.isObject_filledPlace printed)]
  cases p.filter Json.isObject with
  | none => rfl
  | some j =>
    have hsplit := Json.isSplit_filledPlace printed j
    obtain ⟨hspelling, hexpansion⟩ := Json.get?_filledPlace printed j
    dsimp only [Option.map_some]
    rw [hsplit, hspelling, hexpansion]
    split
    next =>
      rw [point_map_filled, point_after, ← after_append, point_map_filled]
    next h =>
      rw [filledPlace, if_neg h, point_filled]

end Cursor

namespace Json

/-- The fields of a node that hold no positions are those of the dump. -/
theorem get?_explicit (printed : List Json) (j : Json) {key : String} (hloc : key ≠ "loc")
    (hrange : key ≠ "range") (hinner : key ≠ "inner") :
    (explicit printed j).get? key = j.get? key := by
  rw [explicit, withInner, get?_mapFields, get?_mapFields, Option.map_map]
  simp [Function.comp_def, filledField, hloc, hrange, hinner]

theorem get?_explicit_loc (printed : List Json) (j : Json) :
    (explicit printed j).get? "loc" = (j.get? "loc").map (filledPlace printed) := by
  rw [explicit, withInner, get?_mapFields, get?_mapFields, Option.map_map]
  rfl

theorem get?_explicit_range (printed : List Json) (j : Json) :
    (explicit printed j).get? "range" =
      (j.get? "range").map (filledRange (printed ++ printedAt (j.get? "loc"))) := by
  rw [explicit, withInner, get?_mapFields, get?_mapFields, Option.map_map]
  rfl

theorem inner_explicit (printed : List Json) (j : Json) :
    (explicit printed j).inner = explicitEach (printed ++ j.ownPositions) j.inner := by
  have hinner : (explicit printed j).get? "inner" =
      (j.get? "inner").map (withItems (explicitEach (printed ++ j.ownPositions) j.inner)) := by
    rw [explicit, withInner, get?_mapFields, get?_mapFields, Option.map_map]
    rfl
  rw [inner, hinner]
  cases h : j.get? "inner" with
  | none => simp [inner, h, explicitEach]
  | some v => cases v <;> simp [inner, h, explicitEach, withItems]

/-- The start of a range is filled from what is before the range, the end from the start too. -/
theorem get?_filledRange (printed : List Json) (range : Option Json) :
    (range.map (filledRange printed)).bind (·.get? "begin") =
        (range.bind (·.get? "begin")).map (filledPlace printed) ∧
      (range.map (filledRange printed)).bind (·.get? "end") =
        (range.bind (·.get? "end")).map
          (filledPlace (printed ++ printedAt (range.bind (·.get? "begin")))) := by
  cases range with
  | none => exact ⟨rfl, rfl⟩
  | some r => exact ⟨get?_mapFields _ r _, get?_mapFields _ r _⟩

theorem ownPositions_explicit (printed : List Json) (j : Json) :
    (explicit printed j).ownPositions = filledEach printed j.ownPositions := by
  obtain ⟨hbegin, hend⟩ := get?_filledRange (printed ++ printedAt (j.get? "loc")) (j.get? "range")
  unfold ownPositions
  dsimp only
  rw [get?_explicit_loc, get?_explicit_range, hbegin, hend, printedAt_filledPlace,
    printedAt_filledPlace, printedAt_filledPlace, filledEach_append, filledEach_append,
    List.append_assoc printed]

theorem sizeOf_lt_of_mem_inner {k : Json} (h : k ∈ j.inner) : sizeOf k < sizeOf j :=
  Nat.lt_of_lt_of_le (List.sizeOf_lt_of_mem h) (sizeOf_inner_le j)

/-- Induction along the nodes inside. -/
@[elab_as_elim]
theorem inner_induction {motive : Json → Prop} (node : ∀ j, (∀ k ∈ j.inner, motive k) → motive j)
    (j : Json) : motive j :=
  node j fun k _ => inner_induction node k
termination_by sizeOf j
decreasing_by exact sizeOf_lt_of_mem_inner ‹_›

theorem positionsOf_explicitEach {js : List Json}
    (h : ∀ j ∈ js, ∀ printed, (explicit printed j).positions = filledEach printed j.positions)
    (printed : List Json) :
    positionsOf (explicitEach printed js) = filledEach printed (positionsOf js) := by
  induction js generalizing printed with
  | nil => rw [explicitEach, positionsOf, filledEach]
  | cons j js ih =>
    obtain ⟨hj, hjs⟩ := List.forall_mem_cons.mp h
    rw [explicitEach, positionsOf, positionsOf, hj, ih hjs, filledEach_append]

/-- The positions of the explicit tree are those of the dump, each filled from those before it. -/
theorem positions_explicit (printed : List Json) (j : Json) :
    (explicit printed j).positions = filledEach printed j.positions := by
  induction j using inner_induction generalizing printed with
  | node j ih =>
    rw [positions, positions, ownPositions_explicit, inner_explicit, positionsOf_explicitEach ih,
      filledEach_append]

end Json

namespace Node

/-- The node at a path of indices. -/
def atPath (n : Node) : List Nat → Option Node
  | [] => some n
  | i :: path => n.children[i]?.bind (·.atPath path)

theorem ofJsons_after {js : List Json} (h : ∀ j ∈ js, ∀ c, (ofJson c j).2 = c.after j.positions)
    (c : Cursor) : (ofJsons c js).2 = c.after (positionsOf js) := by
  induction js generalizing c with
  | nil => rw [ofJsons, positionsOf, Cursor.after_nil]
  | cons j js ih =>
    obtain ⟨hj, hjs⟩ := List.forall_mem_cons.mp h
    rw [ofJsons, positionsOf, Cursor.after_append, ← hj, ← ih hjs]

/-- The file and the line that are known behind a node are those printed last in it. -/
theorem ofJson_after (c : Cursor) (j : Json) : (ofJson c j).2 = c.after j.positions := by
  induction j using Json.inner_induction generalizing c with
  | node j ih =>
    rw [ofJson, positions, Json.ownPositions, Cursor.after_append, Cursor.after_append,
      Cursor.after_append, ← ofJsons_after ih, ← Cursor.place_after, ← Cursor.place_after,
      ← Cursor.place_after]

theorem children_ofJson (c : Cursor) (j : Json) :
    (ofJson c j).1.children = (ofJsons (c.after j.ownPositions) j.inner).1 := by
  rw [ofJson, Json.ownPositions, Cursor.after_append, Cursor.after_append, ← Cursor.place_after,
    ← Cursor.place_after, ← Cursor.place_after]

/-- A node whose place is printed in full is read with that place, wherever it stands. -/
theorem place_ofJson {p : Point} (hloc : j.get? "loc" = some p.inFull) (h : p.Fits) :
    (ofJson c j).1.place = ⟨some p, some p⟩ := by
  have hplace : (ofJson c j).1.place = (c.place (j.get? "loc")).1 := by rw [ofJson]
  rw [hplace, hloc, Cursor.place_inFull c h]

theorem ofJsons_cons (c : Cursor) (j : Json) (js : List Json) : ofJsons c (j :: js) =
    ((ofJson c j).1 :: (ofJsons (ofJson c j).2 js).1, (ofJsons (ofJson c j).2 js).2) := by
  rw [ofJsons]

theorem ofJsons_explicitEach {c : Cursor} {js : List Json}
    (h : ∀ j ∈ js, ∀ printed,
      ofJson (c.after printed) (explicit printed j) = ofJson (c.after printed) j)
    (printed : List Json) :
    ofJsons (c.after printed) (explicitEach printed js) = ofJsons (c.after printed) js := by
  induction js generalizing printed with
  | nil => rw [explicitEach]
  | cons j js ih =>
    obtain ⟨hj, hjs⟩ := List.forall_mem_cons.mp h
    rw [explicitEach, ofJsons_cons, ofJsons_cons, hj, ofJson_after, ← Cursor.after_append, ih hjs]

/-- A node is read from the explicit tree as from the dump. -/
theorem ofJson_explicit (c : Cursor) (printed : List Json) (j : Json) :
    ofJson (c.after printed) (explicit printed j) = ofJson (c.after printed) j := by
  induction j using Json.inner_induction generalizing printed with
  | node j ih =>
    obtain ⟨hbegin, hend⟩ :=
      Json.get?_filledRange (printed ++ printedAt (j.get? "loc")) (j.get? "range")
    have hinner := ofJsons_explicitEach ih (printed ++ j.ownPositions)
    rw [Json.ownPositions, ← List.append_assoc, ← List.append_assoc] at hinner
    rw [ofJson, ofJson]
    simp (disch := decide) only [Json.get?_explicit_loc, Json.get?_explicit_range,
      Json.inner_explicit, hbegin, hend, text?, flag, valueText?, Json.get?_explicit]
    simp only [Cursor.place_filled, Cursor.place_after, ← Cursor.after_append, List.append_assoc,
      Json.ownPositions] at hinner ⊢
    simp only [hinner]

theorem ofJsons_getElem? (c : Cursor) (js : List Json) (i : Nat) : (ofJsons c js).1[i]? =
    js[i]?.map fun j => (ofJson (c.after (positionsOf (js.take i))) j).1 := by
  induction js generalizing c i with
  | nil => rw [ofJsons]; rfl
  | cons j js ih =>
    rw [ofJsons_cons]
    cases i with
    | zero => rw [List.take_zero, positionsOf, Cursor.after_nil]; rfl
    | succ i =>
      rw [List.getElem?_cons_succ, ih, ofJson_after, List.take_succ_cons, positionsOf,
        List.getElem?_cons_succ]
      simp only [Cursor.after_append]

/-- Of what is printed before a node, wherever it stands, only the last file and the last line count
for it. -/
theorem ofJson_atPath (c : Cursor) (printed : List Json) (j : Json) (path : List Nat) :
    (ofJson (c.after printed) j).1.atPath path =
      (j.atPath printed path).map fun s => (ofJson (c.after s.1) s.2).1 := by
  induction path generalizing printed j with
  | nil => rfl
  | cons i path ih =>
    rw [atPath, children_ofJson, ← Cursor.after_append, ofJsons_getElem?, Json.atPath]
    cases j.inner[i]? with
    | none => rfl
    | some k =>
      rw [Option.map_some, Option.bind_some, Option.bind_some, ← Cursor.after_append, ih]

end Node

/-- Let every position of a dump that leaves its file or its line out be given the one that was printed
last before it. From this tree the same nodes are read as from the dump, with the same places at
every depth, so it is loaded as the same header; and a node anywhere in the dump is read from what
is inside it and from the last file and the last line that are printed before it. -/
theorem left_out_positions (o : Origin) (dump : Json) :
    let explicit := Json.explicit [] dump
    (∀ i, explicit.positions[i]? =
        dump.positions[i]?.map (Json.filled (dump.positions.take i))) ∧
      (Node.ofJson {} explicit).1 = (Node.ofJson {} dump).1 ∧
      HeaderUnit.ofDump o explicit = HeaderUnit.ofDump o dump ∧
      ∀ path, (Node.ofJson {} dump).1.atPath path =
        (dump.atPath [] path).map fun s => (Node.ofJson (Cursor.after {} s.1) s.2).1 := by
  intro explicit
  have hread : Node.ofJson {} explicit = Node.ofJson {} dump := Node.ofJson_explicit {} [] dump
  refine ⟨fun i => ?_, by rw [hread], ?_, fun path => Node.ofJson_atPath {} [] dump path⟩
  · have hfilled := Json.getElem?_filledEach [] dump.positions i
    rwa [List.nil_append, ← Json.positions_explicit] at hfilled
  · rw [HeaderUnit.ofDump, HeaderUnit.ofDump, hread]

end Bindery
