import Bindery.Json.Basic
import Bindery.Location

/-! The nodes of a syntax tree that a compiler has dumped as JSON. A dump leaves the file and the
line of a position out where they are those of the position printed before it, so positions are read
in the order of the text: for a node its own place, the start and the end of its range, then the
nodes inside. -/

namespace Bindery

/-- A position in a file and the length of the token there. -/
structure Point where
  file : String
  line : Nat
  column : Nat
  offset : Nat
  length : Nat
  deriving DecidableEq, Repr

namespace Point

def location (p : Point) : Location :=
  ⟨p.file, p.line, p.column, p.offset⟩

/-- The offset behind the token, if it has 64 bits. -/
def stop? (p : Point) : Option Nat :=
  sumBelow? limit64 p.offset p.length

/-- The place behind the token, if its column has 32 bits and its offset 64. The length is cut to 32 bits
before it counts for the column. -/
def after? (p : Point) : Option Location := do
  let column ← sumBelow? limit32 p.column (p.length % limit32)
  let offset ← p.stop?
  pure ⟨p.file, p.line, column, offset⟩

end Point

/-- Where a text is spelled, and where a macro has put it. Outside macros the two are the same. -/
structure Place where
  spelling : Option Point := none
  expansion : Option Point := none
  deriving DecidableEq, Repr

/-- The position in the file that is being read. -/
def Place.written (p : Place) : Option Point :=
  p.expansion.or p.spelling

def Place.files (p : Place) : List String :=
  (p.spelling.toList ++ p.expansion.toList).map (·.file)

structure Node where
  kind : String
  name : String
  place : Place
  start : Place
  stop : Place
  typeText : Option String
  isImplicit : Bool
  isComplete : Bool
  tag : Option String
  value : Option String
  mark : Option String
  children : List Node

/-- The file and the line of the position read last. -/
structure Cursor where
  file : Option String := none
  line : Nat := 0
  deriving DecidableEq, Repr

namespace Cursor

/-- Reads a position. One without an offset, or before any file is known, is no position, but its
file and line count for those that follow. -/
def point (c : Cursor) : Option Json → Option Point × Cursor
  | none => (none, c)
  | some j =>
    let number (key : String) : Option Nat := (j.get? key).bind Json.nat?
    let file := ((j.get? "file").bind Json.str?).or c.file
    let line := ((number "line").map (· % limit32)).getD c.line
    let column := ((number "col").getD 0) % limit32
    let found :=
      match file, number "offset" with
      | some file, some offset => some ⟨file, line, column, offset, (number "tokLen").getD 0⟩
      | _, _ => none
    (found, ⟨file, line⟩)

/-- Reads a place: a position, or two of them for a text that comes from a macro. -/
def place (c : Cursor) (j : Option Json) : Place × Cursor :=
  match j.filter Json.isObject with
  | none => ({}, c)
  | some j =>
    let spelling := j.get? "spellingLoc"
    let expansion := j.get? "expansionLoc"
    if spelling.isSome || expansion.isSome then
      let (spelling, c) := c.point spelling
      let (expansion, c) := c.point expansion
      (⟨spelling, expansion⟩, c)
    else
      let (p, c) := c.point (some j)
      (⟨p, p⟩, c)

end Cursor

def Json.inner (j : Json) : List Json :=
  match j.get? "inner" with
  | some (.arr items) => items
  | _ => []

theorem Json.sizeOf_get?_le {j v : Json} {key : String} (h : j.get? key = some v) :
    sizeOf v ≤ sizeOf j := by
  cases j with
  | obj fields =>
    simp only [Json.get?, Option.map_eq_some_iff] at h
    obtain ⟨p, hp, rfl⟩ := h
    have := List.sizeOf_lt_of_mem (List.mem_reverse.1 (List.mem_of_find?_eq_some hp))
    cases p
    simp only [Json.obj.sizeOf_spec, Prod.mk.sizeOf_spec] at *
    omega
  | _ => simp [Json.get?] at h

theorem Json.sizeOf_inner_le (j : Json) : sizeOf j.inner ≤ sizeOf j := by
  rw [Json.inner]
  split
  · rename_i items h
    have := Json.sizeOf_get?_le h
    simp only [Json.arr.sizeOf_spec] at this
    omega
  · cases j with
    | real => simp only [Json.real.sizeOf_spec, List.nil.sizeOf_spec]; omega
    | _ => simp

namespace Node

def text? (j : Json) (key : String) : Option String :=
  (j.get? key).bind Json.str?

def flag (j : Json) (key : String) : Bool :=
  ((j.get? key).bind Json.bool?).getD false

/-- The value that a node was evaluated to. -/
def valueText? (j : Json) : Option String :=
  (j.get? "value").bind fun v => v.str?.or v.numberText?

mutual

/-- Reads a node and what is inside. -/
def ofJson (c : Cursor) (j : Json) : Node × Cursor :=
  let range := j.get? "range"
  let (place, c) := c.place (j.get? "loc")
  let (start, c) := c.place (range.bind (·.get? "begin"))
  let (stop, c) := c.place (range.bind (·.get? "end"))
  let (children, c) := ofJsons c j.inner
  ({  kind := (text? j "kind").getD ""
      name := (text? j "name").getD ""
      place, start, stop
      typeText := (j.get? "type").bind fun t => text? t "qualType"
      isImplicit := flag j "isImplicit"
      isComplete := flag j "completeDefinition"
      tag := text? j "tagUsed"
      value := valueText? j
      mark := text? j "annotation"
      children }, c)
termination_by (sizeOf j, 1)
decreasing_by
  rcases Nat.lt_or_eq_of_le (Json.sizeOf_inner_le j) with h | h
  · exact Prod.Lex.left _ _ h
  · rw [h]; exact Prod.Lex.right _ (by omega)

def ofJsons (c : Cursor) (js : List Json) : List Node × Cursor :=
  match js with
  | [] => ([], c)
  | j :: js =>
    let (node, c) := ofJson c j
    let (nodes, c) := ofJsons c js
    (node :: nodes, c)
termination_by (sizeOf js, 0)
decreasing_by all_goals simp only [List.cons.sizeOf_spec]; exact Prod.Lex.left _ _ (by omega)

end

mutual

/-- The first value in a node and what is inside. -/
def firstValue : Node → Option String
  | ⟨_, _, _, _, _, _, _, _, _, value, _, children⟩ => value.or (firstValueOf children)

def firstValueOf : List Node → Option String
  | [] => none
  | n :: ns => n.firstValue.or (firstValueOf ns)

end

mutual

/-- The files in which a node and what is inside is written. -/
def files : Node → List String
  | ⟨_, _, place, start, stop, _, _, _, _, _, _, children⟩ =>
    filesOf children ++ place.files ++ start.files ++ stop.files

def filesOf : List Node → List String
  | [] => []
  | n :: ns => n.files ++ filesOf ns

end

end Node

end Bindery
