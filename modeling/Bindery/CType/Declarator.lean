import Bindery.CType.Basic

/-! Writing a type around a declared name. The declarator grows from the name outwards, one level
of the type at a time, until the name of the base type is written before it. -/

namespace Bindery

/-- What records are called: by the generic or by the class that a struct stands behind. -/
structure RecordNames where
  ofGeneric : String → Option String := fun _ => none
  ofClass : String → Option String := fun _ => none

/-- Two words with a blank between them, or the first alone if the second is empty. -/
def spaced (base expr : String) : String :=
  if expr.isEmpty then base else base ++ " " ++ expr

def qualified (isConst : Bool) (expr : String) : String :=
  if isConst then spaced "const" expr else expr

def parenthesised (yes : Bool) (expr : String) : String :=
  if yes then "(" ++ expr ++ ")" else expr

namespace RecordNames

/-- The name of a record. Where the text is a template, a generic is called by its placeholder. -/
def record (names : RecordNames) (template : Bool) (r : RecordUse) : String :=
  match (if template then names.ofGeneric r.tag else none) with
  | some g => g ++ "_##TYPE"
  | none =>
    match r.binding with
    | some b => b.generic ++ "_" ++ b.specialization
    | none => (names.ofClass r.tag).getD (recordKeyword r.isUnion ++ " " ++ r.tag)

/-- Whether a typedef of a record is replaced by the record: when the record is bound to an
instance, or is a generic in a template. -/
def looksThrough (names : RecordNames) (template : Bool) (r : RecordUse) : Bool :=
  r.binding.isSome || (template && (names.ofGeneric r.tag).isSome)

def primitive (template : Bool) (p : Primitive) (spelling : String) (isConst : Bool) : String :=
  match p with
  | .bool => if isConst then "const bool" else "bool"
  | .void => if template then "TYPE" else spelling
  | _ => spelling

end RecordNames

/-- The record that a kind is, without looking through typedefs. -/
def CKind.record? : CKind → Option RecordUse
  | .record tag isUnion binding => some ⟨tag, isUnion, binding⟩
  | _ => none

mutual

/-- A declaration of `expr` with a type. `pointing` says that `expr` starts with a star that was
put there by the level above. -/
def CType.declareAs (names : RecordNames) (template pointing : Bool) (expr : String) :
    CType → String
  | ⟨kind, spelling, isConst⟩ => kind.declareAs names template pointing expr spelling isConst

def CKind.declareAs (names : RecordNames) (template pointing : Bool) (expr : String) :
    CKind → String → Bool → String
  | .primitive p, spelling, isConst =>
    spaced (RecordNames.primitive template p spelling isConst) expr
  | .pointer pointee, _, isConst =>
    pointee.declareAs names template true ("*" ++ qualified isConst expr)
  | .record tag isUnion binding, _, isConst =>
    spaced (names.record template ⟨tag, isUnion, binding⟩) (qualified isConst expr)
  | .typedef name canonical _, _, isConst =>
    let shown := (canonical.kind.record?).any (names.looksThrough template)
    if shown then canonical.declareAs names template pointing expr
    else spaced name (qualified isConst expr)
  | .function result args _ variadic, _, isConst =>
    let head := parenthesised pointing (qualified isConst expr)
    let params := CType.abstractList names args ++ (if variadic then ["..."] else [])
    result.declareAs names template false (head ++ "(" ++ ", ".intercalate params ++ ")")
  | .array element count, _, isConst =>
    let head := parenthesised pointing (qualified isConst expr)
    let n := (count.map toString).getD ""
    element.declareAs names template false (head ++ "[" ++ n ++ "]")

/-- The types of parameters, without names and outside templates. -/
def CType.abstractList (names : RecordNames) : List CType → List String
  | [] => []
  | t :: ts => t.declareAs names false false "" :: CType.abstractList names ts

end

/-- A declaration of `expr` with the type `t`; an empty `expr` gives the type alone. In a template
generics and `void` are spelled by their placeholders. -/
def CType.declare (names : RecordNames) (t : CType) (expr : String) (template : Bool) : String :=
  t.declareAs names template false expr

end Bindery
