import Bindery.Dump.Provider

/-! Listing the declarations of a header. -/

namespace Bindery

/-- What is shown of a declaration; the members are its fields, parameters or constants. -/
structure Summary where
  kind : String
  name : String
  line : Nat
  type : Option String
  annotations : List String
  value : Option String
  members : List String
  deriving DecidableEq, Repr

namespace Summary

def shownName (d : Decl) : String :=
  if d.isAnonymous then s!"(anonymous {d.kind.label})" else d.name

def ofDecl (d : Decl) : Summary where
  kind := d.kind.label
  name := shownName d
  line := d.location.line
  type := d.type.map (·.spelling)
  annotations := d.annotations
  value := d.value
  members := d.children.map shownName

/-- A field for a list, unless it is empty. -/
def listField (key : String) (items : List String) : List (String × Json) :=
  if items.isEmpty then [] else [(key, .arr (items.map .str))]

/-- A summary as JSON; what is not there is left out. -/
def toJson (s : Summary) : Json :=
  .obj ([("kind", .str s.kind), ("name", .str s.name), ("line", .int s.line)] ++
    s.type.toList.map (("ty", .str ·)) ++ listField "annotations" s.annotations ++
    s.value.toList.map (("value", .str ·)) ++ listField "members" s.members)

def padLeft (width : Nat) (text : String) : String :=
  String.ofList (List.replicate (width - text.length) ' ') ++ text

def padRight (width : Nat) (text : String) : String :=
  text ++ String.ofList (List.replicate (width - text.length) ' ')

/-- The line of a declaration, and a second one for its members. -/
def lines (width : Nat) (s : Summary) : List String :=
  (padLeft 5 (toString s.line) ++ "  " ++ padRight width s.kind ++ "  " ++ s.name ++
    String.join (s.type.toList.map (": " ++ ·)) ++ String.join (s.value.toList.map (" = " ++ ·)) ++
    String.join (s.annotations.map fun a => " [" ++ a ++ "]")) ::
  (if s.members.isEmpty then []
   else ["     " ++ "  " ++ padRight width "" ++ "    " ++ ", ".intercalate s.members])

def table (summaries : List Summary) : String :=
  let width := (summaries.map (·.kind.length)).foldl max 0
  String.join ((summaries.flatMap (lines width)).map (· ++ "\n"))

end Summary

/-- Which declarations are listed: those of some kinds, or of all if there are none, and those whose
names start with `stem`. -/
structure Selection where
  kinds : List DeclKind := []
  stem : Option String := none
  deriving DecidableEq, Repr

def Selection.selects (s : Selection) (d : Decl) : Bool :=
  (s.kinds.isEmpty || s.kinds.contains d.kind) && s.stem.all fun stem => d.name.startsWith stem

variable {m : Type → Type} [Monad m] [MonadDisk m]

def summarize (p : DumpProvider) (header : String) (s : Selection) : ToolT m (List Summary) := do
  let u ← p.load header
  pure ((u.decls.filter s.selects).map Summary.ofDecl)

end Bindery
