import Bindery.Dump.Node
import Bindery.QualType.Token

/-! Records and enumerations without a name that take the name of the typedef behind them. The
descriptions by which the types of a dump refer to them are kept with the names. -/

namespace Bindery.Node

/-- The keyword of a record or enumeration without a name. -/
def unnamedTag? (n : Node) : Option String :=
  if !n.name.isEmpty then none
  else if n.kind == "EnumDecl" then some "enum"
  else if n.kind == "RecordDecl" then some (n.tag.getD "struct")
  else none

/-- The text of a type without one `const` at the front and blanks at the end. -/
def bareTypeText (text : String) : String :=
  let cs := text.toList
  String.ofList (trimEnd (if "const ".toList.isPrefixOf cs then cs.drop 6 else cs))

/-- What a typedef names: a record by its description, or a record of the name of the typedef. -/
inductive Adoption where
  | described (key : String)
  | sameName
  deriving DecidableEq, Repr

/-- How a typedef names a record with the keyword `tag` directly, if it does. -/
def adoption? (tag : String) (typedef : Node) : Option Adoption :=
  if typedef.kind != "TypedefDecl" then none
  else
    typedef.typeText.bind fun text =>
      let text := bareTypeText text
      match QualType.anonymousKey text with
      | some key => if text.startsWith tag && text.endsWith ")" then some (.described key) else none
      | none => if text == tag ++ " " ++ typedef.name then some .sameName else none

/-- What the typedef behind a node makes of the node. -/
def adoptionBefore (n : Node) (next : List Node) : Option (String × Adoption) := do
  let tag ← n.unnamedTag?
  let typedef ← next.head?
  let a ← adoption? tag typedef
  pure (typedef.name, a)

/-- Names that were given to descriptions, in the order in which they were given. -/
abbrev Adopted := List (String × String)

/-- Lets the nodes of a list take the names of the typedefs behind them. -/
def adoptSiblings : List Node → List Node × Adopted
  | [] => ([], [])
  | n :: ns =>
    let (nodes, adopted) := adoptSiblings ns
    match n.adoptionBefore ns with
    | some (name, .described key) => ({ n with name } :: nodes, (key, name) :: adopted)
    | some (name, .sameName) => ({ n with name } :: nodes, adopted)
    | none => (n :: nodes, adopted)

mutual

/-- Lets names be taken at every level, inside first. -/
def adopt : Node → Node × Adopted
  | ⟨kind, name, place, start, stop, typeText, isImplicit, isComplete, tag, value, mark, children⟩ =>
    let (children, inside) := adoptEach children
    let (children, here) := adoptSiblings children
    (⟨kind, name, place, start, stop, typeText, isImplicit, isComplete, tag, value, mark, children⟩,
      inside ++ here)

def adoptEach : List Node → List Node × Adopted
  | [] => ([], [])
  | n :: ns =>
    let (n, first) := adopt n
    let (ns, rest) := adoptEach ns
    (n :: ns, first ++ rest)

end

/-- The name given to a description; of several the last one. -/
def Adopted.name? (names : Adopted) (key : String) : Option String :=
  (names.reverse.find? (·.1 == key)).map (·.2)

end Bindery.Node
