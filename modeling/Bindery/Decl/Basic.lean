import Bindery.Location

/-! C declarations and the types written in them. A type keeps its spelling and its const flag at
every level; a typedef keeps the type it stands for and, if known, its own declaration. -/

namespace Bindery

/-- Arithmetic kinds, `void`, and the integer that stands for an enumeration. -/
inductive Primitive where
  | void | bool | char | schar | uchar | short | ushort | int | uint | long | ulong
  | longLong | ulongLong | int128 | uint128 | float | double | longDouble | enum
  deriving DecidableEq, Repr

def Primitive.cName : Primitive → String
  | .void => "void"
  | .bool => "_Bool"
  | .char => "char"
  | .schar => "signed char"
  | .uchar => "unsigned char"
  | .short => "short"
  | .ushort => "unsigned short"
  | .int => "int"
  | .uint => "unsigned int"
  | .long => "long"
  | .ulong => "unsigned long"
  | .longLong => "long long"
  | .ulongLong => "unsigned long long"
  | .int128 => "__int128"
  | .uint128 => "unsigned __int128"
  | .float => "float"
  | .double => "double"
  | .longDouble => "long double"
  | .enum => "int"

inductive DeclKind where
  | function | parameter | struct | union | field | typedef | enum | enumConstant | define
  | variable
  deriving DecidableEq, Repr

namespace DeclKind

def label : DeclKind → String
  | .function => "function"
  | .parameter => "parameter"
  | .struct => "struct"
  | .union => "union"
  | .field => "field"
  | .typedef => "typedef"
  | .enum => "enum"
  | .enumConstant => "enum constant"
  | .define => "macro"
  | .variable => "variable"

def isRecord : DeclKind → Bool
  | .struct => true
  | .union => true
  | _ => false

end DeclKind

mutual

/-- A type as written: what it is, how it is spelled, and whether this level is const. -/
structure RawType where
  kind : RawKind
  spelling : String
  isConst : Bool

inductive RawKind where
  | builtin (primitive : Primitive)
  /-- A struct or union written with its keyword. -/
  | elaborated (inner : RawType)
  | pointer (pointee : RawType)
  | constantArray (element : RawType) (count : Nat)
  | incompleteArray (element : RawType)
  | typedef (name : String) (underlying : RawType) (decl : Option Decl)
  | record (name : String) (isUnion : Bool)
  | enum (name : String)
  | function (result : RawType) (args : List RawType) (variadic : Bool)
  /-- A type that has no structure here, kept as text. -/
  | unexposed (text : String)

/-- A declaration with its members, parameters or constants as children. The annotations are kept
in ascending order without repetition; the value is that of an enum constant or the text of a
definition. -/
structure Decl where
  kind : DeclKind
  name : String
  location : Location
  typeStart : Option Location
  type : Option RawType
  children : List Decl
  annotations : List String
  value : Option String

end

namespace Decl

/-- A declaration with nothing but its kind, name and place. -/
def bare (kind : DeclKind) (name : String) (location : Location) : Decl :=
  ⟨kind, name, location, none, none, [], [], none⟩

def annotatedWith (d : Decl) (mark : String) : Bool :=
  d.annotations.contains mark

def isAnonymous (d : Decl) : Bool :=
  d.name.isEmpty

/-- A struct or union without a body. -/
def isForward (d : Decl) : Bool :=
  d.kind.isRecord && d.children.isEmpty

def params (d : Decl) : List Decl :=
  d.children.filter (·.kind == .parameter)

/-- Members of a record, anonymous unions among them, in the order written. -/
def fields (d : Decl) : List Decl :=
  d.children.filter fun c => c.kind == .field || c.kind.isRecord

end Decl

/-- Puts a name into an ascending list without repetition. -/
def insertName (name : String) : List String → List String
  | [] => [name]
  | n :: ns =>
    if name < n then name :: n :: ns
    else if name == n then n :: ns
    else n :: insertName name ns

/-- The names of a list in ascending order, each once. -/
def nameSet (names : List String) : List String :=
  names.foldl (fun set n => insertName n set) []

end Bindery
