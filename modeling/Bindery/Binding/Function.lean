import Bindery.CType.Basic
import Bindery.Text.Blank

/-! Functions of C with classified types, and the patterns of arguments that get a marshalling of
their own. -/

namespace Bindery

/-- An argument of a function, with the default that its signature gives it. -/
structure FuncArg where
  name : String
  type : CType
  annotations : List String
  default : Option String
  decl : Decl

structure CFunction where
  name : String
  location : Location
  annotations : List String
  args : List FuncArg
  result : CType
  decl : Decl

/-- A type written before a name; no blank goes between a star and the name. -/
def typedName (type name : String) : String :=
  if type.endsWith "*" then type ++ name else type ++ " " ++ name

def FuncArg.ofDecl (d : Decl) : Except BindError FuncArg := do
  pure ⟨d.name, ← d.classify, d.annotations, none, d⟩

namespace CFunction

/-- Classifies the declaration of a function: the result first, then the parameters in order. -/
def ofDecl (d : Decl) : Except BindError CFunction := do
  let result ←
    match d.type.map fun t : RawType => t.canonical.kind with
    | some (.function result _ _) => result.classify.mapError (·.located d.location)
    | _ => .error (.unexpectedShape d.name "declaration is not a function" d.location)
  let args ← d.params.mapM FuncArg.ofDecl
  pure ⟨d.name, d.location, d.annotations, args, result, d⟩

def annotatedWith (f : CFunction) (mark : String) : Bool :=
  f.annotations.contains mark

def signature (f : CFunction) : String :=
  ", ".intercalate (f.args.map fun a => typedName a.type.spelling a.name)

/-- Whether the first argument points to a struct. -/
def takesReceiver (f : CFunction) (tag : String) : Bool :=
  (f.args.head?.bind (·.type.pointeeRecord)).any (·.tag == tag)

end CFunction

structure TypemapArg where
  type : String
  name : String
  deriving DecidableEq, Repr

/-- A run of arguments that stands for one value. -/
structure Typemap where
  name : String
  args : List TypemapArg
  deriving DecidableEq, Repr

/-- Leaves out the blank before each star. -/
def dropBlankBeforeStar : List Char → List Char
  | ' ' :: '*' :: cs => '*' :: dropBlankBeforeStar cs
  | c :: cs => c :: dropBlankBeforeStar cs
  | [] => []

/-- A spelling with single blanks between its words and none before a star. -/
def squashed (spelling : String) : List Char :=
  dropBlankBeforeStar (collapseBlanks spelling).toList

/-- Whether two spellings differ in blanks only. -/
def sameType (a b : String) : Bool :=
  squashed a == squashed b

namespace Typemap

def directiveArgs (t : Typemap) : String :=
  ", ".intercalate (t.args.map fun a => typedName a.type a.name)

/-- Whether the arguments at the front are those of a pattern. -/
def matchesFront : List TypemapArg → List FuncArg → Bool
  | [], _ => true
  | _ :: _, [] => false
  | p :: ps, a :: as => a.name == p.name && sameType a.type.spelling p.type && matchesFront ps as

/-- Whether the pattern is a run of arguments somewhere in the list. -/
def matchesIn (t : Typemap) : List FuncArg → Bool
  | [] => false
  | a :: as => matchesFront t.args (a :: as) || t.matchesIn as

/-- Whether the pattern occurs among the arguments of a function. An empty pattern never does. -/
def occursIn (t : Typemap) (f : CFunction) : Bool :=
  !t.args.isEmpty && t.matchesIn f.args

def check (t : Typemap) (f : CFunction) : Except BindError Unit :=
  if t.occursIn f then .ok ()
  else .error (.typemapMismatch f.name t.name t.directiveArgs f.signature f.location)

end Typemap

/-- Which parts of a method of a generic have the type of the elements. -/
structure GenericMarkers where
  result : Bool := false
  args : List String := []
  deriving DecidableEq, Repr

inductive FuncKind where
  | constructor | destructor | method | static
  | generic (markers : GenericMarkers)
  deriving DecidableEq, Repr

namespace FuncKind

/-- Whether the first argument becomes the object itself. -/
def elidesReceiver : FuncKind → Bool
  | .destructor => true
  | .method => true
  | .generic _ => true
  | .constructor => false
  | .static => false

def markers : FuncKind → Option GenericMarkers
  | .generic m => some m
  | _ => none

end FuncKind

/-- What a binding script asks for a function: default values by argument, in ascending order, and
patterns of arguments. -/
structure FuncOptions where
  defaults : List (String × String) := []
  typemaps : List Typemap := []
  deriving DecidableEq, Repr

structure Func where
  function : CFunction
  kind : FuncKind
  typemaps : List Typemap

namespace Func

/-- The arguments of the generated signature. -/
def boundArgs (f : Func) : List FuncArg :=
  if f.kind.elidesReceiver then f.function.args.drop 1 else f.function.args

def isGenericArg (f : Func) (a : FuncArg) : Bool :=
  f.kind.markers.any (·.args.contains a.name)

def hasGenericResult (f : Func) : Bool :=
  f.kind.markers.any (·.result)

end Func

end Bindery
