import Bindery.Location
import Bindery.Diagnostic

/-! What can go wrong while declarations are bound. Each cause says its message, the place it
concerns if that is known, and what may be done about it. -/

namespace Bindery

/-- How an annotation breaks the rule of its generic about pointers. -/
inductive PointerFault where
  | empty | hasPointer | lacksPointer | lacksSpace
  /-- Any other fault, in words. -/
  | other (reason : String)
  deriving DecidableEq, Repr

def PointerFault.reason : PointerFault → String
  | .empty => "is empty"
  | .hasPointer => "has pointer"
  | .lacksPointer => "lacks pointer"
  | .lacksSpace => "lacks space before pointer"
  | .other reason => reason

inductive BindError where
  | unknownTypeKind (kind spelling : String) (location : Location)
  | unannotated (generic : String) (locations : List Location)
  | malformedComment (location : Location) (token : String)
  | pointerPolicy (generic token : String) (fault : PointerFault) (location : Location)
  | duplicateField (entity field : String) (location : Location)
  | duplicateMethod (entity method : String) (location : Location)
  | duplicateEntity (kind name : String)
  | unknownArgument (function argument role : String) (location : Location)
  | typemapMismatch (function typemap pattern signature : String) (location : Location)
  | unexpectedDecl (kind name context : String) (location : Location)
  | unexpectedShape (name detail : String) (location : Location)
  | redeclaration (kind name : String) (location : Location)
  | notFound (kind name header : String) (consumed : Bool)
  | wrongUnderlying (name expected found : String) (location : Location)
  | unknownDependency (generic dependency : String)
  | dependencyCycle (generics : List String)
  | unknownSpecialization (generic specialization : String) (known : List String)
  | staleField (entity action : String) (fields : List String)
  deriving DecidableEq, Repr

namespace BindError

def message : BindError → String
  | .unknownTypeKind kind spelling location =>
    s!"{location.render}: unsupported type kind `{kind}` in `{spelling}`"
  | .unannotated generic _ => s!"`{generic}` used without a /*<type>*/ annotation"
  | .malformedComment location token =>
    s!"{location.render}: malformed generic annotation `{token}`"
  | .pointerPolicy generic token fault location =>
    s!"{location.render}: specialization `{token}` of `{generic}` {fault.reason}"
  | .duplicateField entity field _ => s!"duplicate field `{field}` in `{entity}`"
  | .duplicateMethod entity method _ => s!"duplicate method `{method}` in `{entity}`"
  | .duplicateEntity kind name => s!"{kind} `{name}` is bound twice"
  | .unknownArgument function argument role location =>
    s!"{location.render}: {role} argument `{argument}` is not a parameter of `{function}`"
  | .typemapMismatch function typemap _ _ location =>
    s!"{location.render}: typemap `{typemap}` does not match `{function}`"
  | .unexpectedDecl kind name context location =>
    s!"{location.render}: unexpected {kind} `{name}` in {context}"
  | .unexpectedShape name detail location =>
    s!"{location.render}: `{name}` has an unexpected shape: {detail}"
  | .redeclaration kind name location => s!"{location.render}: {kind} `{name}` is declared twice"
  | .notFound kind name header _ => s!"{kind} `{name}` not found in `{header}`"
  | .wrongUnderlying name expected found location =>
    s!"{location.render}: typedef `{name}` does not name {expected} (found `{found}`)"
  | .unknownDependency generic dependency =>
    s!"generic `{generic}` depends on unknown generic `{dependency}`"
  | .dependencyCycle _ => "cycle detected between generics"
  | .unknownSpecialization generic specialization _ =>
    s!"`{specialization}` is not a specialization of `{generic}`"
  | .staleField entity action fields =>
    s!"stale {action} field(s) in `{entity}`: " ++ ", ".intercalate fields

/-- Where the declaration at fault is written, if the error knows. -/
def location : BindError → Option Location
  | .unknownTypeKind _ _ l => some l
  | .unannotated _ ls => ls.head?
  | .malformedComment l _ => some l
  | .pointerPolicy _ _ _ l => some l
  | .duplicateField _ _ l => some l
  | .duplicateMethod _ _ l => some l
  | .unknownArgument _ _ _ l => some l
  | .typemapMismatch _ _ _ _ l => some l
  | .unexpectedDecl _ _ _ l => some l
  | .unexpectedShape _ _ l => some l
  | .redeclaration _ _ l => some l
  | .wrongUnderlying _ _ _ l => some l
  | _ => none

/-- Fills in the place of a type error that has none. -/
def located (l : Location) : BindError → BindError
  | .unknownTypeKind kind spelling l' =>
    .unknownTypeKind kind spelling (if l'.isUnknown then l else l')
  | e => e

def context : BindError → List String
  | .unannotated _ locations => locations.map fun l => "searched " ++ l.render
  | .pointerPolicy generic _ fault _ => [s!"`{generic}` {fault.reason}"]
  | .typemapMismatch _ _ pattern signature _ =>
    ["expected arguments: " ++ pattern, s!"actual signature: ({signature})"]
  | .notFound _ _ _ true => ["the declaration was already bound or ignored"]
  | .dependencyCycle generics => ["cycle: " ++ " -> ".intercalate generics]
  | .unknownSpecialization _ _ known =>
    if known.isEmpty then [] else ["known specializations: " ++ ", ".intercalate known]
  | _ => []

def suggestion : BindError → Option String
  | .unknownTypeKind _ _ _ =>
    some "Ignore the declaration in the binding script, or bind it by hand"
  | .unannotated generic _ =>
    some s!"Annotate the use of `{generic}` with its element type, e.g. `{generic} /*<char *>*/ *`"
  | .malformedComment _ _ => some "Generic annotations are written `/*<type>*/`"
  | .pointerPolicy generic _ fault _ =>
    match fault with
    | .hasPointer => some "Drop the trailing `*` from the annotation"
    | _ => some s!"`{generic}` holds pointers; write the annotation as `/*<Type *>*/`"
  | .duplicateField _ field _ =>
    some s!"Rename one of the `{field}` fields in the binding script"
  | .duplicateMethod _ method _ =>
    some s!"Pass an explicit rename for one of the functions bound as `{method}`"
  | .duplicateEntity _ _ => some "Remove the second registration from the binding script"
  | .unknownArgument function _ _ _ =>
    some s!"Check the parameter names of `{function}` in its header"
  | .typemapMismatch _ _ _ _ _ => some "Update the typemap or drop it from the binding script"
  | .unexpectedDecl _ _ _ _ => some "Ignore the declaration in the binding script"
  | .unexpectedShape _ _ _ => some "Ignore the declaration in the binding script"
  | .redeclaration _ _ _ => none
  | .notFound _ _ _ true => some "Each declaration can be claimed by one entity only"
  | .notFound _ _ _ false =>
    some "help: Run `swivel inspect <header>` to list the declarations swivel sees"
  | .wrongUnderlying _ _ _ _ => none
  | .unknownDependency _ dependency =>
    some s!"Register generic `{dependency}` in the binding script"
  | .dependencyCycle _ => some "Break the cycle by removing a dependency"
  | .unknownSpecialization _ _ _ =>
    some "Extensions can only target specializations seen in headers"
  | .staleField _ _ _ =>
    some "Remove the stale names from the binding script, or set `[fields] stale = \"warn\"`"

def toDiagnostic (e : BindError) : Diagnostic where
  message := e.message
  location := e.location.map Location.render
  context := e.context
  suggestions := e.suggestion.toList

end BindError

end Bindery
