import Bindery.Binding.Context

/-! The wrapper of a bound function: its head, the call that forwards the arguments, and what stands
around them. -/

namespace Bindery

/-- Lines one level deeper. -/
def deeper (lines : List String) : List String :=
  lines.map ("    " ++ ·)

/-- Lines between an opening and a closing line, one level deeper. -/
def enclosed (opening : String) (lines : List String) (closing : String) : List String :=
  opening :: deeper lines ++ [closing]

namespace FuncArg

/-- The name of an argument in a wrapper, which may not be that of the object itself. -/
def wrapperName (a : FuncArg) : String :=
  if a.name == "self" then "_self" else a.name

end FuncArg

namespace Func

/-- An argument in the head of a wrapper, with its default. -/
def parameter (names : RecordNames) (f : Func) (a : FuncArg) : String :=
  a.type.declare names a.wrapperName (f.isGenericArg a) ++
    (match a.default with
    | some value => " = " ++ value
    | none => "")

def parameters (names : RecordNames) (f : Func) : String :=
  ", ".intercalate (f.boundArgs.map (f.parameter names))

/-- What a wrapper passes on: the object itself in place of a receiver, then the arguments. -/
def actuals (f : Func) : List String :=
  (if f.kind.elidesReceiver then ["$self"] else []) ++ f.boundArgs.map FuncArg.wrapperName

def head (names : RecordNames) (f : Func) (name structName : String) : String :=
  let declared := f.function.result.declare names name f.hasGenericResult
  let params := "(" ++ f.parameters names ++ ") \x7b"
  match f.kind with
  | .method => declared ++ params
  | .generic _ => declared ++ params
  | .static => "static " ++ declared ++ params
  | .constructor => structName ++ params
  | .destructor => "~" ++ structName ++ params

/-- The call of the function itself. A method of a generic casts its result. -/
def call (names : RecordNames) (f : Func) : String :=
  let called := f.function.name ++ "(" ++ ", ".intercalate f.actuals ++ ");"
  match f.kind with
  | .generic _ =>
    "return (" ++ f.function.result.declare names "" f.hasGenericResult ++ ")" ++ called
  | _ => "return " ++ called

def requiredArgs (options : BindOptions) (f : Func) : List String :=
  (f.boundArgs.filter (·.annotations.contains options.nonnull)).map FuncArg.wrapperName

def contract (names : RecordNames) (options : BindOptions) (f : Func) (name : String) :
    List String :=
  let required := f.requiredArgs options
  if required.isEmpty then []
  else
    ["%contract " ++ name ++ "(" ++ f.parameters names ++ ") \x7b", "require:"] ++
      deeper (required.map (· ++ " != NULL;")) ++ ["\x7d"]

def deprecation (options : BindOptions) (f : Func) (name : String) : List String :=
  if f.function.annotatedWith options.deprecated then
    [s!"{options.module}_try_warn_deprecate(\"{name}\", \"{f.function.name}\");"]
  else []

/-- The lines that put the patterns of arguments to use, or out of use. -/
def typemapLines (f : Func) (action : String) : List String :=
  f.typemaps.map fun t => "%" ++ t.name ++ action ++ "(" ++ t.directiveArgs ++ ")"

/-- The member of an extension that a function becomes under a name. -/
def lines (names : RecordNames) (options : BindOptions) (structName : String)
    (entry : String × Func) : List String :=
  let (name, f) := entry
  f.typemapLines "_activate" ++ f.contract names options name ++
    enclosed (f.head names name structName) (f.deprecation options name ++ [f.call names]) "\x7d" ++
    f.typemapLines "_deactivate"

end Func

end Bindery
