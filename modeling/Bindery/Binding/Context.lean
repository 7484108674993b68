import Bindery.Binding.Director
import Bindery.CType.Declarator

/-! The interface that is being built, and the calls of a binding script. A call works on one header,
from which it claims declarations; a call that fails keeps what it has claimed and recorded. -/

namespace Bindery

structure BindOptions where
  /-- The name of the module, with which the names of helpers start. -/
  module : String := "rizin"
  directors : Bool := true
  /-- What a function has to be annotated with to be found by a scan. -/
  visibility : Option String := some "RZ_API"
  /-- What an argument is annotated with that may not be null. -/
  nonnull : String := "RZ_NONNULL"
  deprecated : String := "RZ_DEPRECATE"
  stale : StalePolicy := .warn
  deriving DecidableEq, Repr

/-- An enumeration by its typedef, with names and values of its constants. -/
structure BoundEnum where
  typedefName : String
  constants : List (String × String)
  deriving DecidableEq, Repr

structure Context where
  options : BindOptions := {}
  includes : List String := []
  generics : Registry := {}
  classes : List Class := []
  directors : List Director := []
  enums : List BoundEnum := []
  /-- Groups of defined constants, by name and text. -/
  defines : List (List (String × String)) := []
  warnings : List String := []

namespace Context

/-- The class of a struct; of several the one bound last. -/
def classForStruct? (c : Context) (tag : String) : Option String :=
  (c.classes.reverse.find? (·.structName == tag)).map (·.name)

def recordNames (c : Context) : RecordNames where
  ofGeneric tag := (c.generics.forStruct? tag).map (·.name)
  ofClass := c.classForStruct?

/-- Adds a header to those that the interface includes, unless it is one of them. -/
def addInclude (c : Context) (header : String) : Context :=
  if c.includes.contains header then c else { c with includes := c.includes ++ [header] }

end Context

/-- An interface and the header in use. -/
structure Workspace where
  context : Context
  header : Header

/-- Calls of a script: they may fail, and they keep what they did before. -/
abbrev BindM := ExceptT BindError (StateM Workspace)

namespace BindM

def ofExcept {α : Type} : Except BindError α → BindM α
  | .ok a => pure a
  | .error e => throw e

def getContext : BindM Context := do
  pure (← get).context

def getHeader : BindM Header := do
  pure (← get).header

def modifyContext (f : Context → Context) : BindM Unit :=
  modify fun w => { w with context := f w.context }

def setHeader (h : Header) : BindM Unit :=
  modify fun w => { w with header := h }

def onRegistry {α : Type} (step : RegistryM α) : BindM α := do
  let w ← get
  let (result, registry) := step.run w.context.generics
  modifyContext fun c => { c with generics := registry }
  ofExcept result

def pop (kind : DeclKind) (name : String) : BindM Decl := do
  let (d, h) ← ofExcept ((← getHeader).pop kind name)
  setHeader h
  pure d

def addInclude (header : String) : BindM Unit :=
  modifyContext (·.addInclude header)

def ignore (name : String) : BindM Unit := do
  setHeader (← ofExcept ((← getHeader).ignore name))

/-- Claims all declarations whose names start with `stem`, and counts them. -/
def ignoreAll (stem : String) : BindM Nat := do
  let (n, h) := (← getHeader).ignoreAll stem
  setHeader h
  pure n

def recordBehind (d : Decl) (name : String) : BindM String :=
  match d.type.bind RawType.recordName with
  | some tag => pure tag
  | none =>
    throw (.wrongUnderlying name "a struct" ((d.type.map (·.spelling)).getD "") d.location)

def addGeneric (typedefName : String) (pointer : PointerPolicy) (dependencies : List String) :
    BindM Unit := do
  let d ← pop .typedef typedefName
  let tag ← recordBehind d typedefName
  let registry ← ofExcept
    ((← getContext).generics.register (.bare typedefName tag pointer dependencies))
  modifyContext fun c => { c with generics := registry }

def bindFunc (d : Decl) (kind : FuncKind) (options : FuncOptions) : BindM Func := do
  onRegistry (Func.bind (← getHeader).source d kind options)

/-- Binds a function as a method of every instance of a generic. -/
def addGenericMethod (generic name rename : String) (markers : GenericMarkers) : BindM Unit := do
  let d ← pop .function name
  let f ← bindFunc d (.generic markers) {}
  match (← getContext).generics.get? generic with
  | none => throw (.notFound "generic" generic (← getHeader).name false)
  | some g =>
    let g ← ofExcept (g.insertMethod rename f)
    modifyContext fun c => { c with generics := c.generics.modify generic fun _ => g }

def onGeneric (generic : String) (f : Generic → Generic) : BindM Unit :=
  modifyContext fun c => { c with generics := c.generics.modify generic f }

/-- Adds a method written in code to every instance of a generic. -/
def addPythonMethod (generic signature : String) (body : List String) : BindM Unit :=
  onGeneric generic fun g => { g with pythonMethods := g.pythonMethods ++ [(signature, body)] }

def addExtension (generic key : String) (lines : List String) : BindM Unit :=
  onGeneric generic (·.extendWith key lines)

def popStruct (spec : ClassSpec) : BindM Decl := do
  match spec.structTag with
  | some tag => pop .struct tag
  | none =>
    let d ← pop .typedef spec.typedefName
    let tag ← recordBehind d spec.typedefName
    pop .struct tag

def addClass (spec : ClassSpec) : BindM Class := do
  let c ← getContext
  if c.classes.any (·.name == spec.typedefName) then
    throw (.duplicateEntity "class" spec.typedefName)
  let d ← popStruct spec
  let (cls, warnings) ← onRegistry
    (Class.ofRecord (← getHeader).source spec c.options.stale d)
  modifyContext fun c =>
    { c with classes := c.classes ++ [cls], warnings := c.warnings ++ warnings }
  pure cls

/-- Binds a table of hooks, which is a class too. -/
def addDirector (typedefName : String) : BindM Unit := do
  if (← getContext).directors.any (·.name == typedefName) then
    throw (.duplicateEntity "director" typedefName)
  let cls ← addClass { typedefName }
  let d ← ofExcept (Director.ofClass cls)
  modifyContext fun c => { c with directors := c.directors ++ [d] }

def enumConstants (typedefName : String) : List Decl → Except BindError (List (String × String))
  | [] => .ok []
  | d :: ds =>
    if d.kind == .enumConstant then
      match d.value with
      | some value => (enumConstants typedefName ds).map ((d.name, value) :: ·)
      | none => .error (.unexpectedShape d.name "enum constant without a value" d.location)
    else .error (.unexpectedDecl d.kind.label d.name s!"enum `{typedefName}`" d.location)

def addEnum (typedefName : String) : BindM Unit := do
  if (← getContext).enums.any (·.typedefName == typedefName) then
    throw (.duplicateEntity "enum" typedefName)
  let d ← pop .typedef typedefName
  match d.type.map fun t : RawType => t.canonical.kind with
  | some (.enum tag) =>
    let e ← pop .enum tag
    let constants ← ofExcept (enumConstants typedefName e.children)
    modifyContext fun c => { c with enums := c.enums ++ [⟨d.name, constants⟩] }
  | _ =>
    throw (.wrongUnderlying typedefName "an enum" ((d.type.map (·.spelling)).getD "") d.location)

def popDefines : List String → BindM (List (String × String))
  | [] => pure []
  | name :: names => do
    let d ← pop .define name
    pure ((d.name, d.value.getD "") :: (← popDefines names))

/-- Binds a group of constants: those whose names start with `stem`, then the named ones. -/
def addDefines (names : List String) (stem : Option String) : BindM Unit := do
  let names := (← getHeader).definesWith stem ++ names
  let defines ← popDefines names
  modifyContext fun c => { c with defines := c.defines ++ [defines] }

def validate : BindM Unit := do
  ofExcept (← getContext).generics.validate

def getClass (name : String) : BindM Class := do
  match (← getContext).classes.find? (·.name == name) with
  | some c => pure c
  | none => throw (.notFound "class" name (← getHeader).name false)

def modifyClass (name : String) (f : Class → Class) : BindM Unit :=
  modifyContext fun c =>
    { c with classes := c.classes.map fun cls => if cls.name == name then f cls else cls }

def addConstructor (cls name : String) : BindM Unit := do
  let d ← pop .function name
  if (← getClass cls).constructor.isSome then
    throw (.duplicateMethod cls "constructor" d.location)
  let f ← bindFunc d .constructor {}
  modifyClass cls fun c => { c with constructor := some f }

def addDestructor (cls name : String) : BindM Unit := do
  let d ← pop .function name
  if (← getClass cls).destructor.isSome then
    throw (.duplicateMethod cls "destructor" d.location)
  let f ← bindFunc d .destructor {}
  modifyClass cls fun c => { c with destructor := some f }

/-- Enters a method under its name, once. -/
def insertMethod (cls name : String) (f : Func) : BindM Unit := do
  if (← getClass cls).methods.any (·.1 == name) then
    throw (.duplicateMethod cls name f.function.location)
  modifyClass cls fun c => { c with methods := c.methods ++ [(name, f)] }

/-- Enters a static function under its name, once. -/
def insertFunc (cls name : String) (f : Func) : BindM Unit := do
  if (← getClass cls).funcs.any (·.1 == name) then
    throw (.duplicateMethod cls name f.function.location)
  modifyClass cls fun c => { c with funcs := c.funcs ++ [(name, f)] }

def addMethod (cls name rename : String) (options : FuncOptions) : BindM Unit := do
  let d ← pop .function name
  insertMethod cls rename (← bindFunc d .method options)

def addFunc (cls name rename : String) (options : FuncOptions) : BindM Unit := do
  let d ← pop .function name
  insertFunc cls rename (← bindFunc d .static options)

def visible (marker : Option String) (d : Decl) : Bool :=
  marker.all d.annotatedWith

/-- What follows `stem` in a name. -/
def behindStem (stem name : String) : String :=
  String.ofList (name.toList.drop stem.toList.length)

/-- Binds those of the named functions that are visible and take the struct of the class first. -/
def scanMethods (cls structName stem : String) (marker : Option String) :
    List String → BindM Nat
  | [] => pure 0
  | name :: names => do
    match (← getHeader).get? .function name with
    | none => scanMethods cls structName stem marker names
    | some d =>
      if visible marker d then
        let f ← ofExcept (CFunction.ofDecl d)
        if f.takesReceiver structName then
          addMethod cls name (behindStem stem name) {}
          let n ← scanMethods cls structName stem marker names
          pure (n + 1)
        else scanMethods cls structName stem marker names
      else scanMethods cls structName stem marker names

/-- Binds the functions whose names start with `stem` and that take the struct of a class first as
methods, and counts them. -/
def addMethodsWith (cls stem : String) : BindM Nat := do
  let c ← getClass cls
  let marker := (← getContext).options.visibility
  scanMethods cls c.structName stem marker ((← getHeader).functionsWith stem)

/-- Binds those of the named functions that are visible. -/
def scanFuncs (cls stem : String) (marker : Option String) : List String → BindM Nat
  | [] => pure 0
  | name :: names => do
    if ((← getHeader).get? .function name).any (visible marker) then
      addFunc cls name (behindStem stem name) {}
      let n ← scanFuncs cls stem marker names
      pure (n + 1)
    else scanFuncs cls stem marker names

/-- Binds the functions whose names start with `stem` as static functions, and counts them. -/
def addFuncsWith (cls stem : String) : BindM Nat := do
  let marker := (← getContext).options.visibility
  scanFuncs cls stem marker ((← getHeader).functionsWith stem)

end BindM

end Bindery
