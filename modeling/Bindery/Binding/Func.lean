import Bindery.Generic.Specialize

/-! Binding a function: its defaults, its receiver, the instances of generics in its arguments and
its result, and its patterns of arguments are checked in this order. -/

namespace Bindery

/-- A step that records nothing. -/
def RegistryM.ofExcept {α : Type} : Except BindError α → RegistryM α
  | .ok a => pure a
  | .error e => throw e

/-- Gives the first argument of a name a default value. -/
def withDefault (name value : String) : List FuncArg → Option (List FuncArg)
  | [] => none
  | a :: as =>
    if a.name == name then some ({ a with default := some value } :: as)
    else (withDefault name value as).map (a :: ·)

/-- Gives arguments their defaults; a default without an argument is an error. -/
def CFunction.withDefaults (f : CFunction) : List (String × String) → Except BindError CFunction
  | [] => .ok f
  | (name, value) :: rest =>
    match withDefault name value f.args with
    | some args => { f with args := args }.withDefaults rest
    | none => .error (.unknownArgument f.name name "default" f.location)

def Decl.specializeType (source : SourceMap) (d : Decl) (t : CType) : RegistryM CType :=
  t.specialize source [d]

/-- Binds the types of arguments, but for those that `skip` holds of. -/
def specializeFuncArgs (source : SourceMap) (skip : FuncArg → Bool) :
    List FuncArg → RegistryM (List FuncArg)
  | [] => pure []
  | a :: as => do
    let a ←
      if skip a then pure a
      else do pure { a with type := ← a.decl.specializeType source a.type }
    pure (a :: (← specializeFuncArgs source skip as))

/-- The marked names that are no argument behind the receiver. -/
def CFunction.unknownMarks (f : CFunction) (markers : GenericMarkers) : List String :=
  markers.args.filter fun name => !(f.args.drop 1).any (·.name == name)

/-- Binds the types of a function. The parts of a method of a generic that have the type of the
elements stay as they are, and so does its receiver. -/
def CFunction.specialize (source : SourceMap) (f : CFunction) :
    FuncKind → RegistryM CFunction
  | .generic markers => do
    match (f.unknownMarks markers).head? with
    | some name => throw (.unknownArgument f.name name "generic" f.location)
    | none =>
      let result ←
        if markers.result then pure f.result else f.decl.specializeType source f.result
      let args ← specializeFuncArgs source (markers.args.contains ·.name) (f.args.drop 1)
      pure { f with result := result, args := f.args.take 1 ++ args }
  | _ => do
    let args ← specializeFuncArgs source (fun _ => false) f.args
    let result ← f.decl.specializeType source f.result
    pure { f with result := result, args := args }

def Func.bind (source : SourceMap) (d : Decl) (kind : FuncKind) (options : FuncOptions) :
    RegistryM Func := do
  let f ← RegistryM.ofExcept (CFunction.ofDecl d)
  let f ← RegistryM.ofExcept (f.withDefaults options.defaults)
  if kind.elidesReceiver && f.args.isEmpty then
    throw (.unexpectedShape f.name "expected a receiver as first argument" f.location)
  let f ← f.specialize source kind
  RegistryM.ofExcept (options.typemaps.forM fun t => t.check f)
  pure ⟨f, kind, options.typemaps⟩

end Bindery
