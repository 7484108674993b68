import Bindery.Generic.Registry
import Bindery.Source.Annotation

/-! Binding the uses of generics in a type to the instances that comments name, and naming the
arguments of the function types in it. -/

namespace Bindery

/-- Steps that may fail and that keep what they recorded until then. -/
abbrev RegistryM := ExceptT BindError (StateM Registry)

/-- The first annotation among the declarations, with the declaration that has it. -/
def firstToken (source : SourceMap) : List Decl → Except BindError (Option (Decl × String))
  | [] => .ok none
  | d :: ds =>
    match d.annotationToken source with
    | .error e => .error e
    | .ok (some token) => .ok (some (d, token))
    | .ok none => firstToken source ds

/-- The instance that a record at the given declarations stands for; none for a record that is no
generic. -/
def bindRecord (source : SourceMap) (sites : List Decl) (tag : String) :
    RegistryM (Option GenericBinding) := do
  match (← get).forStruct? tag with
  | none => pure none
  | some g =>
    match ← liftExcept (firstToken source sites) with
    | none => throw (.unannotated g.name (sites.map (·.location)))
    | some (site, token) =>
      let key ← liftExcept (g.key token site.location)
      modify (·.record g.name key)
      pure (some ⟨g.name, key⟩)
where
  liftExcept {α : Type} (x : Except BindError α) : RegistryM α :=
    match x with
    | .ok a => pure a
    | .error e => throw e

/-- The name of an argument, made from its place if the parameter has none. -/
def argName (i : Nat) (d : Decl) : String :=
  if d.name.isEmpty then s!"arg{i}" else d.name

mutual

/-- Binds the records in a type. The annotation of a record is looked for at the `sites` in turn:
the declaration that uses the type, then the typedefs passed on the way. -/
def CType.specialize (source : SourceMap) (sites : List Decl) : CType → RegistryM CType
  | ⟨kind, spelling, isConst⟩ => do
    pure ⟨← kind.specialize source sites, spelling, isConst⟩

def CKind.specialize (source : SourceMap) (sites : List Decl) : CKind → RegistryM CKind
  | .pointer pointee => do pure (.pointer (← pointee.specialize source sites))
  | .typedef name canonical decl => do
    let sites :=
      match canonical.kind, decl with
      | .record _ _ _, _ => sites
      | _, some d => sites ++ [d]
      | _, none => sites
    pure (.typedef name (← canonical.specialize source sites) decl)
  | .function result args argNames variadic => do
    let result ← result.specialize source sites
    match sites.getLast? with
    | none => pure (.function result args argNames variadic)
    | some owner =>
      let params := owner.params
      if params.length = args.length then
        let args ← CType.specializeArgs source params args
        pure (.function result args (some (params.mapIdx argName)) variadic)
      else
        throw (.unexpectedShape owner.name
          s!"{params.length} parameter declarations for {args.length} arguments" owner.location)
  | .record tag isUnion binding => do
    let found ← bindRecord source sites tag
    pure (.record tag isUnion (found.orElse fun _ => binding))
  | .array element count => pure (.array element count)
  | .primitive p => pure (.primitive p)

/-- Binds the arguments of a function, each at its own parameter. -/
def CType.specializeArgs (source : SourceMap) (params : List Decl) :
    List CType → RegistryM (List CType)
  | [] => pure []
  | t :: ts => do
    let t ← t.specialize source (params.take 1)
    pure (t :: (← CType.specializeArgs source params.tail ts))

end

end Bindery
