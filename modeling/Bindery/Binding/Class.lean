import Bindery.Binding.Func
import Bindery.Header

/-! Classes: structs with those of their fields that are asked for, and the functions bound to
them. -/

namespace Bindery

/-- What becomes of names of fields in a script that no field has. -/
inductive StalePolicy where
  | warn | deny
  deriving DecidableEq, Repr

/-- How a class is asked for: by its typedef, or by a tag if the typedef is not to be looked up.
Names of fields are in ascending order. -/
structure ClassSpec where
  typedefName : String
  structTag : Option String := none
  ignored : List String := []
  renamed : List (String × String) := []
  deriving DecidableEq, Repr

structure Field where
  name : String
  rename : Option String
  type : CType
  location : Location

/-- A place of storage: a field, or the members of a union without a name. -/
inductive FieldSlot where
  | single (field : Field)
  | union (members : List Field)

def FieldSlot.fields : FieldSlot → List Field
  | .single f => [f]
  | .union members => members

structure Class where
  name : String
  structName : String
  slots : List FieldSlot
  funcs : List (String × Func) := []
  methods : List (String × Func) := []
  constructor : Option Func := none
  destructor : Option Func := none

namespace Class

/-- The fields with the members of unions among them, in the order of their declaration. -/
def allFields (c : Class) : List Field :=
  c.slots.flatMap FieldSlot.fields

def hasFunctions (c : Class) : Bool :=
  c.constructor.isSome || c.destructor.isSome || !c.funcs.isEmpty || !c.methods.isEmpty

end Class

/-- What is left of the wishes for fields, and the names met so far. -/
structure FieldWishes where
  ignored : List String
  renamed : List (String × String)
  seen : List String := []

/-- Binds a field. An ignored one is left out, and its wish is used up. -/
def bindField (source : SourceMap) (entity : String) (w : FieldWishes) (d : Decl) :
    RegistryM (Option Field × FieldWishes) := do
  if w.ignored.contains d.name then
    pure (none, { w with ignored := w.ignored.erase d.name })
  else if w.seen.contains d.name then
    throw (.duplicateField entity d.name d.location)
  else
    let rename := (w.renamed.find? (·.1 == d.name)).map (·.2)
    let t ← RegistryM.ofExcept d.classify
    let t ← d.specializeType source t
    pure (some ⟨d.name, rename, t, d.location⟩,
      { w with renamed := w.renamed.filter (·.1 != d.name), seen := d.name :: w.seen })

def unexpectedMember (entity : String) (d : Decl) : BindError :=
  .unexpectedDecl d.kind.label d.name s!"struct of `{entity}`" d.location

/-- Binds the members of a union without a name. Records in it are left out. -/
def bindMembers (source : SourceMap) (entity : String) (w : FieldWishes) :
    List Decl → RegistryM (List Field × FieldWishes)
  | [] => pure ([], w)
  | d :: ds =>
    if d.kind == .field then do
      let (f, w) ← bindField source entity w d
      let (fs, w) ← bindMembers source entity w ds
      pure (f.toList ++ fs, w)
    else if d.kind.isRecord then bindMembers source entity w ds
    else throw (unexpectedMember entity d)

/-- Binds the members of a struct. Records in it are left out, but for unions without a name, and
so are unions of which no member stays. -/
def bindSlots (source : SourceMap) (entity : String) (w : FieldWishes) :
    List Decl → RegistryM (List FieldSlot × FieldWishes)
  | [] => pure ([], w)
  | d :: ds =>
    if d.kind == .field then do
      let (f, w) ← bindField source entity w d
      let (slots, w) ← bindSlots source entity w ds
      pure ((f.map FieldSlot.single).toList ++ slots, w)
    else if d.kind == .union && d.isAnonymous then do
      let (members, w) ← bindMembers source entity w d.children
      let (slots, w) ← bindSlots source entity w ds
      pure ((if members.isEmpty then [] else [.union members]) ++ slots, w)
    else if d.kind.isRecord then bindSlots source entity w ds
    else throw (unexpectedMember entity d)

/-- The wishes that no field used up, an error for each kind of wish. -/
def FieldWishes.stale (entity : String) (w : FieldWishes) : List BindError :=
  (if w.ignored.isEmpty then [] else [.staleField entity "ignored" w.ignored]) ++
    (if w.renamed.isEmpty then [] else [.staleField entity "renamed" (w.renamed.map (·.1))])

/-- Binds a struct, and gives the warnings about wishes that were not used. -/
def Class.ofRecord (source : SourceMap) (spec : ClassSpec) (policy : StalePolicy) (record : Decl) :
    RegistryM (Class × List String) := do
  let entity := spec.typedefName
  let (slots, w) ← bindSlots source entity ⟨spec.ignored, spec.renamed, []⟩ record.children
  let structName := if record.name.isEmpty then entity else record.name
  match policy, w.stale entity with
  | .deny, e :: _ => throw e
  | _, stale => pure ({ name := entity, structName, slots }, stale.map BindError.message)

end Bindery
