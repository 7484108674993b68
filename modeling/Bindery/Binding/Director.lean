import Bindery.Binding.Class

/-! Directors: tables of hooks that can be overridden. Every field that points to a function is a
hook; the other ones are data. -/

namespace Bindery

structure Hook where
  name : String
  args : List (String × CType)
  result : CType

structure Director where
  name : String
  fields : List (String × CType)
  hooks : List Hook

inductive HookOrData where
  | hook (h : Hook)
  | data (fields : List (String × CType))

/-- Sorts a slot of a class. The members of a union are data. -/
def HookOrData.ofSlot (className : String) : FieldSlot → Except BindError HookOrData
  | .union members => .ok (.data (members.map fun m => (m.name, m.type)))
  | .single f =>
    match f.type.asFunctionPointer.map fun t : CType => t.kind with
    | some (.function result args (some names) _) =>
      if names.length = args.length then .ok (.hook ⟨f.name, names.zip args, result⟩)
      else .error (unnamed f)
    | some (.function _ _ none _) => .error (unnamed f)
    | _ => .ok (.data [(f.name, f.type)])
where
  unnamed (f : Field) : BindError :=
    .unexpectedShape (className ++ "." ++ f.name) "hook parameter names could not be recovered"
      f.location

def HookOrData.hooks : HookOrData → List Hook
  | .hook h => [h]
  | .data _ => []

def HookOrData.fields : HookOrData → List (String × CType)
  | .hook _ => []
  | .data fields => fields

def Director.ofClass (c : Class) : Except BindError Director := do
  let parts ← c.slots.mapM (HookOrData.ofSlot c.name)
  pure ⟨c.name, parts.flatMap HookOrData.fields, parts.flatMap HookOrData.hooks⟩

end Bindery
