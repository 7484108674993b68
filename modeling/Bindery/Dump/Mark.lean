import Bindery.Dump.Origin

/-! The name in an attribute `annotate`. -/

namespace Bindery

/-- The text in the quotes behind an opening parenthesis. -/
def quotedArgument? (cs : List Char) : Option (List Char) :=
  match trimStart cs with
  | '(' :: rest =>
    match trimStart rest with
    | '"' :: quoted =>
      if quoted.contains '"' then some (quoted.takeWhile (· != '"')) else none
    | _ => none
  | _ => none

/-- The quoted argument of the first `annotate` that has one. -/
def annotateArgument? : List Char → Option (List Char)
  | [] => none
  | c :: cs =>
    let here :=
      if "annotate".toList.isPrefixOf (c :: cs) then quotedArgument? (cs.drop 7) else none
    here.or (annotateArgument? cs)

def isMacroChar (c : Char) : Bool :=
  c.isAlphanum || c == '_'

def wordAt? (offset : Nat) (text : String) : Option String :=
  (dropBytes? offset text.toList).bind fun cs =>
    let word := cs.takeWhile isMacroChar
    if word.isEmpty then none else some (String.ofList word)

/-- The name in an attribute: the one that the dump gives, the one quoted where the attribute is
spelled, or the macro that it comes from. -/
def Node.attributeName (o : Origin) (n : Node) : SourceM (Option String) := do
  match n.mark with
  | some name => pure (some name)
  | none =>
    let spelled ← SourceM.textThrough o n.start.spelling n.stop.spelling
    match spelled.bind annotateArgument? with
    | some name => pure (some (String.ofList name))
    | none =>
      match n.start.expansion with
      | none => pure none
      | some p => pure ((← SourceM.read o p.file).bind (wordAt? p.offset))

def attributeNames (o : Origin) : List Node → SourceM (List String)
  | [] => pure []
  | n :: ns => do
    let name ← if n.kind == "AnnotateAttr" then n.attributeName o else pure none
    pure (name.toList ++ (← attributeNames o ns))

end Bindery
