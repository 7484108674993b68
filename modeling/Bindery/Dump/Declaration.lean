import Bindery.Decl.RawType
import Bindery.Dump.Mark
import Bindery.Text.Integer

/-! Declarations built from single nodes whose types are known: their places and attributes, the
parameters of the functions they point to, and the values of enumerations. -/

namespace Bindery

def RawType.unknown : RawType :=
  .ofKind (.unexposed "") ""

/-- The place of a declaration, if it fits its words. A parameter without a name stands behind its type,
where the name would be. -/
def Node.location? (kind : DeclKind) (n : Node) : Option Location :=
  let behind :=
    match n.stop.written with
    | some p => p.after?
    | none => some ((n.start.written.map Point.location).getD .unknown)
  match n.place.written with
  | some p => if kind == .parameter && n.name.isEmpty then behind else some p.location
  | none => behind

/-- Where the text of a declaration starts, if that is before its place and in the same file. -/
def Node.startBefore (l : Location) (n : Node) : Option Location :=
  (n.start.written.map Point.location).filter fun s => s.file == l.file && s.offset ≤ l.offset

def Node.declared (o : Origin) (kind : DeclKind) (n : Node) : SourceM Decl := do
  let l ← liftM (fitted (n.location? kind))
  let marks ← attributeNames o n.children
  pure { Decl.bare kind n.name l with typeStart := n.startBefore l, annotations := nameSet marks }

/-- Where the name of a parameter stands; a parameter that was not found is where its owner is. -/
def SourceM.paramPlace (o : Origin) (owner : Location) (text : Option ParamText) :
    SourceM Location := do
  match text with
  | some p => pure ((← location? o owner.file p.nameOffset).getD owner)
  | none => pure owner

def SourceM.paramStart (o : Origin) (owner : Location) (text : Option ParamText) :
    SourceM (Option Location) := do
  match text with
  | some p => location? o owner.file p.start
  | none => pure none

mutual

/-- The parameters of the function that a type is, points to or is an array of. `texts` are the
parameters found in the text; they count only if there is one for each argument. -/
def RawType.paramDecls (o : Origin) (texts : Option (List ParamText)) (owner : Location) :
    RawType → SourceM (List Decl)
  | ⟨kind, _, _⟩ => kind.paramDecls o texts owner

def RawKind.paramDecls (o : Origin) (texts : Option (List ParamText)) (owner : Location) :
    RawKind → SourceM (List Decl)
  | .function _ args _ =>
    RawType.argDecls o (texts.filter (·.length == args.length)) owner args
  | .pointer pointee => pointee.paramDecls o texts owner
  | .constantArray element _ => element.paramDecls o texts owner
  | .incompleteArray element => element.paramDecls o texts owner
  | .builtin _ => pure []
  | .elaborated _ => pure []
  | .typedef _ _ _ => pure []
  | .record _ _ => pure []
  | .enum _ => pure []
  | .unexposed _ => pure []

def RawType.argDecls (o : Origin) (texts : Option (List ParamText)) (owner : Location) :
    List RawType → SourceM (List Decl)
  | [] => pure []
  | t :: ts => do
    let text := texts.bind (·.head?)
    let place ← SourceM.paramPlace o owner text
    let start ← SourceM.paramStart o owner text
    let children ← t.paramDecls o (text.bind (·.nested)) place
    let name := (text.map (·.name)).getD ""
    let d :=
      { Decl.bare .parameter name place with typeStart := start, type := some t, children }
    pure (d :: (← RawType.argDecls o (texts.map (·.tail)) owner ts))

end

/-- The function that a type is, points to or is an array of, if there is one. -/
def RawType.isFunctional : RawType → Bool
  | ⟨.function _ _ _, _, _⟩ => true
  | ⟨.pointer pointee, _, _⟩ => pointee.isFunctional
  | ⟨.constantArray element _, _, _⟩ => element.isFunctional
  | ⟨.incompleteArray element, _, _⟩ => element.isFunctional
  | _ => false

/-- The offset behind a name that stands at a place, if it has 64 bits. -/
def Location.behind? (l : Location) (name : String) : Option Nat :=
  sumBelow? limit64 l.offset name.utf8ByteSize

/-- The parameters written behind the name of a declaration. -/
def SourceM.paramTexts (o : Origin) (d : Decl) : SourceM (Option (List ParamText)) := do
  if d.isAnonymous then pure none
  else
    let stop ← liftM (fitted (d.location.behind? d.name))
    match ← read o d.location.file with
    | none => pure none
    | some text => liftM ((ParamText.recover text stop).mapError LoadFault.badOffset)

/-- Gives a declaration its type, and the parameters of a function behind it. -/
def Decl.withType (o : Origin) (t : RawType) (d : Decl) : SourceM Decl := do
  if t.isFunctional then
    let params ← t.paramDecls o (← SourceM.paramTexts o d) d.location
    pure { d with type := some t, children := d.children ++ params }
  else pure { d with type := some t }

def Node.typed (o : Origin) (kind : DeclKind) (t : RawType) (n : Node) : SourceM Decl := do
  (← n.declared o kind).withType o t

def Node.writtenText (o : Origin) (n : Node) : SourceM (Option String) := do
  pure ((← SourceM.textThrough o n.start.written n.stop.written).map fun cs => String.ofList (trim cs))

/-- The value behind that of the constant before: the next number, if it has 64 bits, or a sum as text if
the value before is no number. -/
def countedValue? : Option (String × String) → Option String
  | none => some "0"
  | some (name, value) =>
    match integerLiteral? value with
    | some n => (nextInteger? n).map toString
    | none => some (name ++ " + 1")

/-- The value of a constant: what it was evaluated to, or its initializer as written, or the value
behind that of the constant `before`. -/
def Node.constantValue (o : Origin) (before : Option (String × String)) (n : Node) :
    SourceM String := do
  match n.firstValue with
  | some value => pure value
  | none =>
    match n.children.find? (!·.kind.endsWith "Attr") with
    | some init => pure ((← init.writtenText o).getD "")
    | none => liftM (fitted (countedValue? before))

def constants (o : Origin) (before : Option (String × String)) : List Node → SourceM (List Decl)
  | [] => pure []
  | n :: ns => do
    let value ← n.constantValue o before
    let d ← n.declared o .enumConstant
    let rest ← constants o (some (n.name, value)) ns
    pure ({ d with value := some value } :: rest)

def Node.enumeration (o : Origin) (n : Node) : SourceM Decl := do
  let d ← n.declared o .enum
  pure { d with children := ← constants o none (n.children.filter (·.kind == "EnumConstantDecl")) }

end Bindery
