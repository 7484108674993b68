import Bindery.Dump.Typedefs
import Bindery.Failure
import Bindery.Header
import Bindery.Source.Definitions

/-! The declarations of one header, loaded from a dump of it. Only what is written in the header
itself is kept; everything else serves to find out what typedefs stand for. -/

namespace Bindery

/-- The declarations of a header in the order of their offsets, and the texts they were read from. -/
structure HeaderUnit where
  name : String
  decls : List Decl
  source : SourceMap

inductive LoadError where
  /-- The root of a dump is another node than expected. -/
  | unexpectedRoot (kind : String)
  | stopped (fault : LoadFault)
  deriving DecidableEq, Repr

def LoadError.toFailure : LoadError → Failure
  | .unexpectedRoot kind =>
    .text s!"expected a TranslationUnitDecl at the root of the AST dump, found `{kind}`"
  | .stopped _ => ⟨.badOffset, []⟩

/-- Declarations kept so far, the last one first, and the kinds and names that are taken. -/
structure Kept where
  decls : List Decl := []
  taken : List (DeclKind × String) := []

namespace Kept

/-- Keeps a declaration, unless its kind and name are taken. Records and declarations without a name
may be repeated. -/
def add (k : Kept) (d : Decl) : Kept :=
  if d.kind.isRecord || d.isAnonymous then { k with decls := d :: k.decls }
  else if k.taken.contains (d.kind, d.name) then k
  else ⟨d :: k.decls, (d.kind, d.name) :: k.taken⟩

end Kept

namespace HeaderUnit

/-- The file of a node at the top that is written in the header. -/
def mainFile? (o : Origin) (n : Node) : Option String :=
  if n.isImplicit then none else (n.place.written.map (·.file)).filter o.isMain

/-- Builds and keeps the declarations of nodes of the header. -/
def keepDecls (names : DumpNames) (k : Kept) : List Node → LoadM Kept
  | [] => pure k
  | n :: ns => do
    match mainFile? names.origin n with
    | none => keepDecls names k ns
    | some file =>
      let _ ← LoadM.ofSource (SourceM.read names.origin file)
      match ← LoadM.declaration names n with
      | some d => keepDecls names (k.add d) ns
      | none => keepDecls names k ns

def defineDecl? (m : SourceMap) (file : String) (d : Definition) : Option Decl := do
  let place ← m.location? file d.nameOffset
  let start ← m.location? file d.start
  pure { Decl.bare .define d.name place with typeStart := some start, value := some d.value }

def build (names : DumpNames) (nodes : List Node) : LoadM (List Decl) := do
  let o := names.origin
  let k ← keepDecls names {} nodes
  let file := ((nodes.findSome? (mainFile? o))).getD o.path
  let _ ← LoadM.ofSource (SourceM.read o file)
  let sources := (← get).sources
  let defines := (Definition.scan o.text).filterMap (defineDecl? sources file)
  let k := defines.foldl Kept.add k
  pure (k.decls.reverse.mergeSort fun a b => a.location.offset ≤ b.location.offset)

def ofNode (o : Origin) (root : Node) : Except LoadError HeaderUnit :=
  let (root, adopted) := root.adopt
  if root.kind != "TranslationUnitDecl" then .error (.unexpectedRoot root.kind)
  else
    let typedefs := root.children.filter (·.kind == "TypedefDecl")
    match (build ⟨o, adopted⟩ root.children).run { fresh := typedefs } with
    | .ok (decls, s) => .ok ⟨o.name, decls, s.sources⟩
    | .error e => .error (.stopped e)

def ofDump (o : Origin) (dump : Json) : Except LoadError HeaderUnit :=
  ofNode o (Node.ofJson {} dump).1

/-- The pool from which the declarations are claimed. -/
def toHeader (u : HeaderUnit) : Except BindError Header :=
  Header.ofDecls u.name u.source u.decls

end HeaderUnit

end Bindery
