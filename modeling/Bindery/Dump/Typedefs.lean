import Bindery.Dump.Adoption
import Bindery.Dump.Declaration
import Bindery.QualType.Parser

/-! The typedefs of a dump. A typedef is built when its name is first asked for, after those that its
own type asks for. While it is being built its name means nothing, so typedefs may refer to each
other in a circle. -/

namespace Bindery

/-- What is fixed while declarations are built: the header, and the names given to records without
one. -/
structure DumpNames where
  origin : Origin
  adopted : Node.Adopted

/-- The typedefs that were not asked for yet, those that are built, and the texts read so far. -/
structure Loading where
  fresh : List Node
  typedefs : List (String × Decl) := []
  sources : SourceMap := {}

def Loading.typedef? (s : Loading) (name : String) : Option Decl :=
  (s.typedefs.find? (·.1 == name)).map (·.2)

/-- What the typedefs built so far stand for. -/
def Loading.lookup (s : Loading) : TypedefLookup := fun name =>
  (s.typedef? name).map fun d => (d.type.getD .unknown, some d)

namespace Node

/-- The names that the type of a node asks for, in order. -/
def typeNames (names : DumpNames) (n : Node) : List String :=
  match n.typeText with
  | none => []
  | some text =>
    match QualType.read names.adopted.name? text with
    | .ok (_, asked) => asked
    | .error r => r.asked

def type (names : DumpNames) (typedefs : TypedefLookup) (n : Node) : RawType :=
  match n.typeText with
  | none => .unknown
  | some text => QualType.parse ⟨typedefs, names.adopted.name?⟩ text

end Node

inductive LoadStep where
  | enter (name : String)
  | define (typedef : Node)

def Node.otherThan (name : String) (nodes : List Node) : List Node :=
  nodes.filter (·.name != name)

theorem Node.length_otherThan_lt {name : String} {nodes : List Node} {n : Node}
    (h : nodes.find? (·.name == name) = some n) : (otherThan name nodes).length < nodes.length := by
  refine List.length_filter_lt_length_iff_exists.2 ⟨n, List.mem_of_find?_eq_some h, ?_⟩
  simpa using List.find?_some h

/-- Carries out steps. Entering a name puts the steps for its typedef before the others. -/
def Loading.settle (names : DumpNames) (s : Loading) (todo : List LoadStep) :
    Except LoadFault Loading :=
  match todo with
  | [] => .ok s
  | .enter name :: todo =>
    match _h : s.fresh.find? (·.name == name) with
    | none => s.settle names todo
    | some n =>
      Loading.settle names { s with fresh := Node.otherThan name s.fresh }
        ((n.typeNames names).map LoadStep.enter ++ LoadStep.define n :: todo)
  | .define n :: todo =>
    match (n.typed names.origin .typedef (n.type names s.lookup)).run s.sources with
    | .error e => .error e
    | .ok (d, sources) =>
      Loading.settle names ⟨s.fresh, (n.name, d) :: s.typedefs, sources⟩ todo
termination_by (s.fresh.length, todo.length)
decreasing_by
  · exact Prod.Lex.right _ (by simp)
  · exact Prod.Lex.left _ _ (Node.length_otherThan_lt _h)
  · exact Prod.Lex.right _ (by simp)

/-- Steps that build declarations. -/
abbrev LoadM := StateT Loading (Except LoadFault)

namespace LoadM

def ofSource {α : Type} (x : SourceM α) : LoadM α := do
  let s ← get
  let (a, sources) ← liftM (x.run s.sources)
  set { s with sources }
  pure a

/-- Builds the typedefs of names, unless they are built. -/
def enter (names : DumpNames) (wanted : List String) : LoadM Unit := do
  set (← liftM ((← get).settle names (wanted.map .enter)))

def typeOf (names : DumpNames) (n : Node) : LoadM RawType := do
  enter names (n.typeNames names)
  pure (n.type names (← get).lookup)

def typed (names : DumpNames) (kind : DeclKind) (n : Node) : LoadM Decl := do
  let t ← typeOf names n
  ofSource (n.typed names.origin kind t)

def params (names : DumpNames) : List Node → LoadM (List Decl)
  | [] => pure []
  | n :: ns => do
    let d ← typed names .parameter n
    pure (d :: (← params names ns))

def function (names : DumpNames) (n : Node) : LoadM Decl := do
  let t ← typeOf names n
  let d ← ofSource (n.declared names.origin .function)
  let children ← params names (n.children.filter (·.kind == "ParmVarDecl"))
  pure { d with type := some t, children }

/-- Whether the type of a node is a record without a name. -/
def hasUnnamedType (n : Node) : Bool :=
  (n.typeText.bind QualType.anonymousKey).isSome

/-- Whether the last of the members, given in reverse, is a record without a name. -/
def endsUnnamed (members : List Decl) : Bool :=
  members.head?.any fun d => d.kind.isRecord && d.isAnonymous

mutual

/-- A record with its members, if it has a body. -/
def record (names : DumpNames) : Node → LoadM Decl
  | n@⟨_, _, _, _, _, _, _, _, _, _, _, children⟩ => do
    let kind := if n.tag == some "union" then DeclKind.union else .struct
    let d ← ofSource (n.declared names.origin kind)
    if n.isComplete then pure { d with children := ← members names [] children } else pure d

/-- The fields and records in a record. Fields without a name are left out; a field whose type is a
record without a name is left out together with the record before it. -/
def members (names : DumpNames) (seen : List Decl) : List Node → LoadM (List Decl)
  | [] => pure seen.reverse
  | n :: ns => do
    if n.kind == "FieldDecl" then
      if n.isImplicit || n.name.isEmpty then members names seen ns
      else if hasUnnamedType n && endsUnnamed seen then members names seen.tail ns
      else do members names ((← typed names .field n) :: seen) ns
    else if n.kind == "RecordDecl" then do members names ((← record names n) :: seen) ns
    else members names seen ns

end

/-- The declaration of a node at the top, if it declares something. -/
def declaration (names : DumpNames) (n : Node) : LoadM (Option Decl) := do
  match n.kind with
  | "FunctionDecl" => some <$> function names n
  | "RecordDecl" => some <$> record names n
  | "EnumDecl" => some <$> ofSource (n.enumeration names.origin)
  | "VarDecl" => some <$> typed names .variable n
  | "TypedefDecl" =>
    enter names [n.name]
    pure ((← get).typedef? n.name)
  | _ => pure none

end LoadM

end Bindery
