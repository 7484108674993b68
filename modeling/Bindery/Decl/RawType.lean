import Bindery.Decl.Basic

/-! Building types and taking their sugar off. A built type is spelled from the spellings of its
parts; desugaring removes keywords and typedefs at every level and keeps the const flags. -/

namespace Bindery

namespace RawKind

def label : RawKind → String
  | .builtin _ => "builtin"
  | .elaborated _ => "elaborated"
  | .pointer _ => "pointer"
  | .constantArray _ _ => "constant array"
  | .incompleteArray _ => "incomplete array"
  | .typedef _ _ _ => "typedef"
  | .record _ _ => "record"
  | .enum _ => "enum"
  | .function _ _ _ => "function prototype"
  | .unexposed _ => "unexposed"

end RawKind

namespace RawType

def ofKind (kind : RawKind) (spelling : String) : RawType :=
  ⟨kind, spelling, false⟩

/-- Makes this level const. The word goes behind a pointer and before any other type. -/
def constant (t : RawType) : RawType :=
  if t.isConst then t else
    match t.kind with
    | .pointer _ => ⟨t.kind, t.spelling ++ " const", true⟩
    | _ => ⟨t.kind, "const " ++ t.spelling, true⟩

def builtin (p : Primitive) : RawType :=
  ofKind (.builtin p) p.cName

def pointer (pointee : RawType) : RawType :=
  ofKind (.pointer pointee)
    (pointee.spelling ++ (if pointee.spelling.endsWith "*" then "*" else " *"))

def tagged (name : String) (isUnion : Bool) : RawType :=
  ofKind (.elaborated (ofKind (.record name isUnion) name))
    ((if isUnion then "union " else "struct ") ++ name)

def struct (name : String) : RawType :=
  tagged name false

def union (name : String) : RawType :=
  tagged name true

def enum (name : String) : RawType :=
  ofKind (.enum name) ("enum " ++ name)

def typedef (name : String) (underlying : RawType) (decl : Option Decl) : RawType :=
  ofKind (.typedef name underlying decl) name

def array (element : RawType) : Option Nat → RawType
  | some n => ofKind (.constantArray element n) s!"{element.spelling} [{n}]"
  | none => ofKind (.incompleteArray element) (element.spelling ++ " []")

def function (result : RawType) (args : List RawType) (variadic : Bool) : RawType :=
  let params := args.map (·.spelling) ++ (if variadic then ["..."] else [])
  ofKind (.function result args variadic)
    (result.spelling ++ " (" ++ ", ".intercalate params ++ ")")

def pointee (t : RawType) : Option RawType :=
  match t.kind with
  | .pointer p => some p
  | _ => none

def element (t : RawType) : Option RawType :=
  match t.kind with
  | .constantArray e _ => some e
  | .incompleteArray e => some e
  | _ => none

def result (t : RawType) : Option RawType :=
  match t.kind with
  | .function r _ _ => some r
  | _ => none

def arguments (t : RawType) : List RawType :=
  match t.kind with
  | .function _ args _ => args
  | _ => []

/-- The type below the keywords and typedefs of the outermost level. -/
def canonical : RawType → RawType
  | ⟨.elaborated inner, _, _⟩ => inner.canonical
  | ⟨.typedef _ underlying _, _, _⟩ => underlying.canonical
  | t => t

/-- The tag of the record a type names, if it names one. -/
def recordName (t : RawType) : Option String :=
  match t.canonical.kind with
  | .record name _ => some name
  | _ => none

mutual

/-- Takes keywords and typedefs away at every level. A level that took the place of const ones is
const; the other levels keep their spelling. -/
def desugared : RawType → RawType
  | ⟨kind, spelling, isConst⟩ =>
    let inner := desugaredKind kind spelling isConst
    if isConst then inner.constant else inner

/-- The type of a kind without sugar, before the const flag of the level is added. -/
def desugaredKind : RawKind → String → Bool → RawType
  | .elaborated inner, _, _ => inner.desugared
  | .typedef _ underlying _, _, _ => underlying.desugared
  | .pointer pointee, spelling, _ => ofKind (.pointer pointee.desugared) spelling
  | .constantArray element n, spelling, _ => ofKind (.constantArray element.desugared n) spelling
  | .incompleteArray element, spelling, _ => ofKind (.incompleteArray element.desugared) spelling
  | .function result args variadic, spelling, _ =>
    ofKind (.function result.desugared (desugaredList args) variadic) spelling
  | .builtin p, spelling, isConst => ⟨.builtin p, spelling, isConst⟩
  | .record name isUnion, spelling, isConst => ⟨.record name isUnion, spelling, isConst⟩
  | .enum name, spelling, isConst => ⟨.enum name, spelling, isConst⟩
  | .unexposed text, spelling, isConst => ⟨.unexposed text, spelling, isConst⟩

def desugaredList : List RawType → List RawType
  | [] => []
  | t :: ts => t.desugared :: desugaredList ts

end

end RawType

end Bindery
