import Bindery.Binding.Error
import Bindery.Decl.Basic
import Bindery.Source.Map

/-! The pool of the declarations of a header. Each one is claimed at most once. -/

namespace Bindery

structure HeaderEntry where
  decl : Decl
  claimed : Bool

/-- A header with its declarations in the order of the source; a kind and a name occur together in
one entry only. -/
structure Header where
  name : String
  source : SourceMap
  entries : List HeaderEntry := []

def HeaderEntry.declares (e : HeaderEntry) (kind : DeclKind) (name : String) : Bool :=
  e.decl.kind == kind && e.decl.name == name

namespace Header

def find? (h : Header) (kind : DeclKind) (name : String) : Option HeaderEntry :=
  h.entries.find? (·.declares kind name)

/-- Adds a declaration. One without a name is left out; of the declarations of a record the one with
a body stays, and otherwise the last. Any other repetition is an error. -/
def insert (h : Header) (d : Decl) : Except BindError Header :=
  if d.isAnonymous then .ok h
  else
    match h.find? d.kind d.name with
    | none => .ok { h with entries := h.entries ++ [⟨d, false⟩] }
    | some e =>
      if d.kind.isRecord && e.decl.isForward then
        .ok { h with entries := h.entries.map fun e =>
          if e.declares d.kind d.name then { e with decl := d } else e }
      else if d.kind.isRecord && d.isForward then .ok h
      else .error (.redeclaration d.kind.label d.name d.location)

def ofDecls (name : String) (source : SourceMap) (decls : List Decl) : Except BindError Header :=
  decls.foldlM insert ⟨name, source, []⟩

/-- A declaration that is not claimed. -/
def get? (h : Header) (kind : DeclKind) (name : String) : Option Decl :=
  ((h.find? kind name).filter (!·.claimed)).map (·.decl)

/-- Claims every entry that `p` holds of. -/
def claim (h : Header) (p : HeaderEntry → Bool) : Header :=
  { h with entries := h.entries.map fun e => if p e then { e with claimed := true } else e }

def pop (h : Header) (kind : DeclKind) (name : String) : Except BindError (Decl × Header) :=
  match h.get? kind name with
  | some d => .ok (d, h.claim (·.declares kind name))
  | none => .error (.notFound kind.label name h.name (h.find? kind name).isSome)

def ignore (h : Header) (name : String) : Except BindError Header :=
  if h.entries.any fun e => e.decl.name == name && !e.claimed then
    .ok (h.claim (·.decl.name == name))
  else
    .error (.notFound "declaration" name h.name (h.entries.any (·.decl.name == name)))

/-- Claims all declarations whose names start with `stem`, and counts them. -/
def ignoreAll (h : Header) (stem : String) : Nat × Header :=
  ((h.entries.filter fun e => !e.claimed && e.decl.name.startsWith stem).length,
    h.claim (·.decl.name.startsWith stem))

def unclaimed (h : Header) : List Decl :=
  (h.entries.filter (!·.claimed)).map (·.decl)

def available (h : Header) (kind : DeclKind) : List Decl :=
  h.unclaimed.filter (·.kind == kind)

/-- The names of the functions not claimed that start with `stem`. -/
def functionsWith (h : Header) (stem : String) : List String :=
  ((h.available .function).map (·.name)).filter (·.startsWith stem)

/-- The names of the constants not claimed that start with `stem`; none without a stem. -/
def definesWith (h : Header) : Option String → List String
  | none => []
  | some stem => ((h.available .define).map (·.name)).filter (·.startsWith stem)

def decls (h : Header) : List Decl :=
  h.entries.map (·.decl)

end Header

end Bindery
