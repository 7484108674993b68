import Bindery.Binding.Function
import Bindery.Generic.Key
import Bindery.Generic.Order

/-! The generics of an interface: structs that hold elements of a type which C cannot express, with
the instances that the headers use. -/

namespace Bindery

structure Generic where
  name : String
  structName : String
  pointer : PointerPolicy
  dependencies : List String
  /-- The keys of the instances, in ascending order. -/
  specializations : List String
  methods : List (String × Func)
  /-- Lines of code by signature. -/
  pythonMethods : List (String × List String)
  /-- Lines added to single instances, by key in ascending order. -/
  extensions : List (String × List String)

namespace Generic

def bare (name structName : String) (pointer : PointerPolicy) (dependencies : List String) :
    Generic :=
  ⟨name, structName, pointer, dependencies, [], [], [], []⟩

def addKey (key : String) (g : Generic) : Generic :=
  { g with specializations := insertName key g.specializations }

def key (g : Generic) (token : String) (location : Location) : Except BindError String :=
  specializationKey g.name g.pointer token location

def insertMethod (g : Generic) (name : String) (f : Func) : Except BindError Generic :=
  if g.methods.any (·.1 == name) then
    .error (.duplicateMethod g.name name f.function.location)
  else .ok { g with methods := g.methods ++ [(name, f)] }

def extendWith (key : String) (lines : List String) (g : Generic) : Generic :=
  { g with extensions := put g.extensions }
where
  put : List (String × List String) → List (String × List String)
    | [] => [(key, lines)]
    | e :: es =>
      if key < e.1 then (key, lines) :: e :: es
      else if key == e.1 then (e.1, e.2 ++ lines) :: es
      else e :: put es

end Generic

/-- Generics in the order of their registration, and the keys recorded for dependencies that are
not registered yet. -/
structure Registry where
  generics : List Generic := []
  pending : List (String × String) := []

namespace Registry

def get? (r : Registry) (name : String) : Option Generic :=
  r.generics.find? (·.name == name)

/-- The generic of a struct; of several the one registered last. -/
def forStruct? (r : Registry) (tag : String) : Option Generic :=
  r.generics.reverse.find? (·.structName == tag)

def modify (r : Registry) (name : String) (f : Generic → Generic) : Registry :=
  { r with generics := r.generics.map fun g => if g.name == name then f g else g }

/-- Adds a generic together with the keys recorded for it before. -/
def register (r : Registry) (g : Generic) : Except BindError Registry :=
  if (r.get? g.name).isSome then .error (.duplicateEntity "generic" g.name)
  else
    let keys := (r.pending.filter (·.1 == g.name)).map (·.2)
    .ok
      { generics := r.generics ++ [keys.foldl (fun g key => g.addKey key) g]
        pending := r.pending.filter (·.1 != g.name) }

/-- Records a key for one generic, or keeps it until the generic is registered. -/
def recordOne (r : Registry) (name key : String) : Registry :=
  if (r.get? name).isSome then r.modify name (·.addKey key)
  else { r with pending := r.pending ++ [(name, key)] }

/-- Records a key for a generic and its dependencies. A generic that is not registered has none. -/
def record (r : Registry) (name key : String) : Registry :=
  match r.get? name with
  | none => r
  | some g => g.dependencies.foldl (fun r d => r.recordOne d key) (r.modify name (·.addKey key))

/-- The edges from the dependencies of each generic to the generic. -/
def graph (r : Registry) : Graph String where
  vertices := r.generics.map (·.name)
  edges := r.generics.flatMap fun g =>
    (g.dependencies.filter fun d => (r.get? d).isSome).map fun d => (d, g.name)

/-- The names of a component in ascending order, the first one again at the end. -/
def closedWalk (names : List String) : List String :=
  let sorted := nameSet names
  sorted ++ sorted.head?.toList

/-- The names of the generics, dependencies before the generics that have them. -/
def dependencyOrder (r : Registry) : Except BindError (List String) :=
  match r.graph.topologicalOrder with
  | .ok order => .ok order
  | .error v => .error (.dependencyCycle (closedWalk (r.graph.component v)))

def checkDependencies (r : Registry) (g : Generic) : List String → Except BindError Unit
  | [] => .ok ()
  | d :: ds =>
    if (r.get? d).isSome then r.checkDependencies g ds
    else .error (.unknownDependency g.name d)

def checkExtensions (g : Generic) : List (String × List String) → Except BindError Unit
  | [] => .ok ()
  | e :: es =>
    if g.specializations.contains e.1 then checkExtensions g es
    else .error (.unknownSpecialization g.name e.1 g.specializations)

/-- Checks each generic in turn, its dependencies before its extensions, and then the order. -/
def validate (r : Registry) : Except BindError Unit := do
  r.generics.forM fun g => do
    r.checkDependencies g g.dependencies
    checkExtensions g g.extensions
  let _ ← r.dependencyOrder

end Registry

end Bindery
