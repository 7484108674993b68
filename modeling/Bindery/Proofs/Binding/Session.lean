import Bindery.Binding.Context

/-! Sessions: any sequence of the calls of binding scripts, each on one of several headers. -/

namespace Bindery

/-- A call that changes the interface or claims declarations. -/
inductive BindCall where
  | addInclude (header : String)
  | ignore (name : String)
  | ignoreAll (stem : String)
  | addGeneric (typedefName : String) (pointer : PointerPolicy) (dependencies : List String)
  | addGenericMethod (generic name rename : String) (markers : GenericMarkers)
  | addPythonMethod (generic signature : String) (body : List String)
  | addExtension (generic key : String) (lines : List String)
  | addClass (spec : ClassSpec)
  | addDirector (typedefName : String)
  | addEnum (typedefName : String)
  | addDefines (names : List String) (stem : Option String)
  | addConstructor (cls name : String)
  | addDestructor (cls name : String)
  | addMethod (cls name rename : String) (options : FuncOptions)
  | addFunc (cls name rename : String) (options : FuncOptions)
  | addMethodsWith (cls stem : String)
  | addFuncsWith (cls stem : String)

def BindCall.run : BindCall → BindM Unit
  | .addInclude header => BindM.addInclude header
  | .ignore name => BindM.ignore name
  | .ignoreAll stem => do let _ ← BindM.ignoreAll stem
  | .addGeneric typedefName pointer dependencies =>
    BindM.addGeneric typedefName pointer dependencies
  | .addGenericMethod generic name rename markers =>
    BindM.addGenericMethod generic name rename markers
  | .addPythonMethod generic signature body => BindM.addPythonMethod generic signature body
  | .addExtension generic key lines => BindM.addExtension generic key lines
  | .addClass spec => do let _ ← BindM.addClass spec
  | .addDirector typedefName => BindM.addDirector typedefName
  | .addEnum typedefName => BindM.addEnum typedefName
  | .addDefines names stem => BindM.addDefines names stem
  | .addConstructor cls name => BindM.addConstructor cls name
  | .addDestructor cls name => BindM.addDestructor cls name
  | .addMethod cls name rename options => BindM.addMethod cls name rename options
  | .addFunc cls name rename options => BindM.addFunc cls name rename options
  | .addMethodsWith cls stem => do let _ ← BindM.addMethodsWith cls stem
  | .addFuncsWith cls stem => do let _ ← BindM.addFuncsWith cls stem

structure Session where
  context : Context
  headers : List Header

namespace Session

def start (options : BindOptions) (headers : List Header) : Session :=
  ⟨{ options }, headers⟩

/-- Makes a call on the header at a place. There is nothing to call where no header is. -/
def call (s : Session) (place : Nat) (c : BindCall) : Except BindError Unit × Session :=
  match s.headers[place]? with
  | none => (.ok (), s)
  | some h =>
    let (result, w) := c.run.run.run ⟨s.context, h⟩
    (result, ⟨w.context, s.headers.set place w.header⟩)

/-- Makes calls in turn and keeps their results. -/
def perform (s : Session) : List (Nat × BindCall) → List (Except BindError Unit) × Session
  | [] => ([], s)
  | (place, c) :: calls =>
    let (result, s') := s.call place c
    let (results, s'') := s'.perform calls
    (result :: results, s'')

end Session

/-- The functions bound to a class. -/
def Class.functions (c : Class) : List Func :=
  c.constructor.toList ++ c.destructor.toList ++ c.funcs.map (·.2) ++ c.methods.map (·.2)

/-- The functions bound to generics and to classes. -/
def Context.functions (c : Context) : List Func :=
  c.generics.generics.flatMap (fun g => g.methods.map (·.2)) ++ c.classes.flatMap Class.functions

end Bindery
