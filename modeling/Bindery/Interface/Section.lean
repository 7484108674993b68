import Bindery.Interface.Director
import Bindery.Interface.Writer

/-! The sections of an interface in their order, and the text of each. Generics come first, each
before those that depend on it, with their instances; then the extensions of single instances,
classes, directors, enumerations and constants. -/

namespace Bindery

inductive Section where
  | preamble
  | template (g : Generic)
  | instantiation (generic key : String)
  | extension (generic key : String) (lines : List String)
  | class (c : Class)
  | director (d : Director)
  | enumeration (e : BoundEnum)
  | defines (group : List (String × String))

/-- Lines of code that another tool takes over as they are. -/
def verbatim (lines : List String) : List String :=
  "%\x7b" :: lines ++ ["%\x7d"]

/-- Switches for warnings about deprecated functions and the helper that gives them. -/
def deprecationHelpers (m : String) : List String :=
  ["%inline %\x7b", s!"bool {m}_warn_deprecate = true;",
    s!"bool {m}_warn_deprecate_instructions = true;", "%\x7d"] ++
  verbatim
    (enclosed s!"static void {m}_try_warn_deprecate(const char *name, const char *c_name) \x7b"
      (enclosed s!"if (!{m}_warn_deprecate) \x7b" ["return;"] "\x7d" ++
        ["PyErr_WarnFormat(PyExc_DeprecationWarning, 1, \"%s (%s) is deprecated\", name, c_name);"] ++
        enclosed s!"if ({m}_warn_deprecate_instructions) \x7b"
          ["PySys_WriteStderr(\"Set " ++ m ++ ".cvar." ++ m ++
              "_warn_deprecate = False to hide deprecation warnings\\n\");",
            s!"{m}_warn_deprecate_instructions = false;"]
          "\x7d")
      "\x7d")

def preambleLines (c : Context) : List String :=
  ((if c.options.directors then "%module(directors=1) " else "%module ") ++ c.options.module) ::
    verbatim (c.includes.map fun h => s!"#include <{h}>") ++
    deprecationHelpers c.options.module

def pythonMethodLines (m : String × List String) : List String :=
  enclosed "%pythoncode %\x7b" (("def " ++ m.1 ++ ":") :: deeper m.2) "%\x7d"

/-- The template from which the instances of a generic are made. They are one type in C. -/
def templateLines (names : RecordNames) (options : BindOptions) (g : Generic) : List String :=
  let n := g.name
  enclosed s!"%define %{n}(TYPE)"
    ([s!"%nodefaultctor {n}_##TYPE;"] ++ verbatim [s!"typedef {n} {n}_##TYPE;"] ++
      [s!"typedef struct \x7b\x7d {n}_##TYPE;"] ++
      enclosed s!"%extend {n}_##TYPE \x7b"
        (g.methods.flatMap (Func.lines names options g.structName) ++
          g.pythonMethods.flatMap pythonMethodLines)
        "\x7d")
    "%enddef"

def fieldLine (names : RecordNames) (f : Field) : String :=
  f.type.declare names f.name false ++ ";"

def slotLines (names : RecordNames) : FieldSlot → List String
  | .single f => [fieldLine names f]
  | .union members => enclosed "union \x7b" (members.map (fieldLine names)) "\x7d;"

def renameLines (c : Class) : List String :=
  c.allFields.filterMap fun f => f.rename.map fun r => s!"%rename {c.structName}::{f.name} {r};"

/-- Takes the new names of fields back. -/
def unrenameLines (c : Class) : List String :=
  c.allFields.filterMap fun f =>
    f.rename.map fun _ => s!"%rename {c.structName}::{f.name} \"\";"

/-- The functions of a class in the order in which they are written. -/
def Class.entries (c : Class) : List (String × Func) :=
  c.constructor.toList.map (c.structName, ·) ++ c.destructor.toList.map (c.structName, ·) ++
    c.funcs ++ c.methods

def classLines (names : RecordNames) (options : BindOptions) (c : Class) : List String :=
  let s := c.structName
  [s!"typedef struct {s} {c.name};", s!"%rename {s} {c.name};"] ++ renameLines c ++
    enclosed s!"struct {s} \x7b" (c.slots.flatMap (slotLines names)) "\x7d;" ++ unrenameLines c ++
    (if c.hasFunctions then
      enclosed s!"%extend {s} \x7b" (c.entries.flatMap (Func.lines names options s)) "\x7d"
    else [])

namespace Section

def lines (c : Context) : Section → List String
  | .preamble => preambleLines c
  | .template g => templateLines c.recordNames c.options g
  | .instantiation generic key => [s!"%{generic}({key})"]
  | .extension generic key lines => enclosed s!"%extend {generic}_{key} \x7b" lines "\x7d"
  | .class cls => classLines c.recordNames c.options cls
  | .director d => d.lines c.recordNames
  | .enumeration e =>
    enclosed "typedef enum \x7b" (e.constants.map fun p => s!"{p.1} = {p.2},")
      ("\x7d " ++ e.typedefName ++ ";")
  | .defines group => group.map fun p => s!"#define {p.1} {p.2}"

def ofGeneric (g : Generic) : List Section :=
  .template g :: g.specializations.map (.instantiation g.name)

def extensionsOf (g : Generic) : List Section :=
  g.extensions.map fun e => .extension g.name e.1 e.2

end Section

namespace Context

/-- The sections of an interface. There are none if the generics depend on each other in a
circle. -/
def sections (c : Context) : Except BindError (List Section) := do
  let order := (← c.generics.dependencyOrder).filterMap c.generics.get?
  pure (.preamble :: order.flatMap Section.ofGeneric ++ order.flatMap Section.extensionsOf ++
    c.classes.map .class ++ c.directors.map .director ++ c.enums.map .enumeration ++
    c.defines.map .defines)

def render (c : Context) : Except BindError String := do
  pure ((({} : Writer).addLines ((← c.sections).flatMap (Section.lines c))).text)

end Context

end Bindery
