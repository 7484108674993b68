import Bindery.Interface.Function

/-! The text of a director: a table of virtual functions, adapters that call them, a builder that
fills in the table of hooks, and code that registers a class. -/

namespace Bindery

namespace Hook

def parameters (names : RecordNames) (h : Hook) : String :=
  ", ".intercalate (h.args.map fun a => a.2.declare names a.1 false)

def declared (names : RecordNames) (h : Hook) (name : String) : String :=
  h.result.declare names name false ++ "(" ++ h.parameters names ++ ") \x7b"

end Hook

namespace Director

def virtuals (names : RecordNames) (d : Director) : List String :=
  ["%inline %\x7b", s!"struct {d.name}Director \x7b"] ++
    deeper (d.hooks.flatMap (fun h =>
      ["virtual " ++ h.declared names h.name,
        s!"    throw Swig::DirectorPureVirtualException(\"{h.name}\");", "\x7d"]) ++
      [s!"virtual ~{d.name}Director() \x7b\x7d"]) ++
    ["\x7d;", "%\x7d"]

/-- Functions that forward to the object in use. -/
def adapters (names : RecordNames) (d : Director) : List String :=
  ["%\x7b", s!"static {d.name}Director *SWIG_{d.name}Director = NULL;", "%\x7d", "%\x7b"] ++
    d.hooks.flatMap (fun h =>
      let actuals := ", ".intercalate (h.args.map (·.1))
      [h.declared names s!"SWIG_{d.name}_{h.name}",
        s!"    return SWIG_{d.name}Director->{h.name}({actuals});", "\x7d"]) ++
    ["%\x7d"]

/-- The function that fills in a table of hooks. -/
def buildLines (d : Director) : List String :=
  enclosed s!"{d.name} *build({d.name}Director *director) \x7b"
    ([s!"SWIG_{d.name}Director = director;",
      s!"{d.name} *result = ({d.name} *)calloc(1, sizeof({d.name}));"] ++
      d.hooks.flatMap (fun h =>
        [s!"if (this->enable_{h.name}) \x7b",
          s!"    result->{h.name} = SWIG_{d.name}_{h.name};", "\x7d"]) ++
      (d.fields.map fun f => s!"result->{f.1} = this->{f.1};") ++
      ["return result;"])
    "\x7d"

def builder (names : RecordNames) (d : Director) : List String :=
  ["%inline %\x7b", s!"struct {d.name}Builder \x7b"] ++
    deeper ((d.hooks.map fun h => s!"bool enable_{h.name};") ++
      (d.fields.map fun f => f.2.declare names f.1 false ++ ";") ++ d.buildLines) ++
    ["\x7d;", "%\x7d"]

def registration (d : Director) : List String :=
  ["%pythoncode %\x7b", s!"def register_{d.name}(director_class):"] ++
    deeper
      (enclosed "fields = [" (d.fields.map fun f => s!"\"{f.1}\",") "]" ++
        enclosed "funcs = [" (d.hooks.map fun h => s!"\"{h.name}\",") "]" ++
        [s!"builder = {d.name}Builder()",
          "class_vars = vars(director_class).keys()",
          "for field in fields:",
          "    if field in class_vars:",
          "        setattr(builder, field, getattr(director_class, field))",
          "for func in funcs:",
          "    if func in class_vars:",
          "        setattr(builder, f\"enable_\x7bfunc\x7d\", True)",
          "director = director_class()",
          "return director, builder.build(director)"]) ++
    ["%\x7d"]

def lines (names : RecordNames) (d : Director) : List String :=
  s!"%feature(\"director\") {d.name}Director;" ::
    d.virtuals names ++ d.adapters names ++ d.builder names ++ d.registration

end Director

end Bindery
