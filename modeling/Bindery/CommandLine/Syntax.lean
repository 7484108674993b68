import Bindery.Text.Integer

/-! The form of command lines: long and short options with values or without, single arguments, and
arguments behind two dashes. -/

namespace Bindery

structure OptionSpec where
  long : String
  short : Option Char := none
  /-- Whether a value follows. -/
  hasValue : Bool := true
  /-- Whether the option may be given more than once. -/
  repeats : Bool := false
  accepts : String → Bool := fun _ => true

structure CommandSpec where
  options : List OptionSpec
  /-- Single arguments, by what each of them accepts. -/
  arguments : List (String → Bool) := []
  /-- Whether arguments behind two dashes are kept apart from the others. -/
  keepsRest : Bool := false

/-- The options of a command line by their long names, with values, and its arguments. -/
structure GivenArgs where
  options : List (String × String) := []
  arguments : List String := []
  rest : List String := []
  deriving DecidableEq, Repr

/-- Why a command line is not carried out. -/
inductive ArgStop where
  | help | version | misuse
  deriving DecidableEq, Repr

namespace GivenArgs

def value? (g : GivenArgs) (long : String) : Option String :=
  (g.options.find? (·.1 == long)).map (·.2)

def has (g : GivenArgs) (long : String) : Bool :=
  (g.value? long).isSome

def values (g : GivenArgs) (long : String) : List String :=
  (g.options.filter (·.1 == long)).map (·.2)

def note (g : GivenArgs) (o : OptionSpec) (value : String) : Except ArgStop GivenArgs :=
  if (g.has o.long && !o.repeats) || !o.accepts value then .error .misuse
  else .ok { g with options := g.options ++ [(o.long, value)] }

end GivenArgs

namespace CommandSpec

def noteArgument (c : CommandSpec) (g : GivenArgs) (arg : String) : Except ArgStop GivenArgs :=
  match c.arguments[g.arguments.length]? with
  | some accepts =>
    if accepts arg then .ok { g with arguments := g.arguments ++ [arg] } else .error .misuse
  | none => .error .misuse

/-- Notes an option without a value. Two of them end the command line. -/
def noteFlag (g : GivenArgs) (o : OptionSpec) : Except ArgStop GivenArgs :=
  if o.long == "help" then .error .help
  else if o.long == "version" then .error .version
  else g.note o ""

/-- Whether an argument is an option and no value. -/
def isOption (arg : String) : Bool :=
  arg.startsWith "-" && arg != "-"

inductive ShortGroup where
  | done (g : GivenArgs)
  /-- The last option takes its value from the next argument. -/
  | wants (g : GivenArgs) (o : OptionSpec)

/-- Reads short options written together. The value of an option may follow at once, with an equals
sign or without one. -/
def shortGroup (c : CommandSpec) (g : GivenArgs) : List Char → Except ArgStop ShortGroup
  | [] => .ok (.done g)
  | ch :: cs =>
    match c.options.find? (·.short == some ch) with
    | none => .error .misuse
    | some o =>
      if !o.hasValue then do c.shortGroup (← noteFlag g o) cs
      else
        match cs with
        | [] => .ok (.wants g o)
        | '=' :: cs => (g.note o (String.ofList cs)).map .done
        | cs => (g.note o (String.ofList cs)).map .done

/-- A long option with the value behind its equals sign. -/
def splitLong (arg : String) : String × Option String :=
  let cs := arg.toList.drop 2
  let rest := cs.dropWhile (· != '=')
  (String.ofList (cs.takeWhile (· != '=')),
    if rest.isEmpty then none else some (String.ofList (rest.drop 1)))

/-- What has been read, and the option that takes its value from the next argument. -/
abbrev Scanned := GivenArgs × Option OptionSpec

/-- Reads one argument that starts with dashes. -/
def scanOption (c : CommandSpec) (g : GivenArgs) (arg : String) : Except ArgStop Scanned :=
  if arg.startsWith "--" then
    let (name, value) := splitLong arg
    match c.options.find? (·.long == name) with
    | none => .error .misuse
    | some o =>
      match o.hasValue, value with
      | false, some _ => .error .misuse
      | false, none => (noteFlag g o).map (·, none)
      | true, some v => (g.note o v).map (·, none)
      | true, none => .ok (g, some o)
  else
    match c.shortGroup g (arg.toList.drop 1) with
    | .error e => .error e
    | .ok (.done g) => .ok (g, none)
    | .ok (.wants g o) => .ok (g, some o)

def scan (c : CommandSpec) : Scanned → List String → Except ArgStop GivenArgs
  | (g, none), [] => .ok g
  | (_, some _), [] => .error .misuse
  | (g, some o), arg :: args =>
    if isOption arg then .error .misuse
    else
      match g.note o arg with
      | .error e => .error e
      | .ok g => c.scan (g, none) args
  | (g, none), arg :: args =>
    if arg == "--" then
      if c.keepsRest then .ok { g with rest := args } else args.foldlM c.noteArgument g
    else if isOption arg then
      match c.scanOption g arg with
      | .error e => .error e
      | .ok s => c.scan s args
    else
      match c.noteArgument g arg with
      | .error e => .error e
      | .ok g => c.scan (g, none) args

end CommandSpec

end Bindery
