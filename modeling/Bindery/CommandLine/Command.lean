import Bindery.CommandLine.Syntax
import Bindery.Decl.Basic
import Bindery.Binding.Class

/-! The commands of the tool and what their command lines say. -/

namespace Bindery

/-- Where headers come from and how they are read. -/
structure SourceArgs where
  dirs : List String
  dumps : Option String
  clang : Option String
  config : Option String
  clangArgs : List String
  deriving DecidableEq, Repr

structure GenerateArgs where
  script : String
  list : Bool
  outputDir : Option String
  module : Option String
  noDirectors : Bool
  stale : Option StalePolicy
  sources : SourceArgs
  deriving DecidableEq, Repr

structure InspectArgs where
  header : String
  kinds : List DeclKind
  stem : Option String
  json : Bool
  sources : SourceArgs
  deriving DecidableEq, Repr

inductive Command where
  | generate (args : GenerateArgs)
  | inspect (args : InspectArgs)
  | completions (shell : String)
  deriving DecidableEq, Repr

/-- A command, and whether messages are to be without colours. -/
structure Invocation where
  plain : Bool
  command : Command
  deriving DecidableEq, Repr

namespace Invocation

def usage : String :=
  "Usage: swivel [OPTIONS] <generate|inspect|completions> [ARGS]\n"

def version : String :=
  "swivel 0.1.0\n"

def isPath (text : String) : Bool :=
  !text.isEmpty

/-- A number of 64 bits, with a plus before it or not. -/
def isCount (text : String) : Bool :=
  let cs := text.toList
  let cs := if cs.head? == some '+' then cs.drop 1 else cs
  !cs.isEmpty && (digitsValue? 10 0 cs).any (· < limit64)

def flag (long : String) (short : Option Char) : OptionSpec :=
  { long, short, hasValue := false }

def commonOptions : List OptionSpec :=
  [flag "verbose" (some 'v'), flag "no-color" none, flag "help" (some 'h')]

def sourceOptions : List OptionSpec :=
  [{ long := "include", short := some 'I', repeats := true, accepts := isPath },
    { long := "dumps", accepts := isPath }, { long := "clang", accepts := isPath },
    { long := "config", accepts := isPath }]

def stalePolicies : List (String × StalePolicy) :=
  [("warn", .warn), ("deny", .deny)]

def kindWords : List (String × DeclKind) :=
  [("function", .function), ("struct", .struct), ("union", .union), ("typedef", .typedef),
    ("enum", .enum), ("macro", .define), ("variable", .variable)]

def shells : List String :=
  ["bash", "elvish", "fish", "powershell", "zsh"]

def isWordOf {α : Type} (table : List (String × α)) (word : String) : Bool :=
  table.any (·.1 == word)

def meaning? {α : Type} (table : List (String × α)) (word : String) : Option α :=
  (table.find? (·.1 == word)).map (·.2)

def generateSpec : CommandSpec where
  options := commonOptions ++ sourceOptions ++
    [{ long := "script", short := some 's' }, flag "list" none,
      { long := "output-dir", short := some 'o', accepts := isPath },
      { long := "module", short := some 'm' }, flag "no-directors" none,
      { long := "stale-fields", accepts := isWordOf stalePolicies },
      { long := "jobs", short := some 'j', accepts := isCount }]
  keepsRest := true

def inspectSpec : CommandSpec where
  options := commonOptions ++ sourceOptions ++
    [{ long := "kind", short := some 'k', repeats := true, accepts := isWordOf kindWords },
      { long := "prefix", short := some 'p' }, flag "json" none]
  arguments := [isPath]
  keepsRest := true

def completionsSpec : CommandSpec where
  options := commonOptions
  arguments := [shells.contains]

def frontSpec : CommandSpec where
  options := commonOptions ++ [flag "version" (some 'V')]

/-- What the options about sources say. A path of the compiler may come from the environment. -/
def sourceArgs (clang : Option String) (g : GivenArgs) : SourceArgs where
  dirs := g.values "include"
  dumps := g.value? "dumps"
  clang := (g.value? "clang").or clang
  config := g.value? "config"
  clangArgs := g.rest

def generateArgs (clang : Option String) (g : GivenArgs) : GenerateArgs where
  script := (g.value? "script").getD "rizin"
  list := g.has "list"
  outputDir := g.value? "output-dir"
  module := g.value? "module"
  noDirectors := g.has "no-directors"
  stale := (g.value? "stale-fields").bind (meaning? stalePolicies)
  sources := sourceArgs clang g

def inspectArgs (clang : Option String) (header : String) (g : GivenArgs) : InspectArgs where
  header := header
  kinds := (g.values "kind").filterMap (meaning? kindWords)
  stem := g.value? "prefix"
  json := g.has "json"
  sources := sourceArgs clang g

def ofCommand (plain : Bool) (spec : CommandSpec) (args : List String)
    (command : GivenArgs → Option Command) : Except ArgStop Invocation := do
  let g ← spec.scan ({}, none) args
  match command g with
  | some c => pure ⟨plain || g.has "no-color", c⟩
  | none => .error .misuse

/-- What is asked for behind the word `help`: the name of a command or nothing. -/
def helpFor : List String → ArgStop
  | [] => .help
  | [name] => if ["generate", "inspect", "completions", "help"].contains name then .help else .misuse
  | _ => .misuse

/-- Reads a command line. `front` are the options before the command. -/
def parseFrom (clang : Option String) (front : GivenArgs) : List String → Except ArgStop Invocation
  | [] => .error .misuse
  | arg :: args =>
    let plain := front.has "no-color"
    if arg == "generate" then
      ofCommand plain generateSpec args fun g => some (.generate (generateArgs clang g))
    else if arg == "inspect" then
      ofCommand plain inspectSpec args fun g =>
        g.arguments.head?.map fun header => .inspect (inspectArgs clang header g)
    else if arg == "completions" then
      ofCommand plain completionsSpec args fun g => g.arguments.head?.map .completions
    else if arg == "help" then .error (helpFor args)
    else if CommandSpec.isOption arg && arg != "--" then
      match frontSpec.scanOption front arg with
      | .error e => .error e
      | .ok (front, _) => parseFrom clang front args
    else .error .misuse

/-- Reads a command line; `clang` is the path of the compiler in the environment. -/
def parse (clang : Option String) (args : List String) : Except ArgStop Invocation :=
  parseFrom clang {} args

end Invocation

end Bindery
