import Bindery.CommandLine.Command
import Bindery.Config.Load
import Bindery.Script
import Bindery.Summary

/-! Carrying out a command: its texts on both streams and its exit code. -/

namespace Bindery

structure Outcome where
  code : Nat
  output : String := ""
  messages : String := ""
  deriving DecidableEq, Repr

def Cause.message : Cause → String
  | .text message => message
  | .file e => e.message
  | .json => "<json>"
  | .toml => "<toml>"
  | .badOffset => "a number of the dump is out of range"
  | .bind e => e.message

/-- The causes before the first binding error, and that error if there is one. -/
def splitAtBind : List Cause → List Cause × Option BindError
  | [] => ([], none)
  | .bind e :: _ => ([], some e)
  | c :: cs =>
    let (before, e) := splitAtBind cs
    (c :: before, e)

/-- A failure on the terminal. A binding error is shown in full behind the messages before it. -/
def Failure.report (color : Bool) (f : Failure) : String :=
  match splitAtBind f.causes with
  | (before, some e) =>
    String.join (before.map fun c => "error: " ++ c.message ++ "\n") ++ e.toDiagnostic.format color
  | (causes, none) => "error: " ++ ": ".intercalate (causes.map Cause.message) ++ "\n"

namespace Command

variable {m : Type → Type} [Monad m] [MonadDisk m]

/-- The settings of the project with those of the command line over them. `cwd` is the directory
that the tool runs in. -/
def loadConfig (cwd : String) (a : SourceArgs) : ToolT m Config := do
  let c ←
    match a.config with
    | some path => Config.load path
    | none =>
      match ← ExceptT.lift (Config.discover cwd) with
      | some path => ExceptT.lift (Config.loadOrDefault path)
      | none => pure {}
  pure (c.merge { clang := { path := a.clang, dirs := a.dirs, args := a.clangArgs } })

def provider (a : SourceArgs) (c : Config) : ToolT m DumpProvider := do
  match a.dumps with
  | some dir => pure (.directory dir)
  | none => pure (.compiler (← Compiler.ofConfig c.clang))

def scriptLine (s : Script) : String :=
  Summary.padRight 12 s.name ++ " " ++ s.description ++ "\n"

def unknownScript (name : String) : Failure :=
  .text (s!"unknown binding script `{name}`\navailable scripts: " ++
    ", ".intercalate (Script.all.map (·.name)) ++
    "\nhelp: Run `swivel generate --list` to list built-in scripts")

def moduleOverrides (a : GenerateArgs) : Config where
  module := { name := a.module, directors := if a.noDirectors then some false else none }
  fields := { stale := a.stale }

def resultLine (g : Generated) : String :=
  s!"   Generated {g.output} ({g.headers} header(s), {g.generics} generic(s), " ++
    s!"{g.classes} class(es))\n"

def runGenerate (cwd : String) (color : Bool) (a : GenerateArgs) : ToolT m Outcome := do
  if a.list then pure { code := 0, output := String.join (Script.all.map scriptLine) }
  else
    match Script.find? a.script with
    | none => throw (unknownScript a.script)
    | some s =>
      let c := (← loadConfig cwd a.sources).merge (moduleOverrides a)
      let p ← provider a.sources c
      let outputDir := ((a.outputDir).or c.module.outputDir).getD "."
      let g ← Bindery.generate s.tasks p ⟨c.bindOptions {}, c.clang.dirs, outputDir⟩
      let warnings := g.warnings.map fun w =>
        ({ message := w, severity := .warning } : Diagnostic).format color
      pure { code := 0, messages := resultLine g ++ String.join warnings }

def runInspect (cwd : String) (a : InspectArgs) : ToolT m Outcome := do
  let c ← loadConfig cwd a.sources
  let p ← provider a.sources c
  let header ←
    if ← ExceptT.lift (MonadDisk.isFile a.header) then pure a.header
    else locateHeader a.header c.clang.dirs
  let summaries ← summarize p header ⟨a.kinds, a.stem⟩
  let text :=
    if a.json then (Json.arr (summaries.map Summary.toJson)).pretty "" ++ "\n"
    else Summary.table summaries
  pure { code := 0, output := text }

def completionWords : String :=
  "generate inspect completions help\n"

def run (cwd : String) (color : Bool) : Command → ToolT m Outcome
  | .generate a => runGenerate cwd color a
  | .inspect a => runInspect cwd a
  | .completions _ => pure { code := 0, output := completionWords }

def outcome (cwd : String) (color : Bool) (c : Command) : m Outcome := do
  match ← (c.run cwd color : ToolT m Outcome) with
  | .ok o => pure o
  | .error f => pure { code := 1, messages := f.report color }

end Command

end Bindery
