import Bindery.Dump.Provider
import Bindery.Interface.Section

/-! Making an interface: the headers of a script are loaded, bound one by one in order, and the
interface is written. -/

namespace Bindery

/-- A header, and how its declarations are bound. -/
structure BindingTask where
  header : String
  bind : BindM Unit

structure GenerateOptions where
  bind : BindOptions := {}
  /-- Where headers are looked for. -/
  dirs : List String := []
  outputDir : String := "."

structure Generated where
  output : String
  headers : Nat
  generics : Nat
  classes : Nat
  warnings : List String
  deriving DecidableEq, Repr

variable {m : Type → Type} [Monad m] [MonadDisk m]

/-- The file of a header. A full path is taken as it is, anything else is looked for in the
directories. -/
def locateHeader (name : String) (dirs : List String) : ToolT m String := do
  if Path.isAbsolute name && (← ExceptT.lift (MonadDisk.isFile name)) then pure name
  else
    match ← ExceptT.lift (Disk.findIn name dirs) with
    | some path => pure path
    | none =>
      let searched := if dirs.isEmpty then "(no include directories)" else ", ".intercalate dirs
      throw (.text (s!"header `{name}` not found\nsearched: {searched}\n" ++
        "hint: add the directory with `--include` or `[clang] include`"))

def ofBinding {α : Type} : Except BindError α → ToolT m α
  | .ok a => pure a
  | .error e => throw ⟨.bind e, []⟩

def loadHeader (p : DumpProvider) (path : String) : ToolT m Header := do
  ofBinding (← p.load path).toHeader

/-- Loads every header before the first failure counts. -/
def loadAll (p : DumpProvider) (paths : List String) : ToolT m (List Header) := do
  let headers ← ExceptT.lift (paths.mapM fun path => (loadHeader p path : ToolT m Header).run)
  headers.mapM fun
    | .ok h => pure h
    | .error e => throw e

def bindAll (c : Context) : List (BindingTask × Header) → Except Failure Context
  | [] => .ok c
  | (task, h) :: rest =>
    let (result, w) := (task.bind.run).run ⟨c.addInclude h.name, h⟩
    match result with
    | .ok () => bindAll w.context rest
    | .error e => .error ⟨.text s!"failed to bind {task.header}", [.bind e]⟩

/-- Makes and writes the interface of a script. -/
def generate (script : List BindingTask) (p : DumpProvider) (o : GenerateOptions) :
    ToolT m Generated := do
  if script.isEmpty then throw (.text "the binding script registers no headers")
  let paths ← script.mapM fun task => locateHeader task.header o.dirs
  let headers ← loadAll p paths
  let c ← liftExcept (bindAll { options := o.bind } (script.zip headers))
  ofBinding c.generics.validate
  let text ← ofBinding c.render
  let output := Path.join o.outputDir (c.options.module ++ ".i")
  Disk.write output text
  pure ⟨output, paths.length, c.generics.generics.length, c.classes.length, c.warnings⟩
where
  liftExcept {α : Type} : Except Failure α → ToolT m α
    | .ok a => pure a
    | .error e => throw e

end Bindery
