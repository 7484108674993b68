import Bindery.Binding.Context

/-! The settings of a project. What is left out keeps the value that it has otherwise. -/

namespace Bindery

structure ModuleConfig where
  name : Option String := none
  directors : Option Bool := none
  outputDir : Option String := none
  deriving DecidableEq, Repr

structure MarkerConfig where
  visibility : Option String := none
  nonnull : Option String := none
  deprecated : Option String := none
  deriving DecidableEq, Repr

structure FieldsConfig where
  stale : Option StalePolicy := none
  deriving DecidableEq, Repr

structure ClangConfig where
  path : Option String := none
  args : List String := []
  dirs : List String := []
  defines : List String := ["RZ_BINDINGS"]
  cacheDir : Option String := none
  deriving DecidableEq, Repr

structure Config where
  module : ModuleConfig := {}
  markers : MarkerConfig := {}
  fields : FieldsConfig := {}
  clang : ClangConfig := {}
  deriving DecidableEq, Repr

namespace Config

/-- Adds those of the second list that are not there yet. -/
def addNew (xs : List String) : List String → List String
  | [] => xs
  | y :: ys => addNew (if xs.contains y then xs else xs ++ [y]) ys

/-- Puts the settings of `d` over those of `c`. Lists are joined. -/
def merge (c d : Config) : Config where
  module :=
    { name := d.module.name.or c.module.name
      directors := d.module.directors.or c.module.directors
      outputDir := d.module.outputDir.or c.module.outputDir }
  markers :=
    { visibility := d.markers.visibility.or c.markers.visibility
      nonnull := d.markers.nonnull.or c.markers.nonnull
      deprecated := d.markers.deprecated.or c.markers.deprecated }
  fields := { stale := d.fields.stale.or c.fields.stale }
  clang :=
    { path := d.clang.path.or c.clang.path
      args := c.clang.args ++ d.clang.args
      dirs := c.clang.dirs ++ d.clang.dirs
      defines := addNew c.clang.defines d.clang.defines
      cacheDir := d.clang.cacheDir.or c.clang.cacheDir }

/-- The options of the binding under these settings. An empty marker of visibility makes every
function visible. -/
def bindOptions (c : Config) (base : BindOptions) : BindOptions where
  module := c.module.name.getD base.module
  directors := c.module.directors.getD base.directors
  visibility :=
    match c.markers.visibility with
    | none => base.visibility
    | some mark => if mark.isEmpty then none else some mark
  nonnull := c.markers.nonnull.getD base.nonnull
  deprecated := c.markers.deprecated.getD base.deprecated
  stale := c.fields.stale.getD base.stale

end Config

end Bindery
