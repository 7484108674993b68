import Bindery.Config.Basic
import Bindery.Toml.Document

/-! Reading the settings of a project from TOML. Settings that are not known are left out of account. -/

namespace Bindery

namespace Toml

/-- The settings in a section. A section may be given as a list of its settings in their order
instead of a table, or as a date, which gives none of them. -/
structure Settings where
  at? : Nat → String → Option Toml

def Settings.ofValue? : Toml → Option Settings
  | .table _ entries => some ⟨fun _ key => lookup entries key⟩
  | .arr items => some ⟨fun i _ => items[i]?⟩
  | .tables items => some ⟨fun i _ => items[i]?⟩
  | .date => some ⟨fun _ _ => none⟩
  | _ => none

def Settings.read? {α : Type} (s : Settings) (place : Nat) (key : String) (f : Toml → Option α) :
    Option (Option α) :=
  match s.at? place key with
  | none => some none
  | some v => (f v).map some

def str? : Toml → Option String
  | .str s => some s
  | _ => none

def bool? : Toml → Option Bool
  | .bool b => some b
  | _ => none

def strings? : Toml → Option (List String)
  | .arr items => items.mapM str?
  | _ => none

def isEmpty : Toml → Bool
  | .arr items => items.isEmpty
  | .table _ entries => entries.isEmpty
  | _ => false

/-- A word, or a table that has the word as its only key and nothing below it. -/
def choice? : Toml → Option String
  | .str s => some s
  | .table _ [(key, v)] => if isEmpty v then some key else none
  | _ => none

end Toml

def StalePolicy.ofWord? (word : String) : Option StalePolicy :=
  if word == "warn" then some .warn else if word == "deny" then some .deny else none

namespace Config

def section? {α : Type} (s : Toml.Settings) (place : Nat) (key : String) (default : α)
    (f : Toml.Settings → Option α) : Option α :=
  match s.at? place key with
  | none => some default
  | some v => (Toml.Settings.ofValue? v).bind f

def moduleOf? (s : Toml.Settings) : Option ModuleConfig := do
  some ⟨← s.read? 0 "name" Toml.str?, ← s.read? 1 "directors" Toml.bool?,
    ← s.read? 2 "output_dir" Toml.str?⟩

def markersOf? (s : Toml.Settings) : Option MarkerConfig := do
  some ⟨← s.read? 0 "visibility" Toml.str?, ← s.read? 1 "nonnull" Toml.str?,
    ← s.read? 2 "deprecated" Toml.str?⟩

def fieldsOf? (s : Toml.Settings) : Option FieldsConfig := do
  some ⟨← s.read? 0 "stale" fun v => (Toml.choice? v).bind StalePolicy.ofWord?⟩

def clangOf? (s : Toml.Settings) : Option ClangConfig := do
  let d : ClangConfig := {}
  some ⟨← s.read? 0 "path" Toml.str?, (← s.read? 1 "args" Toml.strings?).getD d.args,
    (← s.read? 2 "include" Toml.strings?).getD d.dirs,
    (← s.read? 3 "defines" Toml.strings?).getD d.defines, ← s.read? 4 "cache_dir" Toml.str?⟩

def ofToml? (text : String) : Option Config := do
  let entries ← Toml.parse? text
  let s : Toml.Settings := ⟨fun _ => Toml.lookup entries⟩
  some ⟨← section? s 0 "module" {} moduleOf?, ← section? s 1 "markers" {} markersOf?,
    ← section? s 2 "fields" {} fieldsOf?, ← section? s 3 "clang" {} clangOf?⟩

end Config

end Bindery
