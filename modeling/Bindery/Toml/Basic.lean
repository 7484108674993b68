/-! Values of TOML. Numbers and dates are checked but not kept. Of a table it is kept how it came to
be, because that says how it may be extended. -/

namespace Bindery

inductive TableForm where
  /-- Written under a header of its own. -/
  | header
  /-- Named on the way to another header. -/
  | implied
  /-- Named on the way to a dotted key. -/
  | dotted
  /-- Written between braces. -/
  | closed
  deriving DecidableEq, Repr

inductive Toml where
  | str (text : String)
  | bool (value : Bool)
  | number
  | date
  | arr (items : List Toml)
  /-- Tables that have one repeated header. -/
  | tables (items : List Toml)
  | table (form : TableForm) (entries : List (String × Toml))

namespace Toml

abbrev Entries := List (String × Toml)

def lookup (entries : Entries) (key : String) : Option Toml :=
  (entries.find? (·.1 == key)).map (·.2)

def erase (entries : Entries) (key : String) : Entries :=
  entries.filter (·.1 != key)

/-- Gives a key a value, in place of the one that it has. -/
def put (entries : Entries) (key : String) (value : Toml) : Entries :=
  erase entries key ++ [(key, value)]

/-- Changes the table that a path of keys leads to; missing tables on the way are made. A path of a
dotted key does not lead through tables with a header, and no path leads into a closed table. In
repeated tables it leads into the last one. -/
def alter (forKey : Bool) (f : TableForm → Entries → Option Entries) :
    List String → TableForm → Entries → Option Entries
  | [], form, entries => f form entries
  | key :: keys, _, entries =>
    match lookup entries key with
    | none =>
      let form := if forKey then TableForm.dotted else .implied
      (alter forKey f keys form []).map fun inner => put entries key (.table form inner)
    | some (.table form inner) =>
      if form == .closed || (forKey && form == .header) then none
      else (alter forKey f keys form inner).map fun inner => put entries key (.table form inner)
    | some (.tables items) =>
      match items.getLast? with
      | some (.table form inner) =>
        (alter forKey f keys form inner).map fun inner =>
          put entries key (.tables (items.dropLast ++ [.table form inner]))
      | _ => none
    | some _ => none

/-- Adds a value to the table in which a key stands. Keys with dots lead to tables that only such
keys have made, keys without one to no such table. -/
def insertKey (path : List String) (key : String) (value : Toml) (form : TableForm)
    (entries : Entries) : Option Entries :=
  alter true (fun form entries =>
      if (form == .dotted) == path.isEmpty || (lookup entries key).isSome then none
      else some (put entries key value))
    path form entries

end Toml

/-- A document while it is read: the tables that are complete, and the table under the header read
last, with its path. -/
structure TomlDraft where
  root : Toml.Entries := []
  path : List String := []
  isRepeated : Bool := false
  current : Toml.Entries := []

namespace TomlDraft

def addKey (d : TomlDraft) (path : List String) (key : String) (value : Toml) : Option TomlDraft :=
  (Toml.insertKey path key value .header d.current).map fun current => { d with current }

/-- Puts the table that is being read where it belongs. -/
def close (d : TomlDraft) : Option Toml.Entries :=
  match d.path.getLast? with
  | none => some d.current
  | some key =>
    Toml.alter false (fun _ entries =>
        match Toml.lookup entries key with
        | some (.tables items) =>
          if d.isRepeated then
            some (Toml.put entries key (.tables (items ++ [.table .header d.current])))
          else none
        | some _ => none
        | none =>
          some (Toml.put entries key
            (if d.isRepeated then .tables [.table .header d.current]
             else .table .header d.current)))
      d.path.dropLast .header d.root

/-- Starts the table of a header. A table that was only named on the way to others may still get
its header. -/
def openTable (root : Toml.Entries) (front : List String) (key : String) : Option TomlDraft := do
  let parent ← find root front
  let current ←
    match Toml.lookup parent key with
    | none => some []
    | some (.table .implied entries) => some entries
    | some _ => none
  let root ← Toml.alter false (fun _ entries => some (Toml.erase entries key)) front .header root
  pure { root, path := front ++ [key], current }
where
  /-- The table that a path leads to, empty if it is missing. -/
  find (entries : Toml.Entries) : List String → Option Toml.Entries
    | [] => some entries
    | key :: keys =>
      match Toml.lookup entries key with
      | none => some []
      | some (.table .closed _) => none
      | some (.table _ inner) => find inner keys
      | some (.tables items) =>
        match items.getLast? with
        | some (.table _ inner) => find inner keys
        | _ => none
      | some _ => none

/-- Starts one more of the tables of a repeated header. -/
def openRepeated (root : Toml.Entries) (front : List String) (key : String) : Option TomlDraft := do
  let root ← Toml.alter false (fun _ entries =>
      match Toml.lookup entries key with
      | none => some (Toml.put entries key (.tables []))
      | some (.tables _) => some entries
      | some _ => none)
    front .header root
  pure { root, path := front ++ [key], isRepeated := true }

end TomlDraft

end Bindery
