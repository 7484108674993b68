/-! Paths as text. A path is a list of names between slashes; empty names count for nothing, and a
single dot counts only at the front. -/

namespace Bindery.Path

def isAbsolute (path : String) : Bool :=
  path.startsWith "/"

/-- The names between slashes, empty ones among them. -/
def segments (cs : List Char) : List String :=
  match _h : cs.dropWhile (· != '/') with
  | [] => [String.ofList cs]
  | _ :: rest => String.ofList (cs.takeWhile (· != '/')) :: segments rest
termination_by cs.length
decreasing_by
  have := congrArg List.length (List.takeWhile_append_dropWhile (p := (· != '/')) (l := cs))
  rw [_h, List.length_append, List.length_cons] at this
  omega

/-- Whether a name between slashes counts for nothing. -/
def isIdle (segment : String) : Bool :=
  segment.isEmpty || segment == "."

/-- The front of a path, which is the root, a dot or nothing, and the names behind it, the last one
first. -/
def split (path : String) : List String × List String :=
  match segments path.toList with
  | first :: rest =>
    if (first.isEmpty && !rest.isEmpty) || first == "." then ([first], rest.reverse)
    else ([], (first :: rest).reverse)
  | [] => ([], [])

/-- The text of a path with the given front and the names behind it in reverse. -/
def joined (front names : List String) : String :=
  match front, names with
  | [""], [] => "/"
  | _, _ => "/".intercalate (front ++ names.reverse)

/-- The paths that are left when names at the end are taken away one by one. -/
def above (front : List String) : List String → List String
  | [] => if front == ["."] then [""] else []
  | name :: names =>
    if isIdle name then above front names
    else joined front (names.dropWhile isIdle) :: above front names

/-- A path and all directories above it, as far as the path names them. -/
def ancestors (path : String) : List String :=
  let (front, names) := split path
  path :: above front names

def parent? (path : String) : Option String :=
  (ancestors path).tail.head?

/-- The last name of a path. A path that ends by going up has none. -/
def fileName? (path : String) : Option String :=
  let (_, names) := split path
  ((names.dropWhile isIdle).head?).filter (· != "..")

/-- The number of names that count, the root or a dot at the front among them. -/
def depth (path : String) : Nat :=
  let (front, names) := split path
  front.length + (names.filter (!isIdle ·)).length

/-- A path seen from a directory. -/
def join (dir path : String) : String :=
  if isAbsolute path || dir.isEmpty then path
  else if dir.endsWith "/" then dir ++ path
  else dir ++ "/" ++ path

end Bindery.Path
