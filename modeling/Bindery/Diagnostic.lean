/-! A message for the user of the tool, with its place, what is known about it and what may be done
about it. -/

namespace Bindery

inductive Severity where
  | error | warning
  deriving DecidableEq, Repr

def Severity.label : Severity → String
  | .error => "error"
  | .warning => "warning"

structure Diagnostic where
  message : String
  severity : Severity := .error
  location : Option String := none
  context : List String := []
  suggestions : List String := []
  deriving DecidableEq, Repr

namespace Diagnostic

/-- The text between the codes that switch a bold colour on and off. -/
def painted (code text : String) : String :=
  "\x1b[1;" ++ code ++ "m" ++ text ++ "\x1b[0m"

def severityText (d : Diagnostic) (color : Bool) : String :=
  match color, d.severity with
  | true, .error => painted "31" "error"
  | true, .warning => painted "33" "warning"
  | false, s => s.label

/-- Suggestions in order, numbered from `n`. -/
def numbered (n : Nat) : List String → List String
  | [] => []
  | s :: rest => s!"  {n}. {s}\n" :: numbered (n + 1) rest

def suggestionLines (d : Diagnostic) (color : Bool) : List String :=
  if d.suggestions.isEmpty then [] else
    "\n" :: ((if color then painted "32" "help" else "help") ++ ": consider:\n") ::
      numbered 1 d.suggestions

def format (d : Diagnostic) (color : Bool) : String :=
  String.join
    ([d.severityText color ++ ": " ++ d.message ++ "\n"]
      ++ (d.location.toList.map fun l => "  --> " ++ l ++ "\n")
      ++ (d.context.map fun c => "  = " ++ c ++ "\n")
      ++ d.suggestionLines color)

end Diagnostic

end Bindery
