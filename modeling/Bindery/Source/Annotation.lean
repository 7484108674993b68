import Bindery.Binding.Error
import Bindery.Decl.Basic
import Bindery.Source.Map

/-! The comment between the type and the name of a declaration that says what a generic holds. -/

namespace Bindery

/-- The text behind the first occurrence of a mark, and the text before it. -/
def splitAtMark (mark : List Char) : List Char → Option (List Char × List Char)
  | [] => if mark.isEmpty then some ([], []) else none
  | c :: cs =>
    if mark.isPrefixOf (c :: cs) then some ([], (c :: cs).drop mark.length)
    else (splitAtMark mark cs).map fun p => (c :: p.1, p.2)

/-- The text inside `/*<` and `>*/`. A comment that opens in this way and does not close in it is
an error, which quotes the comment. -/
def annotationIn (text : List Char) (location : Location) :
    Except BindError (Option (List Char)) :=
  match splitAtMark ['/', '*', '<'] text with
  | none => .ok none
  | some (_, rest) =>
    match splitAtMark ['*', '/'] rest with
    | none => .error (.malformedComment location ("/*<" ++ String.ofList rest))
    | some (inside, _) =>
      if inside.getLast? == some '>' then .ok (some inside.dropLast)
      else .error (.malformedComment location ("/*<" ++ String.ofList inside ++ "*/"))

/-- The annotation of a declaration, if the text between its type and its name holds one. -/
def Decl.annotationToken (source : SourceMap) (d : Decl) : Except BindError (Option String) :=
  match d.typeStart.bind fun start => source.textBetween? start d.location with
  | none => .ok none
  | some text => (annotationIn text.toList d.location).map (·.map String.ofList)

end Bindery
