import Bindery.Binding.Error
import Bindery.Text.Blank

/-! The key under which an annotation names an instance of a generic. -/

namespace Bindery

/-- Whether the annotations of a generic name pointers. -/
inductive PointerPolicy where
  | required | forbidden
  deriving DecidableEq, Repr

def constWord : List Char := ['c', 'o', 'n', 's', 't', ' ']

/-- Leaves out every `const ` at the front, and the blanks behind it. -/
def dropConsts (cs : List Char) : List Char :=
  if _h : constWord.isPrefixOf cs then dropConsts (trimStart (cs.drop constWord.length)) else cs
termination_by cs.length
decreasing_by
  have h₁ := (List.isPrefixOf_iff_prefix.1 _h).length_le
  have h₂ := length_dropWhile_le isBlank (cs.drop constWord.length)
  rw [List.length_drop] at h₂
  rw [trimStart]
  have : constWord.length = 6 := rfl
  omega

/-- The type named by an annotation, without blanks around it and qualifiers before it. -/
def normalizedToken (cs : List Char) : List Char :=
  trimEnd (dropConsts (trim cs))

/-- The instance that an annotation names, under the rule of its generic about pointers. -/
def keyOf (policy : PointerPolicy) (token : List Char) : Except PointerFault (List Char) :=
  let name := normalizedToken token
  if name.isEmpty then .error .empty
  else
    match policy, name.reverse with
    | .required, '*' :: ' ' :: rest =>
      let key := trimEnd rest.reverse
      if (trim key).isEmpty then .error .empty else .ok key
    | .required, '*' :: _ => .error .lacksSpace
    | .required, _ => .error .lacksPointer
    | .forbidden, '*' :: _ => .error .hasPointer
    | .forbidden, _ => .ok name

/-- The key of an annotation, or the error that says how it breaks the rule. -/
def specializationKey (generic : String) (policy : PointerPolicy) (token : String)
    (location : Location) : Except BindError String :=
  match keyOf policy token.toList with
  | .ok key => .ok (String.ofList key)
  | .error fault => .error (.pointerPolicy generic token fault location)

end Bindery
