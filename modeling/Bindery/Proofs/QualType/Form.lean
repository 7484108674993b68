import Bindery.CType.Declarator
import Bindery.QualType.Parser
import Bindery.Proofs.Text.Identifier

/-! The forms of the types that are read, before typedef names get their meaning. -/

namespace Bindery

namespace QualType

inductive Form where
  | words (ws : List String) (primitive : Primitive) (isConst : Bool)
  | tagged (tag : String) (isUnion isConst : Bool)
  | enum (name : String) (isConst : Bool)
  | named (name : String) (isConst : Bool)
  | pointer (pointee : Form) (isConst : Bool)
  | array (element : Form) (count : Option Nat)
  | function (result : Form) (args : List Form) (variadic : Bool)

/-- A type with its const flag set or not. -/
def made (isConst : Bool) (t : RawType) : RawType :=
  if isConst then t.constant else t

def constTokens (isConst : Bool) : List Token :=
  if isConst then [.word "const"] else []

/-- Tokens with commas between the parts of a list. -/
def commaJoined : List (List Token) → List Token
  | [] => []
  | [ts] => ts
  | ts :: us :: rest => ts ++ .comma :: commaJoined (us :: rest)

/-- The length of an array in brackets. -/
def boundsTokens (count : Option Nat) : List Token :=
  .openBracket :: (count.toList.map .number ++ [.closeBracket])

/-- Parameters in parentheses, with an ellipsis behind them for a variadic function. -/
def parameterTokens (parts : List (List Token)) (variadic : Bool) : List Token :=
  .openParen :: (commaJoined (parts ++ if variadic then [[.ellipsis]] else []) ++ [.closeParen])

/-- A name that is read as a typedef name. -/
structure PlainName (name : String) : Prop where
  identifier : isIdentifier name
  notConst : name ≠ "const"
  notIgnored : name ∉ ignoredQualifiers
  notTag : isTag name = false
  notBuiltin : name ∉ builtinWords

/-- A tag that is read where one is expected. -/
def isTagName (tag : String) : Bool :=
  isIdentifier tag && !isTag tag

namespace Form

mutual

/-- The type as the reader builds it. -/
def raw : Form → RawType
  | .words ws p isConst => made isConst (.ofKind (.builtin p) (" ".intercalate ws))
  | .tagged tag isUnion isConst => made isConst (.tagged tag isUnion)
  | .enum name isConst => made isConst (.enum name)
  | .named name isConst => made isConst (.ofKind (.unexposed name) name)
  | .pointer pointee isConst => made isConst (.pointer pointee.raw)
  | .array element count => .array element.raw count
  | .function result args variadic => .function result.raw (rawList args) variadic

def rawList : List Form → List RawType
  | [] => []
  | f :: fs => f.raw :: rawList fs

end

mutual

/-- The words of a base name a primitive type, typedef names are plain, counts are not too large,
and no list of arguments is a single `void`. -/
def Valid : Form → Prop
  | .words ws p _ => ws ≠ [] ∧ (∀ w ∈ ws, w ∈ builtinWords) ∧ primitiveOf ws = .ok p
  | .tagged _ _ _ => True
  | .enum _ _ => True
  | .named name _ => PlainName name
  | .pointer pointee _ => pointee.Valid
  | .array element count => element.Valid ∧ ∀ n ∈ count, n < limit64
  | .function result args _ =>
    result.Valid ∧ ValidList args ∧ dropVoid (rawList args) = rawList args

def ValidList : List Form → Prop
  | [] => True
  | f :: fs => f.Valid ∧ ValidList fs

end

mutual

/-- The tokens before and behind a declared name, with `pointing` as in `CType.declareAs`. -/
def sides (pointing : Bool) : Form → List Token × List Token
  | .words ws _ isConst => (constTokens isConst ++ ws.map .word, [])
  | .tagged tag isUnion isConst =>
    ([.word (recordKeyword isUnion), .word tag] ++ constTokens isConst, [])
  | .enum name isConst => (constTokens isConst ++ [.word "enum", .word name], [])
  | .named name isConst => (.word name :: constTokens isConst, [])
  | .pointer pointee isConst =>
    ((pointee.sides true).1 ++ .star :: constTokens isConst, (pointee.sides true).2)
  | .array element count =>
    ((element.sides false).1 ++ (if pointing then [.openParen] else []),
      (if pointing then [.closeParen] else []) ++ boundsTokens count ++ (element.sides false).2)
  | .function result args variadic =>
    ((result.sides false).1 ++ (if pointing then [.openParen] else []),
      (if pointing then [.closeParen] else []) ++ parameterTokens (argTokens args) variadic ++
        (result.sides false).2)

def argTokens : List Form → List (List Token)
  | [] => []
  | f :: fs => ((f.sides false).1 ++ (f.sides false).2) :: argTokens fs

end

/-- The tokens of the type alone. -/
def tokens (f : Form) : List Token :=
  (f.sides false).1 ++ (f.sides false).2

mutual

/-- The form of what is printed: the boolean type is written `bool`, however it was read. -/
def printed : Form → Form
  | .words ws p isConst => .words (if p = .bool then ["bool"] else ws) p isConst
  | .tagged tag isUnion isConst => .tagged tag isUnion isConst
  | .enum name isConst => .enum name isConst
  | .named name isConst => .named name isConst
  | .pointer pointee isConst => .pointer pointee.printed isConst
  | .array element count => .array element.printed count
  | .function result args variadic => .function result.printed (printedList args) variadic

def printedList : List Form → List Form
  | [] => []
  | f :: fs => f.printed :: printedList fs

end

mutual

/-- The tags of the records and enumerations. -/
def tags : Form → List String
  | .words _ _ _ => []
  | .tagged tag _ _ => [tag]
  | .enum name _ => [name]
  | .named _ _ => []
  | .pointer pointee _ => pointee.tags
  | .array element _ => element.tags
  | .function result args _ => result.tags ++ tagsList args

def tagsList : List Form → List String
  | [] => []
  | f :: fs => f.tags ++ tagsList fs

end

theorem rawList_append (fs gs : List Form) : rawList (fs ++ gs) = rawList fs ++ rawList gs := by
  induction fs with
  | nil => rfl
  | cons f fs ih => simp [rawList, ih]

theorem validList_append {fs gs : List Form} (hfs : ValidList fs) (hgs : ValidList gs) :
    ValidList (fs ++ gs) := by
  induction fs with
  | nil => exact hgs
  | cons f fs ih => exact ⟨hfs.1, ih hfs.2⟩

theorem printed_of_void (f : Form) {spelling : String}
    (h : f.printed.raw = ⟨.builtin .void, spelling, false⟩) : f.printed = f := by
  cases f with
  | words ws p isConst =>
    cases p with
    | bool => cases isConst <;> cases h
    | _ => rfl
  | array element count => cases count <;> cases h
  | function result args variadic => cases h
  | pointer pointee isConst => cases isConst <;> cases h
  | _ => rfl

theorem dropVoid_printedList {fs : List Form} (h : dropVoid (rawList fs) = rawList fs) :
    dropVoid (rawList (printedList fs)) = rawList (printedList fs) := by
  rcases fs with _ | ⟨f, _ | ⟨g, fs⟩⟩
  · rfl
  · show dropVoid [f.printed.raw] = [f.printed.raw]
    by_cases hvoid : ∃ spelling, f.printed.raw = ⟨.builtin .void, spelling, false⟩
    · obtain ⟨spelling, he⟩ := hvoid
      rw [printed_of_void f he]
      exact h
    · unfold dropVoid
      split
      · next spelling he => exact absurd ⟨spelling, (List.cons.inj he).1⟩ hvoid
      · rfl
  · show dropVoid (f.printed.raw :: g.printed.raw :: rawList (printedList fs)) = _
    unfold dropVoid
    split
    · next he => cases (List.cons.inj he).2
    · rfl

mutual

theorem valid_printed (f : Form) (h : f.Valid) : f.printed.Valid := by
  cases f with
  | words ws p isConst =>
    by_cases hp : p = .bool
    · subst hp
      exact ⟨List.cons_ne_nil _ _, by simp [builtinWords], rfl⟩
    · simpa [printed, hp] using h
  | tagged tag isUnion isConst => exact h
  | enum name isConst => exact h
  | named name isConst => exact h
  | pointer pointee isConst => exact valid_printed pointee h
  | array element count => exact ⟨valid_printed element h.1, h.2⟩
  | function result args variadic =>
    exact ⟨valid_printed result h.1, valid_printedList args h.2.1, dropVoid_printedList h.2.2⟩

theorem valid_printedList (fs : List Form) (h : ValidList fs) : ValidList (printedList fs) := by
  cases fs with
  | nil => exact h
  | cons f fs => exact ⟨valid_printed f h.1, valid_printedList fs h.2⟩

end

end Form

end QualType

end Bindery
