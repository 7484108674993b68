import Bindery.Decl.RawType
import Bindery.QualType.Token

/-! Reading a printed C type: specifiers, then an abstract declarator read from the inside out.
Reading does not look typedef names up; it leaves them as types without structure and notes the order
in which it met them. `RawType.resolved` puts in what the names stand for. -/

namespace Bindery

/-- What a typedef name stands for, with the declaration of the typedef if it is known. -/
abbrev TypedefLookup := String → Option (RawType × Option Decl)

mutual

/-- Gives the names that `typedefs` knows their meaning. Spellings stay as they are. -/
def RawType.resolved (typedefs : TypedefLookup) : RawType → RawType
  | ⟨kind, spelling, isConst⟩ => ⟨kind.resolved typedefs, spelling, isConst⟩

def RawKind.resolved (typedefs : TypedefLookup) : RawKind → RawKind
  | .elaborated inner => .elaborated (inner.resolved typedefs)
  | .pointer pointee => .pointer (pointee.resolved typedefs)
  | .constantArray element n => .constantArray (element.resolved typedefs) n
  | .incompleteArray element => .incompleteArray (element.resolved typedefs)
  | .function result args variadic =>
    .function (result.resolved typedefs) (RawType.resolvedList typedefs args) variadic
  | .unexposed text =>
    match typedefs text with
    | some (underlying, decl) => .typedef text underlying decl
    | none => .unexposed text
  | .builtin p => .builtin p
  | .typedef name underlying decl => .typedef name underlying decl
  | .record name isUnion => .record name isUnion
  | .enum name => .enum name

def RawType.resolvedList (typedefs : TypedefLookup) : List RawType → List RawType
  | [] => []
  | t :: ts => t.resolved typedefs :: RawType.resolvedList typedefs ts

end

namespace QualType

/-- Why a text is not read as a type, and the typedef names that were met before. -/
structure Refusal where
  error : QualTypeError
  asked : List String := []

def Refusal.of (e : QualTypeError) : Refusal := ⟨e, []⟩

/-- The refusal of a text in which other names were met first. -/
def Refusal.after (names : List String) (r : Refusal) : Refusal :=
  ⟨r.error, names ++ r.asked⟩

/-- Refuses the next token, whatever it is. -/
def unexpected : List Token → Refusal
  | [] => .of .unexpectedEnd
  | t :: _ => .of (.unexpectedToken t.quoted)

def builtinWords : List String :=
  ["void", "_Bool", "bool", "char", "short", "int", "long", "float", "double", "signed",
    "unsigned", "__int128"]

/-- Qualifiers that are read and forgotten. -/
def ignoredQualifiers : List String :=
  ["volatile", "restrict", "__restrict", "__restrict__", "_Nonnull", "_Nullable",
    "_Null_unspecified"]

def primitiveOf (words : List String) : Except QualTypeError Primitive :=
  let has (w : String) : Bool := words.contains w
  let unsigned := has "unsigned"
  if has "void" then .ok .void
  else if has "_Bool" || has "bool" then .ok .bool
  else if has "char" then
    .ok (if unsigned then .uchar else if has "signed" then .schar else .char)
  else if has "float" then .ok .float
  else if has "double" then .ok (if has "long" then .longDouble else .double)
  else if has "__int128" then .ok (if unsigned then .uint128 else .int128)
  else if has "short" then .ok (if unsigned then .ushort else .short)
  else
    match words.count "long" with
    | 0 => .ok (if unsigned then .uint else .int)
    | 1 => .ok (if unsigned then .ulong else .long)
    | 2 => .ok (if unsigned then .ulongLong else .longLong)
    | _ => .error (.invalidBuiltin (" ".intercalate words))

structure Specifiers where
  isConst : Bool := false
  words : List String := []
  base : Option RawType := none
  asked : List String := []

/-- The type named by a tag keyword and the token behind it. -/
def taggedType (anonymous : String → Option String) (tag : String) (t : Token) :
    Except Refusal RawType :=
  let named (name : String) : RawType :=
    if tag == "enum" then .enum name else .tagged name (tag == "union")
  match t with
  | .word name => .ok (named name)
  | .anonymous key =>
    match anonymous key with
    | some name => .ok (named name)
    | none => .error (.of (.unknownAnonymous key))
  | t => .error (unexpected [t])

/-- Reads specifiers as far as they go. A name is the type itself only when nothing but
qualifiers came before it. -/
def specifiers (anonymous : String → Option String) (s : Specifiers) (ts : List Token) :
    Except Refusal (Specifiers × {r : List Token // r.length ≤ ts.length}) :=
  match ts with
  | .word w :: rest =>
    if w == "const" then do
      let (s, ⟨r, h⟩) ← specifiers anonymous { s with isConst := true } rest
      .ok (s, ⟨r, Nat.le_succ_of_le h⟩)
    else if ignoredQualifiers.contains w then do
      let (s, ⟨r, h⟩) ← specifiers anonymous s rest
      .ok (s, ⟨r, Nat.le_succ_of_le h⟩)
    else if isTag w && s.base.isNone && s.words.isEmpty then
      match rest with
      | [] => .error (.of .unexpectedEnd)
      | t :: rest => do
        let base ← taggedType anonymous w t
        let (s, ⟨r, h⟩) ← specifiers anonymous { s with base := some base } rest
        .ok (s, ⟨r, Nat.le_succ_of_le (Nat.le_succ_of_le h)⟩)
    else if builtinWords.contains w && s.base.isNone then do
      let (s, ⟨r, h⟩) ← specifiers anonymous { s with words := s.words ++ [w] } rest
      .ok (s, ⟨r, Nat.le_succ_of_le h⟩)
    else if s.base.isNone && s.words.isEmpty then do
      let base := RawType.ofKind (.unexposed w) w
      let (s, ⟨r, h⟩) ← specifiers anonymous { s with base := some base, asked := [w] } rest
      .ok (s, ⟨r, Nat.le_succ_of_le h⟩)
    else .ok (s, ⟨.word w :: rest, Nat.le_refl _⟩)
  | ts => .ok (s, ⟨ts, Nat.le_refl _⟩)

/-- The type that specifiers name; `rest` is what follows them. -/
def Specifiers.type (s : Specifiers) (rest : List Token) : Except Refusal RawType := do
  let base ←
    match s.base with
    | some base => pure base
    | none =>
      if s.words.isEmpty then .error (unexpected rest)
      else
        match primitiveOf s.words with
        | .ok p => pure (RawType.ofKind (.builtin p) (" ".intercalate s.words))
        | .error e => .error (.of e)
  pure (if s.isConst then base.constant else base)

/-- A list of parameters, and the names met in it. -/
structure Parameters where
  args : List RawType := []
  variadic : Bool := false
  asked : List String := []

def Parameters.append (p q : Parameters) : Parameters :=
  ⟨p.args ++ q.args, p.variadic || q.variadic, p.asked ++ q.asked⟩

/-- What stands behind the name of a declarator. -/
inductive Suffix where
  | array (count : Option Nat)
  | function (params : Parameters)

def Suffix.apply (t : RawType) : Suffix → RawType
  | .array count => .array t count
  | .function params => .function t params.args params.variadic

def Suffix.asked : Suffix → List String
  | .array _ => []
  | .function params => params.asked

/-- The first suffix is the outermost part of the type. -/
def applySuffixes (suffixes : List Suffix) (t : RawType) : RawType :=
  suffixes.foldr (fun s t => s.apply t) t

/-- Reads the qualifiers behind a star. -/
def pointerQualifiers (t : RawType) (ts : List Token) :
    RawType × {r : List Token // r.length ≤ ts.length} :=
  match ts with
  | .word w :: rest =>
    if w == "const" then
      let (t, ⟨r, h⟩) := pointerQualifiers t.constant rest
      (t, ⟨r, Nat.le_succ_of_le h⟩)
    else if ignoredQualifiers.contains w then
      let (t, ⟨r, h⟩) := pointerQualifiers t rest
      (t, ⟨r, Nat.le_succ_of_le h⟩)
    else (t, ⟨.word w :: rest, Nat.le_refl _⟩)
  | ts => (t, ⟨ts, Nat.le_refl _⟩)

/-- Reads stars, each with its qualifiers. -/
def pointers (t : RawType) (ts : List Token) : RawType × {r : List Token // r.length ≤ ts.length} :=
  match ts with
  | .star :: rest =>
    let (t, ⟨r, h⟩) := pointerQualifiers (.pointer t) rest
    let (t, ⟨r', h'⟩) := pointers t r
    (t, ⟨r', Nat.le_trans h' (Nat.le_succ_of_le h)⟩)
  | ts => (t, ⟨ts, Nat.le_refl _⟩)
termination_by ts.length
decreasing_by simp only [List.length_cons]; omega

/-- Reads the rest of `[n]` or `[]` behind the opening bracket. -/
def arraySuffix (ts : List Token) :
    Except Refusal (Option Nat × {r : List Token // r.length < ts.length}) :=
  match ts with
  | .closeBracket :: rest => .ok (none, ⟨rest, Nat.lt_succ_self _⟩)
  | .number n :: .closeBracket :: rest =>
    .ok (some n, ⟨rest, by simp only [List.length_cons]; omega⟩)
  | .number _ :: rest => .error (unexpected rest)
  | ts => .error (unexpected ts)

/-- What stands behind a parenthesis that groups a declarator. Any other parenthesis opens a list
of parameters. -/
def groupedTokens : List Token → Option (List Token)
  | .openParen :: .star :: r => some (.star :: r)
  | .openParen :: .openParen :: r => some (.openParen :: r)
  | _ => none

theorem groupedTokens_length {ts inner : List Token} (h : groupedTokens ts = some inner) :
    inner.length < ts.length := by
  unfold groupedTokens at h
  split at h <;> grind

def splitTokens (ts : List Token) : Option (List Token × List Token) :=
  splitGroup (· == .openParen) (· == .closeParen) 0 ts

/-- A single parameter `void` stands for no parameters. -/
def dropVoid : List RawType → List RawType
  | [⟨.builtin .void, _, false⟩] => []
  | args => args

mutual

/-- Reads specifiers and an abstract declarator: the type, and the names met in it. -/
def typeName (anonymous : String → Option String) (ts : List Token) :
    Except Refusal (RawType × List String × {r : List Token // r.length ≤ ts.length}) := do
  let (s, ⟨r, h⟩) ← specifiers anonymous {} ts
  let base ← s.type r
  let (t, asked, ⟨r', h'⟩) ← (declarator anonymous base r).mapError (·.after s.asked)
  pure (t, s.asked ++ asked, ⟨r', Nat.le_trans h' h⟩)
termination_by (ts.length, 2)
decreasing_by
  rcases Nat.lt_or_eq_of_le h with h | h
  · exact Prod.Lex.left _ _ h
  · rw [h]; exact Prod.Lex.right _ (by omega)

/-- Reads stars, a grouped declarator and suffixes around the type `t`. The suffixes behind a
group belong to `t` and are read before the group. -/
def declarator (anonymous : String → Option String) (t : RawType) (ts : List Token) :
    Except Refusal (RawType × List String × {r : List Token // r.length ≤ ts.length}) :=
  let (t, ⟨r, h⟩) := pointers t ts
  match hi : groupedTokens r with
  | none => do
    let (sfx, ⟨r', h'⟩) ← suffixes anonymous r
    pure (applySuffixes sfx t, sfx.flatMap Suffix.asked, ⟨r', Nat.le_trans h' h⟩)
  | some inner =>
    match hg : splitTokens inner with
    | none => .error (.of .unbalanced)
    | some (inside, behind) => do
      have hb : behind.length < inner.length := by
        have := splitGroup_length hg
        omega
      have hr : inner.length < r.length := groupedTokens_length hi
      let (sfx, ⟨r', h'⟩) ← suffixes anonymous behind
      let first := sfx.flatMap Suffix.asked
      let (t, second, ⟨r'', _⟩) ← (declarator anonymous (applySuffixes sfx t) inner).mapError
        (·.after first)
      if r''.length == behind.length + 1 then pure (t, first ++ second, ⟨r', by omega⟩)
      else .error ((unexpected r'').after (first ++ second))
termination_by (ts.length, 1)
decreasing_by
  · rcases Nat.lt_or_eq_of_le h with h | h
    · exact Prod.Lex.left _ _ h
    · rw [h]; exact Prod.Lex.right _ (by omega)
  · exact Prod.Lex.left _ _ (by omega)
  · exact Prod.Lex.left _ _ (by omega)

def suffixes (anonymous : String → Option String) (ts : List Token) :
    Except Refusal (List Suffix × {r : List Token // r.length ≤ ts.length}) :=
  match ts with
  | .openBracket :: rest => do
    let (count, ⟨r, h⟩) ← arraySuffix rest
    let (sfx, ⟨r', h'⟩) ← suffixes anonymous r
    pure (.array count :: sfx, ⟨r', by simp only [List.length_cons]; omega⟩)
  | .openParen :: rest => do
    let (params, ⟨r, h⟩) ← parameters anonymous rest
    let (sfx, ⟨r', h'⟩) ← (suffixes anonymous r).mapError (·.after params.asked)
    pure (.function params :: sfx, ⟨r', by simp only [List.length_cons]; omega⟩)
  | ts => .ok ([], ⟨ts, Nat.le_refl _⟩)
termination_by (ts.length, 0)
decreasing_by all_goals exact Prod.Lex.left _ _ (by simp only [List.length_cons]; omega)

/-- Reads parameters behind an opening parenthesis up to the closing one. -/
def parameters (anonymous : String → Option String) (ts : List Token) :
    Except Refusal (Parameters × {r : List Token // r.length < ts.length}) :=
  match ts with
  | .closeParen :: rest => .ok ({}, ⟨rest, Nat.lt_succ_self _⟩)
  | ts => do
    let (params, r) ← parameterList anonymous ts
    pure ({ params with args := dropVoid params.args }, r)
termination_by (ts.length, 4)
decreasing_by exact Prod.Lex.right _ (by omega)

/-- Reads at least one parameter, or an ellipsis in place of one. -/
def parameterList (anonymous : String → Option String) (ts : List Token) :
    Except Refusal (Parameters × {r : List Token // r.length < ts.length}) := do
  let first : Except Refusal (Parameters × {r : List Token // r.length ≤ ts.length}) :=
    if ts.head? == some .ellipsis then
      .ok ({ variadic := true }, ⟨ts.tail, by rw [List.length_tail]; exact Nat.sub_le _ _⟩)
    else (typeName anonymous ts).map fun (t, asked, r) => ({ args := [t], asked }, r)
  let (params, ⟨r, hr⟩) ← first
  match hc : r with
  | .comma :: rest => do
    have hlt : rest.length < ts.length := by rw [hc, List.length_cons] at hr; omega
    let (others, ⟨r', h'⟩) ← (parameterList anonymous rest).mapError (·.after params.asked)
    pure (params.append others, ⟨r', by omega⟩)
  | .closeParen :: rest => pure (params, ⟨rest, by rw [hc, List.length_cons] at hr; omega⟩)
  | r => .error ((unexpected r).after params.asked)
termination_by (ts.length, 3)
decreasing_by
  · exact Prod.Lex.right _ (by omega)
  · exact Prod.Lex.left _ _ hlt

end

/-- Reads a text that is one type and nothing more: the type, and the names met in it. -/
def read (anonymous : String → Option String) (text : String) :
    Except Refusal (RawType × List String) := do
  let tokens ← (tokenize text.toList).mapError .of
  let (t, asked, ⟨r, _⟩) ← typeName anonymous tokens
  if r.isEmpty then pure ({ t with spelling := trimmed text }, asked)
  else .error ((unexpected r).after asked)

/-- What the reader of types needs to know: the meaning of typedef names, and the names that
records and enumerations without one have adopted. -/
structure TypeNames where
  typedefs : TypedefLookup
  anonymous : String → Option String

def tryParse (names : TypeNames) (text : String) : Except QualTypeError RawType :=
  match read names.anonymous text with
  | .ok (t, _) => .ok (t.resolved names.typedefs)
  | .error r => .error r.error

/-- A type for any text: one that cannot be read is kept as it is. -/
def unread (text : String) : RawType :=
  .ofKind (.unexposed text) (trimmed text)

def parse (names : TypeNames) (text : String) : RawType :=
  (tryParse names text).toOption.getD (unread text)

end QualType

end Bindery
