import Bindery.CType.Declarator

/-! The frame of a declarator: what a type writes before and behind a declared name. -/

namespace Bindery

/-- The text on both sides of a declared name. -/
structure Frame where
  before : String
  behind : String

namespace Frame

def around (f : Frame) (name : String) : String :=
  f.before ++ name ++ f.behind

/-- The frame with more text next to the name. -/
def closing (f : Frame) (left right : String) : Frame :=
  ⟨f.before ++ left, right ++ f.behind⟩

theorem around_closing (f : Frame) (left right name : String) :
    (f.closing left right).around name = f.around (left ++ name ++ right) := by
  simp only [around, closing, String.append_assoc]

/-- Text behind a framed name belongs to the name when it may change places with the frame. -/
theorem around_append_iff (f : Frame) (name text : String) :
    f.around name ++ text = f.around (name ++ text) ↔ f.behind ++ text = text ++ f.behind := by
  simp only [around, String.append_assoc, String.append_right_inj]

end Frame

/-- What a const level writes directly before a name. -/
def constMark (isConst : Bool) : String :=
  if isConst then "const " else ""

theorem spaced_of_ne (base : String) {expr : String} (h : expr ≠ "") :
    spaced base expr = base ++ " " ++ expr := by
  simp [spaced, h]

theorem qualified_of_ne (isConst : Bool) {expr : String} (h : expr ≠ "") :
    qualified isConst expr = constMark isConst ++ expr := by
  cases isConst
  · simp [qualified, constMark]
  · simp only [qualified, constMark, if_true, spaced_of_ne _ h, String.reduceAppend]

theorem qualified_ne_empty (isConst : Bool) {expr : String} (h : expr ≠ "") :
    qualified isConst expr ≠ "" := by
  simp [qualified_of_ne isConst h, h]

theorem parenthesised_eq (yes : Bool) (expr : String) :
    parenthesised yes expr = (if yes then "(" else "") ++ expr ++ (if yes then ")" else "") := by
  cases yes <;> simp [parenthesised]

/-- Parameters without names as a function type writes them. -/
def abstractParameters (names : RecordNames) (args : List CType) (variadic : Bool) : String :=
  "(" ++ ", ".intercalate (CType.abstractList names args ++ (if variadic then ["..."] else [])) ++
    ")"

/-- The length of an array in brackets. -/
def arrayBounds (count : Option Nat) : String :=
  "[" ++ (count.map toString).getD "" ++ "]"

mutual

/-- The frame of a type, with `pointing` as in `CType.declareAs`. -/
def CType.frame (names : RecordNames) (template pointing : Bool) : CType → Frame
  | ⟨kind, spelling, isConst⟩ => kind.frame names template pointing spelling isConst

def CKind.frame (names : RecordNames) (template pointing : Bool) : CKind → String → Bool → Frame
  | .primitive p, spelling, isConst =>
    ⟨RecordNames.primitive template p spelling isConst ++ " ", ""⟩
  | .pointer pointee, _, isConst =>
    (pointee.frame names template true).closing ("*" ++ constMark isConst) ""
  | .record tag isUnion binding, _, isConst =>
    ⟨names.record template ⟨tag, isUnion, binding⟩ ++ " " ++ constMark isConst, ""⟩
  | .typedef name canonical _, _, isConst =>
    if (canonical.kind.record?).any (names.looksThrough template) then
      canonical.frame names template pointing
    else ⟨name ++ " " ++ constMark isConst, ""⟩
  | .function result args _ variadic, _, isConst =>
    (result.frame names template false).closing
      ((if pointing then "(" else "") ++ constMark isConst)
      ((if pointing then ")" else "") ++ abstractParameters names args variadic)
  | .array element count, _, isConst =>
    (element.frame names template false).closing
      ((if pointing then "(" else "") ++ constMark isConst)
      ((if pointing then ")" else "") ++ arrayBounds count)

end

mutual

theorem CType.declareAs_eq_around (names : RecordNames) (template pointing : Bool) {expr : String}
    (h : expr ≠ "") (t : CType) :
    t.declareAs names template pointing expr =
      (t.frame names template pointing).around expr := by
  cases t with
  | mk kind spelling isConst =>
    simp only [CType.declareAs, CType.frame]
    exact CKind.declareAs_eq_around names template pointing h spelling isConst kind

theorem CKind.declareAs_eq_around (names : RecordNames) (template pointing : Bool) {expr : String}
    (h : expr ≠ "") (spelling : String) (isConst : Bool) (kind : CKind) :
    kind.declareAs names template pointing expr spelling isConst =
      (kind.frame names template pointing spelling isConst).around expr := by
  cases kind with
  | primitive p => simp [CKind.declareAs, CKind.frame, Frame.around, spaced_of_ne _ h]
  | pointer pointee =>
    have hne : "*" ++ qualified isConst expr ≠ "" := by simp
    simp only [CKind.declareAs, CKind.frame, Frame.around_closing]
    rw [CType.declareAs_eq_around names template true hne pointee]
    simp only [qualified_of_ne isConst h, String.append_assoc, String.append_empty]
  | record tag isUnion binding =>
    simp only [CKind.declareAs, CKind.frame, Frame.around,
      spaced_of_ne _ (qualified_ne_empty isConst h)]
    simp only [qualified_of_ne isConst h, String.append_assoc, String.append_empty]
  | typedef name canonical decl =>
    simp only [CKind.declareAs, CKind.frame]
    split
    · exact CType.declareAs_eq_around names template pointing h canonical
    · simp only [Frame.around, spaced_of_ne _ (qualified_ne_empty isConst h)]
      simp only [qualified_of_ne isConst h, String.append_assoc, String.append_empty]
  | function result args argNames variadic =>
    simp only [CKind.declareAs, CKind.frame, Frame.around_closing]
    rw [CType.declareAs_eq_around names template false (by simp) result]
    simp only [parenthesised_eq, qualified_of_ne isConst h, abstractParameters, String.append_assoc]
  | array element count =>
    simp only [CKind.declareAs, CKind.frame, Frame.around_closing]
    rw [CType.declareAs_eq_around names template false (by simp) element]
    simp only [parenthesised_eq, qualified_of_ne isConst h, arrayBounds, String.append_assoc]

end

/-- A declaration of a name that is not empty puts it into the frame of the type. -/
theorem CType.declare_eq_around (names : RecordNames) (t : CType) (template : Bool)
    {expr : String} (h : expr ≠ "") :
    t.declare names expr template = (t.frame names template false).around expr :=
  t.declareAs_eq_around names template false h

end Bindery
