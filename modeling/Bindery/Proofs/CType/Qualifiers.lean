import Bindery.Proofs.CType.Frame

/-! The qualifiers of a declaration: one for the name of the base type, one for each level above. -/

namespace Bindery

mutual

/-- The type whose name a declaration begins with. -/
def CType.base : CType → CType
  | ⟨kind, spelling, isConst⟩ => kind.base spelling isConst

def CKind.base : CKind → String → Bool → CType
  | .primitive p, spelling, isConst => ⟨.primitive p, spelling, isConst⟩
  | .pointer pointee, _, _ => pointee.base
  | .array element _, _, _ => element.base
  | .typedef name canonical decl, spelling, isConst =>
    ⟨.typedef name canonical decl, spelling, isConst⟩
  | .record tag isUnion binding, spelling, isConst =>
    ⟨.record tag isUnion binding, spelling, isConst⟩
  | .function result _ _ _, _, _ => result.base

end

/-- A name with its qualifier behind it. -/
def marked (isConst : Bool) (name : String) : String :=
  if isConst then name ++ " const" else name

/-- The name of a base type with its qualifier. The spelling of a primitive type has the qualifier in
it. A typedef that is replaced by its record is const when either of them is. -/
def CType.named (names : RecordNames) (template : Bool) : CType → String
  | ⟨.primitive .bool, _, isConst⟩ => constMark isConst ++ "bool"
  | ⟨.primitive .void, spelling, isConst⟩ =>
    if template then constMark isConst ++ "TYPE" else spelling
  | ⟨.record tag isUnion binding, _, isConst⟩ =>
    marked isConst (names.record template ⟨tag, isUnion, binding⟩)
  | ⟨.typedef name canonical _, _, isConst⟩ =>
    match canonical.kind.record?.filter (names.looksThrough template) with
    | some r => marked (isConst || canonical.isConst) (names.record template r)
    | none => marked isConst name
  | ⟨_, spelling, _⟩ => spelling

mutual

/-- What follows the base in a declaration of `expr`: each level behind the ones that it is made of,
with its qualifier next to what it is declared for. `pointing` is as in `CType.declareAs`. -/
def CType.declarator (names : RecordNames) (pointing : Bool) (expr : String) : CType → String
  | ⟨kind, _, isConst⟩ => kind.declarator names pointing expr isConst

def CKind.declarator (names : RecordNames) (pointing : Bool) (expr : String) :
    CKind → Bool → String
  | .primitive _, _ => expr
  | .typedef _ _ _, _ => expr
  | .record _ _ _, _ => expr
  | .pointer pointee, isConst =>
    pointee.declarator names true ("*" ++ qualified isConst expr)
  | .array element count, isConst =>
    let n := (count.map toString).getD ""
    element.declarator names false
      (parenthesised pointing (qualified isConst expr) ++ "[" ++ n ++ "]")
  | .function result args _ variadic, isConst =>
    let params := CType.parameters names args ++ (if variadic then ["..."] else [])
    result.declarator names false
      (parenthesised pointing (qualified isConst expr) ++ "(" ++ ", ".intercalate params ++ ")")

/-- Parameters without names. They are never written as in a template. -/
def CType.parameters (names : RecordNames) : List CType → List String
  | [] => []
  | t :: ts => spaced (t.base.named names false) (t.declarator names false "") ::
    CType.parameters names ts

end

mutual

/-- Every typedef hands its qualifier on to the type it stands for. -/
def CType.Carried : CType → Prop
  | ⟨kind, _, isConst⟩ => kind.Carried isConst

def CKind.Carried : CKind → Bool → Prop
  | .primitive _, _ => True
  | .pointer pointee, _ => pointee.Carried
  | .array element _, _ => element.Carried
  | .typedef _ canonical _, isConst => isConst → canonical.isConst
  | .record _ _ _, _ => True
  | .function result args _ _, _ => result.Carried ∧ CType.CarriedList args

def CType.CarriedList : List CType → Prop
  | [] => True
  | t :: ts => t.Carried ∧ CType.CarriedList ts

end

/-- The name that the declaration of a type begins with: the placeholder of `void` has no
qualifier. -/
def CType.shown (names : RecordNames) (template : Bool) (t : CType) : String :=
  if template && t.isVoid then "TYPE" else t.named names template

theorem CType.shown_outside (names : RecordNames) (t : CType) :
    t.shown names false = t.named names false :=
  rfl

theorem CType.shown_eq_named_iff {names : RecordNames} {template : Bool} {t : CType} :
    t.shown names template = t.named names template ↔ ¬(template ∧ t.isVoid ∧ t.isConst) := by
  obtain ⟨kind, spelling, isConst⟩ := t
  cases template with
  | false => simp [shown]
  | true =>
    by_cases hvoid : kind = .primitive .void
    · subst hvoid
      cases isConst <;> simp [shown, isVoid, named, constMark]
    · have hno : (⟨kind, spelling, isConst⟩ : CType).isVoid = false := by
        unfold isVoid
        split
        · next h => exact absurd h hvoid
        · rfl
      simp [shown, hno]

theorem spaced_left_inj {a b expr : String} : spaced a expr = spaced b expr ↔ a = b := by
  by_cases h : expr = ""
  · simp [spaced, h]
  · rw [spaced_of_ne a h, spaced_of_ne b h, String.append_left_inj, String.append_left_inj]

/-- A qualifier between a name and what follows is one of the name. -/
theorem spaced_qualified (name : String) (isConst : Bool) (expr : String) :
    spaced name (qualified isConst expr) = spaced (marked isConst name) expr := by
  cases isConst with
  | false => rfl
  | true =>
    by_cases h : expr = ""
    · subst h
      simp [qualified, marked, spaced, String.append_assoc]
    · have hmark : " " ++ ("const " ++ expr) = " const " ++ expr := by
        rw [← String.append_assoc]
        rfl
      simp [qualified, marked, spaced, h, String.append_assoc, hmark]

theorem RecordNames.primitive_eq_shown (names : RecordNames) (template : Bool) (p : Primitive)
    (spelling : String) (isConst : Bool) :
    RecordNames.primitive template p spelling isConst =
      (⟨.primitive p, spelling, isConst⟩ : CType).shown names template := by
  cases p with
  | bool => cases template <;> cases isConst <;> rfl
  | _ => cases template <;> rfl

theorem CType.shown_of_not_void {t : CType} (h : t.isVoid = false) (names : RecordNames)
    (template : Bool) : t.shown names template = t.named names template := by
  simp [shown, h]

/-- A typedef is written by its own name or as the record it stands for, which is const as well if
the typedef is. -/
theorem CKind.declareAs_typedef {names : RecordNames} {template pointing : Bool} {expr : String}
    {name spelling : String} {canonical : CType} {decl : Option Decl} {isConst : Bool}
    (h : isConst → canonical.isConst) :
    (CKind.typedef name canonical decl).declareAs names template pointing expr spelling isConst =
      spaced ((⟨.typedef name canonical decl, spelling, isConst⟩ : CType).named names template)
        expr := by
  obtain ⟨kind, written, carried⟩ := canonical
  simp only [CKind.declareAs, CType.named]
  cases hrecord : kind.record? with
  | none =>
    simp only [Option.any_none, Option.filter_none]
    exact spaced_qualified name isConst expr
  | some r =>
    obtain ⟨tag, isUnion, binding, rfl⟩ :
        ∃ tag isUnion binding, kind = .record tag isUnion binding := by
      cases kind with
      | record tag isUnion binding => exact ⟨tag, isUnion, binding, rfl⟩
      | _ => cases hrecord
    cases hrecord
    by_cases hlooks : names.looksThrough template ⟨tag, isUnion, binding⟩ = true
    · have hconst : (isConst || carried) = carried := by
        cases isConst with
        | false => rfl
        | true => exact (h rfl).symm
      simp only [Option.any_some, hlooks, if_true, Option.filter_some, hconst]
      exact spaced_qualified _ carried expr
    · simp only [Option.any_some, hlooks, Option.filter_some]
      exact spaced_qualified name isConst expr

section

variable (names : RecordNames)

mutual

theorem CType.declareAs_eq_spaced (template pointing : Bool) (expr : String) (t : CType)
    (h : t.Carried) : t.declareAs names template pointing expr =
      spaced (t.base.shown names template) (t.declarator names pointing expr) := by
  obtain ⟨kind, spelling, isConst⟩ := t
  exact CKind.declareAs_eq_spaced template pointing expr spelling isConst kind h

theorem CKind.declareAs_eq_spaced (template pointing : Bool) (expr spelling : String)
    (isConst : Bool) (kind : CKind) (h : kind.Carried isConst) :
    kind.declareAs names template pointing expr spelling isConst =
      spaced ((kind.base spelling isConst).shown names template)
        (kind.declarator names pointing expr isConst) := by
  cases kind with
  | primitive p =>
    rw [CKind.declareAs, RecordNames.primitive_eq_shown names]
    rfl
  | record tag isUnion binding =>
    rw [CKind.declareAs, spaced_qualified, CKind.base, CType.shown_of_not_void rfl]
    rfl
  | typedef name canonical decl =>
    rw [CKind.declareAs_typedef h, CKind.base, CType.shown_of_not_void rfl]
    rfl
  | pointer pointee =>
    exact CType.declareAs_eq_spaced template true ("*" ++ qualified isConst expr) pointee h
  | array element count =>
    exact CType.declareAs_eq_spaced template false _ element h
  | function result args argNames variadic =>
    simp only [CKind.declareAs, CType.abstractList_eq_parameters args h.2]
    exact CType.declareAs_eq_spaced template false _ result h.1

theorem CType.abstractList_eq_parameters (ts : List CType) (h : CType.CarriedList ts) :
    CType.abstractList names ts = CType.parameters names ts := by
  cases ts with
  | nil => rfl
  | cons t ts =>
    rw [CType.abstractList, CType.parameters, CType.declareAs_eq_spaced false false "" t h.1,
      CType.shown_outside, CType.abstractList_eq_parameters ts h.2]

end

/-- Outside templates every qualifier is written, and in a template each one but that of `void`. -/
theorem CType.declare_eq_spaced_iff {t : CType} (h : t.Carried) (expr : String) (template : Bool) :
    t.declare names expr template =
        spaced (t.base.named names template) (t.declarator names false expr) ↔
      ¬(template ∧ t.base.isVoid ∧ t.base.isConst) := by
  rw [declare, declareAs_eq_spaced names template false expr t h, spaced_left_inj,
    shown_eq_named_iff]

end

end Bindery
