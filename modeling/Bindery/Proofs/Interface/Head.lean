import Bindery.Interface.Director
import Bindery.Proofs.CType.Frame

/-! Heads of functions: a finished declarator of the result with the parameters written behind it. -/

namespace Bindery

namespace CType

def isFunction (t : CType) : Bool :=
  match t.kind with
  | .function _ _ _ _ => true
  | _ => false

/-- Whether a declarator of the type ends with the declared name. -/
def endsAtName : CType → Bool
  | ⟨.pointer pointee, _, _⟩ => pointee.endsAtName
  | ⟨.array _ _, _, _⟩ => false
  | ⟨.function _ _ _ _, _, _⟩ => false
  | _ => true

/-- Whether the outermost level writes a mark of its own next to the name, with no blank between
them. Only then does the declarator of an empty name have the form of the others. -/
def marksName (t : CType) : Bool :=
  match t.kind with
  | .pointer _ => !t.isConst
  | .array _ _ => !t.isConst
  | .function _ _ _ _ => !t.isConst
  | _ => false

end CType

theorem CKind.frame_behind_of_record {kind : CKind} (h : kind.record?.isSome)
    (names : RecordNames) (template pointing : Bool) (spelling : String) (isConst : Bool) :
    (kind.frame names template pointing spelling isConst).behind = "" := by
  cases kind <;> simp [CKind.record?, CKind.frame] at h ⊢

/-- What is written behind a name is empty, or it starts with the parenthesis that closes a group
around the name, with a bracket, or, for a function, with its parameters. -/
theorem CType.behind_cases (names : RecordNames) (template pointing : Bool) (t : CType) :
    ((t.frame names template pointing).behind = "" ∧ t.endsAtName = true) ∨
    (t.endsAtName = false ∧
      ((∃ s, (t.frame names template pointing).behind = ")" ++ s) ∨
        (∃ s, (t.frame names template pointing).behind = "[" ++ s) ∨
        (pointing = false ∧ t.isFunction = true))) := by
  obtain ⟨kind, spelling, isConst⟩ := t
  cases kind with
  | primitive p => exact .inl ⟨rfl, rfl⟩
  | record tag isUnion binding => exact .inl ⟨rfl, rfl⟩
  | pointer pointee =>
    simp only [CType.frame, CKind.frame, Frame.closing, CType.endsAtName, String.empty_append]
    rcases CType.behind_cases names template true pointee with h | ⟨he, h | h | h⟩
    · exact .inl h
    · exact .inr ⟨he, .inl h⟩
    · exact .inr ⟨he, .inr (.inl h)⟩
    · exact absurd h.1 (by decide)
  | typedef name canonical decl =>
    refine .inl ⟨?_, rfl⟩
    simp only [CType.frame, CKind.frame]
    split
    · next h =>
      obtain ⟨ckind, cspelling, cconst⟩ := canonical
      have hr := ((Option.any_eq_true_iff_get _ _).mp h).1
      exact CKind.frame_behind_of_record hr names template pointing cspelling cconst
    · rfl
  | function result args argNames variadic =>
    refine .inr ⟨rfl, ?_⟩
    cases pointing
    · exact .inr (.inr ⟨rfl, rfl⟩)
    · exact .inl ⟨_, by simp only [CType.frame, CKind.frame, Frame.closing, if_true,
        String.append_assoc]; rfl⟩
  | array element count =>
    refine .inr ⟨rfl, ?_⟩
    cases pointing
    · exact .inr (.inl ⟨_, by simp only [CType.frame, CKind.frame, Frame.closing, arrayBounds,
        Bool.false_eq_true, if_false, String.empty_append, String.append_assoc]; rfl⟩)
    · exact .inl ⟨_, by simp only [CType.frame, CKind.frame, Frame.closing, if_true,
        String.append_assoc]; rfl⟩

/-- The condition for `CType.declare_append_iff`: text behind the name and parameters may stand in
either order. -/
def CType.TakesParameters (names : RecordNames) (template : Bool) (t : CType)
    (name params : String) : Prop :=
  (name = "" → t.marksName = true) ∧
    (t.endsAtName = true ∨
      t.isFunction = true ∧
        (t.frame names template false).behind ++ params =
          params ++ (t.frame names template false).behind)

theorem CType.behind_commutes_iff (names : RecordNames) (template : Bool) (t : CType)
    (params : String) :
    (t.frame names template false).behind ++ ("(" ++ params) =
        ("(" ++ params) ++ (t.frame names template false).behind ↔
      t.endsAtName = true ∨
      t.isFunction = true ∧
        (t.frame names template false).behind ++ ("(" ++ params) =
          ("(" ++ params) ++ (t.frame names template false).behind := by
  constructor
  · intro h
    rcases CType.behind_cases names template false t with ⟨_, he⟩ | ⟨_, ⟨s, hs⟩ | ⟨s, hs⟩ | hf⟩
    · exact .inl he
    · rw [hs] at h
      simpa using congrArg String.toList h
    · rw [hs] at h
      simpa using congrArg String.toList h
    · exact .inr ⟨hf.2, h⟩
  · rintro (he | ⟨_, h⟩)
    · rcases CType.behind_cases names template false t with ⟨hb, _⟩ | ⟨hn, _⟩
      · simp [hb]
      · simp [he] at hn
    · exact h

theorem spaced_qualified_empty (base : String) (isConst : Bool) :
    ∃ l r, spaced base (qualified isConst "") = l ++ r ∧
      base ++ " " ++ constMark isConst = l ++ " " ++ r := by
  cases isConst
  · exact ⟨base, "", by simp [spaced, qualified], by simp [constMark]⟩
  · refine ⟨base ++ " const", "", ?_, ?_⟩
    · simp [spaced, qualified, String.append_assoc]
    · simp [constMark, String.append_assoc]

/-- An array or a function around an empty name: a const mark there has no blank behind it. -/
theorem suffixed_empty (frame : Frame) (suffix : String) (isConst : Bool) :
    ((!isConst) = true ∧ frame.around (parenthesised false (qualified isConst "") ++ suffix) =
      frame.around (constMark isConst ++ suffix)) ∨
    ((!isConst) = false ∧ ∃ l r,
      frame.around (parenthesised false (qualified isConst "") ++ suffix) = l ++ r ∧
        frame.around (constMark isConst ++ suffix) = l ++ " " ++ r) := by
  cases isConst with
  | false => exact .inl ⟨rfl, rfl⟩
  | true =>
    refine .inr ⟨rfl, frame.before ++ "const", suffix ++ frame.behind, ?_, ?_⟩
    · simp [Frame.around, parenthesised, qualified, spaced, String.append_assoc]
    · simp [Frame.around, constMark, String.append_assoc]

/-- Declaring an empty name leaves out one blank of the frame, unless the outermost level marks
the name. -/
theorem CType.declare_empty (names : RecordNames) (template : Bool) (t : CType) :
    (t.marksName = true ∧
      t.declare names "" template = (t.frame names template false).around "") ∨
    (t.marksName = false ∧ ∃ l r, t.declare names "" template = l ++ r ∧
      (t.frame names template false).around "" = l ++ " " ++ r) := by
  obtain ⟨kind, spelling, isConst⟩ := t
  simp only [CType.declare, CType.declareAs, CType.frame]
  cases kind with
  | primitive p =>
    refine .inr ⟨rfl, RecordNames.primitive template p spelling isConst, "", ?_, ?_⟩
    · simp [CKind.declareAs, spaced]
    · simp [CKind.frame, Frame.around]
  | record tag isUnion binding =>
    refine .inr ⟨rfl, ?_⟩
    simpa only [CKind.declareAs, CKind.frame, Frame.around, String.append_empty] using
      spaced_qualified_empty (names.record template ⟨tag, isUnion, binding⟩) isConst
  | typedef name canonical decl =>
    refine .inr ⟨rfl, ?_⟩
    simp only [CKind.declareAs, CKind.frame]
    split
    · next h =>
      -- what is shown in place of the typedef is a record
      obtain ⟨ckind, cspelling, cconst⟩ := canonical
      cases ckind with
      | record tag isUnion binding =>
        simpa only [CType.declareAs, CType.frame, CKind.declareAs, CKind.frame, Frame.around,
          String.append_empty] using
          spaced_qualified_empty (names.record template ⟨tag, isUnion, binding⟩) cconst
      | _ => simp [CKind.record?] at h
    · simpa only [Frame.around, String.append_empty] using spaced_qualified_empty name isConst
  | pointer pointee =>
    simp only [CKind.declareAs, CKind.frame, Frame.around_closing]
    rw [CType.declareAs_eq_around names template true (by simp) pointee]
    cases isConst
    · exact .inl ⟨rfl, rfl⟩
    · refine .inr ⟨rfl, (pointee.frame names template true).before ++ "*const",
        (pointee.frame names template true).behind, rfl, ?_⟩
      simp [Frame.around, constMark, String.append_assoc]
  | function result args argNames variadic =>
    simp only [CKind.declareAs, CKind.frame, Frame.around_closing]
    rw [CType.declareAs_eq_around names template false (by simp) result]
    have hempty := suffixed_empty (result.frame names template false)
      (abstractParameters names args variadic) isConst
    simpa [abstractParameters, CType.marksName, String.append_assoc] using hempty
  | array element count =>
    simp only [CKind.declareAs, CKind.frame, Frame.around_closing]
    rw [CType.declareAs_eq_around names template false (by simp) element]
    have hempty := suffixed_empty (element.frame names template false) (arrayBounds count) isConst
    simpa [arrayBounds, CType.marksName, String.append_assoc] using hempty

/-- Parameters written behind a finished declarator belong to the declared name exactly when the
type takes them. -/
theorem CType.declare_append_iff (names : RecordNames) (template : Bool) (t : CType)
    (name params : String) :
    t.declare names name template ++ ("(" ++ params) =
        t.declare names (name ++ ("(" ++ params)) template ↔
      t.TakesParameters names template name ("(" ++ params) := by
  have hne : name ++ ("(" ++ params) ≠ "" := by simp
  have hiff := t.behind_commutes_iff names template params
  rw [t.declare_eq_around names template hne, CType.TakesParameters, ← hiff]
  by_cases hn : name = ""
  · subst hn
    rcases t.declare_empty names template with ⟨hm, he⟩ | ⟨hm, l, r, hl, hr⟩
    · rw [he, Frame.around_append_iff]
      exact ⟨fun h => ⟨fun _ => hm, h⟩, fun h => h.2⟩
    · -- the blank that is left out makes the two texts differ in length
      have hblank : " ".length = 1 := rfl
      have hlen := congrArg String.length hr
      refine ⟨fun h => ?_, fun h => absurd (h.1 rfl) (by simp [hm])⟩
      have h' := congrArg String.length (hl ▸ h)
      simp only [Frame.around, String.length_append] at h' hlen
      omega
  · rw [t.declare_eq_around names template hn, Frame.around_append_iff]
    exact ⟨fun h => ⟨fun he => absurd he hn, h⟩, fun h => h.2⟩

/-- What stands before the declarator in the head of a wrapper. Constructors and destructors have no
declarator. -/
def FuncKind.lead : FuncKind → Option String
  | .method => some ""
  | .generic _ => some ""
  | .static => some "static "
  | .constructor => none
  | .destructor => none

theorem Func.head_of_lead (names : RecordNames) (f : Func) (name structName : String)
    {lead : String} (h : f.kind.lead = some lead) :
    f.head names name structName =
      lead ++ (f.function.result.declare names name f.hasGenericResult ++
        ("(" ++ (f.parameters names ++ ")"))) ++ " \x7b" := by
  simp only [Func.head, String.append_assoc]
  cases hk : f.kind with
  | method =>
    obtain rfl : "" = lead := by simpa [hk, FuncKind.lead] using h
    exact (String.empty_append).symm
  | generic markers =>
    obtain rfl : "" = lead := by simpa [hk, FuncKind.lead] using h
    exact (String.empty_append).symm
  | static =>
    obtain rfl : "static " = lead := by simpa [hk, FuncKind.lead] using h
    rfl
  | constructor => simp [hk, FuncKind.lead] at h
  | destructor => simp [hk, FuncKind.lead] at h

/-- The head of a wrapper, and the head of a hook under any name, is the declaration of a function
with the bound result exactly when the result takes the parameters. -/
theorem head_declares_function_iff (names : RecordNames) :
    (∀ (f : Func) (name structName lead : String), f.kind.lead = some lead →
      let params := "(" ++ (f.parameters names ++ ")")
      (f.head names name structName =
          lead ++ f.function.result.declare names (name ++ params) f.hasGenericResult ++ " \x7b" ↔
        f.function.result.TakesParameters names f.hasGenericResult name params)) ∧
    ∀ (h : Hook) (name : String),
      let params := "(" ++ (h.parameters names ++ ")")
      (h.declared names name = h.result.declare names (name ++ params) false ++ " \x7b" ↔
        h.result.TakesParameters names false name params) := by
  constructor
  · intro f name structName lead hlead params
    rw [f.head_of_lead names name structName hlead, String.append_left_inj,
      String.append_right_inj]
    exact CType.declare_append_iff names f.hasGenericResult f.function.result name _
  · intro h name params
    have hd : h.declared names name =
        h.result.declare names name false ++ params ++ " \x7b" := by
      simp only [Hook.declared, params, String.append_assoc]
      rfl
    rw [hd, String.append_left_inj]
    exact CType.declare_append_iff names false h.result name _

/-- A function without parameters. -/
def getter (name : String) (result : RawType) : Decl :=
  { Decl.bare .function name .unknown with type := some (.function result [] false) }

/-- A result that is a pointer to a pointer puts nothing behind the name. -/
theorem names_head_declared :
    ∃ f r, (Func.bind {} (getter "rz_names" (.pointer (.pointer (.builtin .char)))) .static {}).run
        {} = (.ok f, r) ∧ f.kind.lead = some "static " ∧
      f.head {} "names" "" =
        "static " ++ f.function.result.declare {} ("names" ++ "()") false ++ " \x7b" := by
  refine ⟨_, _, rfl, rfl, ?_⟩
  exact ((head_declares_function_iff {}).1 _ "names" "" "static " rfl).2
    ⟨fun h => absurd h (by decide), .inl rfl⟩

/-- A result that is a pointer to an array has its bounds behind the name, and the parameters of the
function are written behind the bounds. -/
theorem rows_head_misplaced :
    ∃ f r, (Func.bind {} (getter "rz_rows" (.pointer (.array (.builtin .int) (some 2)))) .static
        {}).run {} = (.ok f, r) ∧
      f.head {} "rows" "" = "static int (*rows)[2]() \x7b" ∧
      "static " ++ f.function.result.declare {} ("rows" ++ "()") false ++ " \x7b" =
        "static int (*rows())[2] \x7b" ∧
      f.head {} "rows" "" ≠
        "static " ++ f.function.result.declare {} ("rows" ++ "()") false ++ " \x7b" := by
  refine ⟨_, _, rfl, rfl, rfl, ?_⟩
  intro h
  exact absurd (congrArg String.toList h) (by decide)

end Bindery
