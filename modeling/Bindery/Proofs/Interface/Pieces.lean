import Mathlib
import Bindery.Interface.Section
import Bindery.Proofs.Binding.Director

/-! The lines of an interface in pieces. Pieces that define an instance or name one are kept apart. -/

namespace Bindery

inductive Piece where
  | text (s : String)
  /-- The first line of the template of a generic. -/
  | opening (generic : String)
  /-- The last line of the template of a generic. -/
  | closing (generic : String)
  | instantiation (generic key : String)
  /-- The first line of an extension of an instance. -/
  | extension (generic key : String)
  /-- The name of a record that is bound to an instance. -/
  | bound (b : GenericBinding)
  deriving DecidableEq

/-- How a piece is written. -/
def Piece.shown : Piece → String
  | .text s => s
  | .opening n => s!"%define %{n}(TYPE)"
  | .closing _ => "%enddef"
  | .instantiation n k => s!"%{n}({k})"
  | .extension n k => s!"%extend {n}_{k} \x7b"
  | .bound b => b.generic ++ "_" ++ b.specialization

abbrev Line := List Piece

namespace Line

def shown (l : Line) : String :=
  String.join (l.map Piece.shown)

def plain (s : String) : Line :=
  [.text s]

def plains (texts : List String) : List Line :=
  texts.map plain

def spaced (base expr : Line) : Line :=
  if expr.shown.isEmpty then base else base ++ .text " " :: expr

def qualified (isConst : Bool) (expr : Line) : Line :=
  if isConst then spaced (plain "const") expr else expr

def parenthesised (yes : Bool) (expr : Line) : Line :=
  if yes then .text "(" :: expr ++ [.text ")"] else expr

def commas (ls : List Line) : Line :=
  (plain ", ").intercalate ls

def deeper (ls : List Line) : List Line :=
  ls.map (.text "    " :: ·)

def enclosed (opening : Line) (ls : List Line) (closing : String) : List Line :=
  opening :: deeper ls ++ [plain closing]

variable {a b : Line} {ls : List Line} {p : Piece} {s : String}

@[simp] theorem shown_nil : shown [] = "" :=
  rfl

@[simp] theorem shown_cons : shown (p :: a) = p.shown ++ shown a := by
  simp [shown]

@[simp] theorem shown_append : shown (a ++ b) = shown a ++ shown b := by
  simp [shown, String.join_append]

@[simp] theorem shown_plain : (plain s).shown = s := by
  simp [plain, Piece.shown]

@[simp] theorem shown_spaced : (a.spaced b).shown = Bindery.spaced a.shown b.shown := by
  unfold spaced Bindery.spaced
  split <;> simp [Piece.shown, String.append_assoc]

@[simp] theorem shown_qualified {isConst : Bool} :
    (qualified isConst a).shown = Bindery.qualified isConst a.shown := by
  unfold qualified Bindery.qualified
  split <;> simp

@[simp] theorem shown_parenthesised {yes : Bool} :
    (parenthesised yes a).shown = Bindery.parenthesised yes a.shown := by
  unfold parenthesised Bindery.parenthesised
  split <;> simp [Piece.shown, String.append_assoc]

@[simp] theorem shown_commas : (commas ls).shown = ", ".intercalate (ls.map shown) := by
  induction ls with
  | nil => rfl
  | cons l ls ih =>
    cases ls with
    | nil => simp [commas]
    | cons l' ls =>
      rw [commas, List.intercalate_cons_cons, shown_append, shown_append, shown_plain, ← commas, ih]
      simp [String.intercalate_cons_cons]

@[simp] theorem map_shown_plains (texts : List String) : (plains texts).map shown = texts := by
  simp [plains, Function.comp_def]

@[simp] theorem map_shown_deeper : (deeper ls).map shown = Bindery.deeper (ls.map shown) := by
  simp [deeper, Bindery.deeper, Piece.shown, Function.comp_def]

@[simp] theorem map_shown_enclosed {closing : String} :
    (enclosed a ls closing).map shown = Bindery.enclosed a.shown (ls.map shown) closing := by
  simp [enclosed, Bindery.enclosed]

end Line

/-- What a piece needs to be written before it on a line of its own. -/
def Piece.needs : Piece → List Piece
  | .text _ => []
  | .opening _ => []
  | .closing n => [.opening n]
  | .instantiation n _ => [.closing n]
  | .extension n k => [.instantiation n k]
  | .bound b => [.instantiation b.generic b.specialization]

/-- A line defines nothing and names no other instances than some. -/
def Line.Names (bs : List GenericBinding) (l : Line) : Prop :=
  ∀ p ∈ l, (∃ s, p = .text s) ∨ ∃ b ∈ bs, p = .bound b

namespace Line.Names

variable {bs bs' : List GenericBinding} {a b : Line} {ls : List Line}

theorem nil : Names bs [] :=
  List.forall_mem_nil _

theorem plain (s : String) : (plain s).Names bs :=
  List.forall_mem_singleton.mpr (.inl ⟨s, rfl⟩)

theorem cons {s : String} (h : a.Names bs) : Names bs (.text s :: a) :=
  List.forall_mem_cons.mpr ⟨.inl ⟨s, rfl⟩, h⟩

theorem append (ha : a.Names bs) (hb : b.Names bs) : Names bs (a ++ b) :=
  List.forall_mem_append.mpr ⟨ha, hb⟩

theorem mono (h : a.Names bs) (hsub : bs ⊆ bs') : a.Names bs' :=
  fun p hp => (h p hp).imp_right fun ⟨x, hx, he⟩ => ⟨x, hsub hx, he⟩

theorem spaced (ha : a.Names bs) (hb : b.Names bs) : (a.spaced b).Names bs := by
  unfold Line.spaced
  split
  · exact ha
  · exact ha.append hb.cons

theorem qualified {isConst : Bool} (h : a.Names bs) : (a.qualified isConst).Names bs := by
  unfold Line.qualified
  split
  · exact (plain "const").spaced h
  · exact h

theorem parenthesised {yes : Bool} (h : a.Names bs) : (a.parenthesised yes).Names bs := by
  unfold Line.parenthesised
  split
  · exact (h.cons).append (plain ")")
  · exact h

theorem commas (h : ∀ l ∈ ls, l.Names bs) : (commas ls).Names bs := by
  induction ls with
  | nil => exact nofun
  | cons l ls ih =>
    obtain ⟨hl, hls⟩ := List.forall_mem_cons.mp h
    cases ls with
    | nil => simpa [Line.commas] using hl
    | cons l' ls =>
      rw [Line.commas, List.intercalate_cons_cons]
      exact (hl.append (plain ", ")).append (ih hls)

theorem plains (texts : List String) : ∀ l ∈ plains texts, l.Names bs :=
  List.forall_mem_map.mpr fun s _ => plain s

theorem deeper (h : ∀ l ∈ ls, l.Names bs) : ∀ l ∈ deeper ls, l.Names bs :=
  List.forall_mem_map.mpr fun l hl => (h l hl).cons

theorem enclosed {closing : String} (ha : a.Names bs) (h : ∀ l ∈ ls, l.Names bs) :
    ∀ l ∈ enclosed a ls closing, l.Names bs :=
  List.forall_mem_append.mpr
    ⟨List.forall_mem_cons.mpr ⟨ha, deeper h⟩, List.forall_mem_singleton.mpr (plain closing)⟩

end Line.Names

namespace RecordNames

/-- The name of a record. -/
def mark (names : RecordNames) (template : Bool) (r : RecordUse) : Line :=
  match (if template then names.ofGeneric r.tag else none), r.binding with
  | none, some b => [.bound b]
  | _, _ => .plain (names.record template r)

theorem shown_mark (names : RecordNames) (template : Bool) (r : RecordUse) :
    (names.mark template r).shown = names.record template r := by
  unfold mark
  split
  · next hplain hbound => simp [record, hplain, hbound, Line.shown, Piece.shown]
  · exact Line.shown_plain

theorem mark_names (names : RecordNames) (template : Bool) (r : RecordUse) :
    (names.mark template r).Names r.binding.toList := by
  unfold mark
  split
  · next b _ hbound => exact List.forall_mem_singleton.mpr (.inr ⟨b, by simp [hbound], rfl⟩)
  · exact .plain _

end RecordNames

mutual

/-- A declaration of what the line `expr` shows. -/
def CType.markAs (names : RecordNames) (template pointing : Bool) (expr : Line) : CType → Line
  | ⟨kind, spelling, isConst⟩ => kind.markAs names template pointing expr spelling isConst

def CKind.markAs (names : RecordNames) (template pointing : Bool) (expr : Line) :
    CKind → String → Bool → Line
  | .primitive p, spelling, isConst =>
    (Line.plain (RecordNames.primitive template p spelling isConst)).spaced expr
  | .pointer pointee, _, isConst =>
    pointee.markAs names template true (.text "*" :: expr.qualified isConst)
  | .record tag isUnion binding, _, isConst =>
    (names.mark template ⟨tag, isUnion, binding⟩).spaced (expr.qualified isConst)
  | .typedef name canonical _, _, isConst =>
    let shown := (canonical.kind.record?).any (names.looksThrough template)
    if shown then canonical.markAs names template pointing expr
    else (Line.plain name).spaced (expr.qualified isConst)
  | .function result args _ variadic, _, isConst =>
    let head := (expr.qualified isConst).parenthesised pointing
    let params := CType.markList names args ++ (if variadic then [.plain "..."] else [])
    result.markAs names template false (head ++ .text "(" :: Line.commas params ++ [.text ")"])
  | .array element count, _, isConst =>
    let head := (expr.qualified isConst).parenthesised pointing
    let n := (count.map toString).getD ""
    element.markAs names template false (head ++ [.text ("[" ++ n ++ "]")])

def CType.markList (names : RecordNames) : List CType → List Line
  | [] => []
  | t :: ts => t.markAs names false false [] :: CType.markList names ts

end

mutual

theorem CType.shown_markAs (names : RecordNames) (template pointing : Bool) (expr : Line) :
    ∀ t : CType, (t.markAs names template pointing expr).shown =
      t.declareAs names template pointing expr.shown
  | ⟨kind, spelling, isConst⟩ => kind.shown_markAs names template pointing expr spelling isConst

theorem CKind.shown_markAs (names : RecordNames) (template pointing : Bool) (expr : Line) :
    ∀ (k : CKind) (spelling : String) (isConst : Bool),
      (k.markAs names template pointing expr spelling isConst).shown =
        k.declareAs names template pointing expr.shown spelling isConst
  | .primitive _, _, _ => by simp [CKind.markAs, CKind.declareAs]
  | .pointer pointee, _, _ => by
    simp [CKind.markAs, CKind.declareAs, pointee.shown_markAs, Piece.shown]
  | .record _ _ _, _, _ => by simp [CKind.markAs, CKind.declareAs, RecordNames.shown_mark]
  | .typedef _ canonical _, _, _ => by
    simp only [CKind.markAs, CKind.declareAs]
    split
    · exact canonical.shown_markAs names template pointing expr
    · simp
  | .function result args _ variadic, _, _ => by
    have hargs := CType.shown_markList names args
    cases variadic <;>
      simp [CKind.markAs, CKind.declareAs, result.shown_markAs, hargs, Piece.shown, String.append_assoc]
  | .array element _, _, _ => by
    simp [CKind.markAs, CKind.declareAs, element.shown_markAs, Piece.shown, String.append_assoc]

theorem CType.shown_markList (names : RecordNames) : ∀ ts : List CType,
    (CType.markList names ts).map Line.shown = CType.abstractList names ts
  | [] => rfl
  | t :: ts => by
    simp [CType.markList, CType.abstractList, t.shown_markAs, CType.shown_markList names ts]

end

section

variable {names : RecordNames} {bs : List GenericBinding}

mutual

theorem CType.markAs_names : ∀ (t : CType) {template pointing : Bool} {expr : Line}, expr.Names bs →
    t.bindings ⊆ bs → (t.markAs names template pointing expr).Names bs
  | ⟨kind, _, _⟩, _, _, _, hexpr, ht => kind.markAs_names hexpr ht

theorem CKind.markAs_names : ∀ (k : CKind) {template pointing : Bool} {expr : Line} {spelling : String}
    {isConst : Bool}, expr.Names bs → k.bindings ⊆ bs →
      (k.markAs names template pointing expr spelling isConst).Names bs
  | .primitive _, _, _, _, _, _, hexpr, _ => (Line.Names.plain _).spaced hexpr
  | .pointer pointee, _, _, _, _, _, hexpr, hk => pointee.markAs_names hexpr.qualified.cons hk
  | .record _ _ _, template, _, _, _, _, hexpr, hk =>
    ((names.mark_names template _).mono hk).spaced hexpr.qualified
  | .typedef _ canonical _, _, _, _, _, _, hexpr, hk => by
    simp only [CKind.markAs]
    split
    · exact canonical.markAs_names hexpr hk
    · exact (Line.Names.plain _).spaced hexpr.qualified
  | .function result args _ variadic, _, _, _, _, _, hexpr, hk => by
    obtain ⟨hresult, hargs⟩ := List.append_subset.mp hk
    refine result.markAs_names (.append ?_ (.plain ")")) hresult
    refine hexpr.qualified.parenthesised.append (.cons (.commas ?_))
    refine List.forall_mem_append.mpr ⟨CType.markList_names args hargs, ?_⟩
    cases variadic with
    | true => exact List.forall_mem_singleton.mpr (.plain _)
    | false => exact nofun
  | .array element _, _, _, _, _, _, hexpr, hk =>
    element.markAs_names (hexpr.qualified.parenthesised.append (.plain _)) hk

theorem CType.markList_names : ∀ ts : List CType, CType.bindingsList ts ⊆ bs →
    ∀ l ∈ CType.markList names ts, l.Names bs
  | [], _ => nofun
  | t :: ts, h => by
    obtain ⟨ht, hts⟩ := List.append_subset.mp h
    exact List.forall_mem_cons.mpr ⟨t.markAs_names .nil ht, CType.markList_names ts hts⟩

end

/-- A declaration of `expr`. -/
def CType.mark (names : RecordNames) (t : CType) (expr : String) (template : Bool) : Line :=
  t.markAs names template false (.plain expr)

@[simp] theorem CType.shown_mark (t : CType) (expr : String) (template : Bool) :
    (t.mark names expr template).shown = t.declare names expr template := by
  rw [mark, shown_markAs, Line.shown_plain, declare]

theorem CType.mark_names {t : CType} {expr : String} {template : Bool} (ht : t.bindings ⊆ bs) :
    (t.mark names expr template).Names bs :=
  t.markAs_names (.plain expr) ht

end

namespace Func

variable {names : RecordNames} {options : BindOptions} {f : Func}

def markParameter (names : RecordNames) (f : Func) (a : FuncArg) : Line :=
  a.type.mark names a.wrapperName (f.isGenericArg a) ++
    (match a.default with
    | some value => .plain (" = " ++ value)
    | none => [])

def markParameters (names : RecordNames) (f : Func) : Line :=
  Line.commas (f.boundArgs.map (f.markParameter names))

def markHead (names : RecordNames) (f : Func) (name structName : String) : Line :=
  let declared := f.function.result.mark names name f.hasGenericResult
  let params := .text "(" :: f.markParameters names ++ [.text ") \x7b"]
  match f.kind with
  | .method => declared ++ params
  | .generic _ => declared ++ params
  | .static => .text "static " :: declared ++ params
  | .constructor => .text structName :: params
  | .destructor => .text "~" :: .text structName :: params

def markCall (names : RecordNames) (f : Func) : Line :=
  let called := f.function.name ++ "(" ++ ", ".intercalate f.actuals ++ ");"
  match f.kind with
  | .generic _ =>
    .text "return (" :: f.function.result.mark names "" f.hasGenericResult ++ [.text ")", .text called]
  | _ => .plain ("return " ++ called)

def markContract (names : RecordNames) (options : BindOptions) (f : Func) (name : String) :
    List Line :=
  let required := f.requiredArgs options
  if required.isEmpty then []
  else
    [.text "%contract " :: .text name :: .text "(" :: f.markParameters names ++ [.text ") \x7b"],
      Line.plain "require:"] ++
      Line.deeper (Line.plains (required.map (· ++ " != NULL;"))) ++ [Line.plain "\x7d"]

/-- The member of an extension that a function becomes under a name. -/
def mark (names : RecordNames) (options : BindOptions) (structName : String)
    (entry : String × Func) : List Line :=
  let (name, f) := entry
  Line.plains (f.typemapLines "_activate") ++ f.markContract names options name ++
    Line.enclosed (f.markHead names name structName)
      (Line.plains (f.deprecation options name) ++ [f.markCall names]) "\x7d" ++
    Line.plains (f.typemapLines "_deactivate")

theorem shown_markParameter {a : FuncArg} : (f.markParameter names a).shown = f.parameter names a := by
  unfold markParameter parameter
  cases a.default <;> simp

theorem shown_markParameters : (f.markParameters names).shown = f.parameters names := by
  simp [markParameters, parameters, shown_markParameter, Function.comp_def]

theorem shown_markHead {name structName : String} :
    (f.markHead names name structName).shown = f.head names name structName := by
  unfold markHead head
  cases f.kind <;> simp [shown_markParameters, Piece.shown, String.append_assoc]

theorem shown_markCall : (f.markCall names).shown = f.call names := by
  unfold markCall call
  cases f.kind <;> simp [Piece.shown, String.append_assoc]

theorem shown_markContract {name : String} :
    (f.markContract names options name).map Line.shown = f.contract names options name := by
  unfold markContract contract
  dsimp only
  split
  · rfl
  · simp [shown_markParameters, Piece.shown, String.append_assoc]

theorem shown_mark {structName : String} {entry : String × Func} :
    (mark names options structName entry).map Line.shown = lines names options structName entry := by
  simp [mark, lines, shown_markContract, shown_markHead, shown_markCall]

variable {bs : List GenericBinding}

theorem bindings_boundArgs (hf : f.function.bindings ⊆ bs) : ∀ a ∈ f.boundArgs, a.type.bindings ⊆ bs := by
  intro a ha b hb
  have harg : a ∈ f.function.args := by
    unfold boundArgs at ha
    split at ha
    · exact List.mem_of_mem_drop ha
    · exact ha
  exact hf (List.mem_append_left _ (List.mem_flatMap.mpr ⟨a, harg, hb⟩))

theorem markParameters_names (hf : f.function.bindings ⊆ bs) : (f.markParameters names).Names bs := by
  refine .commas (List.forall_mem_map.mpr fun a ha => ?_)
  refine .append (CType.mark_names (bindings_boundArgs hf a ha)) ?_
  cases a.default with
  | some value => exact .plain _
  | none => exact .nil

theorem markHead_names {name structName : String} (hf : f.function.bindings ⊆ bs) :
    (f.markHead names name structName).Names bs := by
  have hdeclared : (f.function.result.mark names name f.hasGenericResult).Names bs :=
    CType.mark_names (List.append_subset.mp hf).2
  have hparams : Line.Names bs (.text "(" :: f.markParameters names ++ [.text ") \x7b"]) :=
    ((markParameters_names hf).append (.plain _)).cons
  unfold markHead
  cases f.kind with
  | method => exact hdeclared.append hparams
  | generic _ => exact hdeclared.append hparams
  | static => exact (hdeclared.append hparams).cons
  | constructor => exact hparams.cons
  | destructor => exact hparams.cons.cons

theorem markCall_names (hf : f.function.bindings ⊆ bs) : (f.markCall names).Names bs := by
  have hcast : (f.function.result.mark names "" f.hasGenericResult).Names bs :=
    CType.mark_names (List.append_subset.mp hf).2
  unfold markCall
  cases f.kind with
  | generic _ => exact (hcast.append (Line.Names.plain _).cons).cons
  | _ => exact .plain _

theorem markContract_names {name : String} (hf : f.function.bindings ⊆ bs) :
    ∀ l ∈ f.markContract names options name, l.Names bs := by
  unfold markContract
  dsimp only
  split
  · exact nofun
  · have hhead : Line.Names bs (.text "%contract " :: .text name :: .text "(" ::
        f.markParameters names ++ [.text ") \x7b"]) :=
      ((markParameters_names hf).append (.plain _)).cons.cons.cons
    refine List.forall_mem_append.mpr ⟨List.forall_mem_append.mpr ⟨?_, .deeper (.plains _)⟩, ?_⟩
    · exact List.forall_mem_cons.mpr ⟨hhead, List.forall_mem_singleton.mpr (.plain _)⟩
    · exact List.forall_mem_singleton.mpr (.plain _)

/-- A wrapper names no instances but those that its function uses. -/
theorem mark_names {structName : String} {entry : String × Func}
    (hf : entry.2.function.bindings ⊆ bs) : ∀ l ∈ mark names options structName entry, l.Names bs := by
  have hbody : ∀ l ∈ Line.plains (entry.2.deprecation options entry.1) ++ [entry.2.markCall names],
      l.Names bs :=
    List.forall_mem_append.mpr ⟨.plains _, List.forall_mem_singleton.mpr (markCall_names hf)⟩
  refine List.forall_mem_append.mpr ⟨List.forall_mem_append.mpr ⟨?_, ?_⟩, .plains _⟩
  · exact List.forall_mem_append.mpr ⟨.plains _, markContract_names hf⟩
  · exact .enclosed (markHead_names hf) hbody

end Func

/-- The instances that a class uses, in its fields and in its functions. -/
def Class.bindings (c : Class) : List GenericBinding :=
  slotBindings c.slots ++ c.functions.flatMap (·.function.bindings)

section

variable {names : RecordNames} {options : BindOptions}

def Field.mark (names : RecordNames) (f : Field) : Line :=
  f.type.mark names f.name false ++ .plain ";"

theorem Field.shown_mark {f : Field} : (f.mark names).shown = fieldLine names f := by
  simp [mark, fieldLine]

def FieldSlot.mark (names : RecordNames) : FieldSlot → List Line
  | .single f => [f.mark names]
  | .union members => Line.enclosed (.plain "union \x7b") (members.map (Field.mark names)) "\x7d;"

theorem FieldSlot.shown_mark {slot : FieldSlot} :
    (slot.mark names).map Line.shown = slotLines names slot := by
  cases slot <;> simp [mark, slotLines, Field.shown_mark, Function.comp_def]

def Class.mark (names : RecordNames) (options : BindOptions) (c : Class) : List Line :=
  let s := c.structName
  Line.plains ([s!"typedef struct {s} {c.name};", s!"%rename {s} {c.name};"] ++ renameLines c) ++
    Line.enclosed (.plain s!"struct {s} \x7b") (c.slots.flatMap (FieldSlot.mark names)) "\x7d;" ++
    Line.plains (unrenameLines c) ++
    (if c.hasFunctions then
      Line.enclosed (.plain s!"%extend {s} \x7b") (c.entries.flatMap (Func.mark names options s)) "\x7d"
    else [])

theorem Class.shown_mark {c : Class} :
    (c.mark names options).map Line.shown = classLines names options c := by
  unfold mark classLines
  dsimp only
  split <;> simp [List.map_flatMap, FieldSlot.shown_mark, Func.shown_mark]

theorem Class.entries_function {c : Class} {entry : String × Func} (h : entry ∈ c.entries) :
    entry.2 ∈ c.functions := by
  simp only [entries, functions, List.mem_append, List.mem_map] at h ⊢
  rcases h with ((⟨f, hf, rfl⟩ | ⟨f, hf, rfl⟩) | h) | h
  · exact .inl (.inl (.inl hf))
  · exact .inl (.inl (.inr hf))
  · exact .inl (.inr ⟨entry, h, rfl⟩)
  · exact .inr ⟨entry, h, rfl⟩

/-- A class names no instances but those that it uses. -/
theorem Class.mark_names {c : Class} : ∀ l ∈ c.mark names options, l.Names c.bindings := by
  have hfield : ∀ slot ∈ c.slots, ∀ f ∈ slot.fields, (f.mark names).Names c.bindings := by
    intro slot hslot f hf
    refine (CType.mark_names fun b hb => List.mem_append_left _ ?_).append (.plain ";")
    exact List.mem_flatMap.mpr ⟨f, List.mem_flatMap.mpr ⟨slot, hslot, hf⟩, hb⟩
  have hslots : ∀ l ∈ c.slots.flatMap (FieldSlot.mark names), l.Names c.bindings := by
    refine List.forall_mem_flatMap.mpr fun slot hslot => ?_
    cases slot with
    | single f => exact List.forall_mem_singleton.mpr (hfield _ hslot f (.head _))
    | union members => exact .enclosed (.plain _) (List.forall_mem_map.mpr fun f hf => hfield _ hslot f hf)
  have hentries : ∀ l ∈ c.entries.flatMap (Func.mark names options c.structName),
      l.Names c.bindings := by
    refine List.forall_mem_flatMap.mpr fun entry hentry => Func.mark_names fun b hb => ?_
    exact List.mem_append_right _ (List.mem_flatMap.mpr ⟨_, entries_function hentry, hb⟩)
  unfold mark
  refine List.forall_mem_append.mpr ⟨List.forall_mem_append.mpr ⟨?_, .plains _⟩, ?_⟩
  · exact List.forall_mem_append.mpr ⟨.plains _, .enclosed (.plain _) hslots⟩
  · split
    · exact .enclosed (.plain _) hentries
    · exact nofun

end

namespace Hook

variable {names : RecordNames} {bs : List GenericBinding} {h : Hook}

def markParameters (names : RecordNames) (h : Hook) : Line :=
  Line.commas (h.args.map fun a => a.2.mark names a.1 false)

def markDeclared (names : RecordNames) (h : Hook) (name : String) : Line :=
  h.result.mark names name false ++ .text "(" :: h.markParameters names ++ [.text ") \x7b"]

theorem shown_markDeclared {name : String} :
    (h.markDeclared names name).shown = h.declared names name := by
  simp [markDeclared, declared, markParameters, parameters, Piece.shown, Function.comp_def,
    String.append_assoc]

theorem markDeclared_names {name : String} (hh : h.bindings ⊆ bs) :
    (h.markDeclared names name).Names bs := by
  obtain ⟨hargs, hresult⟩ := List.append_subset.mp hh
  have hparams : (h.markParameters names).Names bs := by
    refine .commas (List.forall_mem_map.mpr fun a ha => CType.mark_names fun b hb => hargs ?_)
    exact List.mem_flatMap.mpr ⟨a, ha, hb⟩
  exact ((CType.mark_names hresult).append hparams.cons).append (.plain _)

end Hook

namespace Director

variable {names : RecordNames} {d : Director}

def markVirtuals (names : RecordNames) (d : Director) : List Line :=
  Line.plains ["%inline %\x7b", s!"struct {d.name}Director \x7b"] ++
    Line.deeper (d.hooks.flatMap (fun h =>
      (.text "virtual " :: h.markDeclared names h.name) ::
        Line.plains [s!"    throw Swig::DirectorPureVirtualException(\"{h.name}\");", "\x7d"]) ++
      Line.plains [s!"virtual ~{d.name}Director() \x7b\x7d"]) ++
    Line.plains ["\x7d;", "%\x7d"]

def markAdapters (names : RecordNames) (d : Director) : List Line :=
  Line.plains ["%\x7b", s!"static {d.name}Director *SWIG_{d.name}Director = NULL;", "%\x7d", "%\x7b"] ++
    d.hooks.flatMap (fun h =>
      let actuals := ", ".intercalate (h.args.map (·.1))
      h.markDeclared names s!"SWIG_{d.name}_{h.name}" ::
        Line.plains [s!"    return SWIG_{d.name}Director->{h.name}({actuals});", "\x7d"]) ++
    Line.plains ["%\x7d"]

def markBuilder (names : RecordNames) (d : Director) : List Line :=
  Line.plains ["%inline %\x7b", s!"struct {d.name}Builder \x7b"] ++
    Line.deeper (Line.plains (d.hooks.map fun h => s!"bool enable_{h.name};") ++
      (d.fields.map fun f => f.2.mark names f.1 false ++ .plain ";") ++ Line.plains d.buildLines) ++
    Line.plains ["\x7d;", "%\x7d"]

def mark (names : RecordNames) (d : Director) : List Line :=
  Line.plain s!"%feature(\"director\") {d.name}Director;" ::
    d.markVirtuals names ++ d.markAdapters names ++ d.markBuilder names ++ Line.plains d.registration

theorem shown_mark : (d.mark names).map Line.shown = d.lines names := by
  simp [mark, lines, markVirtuals, virtuals, markAdapters, adapters, markBuilder, builder,
    List.map_flatMap, Hook.shown_markDeclared, Piece.shown, Function.comp_def]

/-- A director names no instances but those that it uses. -/
theorem mark_names : ∀ l ∈ d.mark names, l.Names d.bindings := by
  have hhook : ∀ h ∈ d.hooks, ∀ name, (h.markDeclared names name).Names d.bindings := fun h hh name =>
    Hook.markDeclared_names fun b hb => List.mem_append_right _ (List.mem_flatMap.mpr ⟨h, hh, hb⟩)
  have hfields : ∀ l ∈ d.fields.map fun f => f.2.mark names f.1 false ++ .plain ";",
      l.Names d.bindings := by
    refine List.forall_mem_map.mpr fun f hf => .append (CType.mark_names fun b hb => ?_) (.plain ";")
    exact List.mem_append_left _ (List.mem_flatMap.mpr ⟨f, hf, hb⟩)
  have hvirtuals : ∀ l ∈ d.markVirtuals names, l.Names d.bindings := by
    refine List.forall_mem_append.mpr ⟨List.forall_mem_append.mpr ⟨.plains _, .deeper ?_⟩, .plains _⟩
    refine List.forall_mem_append.mpr ⟨List.forall_mem_flatMap.mpr fun h hh => ?_, .plains _⟩
    exact List.forall_mem_cons.mpr ⟨(hhook h hh _).cons, .plains _⟩
  have hadapters : ∀ l ∈ d.markAdapters names, l.Names d.bindings := by
    refine List.forall_mem_append.mpr ⟨List.forall_mem_append.mpr ⟨.plains _, ?_⟩, .plains _⟩
    exact List.forall_mem_flatMap.mpr fun h hh => List.forall_mem_cons.mpr ⟨hhook h hh _, .plains _⟩
  have hbuilder : ∀ l ∈ d.markBuilder names, l.Names d.bindings := by
    refine List.forall_mem_append.mpr ⟨List.forall_mem_append.mpr ⟨.plains _, .deeper ?_⟩, .plains _⟩
    exact List.forall_mem_append.mpr ⟨List.forall_mem_append.mpr ⟨.plains _, hfields⟩, .plains _⟩
  refine List.forall_mem_append.mpr ⟨List.forall_mem_append.mpr ⟨?_, hbuilder⟩, .plains _⟩
  exact List.forall_mem_append.mpr ⟨List.forall_mem_cons.mpr ⟨.plain _, hvirtuals⟩, hadapters⟩

end Director

end Bindery
