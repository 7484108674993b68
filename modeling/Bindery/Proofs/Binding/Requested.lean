import Bindery.Proofs.Binding.Exposed
import Bindery.Proofs.Generic.Named

/-! Which fields a class has: those of the struct, without the ignored ones, under the names asked
for. -/

namespace Bindery

open RegistryM (outcome outcome_bind)

/-- The field is the declared one. Its type is the one in the declaration but for the instances and
the names of arguments that it is bound to. -/
structure Field.Declared (d : Decl) (f : Field) : Prop where
  name : f.name = d.name
  location : f.location = d.location
  type : ∃ t, d.classify = .ok t ∧ f.type.unbound = t.unbound ∧
    f.type.functions = (t.owners d).map Decl.use

theorem Field.Bound.declared {source : SourceMap} {d : Decl} {f : Field} (h : f.Bound source d) :
    f.Declared d := by
  obtain ⟨t, r, ht, hrun⟩ := h.type
  have howner : [d].getLast? = some d := rfl
  obtain ⟨-, -, hunbound⟩ :=
    (t.specialize_bound r source (List.cons_ne_nil d [])).1 f.type hrun
  exact ⟨h.name, h.location, t, ht, hunbound, t.functions_of_outcome howner hrun⟩

namespace ClassSpec

variable {spec : ClassSpec}

def keeps (spec : ClassSpec) (d : Decl) : Bool :=
  !spec.ignored.contains d.name

def renameOf (spec : ClassSpec) (name : String) : Option String :=
  (spec.renamed.find? (·.1 == name)).map (·.2)

def report (spec : ClassSpec) (action : String) (names : List String) : List BindError :=
  if names.isEmpty then [] else [.staleField spec.typedefName action names]

/-- The wishes that go unanswered in a struct that has fields of the names: to ignore a field of
another name, and to rename one of another name or one that is ignored. -/
def stale (spec : ClassSpec) (names : List String) : List BindError :=
  spec.report "ignored" (spec.ignored.filter fun n => !names.contains n) ++
    spec.report "renamed" ((spec.renamed.map (·.1)).filter fun n =>
      !(names.contains n && !spec.ignored.contains n))

end ClassSpec

/-- What is left of a group of fields without those that are ignored, if anything is. -/
def FieldGroup.keep (spec : ClassSpec) : FieldGroup → Option FieldGroup
  | .single d => if spec.keeps d then some (.single d) else none
  | .union members =>
    if (members.filter spec.keeps).isEmpty then none
    else some (.union (members.filter spec.keeps))

/-- The field is the declared one, under the new name that is asked for, if one is. -/
structure Field.Requested (spec : ClassSpec) (d : Decl) (f : Field) : Prop where
  declared : f.Declared d
  rename : f.rename = spec.renameOf d.name

inductive FieldSlot.Requested (spec : ClassSpec) : FieldGroup → FieldSlot → Prop where
  | single {d : Decl} {f : Field} (h : f.Requested spec d) : Requested spec (.single d) (.single f)
  | union {ds : List Decl} {fs : List Field}
      (h : List.Forall₂ (fun d f => Field.Requested spec d f) ds fs) :
      Requested spec (.union ds) (.union fs)

theorem FieldGroup.slots_requested {spec : ClassSpec} {g : FieldGroup} {fs : List Field}
    (h : List.Forall₂ (fun d f => Field.Requested spec d f) (g.fields.filter spec.keeps) fs) :
    List.Forall₂ (FieldSlot.Requested spec) (g.keep spec).toList (g.slots fs) := by
  cases g with
  | single d =>
    by_cases hd : spec.keeps d
    · rw [fields, List.filter_cons_of_pos hd] at h
      obtain ⟨f, rest, hf, hrest, rfl⟩ := List.forall₂_cons_left_iff.mp h
      obtain rfl := List.forall₂_nil_left_iff.mp hrest
      rw [keep, if_pos hd]
      exact .cons (.single hf) .nil
    · rw [fields, List.filter_cons_of_neg hd] at h
      obtain rfl := List.forall₂_nil_left_iff.mp h
      rw [keep, if_neg hd]
      exact .nil
  | union members =>
    simp only [fields] at h
    have hempty : fs.isEmpty = (members.filter spec.keeps).isEmpty := by
      rw [Bool.eq_iff_iff, List.isEmpty_iff_length_eq_zero, List.isEmpty_iff_length_eq_zero,
        h.length_eq]
    simp only [slots, keep, hempty]
    split
    · exact .nil
    · exact .cons (.union h) .nil

theorem not_contains_append (names : List String) (name n : String) :
    (!(names ++ [name]).contains n) = (n != name && !names.contains n) := by
  by_cases h : n = name <;> simp [h]

namespace FieldWishes

variable {source : SourceMap} {spec : ClassSpec} {met ds : List Decl} {w w' : FieldWishes}

/-- The wishes that are left when some fields have been met. -/
structure Left (spec : ClassSpec) (met : List Decl) (w : FieldWishes) : Prop where
  ignored : w.ignored = spec.ignored.filter fun n => !(met.map Decl.name).contains n
  renamed : w.renamed = spec.renamed.filter fun p =>
    !((met.filter spec.keeps).map Decl.name).contains p.1

namespace Left

variable {d : Decl}

theorem start (spec : ClassSpec) : Left spec [] ⟨spec.ignored, spec.renamed, []⟩ := by
  constructor <;> simp

theorem mem_ignored (h : Left spec met w) (hd : d.name ∉ met.map Decl.name) :
    d.name ∈ w.ignored ↔ spec.keeps d = false := by
  simp only [h.ignored, ClassSpec.keeps, List.mem_filter, Bool.not_eq_false', Bool.not_eq_true',
    List.contains_eq_mem, decide_eq_false_iff_not, decide_eq_true_eq]
  exact and_iff_left hd

theorem leave (h : Left spec met w) (hi : spec.ignored.Nodup) (hd : spec.keeps d = false) :
    Left spec (met ++ [d]) (w.leave d.name) := by
  constructor
  · have hnodup : w.ignored.Nodup := h.ignored ▸ hi.filter _
    rw [FieldWishes.leave, hnodup.erase_eq_filter, h.ignored, List.filter_filter]
    rw [List.map_append]
    exact List.filter_congr fun n _ => (not_contains_append _ d.name n).symm
  · rw [List.filter_append, List.filter_cons_of_neg (by simp [hd]), List.filter_nil,
      List.append_nil]
    exact h.renamed

theorem take (h : Left spec met w) (hd : spec.keeps d = true) :
    Left spec (met ++ [d]) (w.take d.name) := by
  constructor
  · rw [FieldWishes.take, h.ignored]
    refine List.filter_congr fun n hn => ?_
    have hne : n ≠ d.name := by
      rintro rfl
      simp [ClassSpec.keeps, hn] at hd
    simp [hne]
  · rw [FieldWishes.take, h.renamed, List.filter_append, List.filter_cons_of_pos hd,
      List.filter_nil, List.filter_filter, List.map_append]
    exact List.filter_congr fun p _ => (not_contains_append _ d.name p.1).symm

theorem renameOf (h : Left spec met w) (hd : d.name ∉ met.map Decl.name) :
    w.renameOf d.name = spec.renameOf d.name := by
  have hsub : d.name ∉ (met.filter spec.keeps).map Decl.name := fun hmem =>
    hd ((List.filter_sublist.map Decl.name).subset hmem)
  rw [FieldWishes.renameOf, ClassSpec.renameOf, h.renamed, List.find?_filter]
  congr 2
  funext p
  by_cases hp : p.1 = d.name
  · simpa [hp] using hsub
  · simp [hp]

end Left

theorem nodup_split {d : Decl} (hn : ((met ++ d :: ds).map Decl.name).Nodup) :
    d.name ∉ met.map Decl.name := by
  rw [List.map_append, List.map_cons] at hn
  exact fun hmem => (List.nodup_append.mp hn).2.2 _ hmem _ (.head _) rfl

theorem Walks.requested {fs : List Field} (h : Walks source w ds fs w')
    (hl : Left spec met w) (hi : spec.ignored.Nodup) (hn : ((met ++ ds).map Decl.name).Nodup) :
    Left spec (met ++ ds) w' ∧
      List.Forall₂ (fun d f => Field.Requested spec d f) (ds.filter spec.keeps) fs := by
  -- the fields met before go along: they are what tells the wishes that are left
  induction h generalizing met with
  | nil => exact ⟨by rwa [List.append_nil], .nil⟩
  | @leave _ _ d ds _ asked _ ih =>
    have hd := (hl.mem_ignored (nodup_split hn)).mp asked
    rw [List.append_cons] at hn ⊢
    rw [List.filter_cons_of_neg (by simp [hd])]
    exact ih (hl.leave hi hd) hn
  | @take _ _ d ds f _ kept _ bound rename _ ih =>
    have hnew := nodup_split hn
    have hd : spec.keeps d = true := by
      rwa [hl.mem_ignored hnew, Bool.not_eq_false] at kept
    rw [List.append_cons] at hn ⊢
    rw [List.filter_cons_of_pos hd]
    obtain ⟨hleft, hrest⟩ := ih (hl.take hd) hn
    exact ⟨hleft, .cons ⟨bound.declared, rename.trans (hl.renameOf hnew)⟩ hrest⟩

theorem Fills.requested {gs : List FieldGroup} {slots : List FieldSlot}
    (h : Fills source w gs slots w') (hl : Left spec met w) (hi : spec.ignored.Nodup)
    (hn : ((met ++ gs.flatMap FieldGroup.fields).map Decl.name).Nodup) :
    List.Forall₂ (FieldSlot.Requested spec) (gs.filterMap (FieldGroup.keep spec)) slots := by
  induction h generalizing met with
  | nil => exact .nil
  | @cons _ _ _ g gs fs slots first _ ih =>
    rw [List.flatMap_cons, ← List.append_assoc] at hn
    have hfirst : ((met ++ g.fields).map Decl.name).Nodup := by
      rw [List.map_append] at hn
      exact (List.nodup_append.mp hn).1
    obtain ⟨hleft, hfields⟩ := first.requested hl hi hfirst
    rw [filterMap_cons_toList]
    exact List.rel_append (FieldGroup.slots_requested hfields) (ih hleft hn)

/-- What is left when all fields have been met has gone unanswered. -/
theorem Left.stale (h : Left spec met w) :
    w.stale spec.typedefName = spec.stale (met.map Decl.name) := by
  have hkept : ∀ n, ((met.filter spec.keeps).map Decl.name).contains n =
      ((met.map Decl.name).contains n && !spec.ignored.contains n) := by
    intro n
    rw [Bool.eq_iff_iff]
    simp only [List.contains_iff_mem, List.mem_map, List.mem_filter, ClassSpec.keeps,
      Bool.and_eq_true, Bool.not_eq_true']
    constructor
    · rintro ⟨d, ⟨hd, hkeeps⟩, rfl⟩
      exact ⟨⟨d, hd, rfl⟩, hkeeps⟩
    · rintro ⟨⟨d, hd, rfl⟩, hkeeps⟩
      exact ⟨d, ⟨hd, hkeeps⟩, rfl⟩
  have hrenamed : w.renamed.map (·.1) = (spec.renamed.map (·.1)).filter fun n =>
      !((met.map Decl.name).contains n && !spec.ignored.contains n) := by
    rw [h.renamed, List.filter_map]
    exact congrArg (List.map _) (List.filter_congr fun p _ => congrArg (!·) (hkept p.1))
  rw [FieldWishes.stale, ClassSpec.stale, ← h.ignored, ← hrenamed, ClassSpec.report,
    ClassSpec.report, List.isEmpty_map]

theorem Fills.answers {record : Decl} {slots : List FieldSlot}
    (h : Fills source ⟨spec.ignored, spec.renamed, []⟩ record.fieldGroups slots w)
    (hi : spec.ignored.Nodup) (hn : record.fieldNames.Nodup) :
    List.Forall₂ (FieldSlot.Requested spec)
      (record.fieldGroups.filterMap (FieldGroup.keep spec)) slots ∧
    (slots.flatMap FieldSlot.fields).map (·.name) =
      record.fieldNames.filter (fun n => !spec.ignored.contains n) ∧
    w.stale spec.typedefName = spec.stale record.fieldNames := by
  have hstart := Left.start spec
  have hn' : (([] ++ record.fieldGroups.flatMap FieldGroup.fields).map Decl.name).Nodup := hn
  obtain ⟨hleft, hfields⟩ := h.walks.requested hstart hi hn'
  refine ⟨h.requested hstart hi hn', ?_, hleft.stale⟩
  have hnames : List.Forall₂ (· = ·)
      (((record.fieldGroups.flatMap FieldGroup.fields).filter spec.keeps).map Decl.name)
      ((slots.flatMap FieldSlot.fields).map (·.name)) := by
    rw [List.forall₂_map_left_iff, List.forall₂_map_right_iff]
    exact hfields.imp fun d f hf => hf.declared.name.symm
  rw [List.forall₂_eq_eq_eq] at hnames
  rw [← hnames, Decl.fieldNames, List.filter_map]
  rfl

end FieldWishes

def Class.ofSlots (spec : ClassSpec) (record : Decl) (slots : List FieldSlot) : Class where
  name := spec.typedefName
  structName := if record.name.isEmpty then spec.typedefName else record.name
  slots := slots

theorem Class.outcome_ofRecord (source : SourceMap) (spec : ClassSpec) (policy : StalePolicy)
    (record : Decl) {r r' : Registry} {slots : List FieldSlot} {w : FieldWishes}
    (h : outcome (bindSlots source spec.typedefName ⟨spec.ignored, spec.renamed, []⟩
      record.children) r = (.ok (slots, w), r')) :
    outcome (Class.ofRecord source spec policy record) r =
      (match policy, w.stale spec.typedefName with
        | .deny, e :: _ => .error e
        | _, stale => .ok (Class.ofSlots spec record slots, stale.map BindError.message), r') := by
  rw [Class.ofRecord, outcome_bind, h]
  dsimp only
  cases policy with
  | warn => rfl
  | deny => cases w.stale spec.typedefName <;> rfl

/-- A struct of which the fields differ in their names is bound with those that are not ignored, in
the order and the groups of the struct and under the new names that are asked for. Each kind of wish
that goes unanswered is warned of, or the first one is an error. The names to be ignored are a
set. -/
theorem Class.ofRecord_requested (source : SourceMap) {spec : ClassSpec} {policy : StalePolicy}
    {record : Decl} {r r' : Registry} {cls : Class} {warnings : List String}
    (hi : spec.ignored.Nodup) (hn : record.fieldNames.Nodup)
    (h : (Class.ofRecord source spec policy record).run.run r = (.ok (cls, warnings), r')) :
    List.Forall₂ (FieldSlot.Requested spec)
      (record.fieldGroups.filterMap (FieldGroup.keep spec)) cls.slots ∧
    cls.allFields.map (·.name) = record.fieldNames.filter (fun n => !spec.ignored.contains n) ∧
    warnings = (spec.stale record.fieldNames).map BindError.message ∧
    (policy = .deny → spec.stale record.fieldNames = []) ∧
    ∀ e es, spec.stale record.fieldNames = e :: es →
      (Class.ofRecord source spec .deny record).run.run r = (.error e, r') := by
  have hran : outcome (Class.ofRecord source spec policy record) r = (.ok (cls, warnings), r') := h
  rcases hb : outcome (bindSlots source spec.typedefName ⟨spec.ignored, spec.renamed, []⟩
    record.children) r with ⟨e | ⟨slots, w⟩, r''⟩
  · rw [Class.ofRecord, outcome_bind, hb] at hran
    cases hran
  · obtain ⟨uses, -, -, hfills⟩ := (bindSlots_records source _ _ _).ran hb
    obtain ⟨hslots, hnames, hstale⟩ := (hfills _ rfl).1.answers hi hn
    rw [Class.outcome_ofRecord source spec policy record hb, hstale] at hran
    have hdeny : ∀ e es, spec.stale record.fieldNames = e :: es →
        outcome (Class.ofRecord source spec .deny record) r = (.error e, r'') := by
      intro e es hes
      rw [Class.outcome_ofRecord source spec .deny record hb, hstale, hes]
    cases policy with
    | warn =>
      cases hran
      exact ⟨hslots, hnames, rfl, nofun, hdeny⟩
    | deny =>
      cases hempty : spec.stale record.fieldNames with
      | nil =>
        rw [hempty] at hran hdeny
        cases hran
        exact ⟨hslots, hnames, rfl, fun _ => rfl, hdeny⟩
      | cons e es =>
        rw [hempty] at hran
        cases hran

/-- A struct with a union without a name between its fields. -/
def shapeRecord : Decl :=
  let union := { Decl.bare .union "" .unknown with
    children := [vectorField "radius", vectorField "side"] }
  { Decl.bare .struct "shape" .unknown with
    children := [vectorField "kind", union, vectorField "spare"] }

def shapeSpec : ClassSpec :=
  ⟨"Shape", some "shape", ["side", "spare", "zone"], [("kind", "sort"), ("side", "edge")]⟩

/-- One member of the union stays; there is no field `zone`, and `side` is ignored. -/
theorem shape_requested : shapeSpec.ignored.Nodup ∧ shapeRecord.fieldNames.Nodup ∧
    ∃ cls r, (Class.ofRecord ⟨[]⟩ shapeSpec .warn shapeRecord).run.run {} =
      (.ok (cls, ["stale ignored field(s) in `Shape`: zone",
        "stale renamed field(s) in `Shape`: side"]), r) ∧
      cls.allFields.map (·.name) = ["kind", "radius"] ∧
      List.Forall₂ (FieldSlot.Requested shapeSpec)
        [.single (vectorField "kind"), .union [vectorField "radius"]] cls.slots := by
  have hi : shapeSpec.ignored.Nodup := by decide
  have hn : shapeRecord.fieldNames.Nodup := by decide
  have hsome :
      ((Class.ofRecord ⟨[]⟩ shapeSpec .warn shapeRecord).run.run {}).1.toOption.isSome := by
    decide
  rcases h : (Class.ofRecord ⟨[]⟩ shapeSpec .warn shapeRecord).run.run {} with
    ⟨e | ⟨cls, warnings⟩, r⟩
  · rw [h] at hsome
    cases hsome
  · obtain ⟨hslots, hnames, rfl, -, -⟩ := Class.ofRecord_requested ⟨[]⟩ hi hn h
    exact ⟨hi, hn, cls, r, rfl, hnames, hslots⟩

end Bindery
